/-
# Pins that are given back

A client that is told of a null pointer at any of its requests has to give back exactly the pins it
took.  `erratic` is the mode of such a client: any request may be refused, whether or not a frame is
left.  The pool under a pattern of refusals is one such world, with its own failures besides
(`Shows.exec_erratic`).

The specification is guarded: `UnpinPage` may only be called for a page that is pinned, by the id in
the page's own header, so that a client that keeps to it makes no `UnpinPage` that fails.  `Holding`
is the account a proof keeps: the pins that the client has taken so far, beside those that were
there before, and the pages that it has changed and not yet given back as dirty.
-/
import CourtDB.Buffer.Refusal

namespace CourtDB

/-! ## 1. Clients that any request may fail -/

/-- Any request may be refused. -/
def PoolMode.erratic : PoolMode := ⟨fun _ => True, fun _ => True, fun _ => True⟩

namespace View

/-- Page `id` has this id in its header. -/
def Named (v : View) (id : PageId) : Prop := ∃ q, v.pages id = some q ∧ q.getPageId = id

/-- A page is unpinned while it is pinned, and by its own id. -/
def MayUnpin (v : View) : PoolCall → Prop
  | .unpin id _ => 0 < v.pins id ∧ v.Named id
  | .fetch _ | .new | .read _ | .write _ _ | .flushAll => True

end View

/-- The views from which a client that is erratically served, and unpins only what is pinned, ends
in `Q`. -/
abbrev PoolM.wpe {α : Type} (m : PoolM α) (Q : α → View → Prop) (v : View) : Prop :=
  Program.wp ((poolSpec .erratic).guard View.MayUnpin) m Q v

namespace BufferPoolManager

variable {b : BufferPoolManager} {v : View} {ps : Refusals}

/-- The call is refused by the pattern, or does not use up the last page id. -/
def RefusedOrIdsLeft (s : Refusals × BufferPoolManager) (o : PoolCall) : Prop :=
  s.1.headD false = true ∨ s.2.IdsLeft o

instance (s : Refusals × BufferPoolManager) : DecidablePred (RefusedOrIdsLeft s) := fun o =>
  inferInstanceAs (Decidable (s.1.headD false = true ∨ s.2.IdsLeft o))

/-- An `UnpinPage` succeeds, and names the page that has this id in its header. -/
def UnpinSucceeds (s : Refusals × BufferPoolManager) : PoolCall → Prop
  | .unpin id isDirty =>
    (s.2.unpinPage id isDirty).1 = true ∧ (s.2.residentPage id).getPageId = id
  | .fetch _ | .new | .read _ | .write _ _ | .flushAll => True

/-- **One call**, refused or not. -/
theorem Shows.handle_erratic (h : b.Shows v) (o : PoolCall) {Q : o.Result → View → Prop}
    (ho : RefusedOrIdsLeft (ps, b) o) (hspec : (poolSpec .erratic).call o Q v) :
    ∃ v', Q (handleRefusing o (ps, b)).1 v' ∧ (handleRefusing o (ps, b)).2.2.Shows v' := by
  have hpool : b.IdsLeft o → ∃ v', Q (BufferPoolManager.handle o b).1 v' ∧
      (BufferPoolManager.handle o b).2.Shows v' :=
    fun hids => h.handle o hids (fun _ _ => trivial) hspec
  cases o with
  | fetch id =>
    by_cases hr : ps.headD false = true
    · rw [handleRefusing, if_pos hr]
      refine ⟨v, ?_, h⟩
      cases hp : v.pages id with
      | none => exact hspec.2.1 hp
      | some q => exact (hspec.2.2 (by rw [hp]; rfl)).2.2.2 trivial
    · rw [handleRefusing, if_neg hr]
      exact hpool (ho.resolve_left hr)
  | new =>
    by_cases hr : ps.headD false = true
    · rw [handleRefusing, if_pos hr]
      exact ⟨v, hspec.2.2 trivial, h⟩
    · rw [handleRefusing, if_neg hr]
      exact hpool (ho.resolve_left hr)
  | unpin id isDirty => exact hpool trivial
  | read id => exact hpool trivial
  | write id p => exact hpool trivial
  | flushAll => exact hpool trivial

/-- What the guard admits succeeds. -/
theorem Shows.unpinSucceeds (h : b.Shows v) {o : PoolCall} (ho : v.MayUnpin o) :
    UnpinSucceeds (ps, b) o := by
  cases o with
  | unpin id isDirty =>
    obtain ⟨hpin, q, hq, hown⟩ := ho
    refine ⟨?_, (congrArg PageHeader.pageId (h.residentPage hq hpin).header).trans hown⟩
    obtain ⟨f, hf, -⟩ := h.resident hpin
    have hne : (b.metadata f).pinCount ≠ 0 := by
      intro h0
      have hpins := h.pins id
      rw [pinsOf_of_table hf, h0] at hpins
      exact absurd hpins (Nat.ne_of_lt hpin)
    simp only [BufferPoolManager.unpinPage, hf, if_neg hne]
  | fetch id => trivial
  | new => trivial
  | read id => trivial
  | write id p => trivial
  | flushAll => trivial

/-- **Under a pattern of refusals** an erratically served client makes no `UnpinPage` that fails,
and does on the pool what it does on views. -/
theorem Shows.exec_erratic {α : Type} {m : PoolM α} {Q : α → View → Prop} (h : b.Shows v)
    (hok : m.CallsOk handleRefusing RefusedOrIdsLeft (ps, b)) (hm : m.wpe Q v) :
    m.CallsOk handleRefusing UnpinSucceeds (ps, b) ∧
      ∃ v', Q (m.run handleRefusing (ps, b)).1 v' ∧
        (m.run handleRefusing (ps, b)).2.2.Shows v' := by
  let Under : Refusals × BufferPoolManager → View → Prop := fun s v => s.2.Shows v
  have hstart : Under (ps, b) v := h
  refine Program.wp_guard_sound (fun o s v Q hs ho hspec => ?_) (fun o s v hs hmay => ?_) hstart
    hok hm
  · exact @Shows.handle_erratic s.2 v s.1 hs o Q ho hspec
  · exact @Shows.unpinSucceeds s.2 v s.1 hs o hmay

/-- A page with a change that was not declared is pinned. -/
theorem Shows.pinned_of_changed (h : b.Shows v) {id : PageId} (hc : v.changed id = true) :
    v.pins id ≠ 0 := by
  obtain ⟨f, hf, hlru⟩ := h.rep.pinned id hc
  rcases h.available f (h.rep.wf.frame_lt id f hf) with (hfree | hmem) | ⟨id', hf', hpin⟩
  · exact absurd hf (h.rep.wf.not_resident (h.rep.wf.free_lt f hfree).2 id)
  · exact absurd hmem hlru
  · rw [h.rep.wf.frame_inj hf hf']
    exact Nat.ne_of_gt hpin

end BufferPoolManager

/-! ## 2. The account -/

/-- The client has taken the pins `held` beside those of `base`; whatever is changed was pinned
before, or is in `dirt`. -/
structure Holding (base : PageId → Nat) (held dirt : List PageId) (v : View) : Prop where
  pins : ∀ id, v.pins id = base id + held.count id
  clean : ∀ id, v.changed id = true → base id ≠ 0 ∨ id ∈ dirt

namespace Holding

variable {base : PageId → Nat} {held dirt dirt' : List PageId} {v : View} {id : PageId}

theorem start {b : BufferPoolManager} (h : b.Shows v) : Holding v.pins [] [] v :=
  ⟨fun _ => rfl, fun _ hc => Or.inl (h.pinned_of_changed hc)⟩

variable (h : Holding base held dirt v)

include h

theorem mono (hsub : dirt ⊆ dirt') : Holding base held dirt' v :=
  ⟨h.pins, fun id hc => (h.clean id hc).imp_right fun hd => hsub hd⟩

theorem pos (hid : id ∈ held) : 0 < v.pins id := by
  rw [h.pins id]
  exact Nat.add_pos_right _ (List.count_pos_iff.mpr hid)

theorem pin (id : PageId) : Holding base (id :: held) dirt (v.pin id) := by
  refine ⟨fun x => ?_, h.clean⟩
  change Function.update v.pins id (v.pins id + 1) x = _
  by_cases hx : x = id
  · rw [hx, List.count_cons_self, Function.update_self, h.pins id, Nat.add_assoc]
  · rw [List.count_cons_of_ne (Ne.symm hx), Function.update_of_ne hx, h.pins x]

/-- A new page was pinned by nobody. -/
theorem add (hid : v.pins id = 0) : Holding base (id :: held) dirt (v.add id) := by
  refine ⟨fun x => ?_, h.clean⟩
  change Function.update v.pins id 1 x = _
  by_cases hx : x = id
  · have hzero := h.pins id
    rw [hx, List.count_cons_self, Function.update_self]
    omega
  · rw [List.count_cons_of_ne (Ne.symm hx), Function.update_of_ne hx, h.pins x]

theorem write (hid : id ∈ dirt) (p : Page) : Holding base held dirt (v.write id p) := by
  refine ⟨h.pins, fun x hc => ?_⟩
  change Function.update v.changed id true x = true at hc
  by_cases hx : x = id
  · exact Or.inr (hx ▸ hid)
  · rw [Function.update_of_ne hx] at hc
    exact h.clean x hc

theorem perm {held' : List PageId} (hp : held.Perm held') : Holding base held' dirt v :=
  ⟨fun id => (h.pins id).trans (congrArg _ (hp.count_eq id)), h.clean⟩

end Holding

namespace Holding

variable {base : PageId → Nat} {held dirt dirt' : List PageId} {v : View} {id : PageId}
  (h : Holding base (id :: held) dirt v)

include h

theorem pins_unpin (d : Bool) (x : PageId) : (v.unpin id d).pins x = base x + held.count x := by
  change Function.update v.pins id (v.pins id - 1) x = _
  have hpins := h.pins x
  by_cases hx : x = id
  · rw [hx, List.count_cons_self] at hpins
    rw [hx, Function.update_self]
    omega
  · rw [List.count_cons_of_ne (Ne.symm hx)] at hpins
    rw [Function.update_of_ne hx, hpins]

theorem unpin_dirty (hdirt : dirt ⊆ id :: dirt') : Holding base held dirt' (v.unpin id true) := by
  refine ⟨h.pins_unpin true, fun x hc => ?_⟩
  change Function.update v.changed id false x = true at hc
  have hx : x ≠ id := by
    rintro rfl
    rw [Function.update_self] at hc
    exact absurd hc Bool.false_ne_true
  rw [Function.update_of_ne hx] at hc
  exact (h.clean x hc).imp_right fun hd => List.mem_of_ne_of_mem hx (hdirt hd)

theorem unpin_clean : Holding base held dirt (v.unpin id false) := ⟨h.pins_unpin false, h.clean⟩

end Holding

/-! ## 3. Rules for the calls -/

namespace PoolM

variable {base : PageId → Nat} {held dirt dirt' : List PageId} {v : View} {id : PageId}

theorem wpe_fetchPage {Q : Bool → View → Prop} (h : Holding base held dirt v) (h0 : id ≠ 0)
    (hs : (v.pages id).isSome) (hroom : base id + held.count id + 1 < 2 ^ 32) (hnull : Q false v)
    (hQ : Holding base (id :: held) dirt (v.pin id) → Q true (v.pin id)) :
    wpe (fetchPage id) Q v := by
  refine ⟨trivial, h0, fun hn => absurd (hn ▸ hs) (by simp), fun _ => ⟨trivial, ?_, hQ (h.pin id),
    fun _ => hnull⟩⟩
  rw [h.pins id]
  exact hroom

theorem wpe_newPage {Q : Option PageId → View → Prop} (h : Holding base held dirt v)
    (hnull : Q none v)
    (hQ : ∀ id, id ≠ 0 → id ≠ invalidPageId → v.pages id = none → id ∉ held →
      Holding base (id :: held) dirt (v.add id) → Q (some id) (v.add id)) :
    wpe newPage Q v := by
  refine ⟨trivial, trivial, fun id h0 hne hfresh hpin => hQ id h0 hne hfresh (fun hid => ?_)
    (h.add hpin), fun _ => hnull⟩
  exact absurd hpin (Nat.ne_of_gt (h.pos hid))

/-- Giving back a page that may have been changed. -/
theorem wpe_unpinDirty {Q : Bool → View → Prop} (h : Holding base (id :: held) (id :: dirt) v)
    (hnamed : v.Named id)
    (hQ : Holding base held dirt (v.unpin id true) → Q true (v.unpin id true)) :
    wpe (unpinPage id true) Q v := by
  have hpos : 0 < v.pins id := h.pos List.mem_cons_self
  refine ⟨⟨hpos, hnamed⟩, fun h0 => absurd h0 (Nat.ne_of_gt hpos), fun _ => ⟨fun _ _ => rfl, ?_⟩⟩
  exact hQ (h.unpin_dirty (List.Subset.refl _))

/-- Giving back a page that was not changed. -/
theorem wpe_unpinClean {Q : Bool → View → Prop} (h : Holding base (id :: held) dirt v)
    (hnamed : v.Named id) (hid : id ∉ dirt)
    (hQ : Holding base held dirt (v.unpin id false) → Q true (v.unpin id false)) :
    wpe (unpinPage id false) Q v := by
  have hpos : 0 < v.pins id := h.pos List.mem_cons_self
  refine ⟨⟨hpos, hnamed⟩, fun h0 => absurd h0 (Nat.ne_of_gt hpos), fun _ => ⟨fun h1 hc => ?_, ?_⟩⟩
  · -- somebody else changed it, so it is not the last pin
    have hpins := h.pins id
    have hbase := (h.clean id hc).resolve_right hid
    rw [List.count_cons_self] at hpins
    omega
  · exact hQ h.unpin_clean

theorem wpe_readPage {q : Page} {Q : Page → View → Prop} (h : Holding base held dirt v)
    (hid : id ∈ held) (hq : v.pages id = some q) (hQ : ∀ p : Page, p.SameContent q → Q p v) :
    wpe (readPage id) Q v := ⟨trivial, h.pos hid, q, hq, hQ⟩

theorem wpe_writePage {p : Page} {Q : Unit → View → Prop} (h : Holding base held dirt v)
    (hid : id ∈ held) (hs : (v.pages id).isSome) (hp : p.DirectoryFits) (hd : id ∈ dirt)
    (hQ : Holding base held dirt (v.write id p) → Q () (v.write id p)) :
    wpe (writePage id p) Q v :=
  ⟨trivial, h.pos hid, hs, hp, hQ (h.write hd p)⟩

end PoolM

end CourtDB
