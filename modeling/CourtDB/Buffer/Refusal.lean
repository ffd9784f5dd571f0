/-
# Clients whose requests are refused

When `FindFreeFrame` finds nothing, because every frame is pinned by whomever, `NewPage` and the
`FetchPage` of a page that is not resident return a null pointer and leave the pool as it is.  A
client cannot tell when this happens.  So its runs are considered under every pattern of `refusals`,
one for each of the two calls in the order in which it makes them; past the end of the pattern
nothing is refused (`handleRefusing_nil`).

`refusingSpec` is `poolSpec` under such a pattern.  What a program does without refusals
(`wp_of_refusing`) and what it does under a pattern on the real pool (`Shows.exec_refusing`) both
follow from it.

A mode `Allows` a client to make its calls when it succeeds in every view with few pages.  The
bound is on the pages that exist, because no more can be pinned.
-/
import CourtDB.Buffer.PoolLogic
import Mathlib.Data.List.Perm.Subperm

namespace CourtDB

/-- For each fetch and each request for a new page, is it refused? -/
abbrev Refusals := List Bool

/-- None of the next `k` requests is refused. -/
def Refusals.Grants (ps : Refusals) (k : Nat) : Prop := ∀ b ∈ ps.take k, b = false

instance (ps : Refusals) (k : Nat) : Decidable (ps.Grants k) :=
  inferInstanceAs (Decidable (∀ b ∈ ps.take k, b = false))

@[simp] theorem Refusals.grants_zero (ps : Refusals) : ps.Grants 0 := by simp [Grants]

@[simp] theorem Refusals.grants_nil (k : Nat) : Refusals.Grants [] k := by simp [Grants]

/-- The first request is granted, and those after it. -/
theorem Refusals.grants_succ (ps : Refusals) (k : Nat) :
    ps.Grants (k + 1) ↔ ps.headD false = false ∧ Refusals.Grants ps.tail k := by
  cases ps with
  | nil => simp
  | cons b ps => simp [Grants]

/-! ## 1. Runs under a pattern of refusals -/

namespace BufferPoolManager

variable {b : BufferPoolManager}

/-- The pool answers a call, if it is not refused. -/
def handleRefusing : (o : PoolCall) → Refusals × BufferPoolManager →
    o.Result × (Refusals × BufferPoolManager)
  | .fetch id, (ps, b) =>
    if ps.headD false then (false, (ps.tail, b))
    else ((handle (.fetch id) b).1, (ps.tail, (handle (.fetch id) b).2))
  | .new, (ps, b) =>
    if ps.headD false then (none, (ps.tail, b))
    else ((handle .new b).1, (ps.tail, (handle .new b).2))
  | .unpin id isDirty, (ps, b) => ((b.unpinPage id isDirty).1, (ps, (b.unpinPage id isDirty).2))
  | .read id, (ps, b) => (b.residentPage id, (ps, b))
  | .write id p, (ps, b) => ((), (ps, b.setResidentPage id p))
  | .flushAll, (ps, b) => ((), (ps, b.flushAllPages))

/-- Where nothing is refused, the pool answers. -/
theorem handleRefusing_nil (o : PoolCall) (b : BufferPoolManager) :
    handleRefusing o ([], b) = ((handle o b).1, [], (handle o b).2) := by
  cases o <;> rfl

/-- The call is refused by the pattern, or else succeeds. -/
def RefusedOrSucceeds (s : Refusals × BufferPoolManager) (o : PoolCall) : Prop :=
  s.1.headD false = true ∨ s.2.Succeeds o

instance (s : Refusals × BufferPoolManager) : DecidablePred (RefusedOrSucceeds s) := fun o =>
  inferInstanceAs (Decidable (s.1.headD false = true ∨ s.2.Succeeds o))

end BufferPoolManager

/-- What the calls do to the pattern and the view. -/
def refusingSpec (mode : PoolMode) :
    Program.Spec PoolCall PoolCall.Result (Refusals × View) where
  call
    | .fetch id, Q, (ps, v) =>
      (ps.headD false = true → Q false (ps.tail, v)) ∧
        (ps.headD false = false →
          (poolSpec mode).call (.fetch id) (fun r v => Q r (ps.tail, v)) v)
    | .new, Q, (ps, v) =>
      (ps.headD false = true → Q none (ps.tail, v)) ∧
        (ps.headD false = false → (poolSpec mode).call .new (fun r v => Q r (ps.tail, v)) v)
    | .unpin id isDirty, Q, (ps, v) =>
      (poolSpec mode).call (.unpin id isDirty) (fun r v => Q r (ps, v)) v
    | .read id, Q, (ps, v) => (poolSpec mode).call (.read id) (fun r v => Q r (ps, v)) v
    | .write id p, Q, (ps, v) => (poolSpec mode).call (.write id p) (fun r v => Q r (ps, v)) v
    | .flushAll, Q, (ps, v) => (poolSpec mode).call .flushAll (fun r v => Q r (ps, v)) v
  mono {o Q Q' s} hQ h := by
    obtain ⟨ps, v⟩ := s
    cases o with
    | fetch id =>
      exact ⟨fun hr => hQ _ _ (h.1 hr), fun hr => (poolSpec mode).mono (fun _ _ => hQ _ _) (h.2 hr)⟩
    | new =>
      exact ⟨fun hr => hQ _ _ (h.1 hr), fun hr => (poolSpec mode).mono (fun _ _ => hQ _ _) (h.2 hr)⟩
    | unpin id isDirty => exact (poolSpec mode).mono (fun _ _ => hQ _ _) h
    | read id => exact (poolSpec mode).mono (fun _ _ => hQ _ _) h
    | write id p => exact (poolSpec mode).mono (fun _ _ => hQ _ _) h
    | flushAll => exact (poolSpec mode).mono (fun _ _ => hQ _ _) h

/-- The patterns and views from which the program ends in `Q`. -/
abbrev PoolM.wpr {α : Type} (mode : PoolMode) (m : PoolM α) (Q : α → Refusals × View → Prop)
    (s : Refusals × View) : Prop := Program.wp (refusingSpec mode) m Q s

/-! ## 2. What follows for the pool -/

/-- **Without refusals** a program does what it does on views. -/
theorem PoolM.wp_of_refusing {α : Type} {mode : PoolMode} {m : PoolM α} {Q : α → View → Prop}
    {v : View} (h : m.wpr mode (fun a s => Q a s.2) ([], v)) : m.wp mode Q v := by
  induction m generalizing v with
  | pure a => exact h
  | call o k ih =>
    have hstep : (poolSpec mode).call o
        (fun r v => PoolM.wpr mode (k r) (fun a s => Q a s.2) ([], v)) v := by
      cases o with
      | fetch id => exact h.2 rfl
      | new => exact h.2 rfl
      | unpin id isDirty => exact h
      | read id => exact h
      | write id p => exact h
      | flushAll => exact h
    exact (poolSpec mode).mono (fun r v => ih r) hstep

namespace BufferPoolManager

/-- The pool under a pattern of refusals shows a view under the same pattern. -/
def ShowsUnder (s : Refusals × BufferPoolManager) (t : Refusals × View) : Prop :=
  s.1 = t.1 ∧ s.2.Shows t.2

/-- **One call** that is refused, or else succeeds. -/
theorem ShowsUnder.handle {mode : PoolMode} (o : PoolCall)
    {s : Refusals × BufferPoolManager} {t : Refusals × View} {Q : o.Result → Refusals × View → Prop}
    (hs : ShowsUnder s t) (ho : RefusedOrSucceeds s o) (hspec : (refusingSpec mode).call o Q t) :
    ∃ t', Q (handleRefusing o s).1 t' ∧ ShowsUnder (handleRefusing o s).2 t' := by
  obtain ⟨ps, b⟩ := s
  obtain ⟨ps', v⟩ := t
  obtain ⟨rfl, hs⟩ : ps = ps' ∧ b.Shows v := hs
  -- a call that is not refused succeeds, and goes to the pool
  have hpool : ∀ {Q : o.Result → View → Prop}, b.Succeeds o → (poolSpec mode).call o Q v →
      ∃ v', Q (BufferPoolManager.handle o b).1 v' ∧ (BufferPoolManager.handle o b).2.Shows v' :=
    fun hsucc hcall => hs.handle o hsucc.1 (fun hf => absurd hf hsucc.2) hcall
  cases o with
  | fetch id =>
    by_cases hr : ps.headD false = true
    · rw [handleRefusing, if_pos hr]
      exact ⟨(ps.tail, v), hspec.1 hr, rfl, hs⟩
    · rw [handleRefusing, if_neg hr]
      obtain ⟨v', hQ, hs'⟩ := @hpool (fun r v => Q r (ps.tail, v)) (ho.resolve_left hr)
        (hspec.2 (Bool.not_eq_true _ ▸ hr))
      exact ⟨(ps.tail, v'), hQ, rfl, hs'⟩
  | new =>
    by_cases hr : ps.headD false = true
    · rw [handleRefusing, if_pos hr]
      exact ⟨(ps.tail, v), hspec.1 hr, rfl, hs⟩
    · rw [handleRefusing, if_neg hr]
      obtain ⟨v', hQ, hs'⟩ := @hpool (fun r v => Q r (ps.tail, v)) (ho.resolve_left hr)
        (hspec.2 (Bool.not_eq_true _ ▸ hr))
      exact ⟨(ps.tail, v'), hQ, rfl, hs'⟩
  | unpin id isDirty =>
    obtain ⟨v', hQ, hs'⟩ := @hpool (fun r v => Q r (ps, v)) ⟨trivial, not_false⟩ hspec
    exact ⟨(ps, v'), hQ, rfl, hs'⟩
  | read id =>
    obtain ⟨v', hQ, hs'⟩ := @hpool (fun r v => Q r (ps, v)) ⟨trivial, not_false⟩ hspec
    exact ⟨(ps, v'), hQ, rfl, hs'⟩
  | write id p =>
    obtain ⟨v', hQ, hs'⟩ := @hpool (fun r v => Q r (ps, v)) ⟨trivial, not_false⟩ hspec
    exact ⟨(ps, v'), hQ, rfl, hs'⟩
  | flushAll =>
    obtain ⟨v', hQ, hs'⟩ := @hpool (fun r v => Q r (ps, v)) ⟨trivial, not_false⟩ hspec
    exact ⟨(ps, v'), hQ, rfl, hs'⟩

variable {α : Type} {m : PoolM α} {Q : α → Refusals × View → Prop} {b : BufferPoolManager}
  {v : View} {ps : Refusals}

/-- Where the pool ends under a pattern. -/
theorem ShowsUnder.result {s : Refusals × BufferPoolManager} {a : α}
    (h : ∃ t, Q a t ∧ ShowsUnder s t) : ∃ v', Q a (s.1, v') ∧ s.2.Shows v' := by
  obtain ⟨⟨ps', v'⟩, hQ, hps, hshows⟩ := h
  have hps' : s.1 = ps' := hps
  exact ⟨v', hps' ▸ hQ, hshows⟩

/-- **Under a pattern of refusals** a program whose other calls succeed does on the pool what it
does on views. -/
theorem Shows.exec_refusing (h : b.Shows v)
    (hok : m.CallsOk handleRefusing RefusedOrSucceeds (ps, b)) (hm : m.wpr .succeeds Q (ps, v)) :
    ∃ v', Q (m.run handleRefusing (ps, b)).1 ((m.run handleRefusing (ps, b)).2.1, v') ∧
      (m.run handleRefusing (ps, b)).2.2.Shows v' := by
  refine ShowsUnder.result (Program.wp_sound (fun o _ _ _ hs ho hspec => ?_)
    (⟨rfl, h⟩ : ShowsUnder (ps, b) (ps, v)) hok hm)
  exact hs.handle o ho hspec

/-- **A program that runs safely** but for the refusals makes no other call that fails. -/
theorem Shows.exec_refusing_safe (h : b.Shows v) (hm : m.wpr .safe Q (ps, v)) :
    m.CallsOk handleRefusing RefusedOrSucceeds (ps, b) ∧
      ∃ v', Q (m.run handleRefusing (ps, b)).1 ((m.run handleRefusing (ps, b)).2.1, v') ∧
        (m.run handleRefusing (ps, b)).2.2.Shows v' := by
  have hstart : ShowsUnder (ps, b) (ps, v) := ⟨rfl, h⟩
  have hcall : ∀ (o : PoolCall) (s : Refusals × BufferPoolManager) (t : Refusals × View)
      (Q : o.Result → Refusals × View → Prop), ShowsUnder s t → RefusedOrSucceeds s o →
        (refusingSpec .safe).call o Q t →
          ∃ t', Q (handleRefusing o s).1 t' ∧ ShowsUnder (handleRefusing o s).2 t' :=
    fun o _ _ _ hs ho hspec => hs.handle o ho hspec
  have hok : m.CallsOk handleRefusing RefusedOrSucceeds (ps, b) := by
    refine Program.wp_callsOk (fun o s t Q hs hspec => ?_) hcall hstart hm
    obtain ⟨ps, b⟩ := s
    obtain ⟨ps', v⟩ := t
    obtain ⟨rfl, hs⟩ : ps = ps' ∧ b.Shows v := hs
    cases o with
    | fetch id =>
      by_cases hr : ps.headD false = true
      · exact Or.inl hr
      · exact Or.inr (hs.succeeds_of_safe (hspec.2 (Bool.not_eq_true _ ▸ hr)))
    | new =>
      by_cases hr : ps.headD false = true
      · exact Or.inl hr
      · exact Or.inr (hs.succeeds_of_safe (hspec.2 (Bool.not_eq_true _ ▸ hr)))
    | unpin id isDirty => exact Or.inr ⟨trivial, not_false⟩
    | read id => exact Or.inr ⟨trivial, not_false⟩
    | write id p => exact Or.inr ⟨trivial, not_false⟩
    | flushAll => exact Or.inr ⟨trivial, not_false⟩
  exact ⟨hok, ShowsUnder.result (Program.wp_sound hcall hstart hok hm)⟩

end BufferPoolManager

/-! ## 3. Views with few pages -/

namespace View

variable {v v' : View} {n p p' : Nat} {id : PageId}

/-- Giving back a page that was just fetched. -/
@[simp] theorem pin_unpin (v : View) (id : PageId) : (v.pin id).unpin id false = v := by
  simp [pin, unpin]

/-- There are at most `p` pages, and no others are pinned. -/
def Within (v : View) (p : Nat) : Prop :=
  ∃ ids : List PageId, ids.length ≤ p ∧ ∀ id, id ∉ ids → v.pages id = none ∧ v.pins id = 0

theorem Within.mono (h : v.Within p) (hp : p ≤ p') : v.Within p' := by
  obtain ⟨ids, hlen, hids⟩ := h
  exact ⟨ids, hlen.trans hp, hids⟩

/-- No page appears and no pin is added. -/
theorem Within.of_subset (h : v.Within p) (hpages : ∀ id, v.pages id = none → v'.pages id = none)
    (hpins : ∀ id, v.pins id = 0 → v'.pins id = 0) : v'.Within p := by
  obtain ⟨ids, hlen, hids⟩ := h
  exact ⟨ids, hlen, fun id hid => ⟨hpages id (hids id hid).1, hpins id (hids id hid).2⟩⟩

/-- A pin needs no further page. -/
theorem Within.pin (h : v.Within p) (hs : (v.pages id).isSome) : (v.pin id).Within p := by
  obtain ⟨ids, hlen, hids⟩ := h
  refine ⟨ids, hlen, fun i hi => ⟨(hids i hi).1, ?_⟩⟩
  have hne : i ≠ id := by
    rintro rfl
    rw [(hids i hi).1] at hs
    exact absurd hs (by simp)
  exact (Function.update_of_ne hne _ _).trans (hids i hi).2

theorem Within.unpin (h : v.Within p) (d : Bool) : (v.unpin id d).Within p := by
  refine h.of_subset (fun x hx => hx) fun x hx => ?_
  by_cases hxid : x = id
  · subst hxid
    simp [View.unpin, hx]
  · exact (Function.update_of_ne hxid _ _).trans hx

/-- A page that exists is changed. -/
theorem Within.write (h : v.Within p) (hs : (v.pages id).isSome) (q : Page) :
    (v.write id q).Within p := by
  refine h.of_subset (fun x hx => ?_) fun x hx => hx
  have hne : x ≠ id := by
    rintro rfl
    rw [hx] at hs
    exact absurd hs (by simp)
  exact (Function.update_of_ne hne _ _).trans hx

/-- A new page is one more. -/
theorem Within.add (h : v.Within p) : (v.add id).Within (p + 1) := by
  obtain ⟨ids, hlen, hids⟩ := h
  refine ⟨id :: ids, Nat.succ_le_succ hlen, fun i hi => ?_⟩
  obtain ⟨hne, hi⟩ := not_or.mp (mt List.mem_cons.mpr hi)
  exact ⟨(Function.update_of_ne hne _ _).trans (hids i hi).1,
    (Function.update_of_ne hne _ _).trans (hids i hi).2⟩

/-- Every view has finitely many pages. -/
theorem exists_within (v : View) : ∃ p, v.Within p :=
  ⟨_, (List.range (2 ^ 32)).map UInt32.ofNat, Nat.le_refl _, fun id hid =>
    absurd (List.mem_map.mpr ⟨id.toNat, List.mem_range.mpr id.toNat_lt, UInt32.ofNat_toNat⟩) hid⟩

/-- With more frames than pages some frame is free. -/
theorem Within.not_exhausted (h : v.Within p) (hp : p < v.frames) : ¬ v.Exhausted := by
  obtain ⟨ids, hlen, hids⟩ := h
  rintro ⟨pinned, hnd, hframes, hpos⟩
  have hsub : pinned ⊆ ids := by
    intro id hid
    by_contra hno
    exact absurd (hids id hno).2 (Nat.pos_iff_ne_zero.mp (hpos id hid))
  have hle := (List.subperm_of_subset hnd hsub).length_le
  omega

/-- With few pages some page id is left. -/
theorem Within.idsLeft (h : v.Within p) (hp : p + 2 < 2 ^ 32) : v.IdsLeft := by
  obtain ⟨ids, hlen, hids⟩ := h
  by_contra hnone
  have hall : (List.range (2 ^ 32)).map UInt32.ofNat ⊆ 0 :: invalidPageId :: ids := by
    intro id _
    by_contra hno
    obtain ⟨h0, hno⟩ := not_or.mp (mt List.mem_cons.mpr hno)
    obtain ⟨hne, hno⟩ := not_or.mp (mt List.mem_cons.mpr hno)
    exact hnone ⟨id, h0, hne, (hids id hno).1⟩
  have hnodup : ((List.range (2 ^ 32)).map UInt32.ofNat).Nodup := by
    refine List.Nodup.map_on (fun i hi j hj he => ?_) List.nodup_range
    have he' := congrArg UInt32.toNat he
    rwa [UInt32.toNat_ofNat_of_lt' (List.mem_range.mp hi),
      UInt32.toNat_ofNat_of_lt' (List.mem_range.mp hj)] at he'
  have hle := (List.subperm_of_subset hnodup hall).length_le
  rw [List.length_map, List.length_range, List.length_cons, List.length_cons] at hle
  omega

end View

/-- Calls are allowed, and succeed, as long as there are at most `p` pages. -/
def PoolMode.Allows (mode : PoolMode) (n p : Nat) : Prop :=
  ∀ v : View, v.frames = n → v.Within p →
    mode.canFetch v ∧ mode.canNew v ∧ ¬ mode.mayFail v

/-- A pool whose calls succeed serves any number of pages. -/
theorem PoolMode.allows_succeeds {n p : Nat} : succeeds.Allows n p :=
  fun _ _ _ => ⟨trivial, trivial, not_false⟩

/-- A pool with more frames than pages serves them. -/
theorem PoolMode.allows_safe {n p : Nat} (hn : p < n) (hids : p + 2 < 2 ^ 32) :
    safe.Allows n p := by
  intro v hv hw
  have hfree := hw.not_exhausted (hv ▸ hn)
  exact ⟨hfree, ⟨hfree, hw.idsLeft hids⟩, not_false⟩

theorem PoolMode.Allows.mono {mode : PoolMode} {n p p' : Nat} (h : mode.Allows n p)
    (hp : p' ≤ p) : mode.Allows n p' := fun v hv hw => h v hv (hw.mono hp)

/-! ## 4. Rules for the calls -/

namespace PoolM

variable {α : Type} {mode : PoolMode} {ps : Refusals} {v : View} {n p : Nat} {id : PageId}

/-- A fetch is refused, or pins its page. -/
theorem wpr_fetchPage {Q : Bool → Refusals × View → Prop} (hmode : mode.Allows n p)
    (hv : v.frames = n) (hw : v.Within p) (h0 : id ≠ 0) (hs : (v.pages id).isSome)
    (hpin : v.pins id ≤ 1)
    (hrefused : ps.headD false = true → Q false (ps.tail, v))
    (hQ : ps.headD false = false → Q true (ps.tail, v.pin id)) :
    wpr mode (fetchPage id) Q (ps, v) := by
  obtain ⟨hcan, -, hfail⟩ := hmode v hv hw
  refine ⟨hrefused, fun hr => ⟨h0, fun hn => absurd (hn ▸ hs) (by simp), fun _ => ?_⟩⟩
  exact ⟨hcan, by omega, hQ hr, fun hf => absurd hf hfail⟩

/-- A new page is refused, or comes pinned with a fresh id. -/
theorem wpr_newPage {Q : Option PageId → Refusals × View → Prop} (hmode : mode.Allows n p)
    (hv : v.frames = n) (hw : v.Within p)
    (hrefused : ps.headD false = true → Q none (ps.tail, v))
    (hQ : ps.headD false = false → ∀ id, id ≠ 0 → id ≠ invalidPageId → v.pages id = none →
      v.pins id = 0 → Q (some id) (ps.tail, v.add id)) :
    wpr mode newPage Q (ps, v) := by
  obtain ⟨-, hcan, hfail⟩ := hmode v hv hw
  exact ⟨hrefused, fun hr => ⟨hcan, hQ hr, fun hf => absurd hf hfail⟩⟩

/-- The last unpin of a changed page must say that it is dirty. -/
theorem wpr_unpinPage {isDirty : Bool} {Q : Bool → Refusals × View → Prop}
    (hpin : v.pins id ≠ 0) (hlast : v.pins id = 1 → v.changed id = true → isDirty = true)
    (hQ : Q true (ps, v.unpin id isDirty)) : wpr mode (unpinPage id isDirty) Q (ps, v) :=
  ⟨fun h0 => absurd h0 hpin, fun _ => ⟨hlast, hQ⟩⟩

theorem wpr_readPage {q : Page} {Q : Page → Refusals × View → Prop} (hpin : 0 < v.pins id)
    (hq : v.pages id = some q) (hQ : ∀ p : Page, p.SameContent q → Q p (ps, v)) :
    wpr mode (readPage id) Q (ps, v) := ⟨hpin, q, hq, hQ⟩

theorem wpr_writePage {p : Page} {Q : Unit → Refusals × View → Prop} (hpin : 0 < v.pins id)
    (hs : (v.pages id).isSome) (hp : p.DirectoryFits) (hQ : Q () (ps, v.write id p)) :
    wpr mode (writePage id p) Q (ps, v) := ⟨hpin, hs, hp, hQ⟩

end PoolM

end CourtDB
