/-
# Reasoning about programs over the pool

`poolSpec` says what each call of the pool does to the view of its clients: when it may be made,
and what can follow.  With it a program is proved correct on views (`Program.wp`), and the
theorems at the end carry the result to the real pool.

The specification is the same whether calls may fail or not; its parameter, a `PoolMode`, says in
which views a fetch of an existing page, or `NewPage`, may return a null pointer, and in which
views the program may make these calls at all.  With `Succeeds` as the side condition on the run
no call fails (`exec_succeeds`); without it one can fail where every frame is pinned (the mode
`frames`); and a program that never fetches when every frame is pinned makes no call that fails
(`exec_safe`).
-/
import CourtDB.Buffer.PoolView

namespace CourtDB

/-! ## 1. The specification of the calls -/

namespace View

/-- A page can still be created: some id other than the invalid one is unused. -/
def IdsLeft (v : View) : Prop := ∃ id, id ≠ 0 ∧ id ≠ invalidPageId ∧ v.pages id = none

end View

/-- What a program assumes of the calls that can fail, and what it guarantees when it makes
them. -/
structure PoolMode where
  mayFail : View → Prop
  canFetch : View → Prop
  canNew : View → Prop

namespace PoolMode

/-- The run is known to make no call that fails. -/
def succeeds : PoolMode := ⟨fun _ => False, fun _ => True, fun _ => True⟩

/-- Calls fail when every frame is pinned. -/
def frames : PoolMode := ⟨View.Exhausted, fun _ => True, fun _ => True⟩

/-- The program only makes calls that cannot fail. -/
def safe : PoolMode :=
  ⟨fun _ => False, fun v => ¬ v.Exhausted, fun v => ¬ v.Exhausted ∧ v.IdsLeft⟩

end PoolMode

/-- What the calls do to the view.  Reading a page through a pointer gives it up to the bytes that
serialization owns. -/
def poolSpec (mode : PoolMode) : Program.Spec PoolCall PoolCall.Result View where
  call
    | .fetch id, Q, v =>
      id ≠ 0 ∧ (v.pages id = none → Q false v) ∧
        ((v.pages id).isSome → mode.canFetch v ∧ v.pins id + 1 < 2 ^ 32 ∧ Q true (v.pin id) ∧
          (mode.mayFail v → Q false v))
    | .new, Q, v =>
      mode.canNew v ∧ (∀ id, id ≠ 0 → id ≠ invalidPageId → v.pages id = none → v.pins id = 0 →
        Q (some id) (v.add id)) ∧ (mode.mayFail v → Q none v)
    | .unpin id isDirty, Q, v =>
      (v.pins id = 0 → Q false v) ∧
        (v.pins id ≠ 0 → (v.pins id = 1 → v.changed id = true → isDirty = true) ∧
          Q true (v.unpin id isDirty))
    | .read id, Q, v =>
      0 < v.pins id ∧ ∃ q, v.pages id = some q ∧ ∀ p : Page, p.SameContent q → Q p v
    | .write id p, Q, v =>
      0 < v.pins id ∧ (v.pages id).isSome ∧ p.DirectoryFits ∧ Q () (v.write id p)
    | .flushAll, Q, v => Q () v
  mono {o Q Q' v} hQ h := by
    cases o with
    | fetch id =>
      refine ⟨h.1, fun hn => hQ _ _ (h.2.1 hn), fun hs => ?_⟩
      obtain ⟨hcan, hpin, htrue, hfalse⟩ := h.2.2 hs
      exact ⟨hcan, hpin, hQ _ _ htrue, fun hf => hQ _ _ (hfalse hf)⟩
    | new =>
      exact ⟨h.1, fun id h1 h2 h3 h4 => hQ _ _ (h.2.1 id h1 h2 h3 h4),
        fun hf => hQ _ _ (h.2.2 hf)⟩
    | unpin id isDirty =>
      exact ⟨fun h0 => hQ _ _ (h.1 h0), fun h0 => ⟨(h.2 h0).1, hQ _ _ (h.2 h0).2⟩⟩
    | read id =>
      obtain ⟨hpin, q, hq, hp⟩ := h
      exact ⟨hpin, q, hq, fun p hsame => hQ _ _ (hp p hsame)⟩
    | write id p => exact ⟨h.1, h.2.1, h.2.2.1, hQ _ _ h.2.2.2⟩
    | flushAll => exact hQ _ _ h

namespace PoolM

variable {α : Type} {mode : PoolMode} {v : View}

/-- The views from which the program ends in `Q`. -/
abbrev wp (mode : PoolMode) (m : PoolM α) (Q : α → View → Prop) (v : View) : Prop :=
  Program.wp (poolSpec mode) m Q v

/-! ## 2. Rules for the calls -/

/-- Fetching a page that exists, where a fetch does not fail. -/
theorem wp_fetchPage {id : PageId} {Q : Bool → View → Prop} (h0 : id ≠ 0)
    (hs : (v.pages id).isSome) (hpin : v.pins id + 1 < 2 ^ 32)
    (hcan : mode.canFetch v ∧ ¬ mode.mayFail v) (hQ : Q true (v.pin id)) :
    wp mode (fetchPage id) Q v :=
  ⟨h0, fun hn => absurd (hn ▸ hs) (by simp), fun _ =>
    ⟨hcan.1, hpin, hQ, fun hf => absurd hf hcan.2⟩⟩

/-- Fetching a page that does not exist. -/
theorem wp_fetchPage_none {id : PageId} {Q : Bool → View → Prop} (h0 : id ≠ 0)
    (hn : v.pages id = none) (hQ : Q false v) : wp mode (fetchPage id) Q v :=
  ⟨h0, fun _ => hQ, fun hs => absurd (hn ▸ hs) (by simp)⟩

/-- A new page, where `NewPage` does not fail. -/
theorem wp_newPage {Q : Option PageId → View → Prop}
    (hcan : mode.canNew v ∧ ¬ mode.mayFail v)
    (hQ : ∀ id, id ≠ 0 → id ≠ invalidPageId → v.pages id = none → v.pins id = 0 →
      Q (some id) (v.add id)) : wp mode newPage Q v :=
  ⟨hcan.1, hQ, fun hf => absurd hf hcan.2⟩

/-- Giving a pin back. -/
theorem wp_unpinPage {id : PageId} {isDirty : Bool} {Q : Bool → View → Prop}
    (hpin : v.pins id ≠ 0) (hlast : v.pins id = 1 → v.changed id = true → isDirty = true)
    (hQ : Q true (v.unpin id isDirty)) : wp mode (unpinPage id isDirty) Q v :=
  ⟨fun h0 => absurd h0 hpin, fun _ => ⟨hlast, hQ⟩⟩

theorem wp_readPage {id : PageId} {q : Page} {Q : Page → View → Prop} (hpin : 0 < v.pins id)
    (hq : v.pages id = some q) (hQ : ∀ p : Page, p.SameContent q → Q p v) :
    wp mode (readPage id) Q v := ⟨hpin, q, hq, hQ⟩

theorem wp_writePage {id : PageId} {p : Page} {Q : Unit → View → Prop} (hpin : 0 < v.pins id)
    (hs : (v.pages id).isSome) (hp : p.DirectoryFits) (hQ : Q () (v.write id p)) :
    wp mode (writePage id p) Q v := ⟨hpin, hs, hp, hQ⟩

/-- Two things that hold at the end. -/
theorem wp_and {m : PoolM α} {Q Q' : α → View → Prop} (h : m.wp mode Q v) (h' : m.wp mode Q' v) :
    m.wp mode (fun a v => Q a v ∧ Q' a v) v := by
  refine Program.wp_and (fun o Q Q' v hq hq' => ?_) h h'
  cases o with
  | fetch id =>
    refine ⟨hq.1, fun hn => ⟨hq.2.1 hn, hq'.2.1 hn⟩, fun hs => ?_⟩
    obtain ⟨hcan, hpin, htrue, hfalse⟩ := hq.2.2 hs
    obtain ⟨-, -, htrue', hfalse'⟩ := hq'.2.2 hs
    exact ⟨hcan, hpin, ⟨htrue, htrue'⟩, fun hf => ⟨hfalse hf, hfalse' hf⟩⟩
  | new =>
    exact ⟨hq.1, fun id h0 hne hn hp => ⟨hq.2.1 id h0 hne hn hp, hq'.2.1 id h0 hne hn hp⟩,
      fun hf => ⟨hq.2.2 hf, hq'.2.2 hf⟩⟩
  | unpin id isDirty =>
    exact ⟨fun h0 => ⟨hq.1 h0, hq'.1 h0⟩,
      fun h0 => ⟨(hq.2 h0).1, (hq.2 h0).2, (hq'.2 h0).2⟩⟩
  | read id =>
    obtain ⟨hpos, q, hpage, hread⟩ := hq
    obtain ⟨-, q', hpage', hread'⟩ := hq'
    obtain rfl := Option.some.inj (hpage.symm.trans hpage')
    exact ⟨hpos, q, hpage, fun p hp => ⟨hread p hp, hread' p hp⟩⟩
  | write id p => exact ⟨hq.1, hq.2.1, hq.2.2.1, hq.2.2.2, hq'.2.2.2⟩
  | flushAll => exact ⟨hq, hq'⟩

end PoolM

/-! ## 3. Soundness -/

namespace BufferPoolManager

variable {b : BufferPoolManager} {v : View}

/-- The call is a fetch of an existing page, or a `NewPage`, and returns a null pointer. -/
def Fails (b : BufferPoolManager) : PoolCall → Prop
  | .fetch id => id < b.disk.header.pageCount ∧ (b.fetchPage id).1 = none
  | .new => b.newPageId = none
  | .unpin _ _ | .read _ | .write _ _ | .flushAll => False

/-- The call does not use up the last page id, which is the invalid one. -/
def IdsLeft (b : BufferPoolManager) : PoolCall → Prop
  | .new => b.newPageId ≠ some invalidPageId
  | .fetch _ | .unpin _ _ | .read _ | .write _ _ | .flushAll => True

/-- The call does not fail. -/
def Succeeds (b : BufferPoolManager) (o : PoolCall) : Prop := b.IdsLeft o ∧ ¬ b.Fails o

instance (b : BufferPoolManager) : DecidablePred b.Fails
  | .fetch id =>
    inferInstanceAs (Decidable (id < b.disk.header.pageCount ∧ (b.fetchPage id).1 = none))
  | .new => inferInstanceAs (Decidable (b.newPageId = none))
  | .unpin _ _ | .read _ | .write _ _ | .flushAll => inferInstanceAs (Decidable False)

instance (b : BufferPoolManager) : DecidablePred b.IdsLeft
  | .new => inferInstanceAs (Decidable (b.newPageId ≠ some invalidPageId))
  | .fetch _ | .unpin _ _ | .read _ | .write _ _ | .flushAll => inferInstanceAs (Decidable True)

instance (b : BufferPoolManager) : DecidablePred b.Succeeds :=
  fun _ => inferInstanceAs (Decidable (_ ∧ _))

/-- **The pool does what the specification says.** -/
theorem Shows.handle {mode : PoolMode} (o : PoolCall) {Q : o.Result → View → Prop}
    (h : b.Shows v) (hids : b.IdsLeft o) (hfail : b.Fails o → v.Exhausted → mode.mayFail v)
    (hspec : (poolSpec mode).call o Q v) :
    ∃ v', Q (BufferPoolManager.handle o b).1 v' ∧ (BufferPoolManager.handle o b).2.Shows v' := by
  cases o with
  | fetch id =>
    obtain ⟨h0, hnone, hsome⟩ := hspec
    have hlt : v.pins id + 1 < 2 ^ 32 := by
      cases hp : v.pages id with
      | some q => exact (hsome (by rw [hp]; rfl)).2.1
      | none =>
        -- a page that does not exist is not resident
        cases ht : b.pageTable id with
        | some f =>
          have hs := h.covers id h0 (h.rep.wf.resident_lt id f ht)
          rw [hp] at hs
          exact absurd hs (by simp)
        | none =>
          rw [← h.pins id, pinsOf_of_absent ht]
          decide
    obtain ⟨hnull, hptr⟩ := h.fetchPage h0 hlt
    simp only [BufferPoolManager.handle]
    cases hf : (b.fetchPage id).1 with
    | none =>
      obtain ⟨hshows, hexh⟩ := hnull hf
      refine ⟨v, ?_, hshows⟩
      cases hp : v.pages id with
      | none => exact hnone hp
      | some q =>
        have hs : (v.pages id).isSome := by rw [hp]; rfl
        exact (hsome hs).2.2.2 (hfail ⟨(h.isSome_iff.mp hs).2, hf⟩ (hexh hs))
    | some f =>
      obtain ⟨hs, hshows⟩ := hptr f hf
      exact ⟨v.pin id, (hsome hs).2.2.1, hshows⟩
  | new =>
    obtain ⟨-, hsome, hnone⟩ := hspec
    obtain ⟨hnull, hptr⟩ := h.newPage hids
    simp only [BufferPoolManager.handle]
    cases hf : b.newPageId with
    | none => exact ⟨v, hnone (hfail hf (hnull hf).2), (hnull hf).1⟩
    | some id =>
      obtain ⟨h0, hne, hfresh, hpin, hshows⟩ := hptr id hf
      exact ⟨v.add id, hsome id h0 hne hfresh hpin, hshows⟩
  | unpin id isDirty =>
    obtain ⟨hzero, hpos⟩ := hspec
    obtain ⟨h1, h2⟩ := h.unpinPage id isDirty
    simp only [BufferPoolManager.handle]
    by_cases h0 : v.pins id = 0
    · obtain ⟨hres, hshows⟩ := h1 h0
      exact ⟨v, hres ▸ hzero h0, hshows⟩
    · obtain ⟨hres, hshows⟩ := h2 h0 (hpos h0).1
      exact ⟨v.unpin id isDirty, hres ▸ (hpos h0).2, hshows⟩
  | read id =>
    obtain ⟨hpin, q, hq, hp⟩ := hspec
    exact ⟨v, hp _ (h.residentPage hq hpin), h⟩
  | write id p =>
    obtain ⟨hpin, hs, hp, hQ⟩ := hspec
    exact ⟨v.write id p, hQ, h.setResidentPage hs hpin hp⟩
  | flushAll => exact ⟨v, hspec, h.flushAllPages.1⟩

/-- **A program whose calls succeed** does on the pool what it does on views where no call may
fail. -/
theorem Shows.exec_succeeds {α : Type} {m : PoolM α} {Q : α → View → Prop} (h : b.Shows v)
    (hok : m.CallsOk BufferPoolManager.handle Succeeds b) (hm : m.wp .succeeds Q v) :
    ∃ v', Q (m.exec b).1 v' ∧ (m.exec b).2.Shows v' := by
  refine Program.wp_sound (fun o b v Q hs ho hspec => ?_) h hok hm
  exact hs.handle o ho.1 (fun hf => absurd hf ho.2) hspec

/-- As long as page ids are left, a new page does not get the invalid one. -/
theorem Shows.newPageId_ne (h : b.Shows v) (hv : v.IdsLeft) :
    b.newPageId ≠ some invalidPageId := by
  obtain ⟨id, h0, hne, hunused⟩ := hv
  rcases h.rep.wf.newPageId with hnew | hnew <;> rw [hnew]
  · simp
  · intro he
    -- the pages would be all but the invalid one, and `id` is not among them
    have hcount : b.disk.header.pageCount = 4294967295 := Option.some.inj he
    have hlt : id < b.disk.header.pageCount := by
      rw [hcount, UInt32.lt_iff_toNat_lt]
      have hneq : id.toNat ≠ 4294967295 := fun heq => hne (UInt32.toNat_inj.mp heq)
      have hmax := id.toNat_lt
      exact lt_of_le_of_ne (Nat.le_of_lt_succ hmax) hneq
    have hs := h.covers id h0 hlt
    rw [hunused] at hs
    exact absurd hs (by simp)

/-- A call that a safe program makes does not fail. -/
theorem Shows.succeeds_of_safe (h : b.Shows v) {o : PoolCall} {Q : o.Result → View → Prop}
    (hspec : (poolSpec .safe).call o Q v) : b.Succeeds o := by
  cases o with
  | fetch id =>
    refine ⟨trivial, fun ⟨hlt, hnull⟩ => ?_⟩
    obtain ⟨h0, -, hsome⟩ := hspec
    have hs := h.covers id h0 hlt
    obtain ⟨hcan, hpin, -, -⟩ := hsome hs
    exact hcan (((h.fetchPage h0 hpin).1 hnull).2 hs)
  | new =>
    obtain ⟨⟨hfree, hids⟩, -, -⟩ := hspec
    have hvalid := h.newPageId_ne hids
    exact ⟨hvalid, fun hnull => hfree ((h.newPage hvalid).1 hnull).2⟩
  | unpin id isDirty => exact ⟨trivial, not_false⟩
  | read id => exact ⟨trivial, not_false⟩
  | write id p => exact ⟨trivial, not_false⟩
  | flushAll => exact ⟨trivial, not_false⟩

/-- **A program that makes only safe calls** does on the pool what it does on views, and no
call of the run fails. -/
theorem Shows.exec_safe {α : Type} {m : PoolM α} {Q : α → View → Prop} (h : b.Shows v)
    (hm : m.wp .safe Q v) :
    m.CallsOk BufferPoolManager.handle Succeeds b ∧
      ∃ v', Q (m.exec b).1 v' ∧ (m.exec b).2.Shows v' := by
  have hcall : ∀ (o : PoolCall) (b : BufferPoolManager) (v : View) (Q : o.Result → View → Prop),
      b.Shows v → b.Succeeds o → (poolSpec .safe).call o Q v →
        ∃ v', Q (BufferPoolManager.handle o b).1 v' ∧ (BufferPoolManager.handle o b).2.Shows v' :=
    fun o b v Q hs ho hspec => hs.handle o ho.1 (fun hf => absurd hf ho.2) hspec
  have hok := Program.wp_callsOk (fun _ _ _ _ hs hspec => hs.succeeds_of_safe hspec) hcall h hm
  exact ⟨hok, Program.wp_sound hcall h hok hm⟩

end BufferPoolManager

end CourtDB
