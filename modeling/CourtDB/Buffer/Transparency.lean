/-
# The buffer pool is transparent

A `Session` is a buffer pool in use: the pool, and next to it the plain map from page ids to
the pages their clients last left there, which is what the pool is supposed to be.  A session
also remembers which pages were changed since somebody last unpinned them as dirty.

The rules clients follow (`Session.Allowed`) are about their own calls only: they change a page
while they have it pinned and leave it with the slotted layout, and a page that was changed is
unpinned as dirty before its last pin is gone.  Then whatever was fetched, evicted, flushed or
reopened in between, a fetch gives the page that was left (`Session.fetch_gives_last`).
-/
import CourtDB.Buffer.PoolSpecs

namespace CourtDB

/-! ## 1. Sessions -/

/-- The calls of the pool's clients.  `change id p` is a client writing through its pointer to
page `id`; `reopen n` destroys the pool and creates one of `n` frames over the same disk. -/
inductive PoolOp
  | newPage
  | fetchPage (id : PageId)
  | unpinPage (id : PageId) (isDirty : Bool)
  | flushPage (id : PageId)
  | flushAllPages
  | change (id : PageId) (p : Page)
  | reopen (n : Nat)

/-- A pool, the pages as their clients last left them, and the pages with a change that no unpin
has declared yet. -/
structure Session where
  pool : BufferPoolManager
  last : PageId → Option Page
  changed : PageId → Bool

namespace Session

/-- A new pool of `n` frames over the disk `d`, before any page is handed out. -/
def start (n : Nat) (d : DiskManager) : Session :=
  ⟨BufferPoolManager.create n d, fun _ => none, fun _ => false⟩

def step (s : Session) : PoolOp → Session
  | .newPage =>
    { s with
      pool := s.pool.newPage.2
      last := match s.pool.newPageId with
        | some id => Function.update s.last id (some (Page.ofId id))
        | none => s.last }
  | .fetchPage id => { s with pool := (s.pool.fetchPage id).2 }
  | .unpinPage id isDirty =>
    { s with
      pool := (s.pool.unpinPage id isDirty).2
      changed := fun i => s.changed i && !(i = id && (s.pool.unpinPage id isDirty).1 && isDirty) }
  | .flushPage id => { s with pool := (s.pool.flushPage id).2 }
  | .flushAllPages => { s with pool := s.pool.flushAllPages }
  | .change id p =>
    match s.pool.pageTable id with
    | some f =>
      { pool := s.pool.setPage f p
        last := fun i => if i = id ∧ (s.last i).isSome then some p else s.last i
        changed := fun i => s.changed i || i = id }
    | none => s
  | .reopen n => { s with pool := s.pool.reopen n }

/-! ## 2. The rules -/

/-- The slotted layout, as far as the pool's clients owe it: the directory lies between the
header and the data region. -/
structure Slotted (p : Page) : Prop where
  slots_length : p.slots.length = p.header.numSlots.toNat
  offset_eq : 20 + 4 * p.header.numSlots.toNat = p.header.freeSpaceOffset.toNat
  offset_le : p.header.freeSpaceOffset.toNat ≤ p.header.freeSpaceEnd.toNat
  end_le : p.header.freeSpaceEnd.toNat ≤ pageSize

theorem Slotted.directoryFits {p : Page} (h : Slotted p) : p.DirectoryFits :=
  ⟨h.slots_length, h.offset_eq ▸ h.offset_le.trans h.end_le⟩

/-- What clients may do.  Page ids have not run out when a page is created; a page is changed
while it is pinned; its change is declared by the time nobody holds it, and by the time the
pool is destroyed. -/
def Allowed (s : Session) : PoolOp → Prop
  | .newPage => s.pool.newPageId ≠ some invalidPageId
  | .change id p =>
    (∃ f, s.pool.pageTable id = some f ∧ (s.pool.metadata f).pinCount ≠ 0) ∧ Slotted p
  | .unpinPage id isDirty => s.pool.IsLastPin id → s.changed id = true → isDirty = true
  | .reopen _ => ∀ id, s.changed id = false
  | .fetchPage _ | .flushPage _ | .flushAllPages => True

/-! ## 3. The simulation -/

/-- The pool represents the map. -/
def Sound (s : Session) : Prop := s.pool.Represents s.last fun id => s.changed id = true

theorem sound_start (n : Nat) {d : DiskManager} (hd : d.Growing) : (start n d).Sound where
  wf := BufferPoolManager.wellFormed_create n hd
  pinned _ h := absurd h (by simp [start])
  holds _ _ h := absurd h (by simp [start])

theorem sound_newPage {s : Session} (h : s.Sound) (ok : s.Allowed .newPage) :
    (s.step .newPage).Sound := by
  obtain ⟨hnone, hsome⟩ := h.newPage ok
  unfold Sound step
  cases hr : s.pool.newPage.1 with
  | none =>
    have hid : s.pool.newPageId = none := by rw [BufferPoolManager.newPageId, hr]; rfl
    rw [hid, hnone hr]
    exact h
  | some f =>
    obtain ⟨id, hid, -, -, hrep⟩ := hsome f hr
    rw [hid]
    exact hrep

theorem sound_unpinPage {s : Session} (h : s.Sound) {id : PageId} {isDirty : Bool}
    (ok : s.Allowed (.unpinPage id isDirty)) : (s.step (.unpinPage id isDirty)).Sound := by
  have hun := BufferPoolManager.Represents.unpinPage h ok
  unfold Sound step
  refine hun.of_iff fun i => ?_
  simp only [Bool.and_eq_true, Bool.not_eq_true', Bool.and_eq_false_iff, decide_eq_false_iff_not,
    not_and_or, Bool.not_eq_true, or_assoc]

theorem sound_change {s : Session} (h : s.Sound) {id : PageId} {p : Page}
    (ok : s.Allowed (.change id p)) : (s.step (.change id p)).Sound := by
  obtain ⟨⟨f, hf, hpin⟩, hp⟩ := ok
  have hset := BufferPoolManager.Represents.setPage h hf hpin hp.directoryFits
  unfold Sound step
  simp only [hf]
  exact hset.of_iff fun i => by simp

/-- **One step.**  A call within the rules keeps the pool and the map together. -/
theorem sound_step (s : Session) (op : PoolOp) (h : s.Sound) (ok : s.Allowed op) :
    (s.step op).Sound := by
  cases op with
  | newPage => exact sound_newPage h ok
  | fetchPage id => exact (BufferPoolManager.Represents.fetchPage h id).1
  | unpinPage id isDirty => exact sound_unpinPage h ok
  | flushPage id => exact BufferPoolManager.Represents.flushPage h id
  | flushAllPages => exact BufferPoolManager.Represents.flushAllPages h
  | change id p => exact sound_change h ok
  | reopen n =>
    have hno : ∀ id, ¬ s.changed id = true := fun id hid => by simp [ok id] at hid
    have hre := BufferPoolManager.Represents.reopen h hno n
    exact hre.of_iff fun i => ⟨hno i, False.elim⟩

theorem sound_run {s : Session} (h : s.Sound) {ops : List PoolOp}
    (ok : Run.StepsOk step Allowed s ops) : (ops.foldl step s).Sound :=
  Run.invariant_of_stepsOk (I := Sound) sound_step h ok

/-- **The buffer pool is transparent.**  In every session within the rules, over a file in which
no page was deallocated, a successful fetch of a page that `NewPage` returned gives the page
its clients last left, up to the raw bytes under the serialized header and directory. -/
theorem fetch_gives_last (n : Nat) (d : DiskManager) (hd : d.Growing) (ops : List PoolOp)
    (ok : Run.StepsOk step Allowed (start n d) ops) (id : PageId) (q : Page) (f : FrameId)
    (hq : (ops.foldl step (start n d)).last id = some q)
    (hf : ((ops.foldl step (start n d)).pool.fetchPage id).1 = some f) :
    (((ops.foldl step (start n d)).pool.fetchPage id).2.pages f).SameContent q :=
  ((sound_run (sound_start n hd) ok).fetchPage id).2 f hf |>.2 q hq

/-- Page 1 is changed in a pool of one frame, evicted for page 2, and fetched again. -/
theorem fetch_gives_last_evicted :
    let p := ((Page.ofId 1).insertRecord (.data ⟨[7, 8, 9], by decide⟩)).2
    let ops := [.newPage, .change 1 p, .unpinPage 1 true, .newPage, .unpinPage 2 false]
    let s := ops.foldl step (start 1 DiskManager.initializeNewFile)
    (s.pool.fetchPage 1).1 = some 0 ∧ ((s.pool.fetchPage 1).2.pages 0).SameContent p := by
  intro p ops s
  have hslots : Slotted p := ⟨by decide, by decide, by decide, by decide⟩
  have hfetch : (s.pool.fetchPage 1).1 = some 0 := by decide
  have hlast : s.last 1 = some p := by
    let b := (BufferPoolManager.create 1 DiskManager.initializeNewFile).newPage.2
    have h1 : (start 1 DiskManager.initializeNewFile).pool.newPageId = some 1 := by decide
    have h2 : b.pageTable 1 = some 0 := by decide
    have h3 : (((b.setPage 0 p).unpinPage 1 true).2).newPageId = some 2 := by decide
    simp only [s, ops, List.foldl_cons, List.foldl_nil, step, h1]
    simp [start, b, h2, h3]
  refine ⟨hfetch, fetch_gives_last 1 _ DiskManager.growing_initializeNewFile ops ?_ 1 p 0 hlast
    hfetch⟩
  have hnew1 : (start 1 DiskManager.initializeNewFile).pool.newPageId ≠ some invalidPageId := by
    decide
  have hnew2 : ((ops.take 3).foldl step (start 1 DiskManager.initializeNewFile)).pool.newPageId
      ≠ some invalidPageId := by decide
  refine ⟨hnew1, ⟨⟨0, by decide, by decide⟩, hslots⟩, fun _ _ => rfl, hnew2, ?_, trivial⟩
  exact fun _ h => absurd h (by decide)

end Session

end CourtDB
