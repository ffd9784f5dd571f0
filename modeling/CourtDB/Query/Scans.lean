/-
# Scan executors

The two leaves of a plan (`query/executor.h`, `query/executor.cpp`).  `TableScanExecutor` keeps a
`HeapFileIterator`; `IndexScanExecutor` asks the tree for all record ids on `Init` and fetches the
records one at a time.  Their state holds the buffer pool, which no other operator of a plan uses.

`Init` assigns a new iterator to the old one, and nothing is done when an executor is destroyed: an
iterator has no destructor.  So the page that the old iterator has pinned stays pinned.
-/
import CourtDB.Heap.RecordTable
import CourtDB.Heap.ScanPins
import CourtDB.Index.PinNeutral
import CourtDB.Query.Executor

namespace CourtDB

open PoolM BufferPoolManager

/-! ## 1. The executors

`TableScanExecutor::Next` calls `Init` when nobody has.  It does not look at the pointer that
`GetRecord` returns, so it has no result where that is null.  `IndexScanExecutor::Next` skips a
record id whose record is gone. -/

/-- The bytes of a record as a tuple. -/
def tupleOf (data : List UInt8) : Option Tuple :=
  RecordSerializer.deserialize data (UInt16.ofNat data.length)

/-- The state of a `TableScanExecutor`. -/
structure TableScan where
  iterator : HeapFileIterator := { currentPageId := invalidPageId }
  initialized : Bool := false
  bpm : BufferPoolManager

/-- `TableScanExecutor::Init`. -/
def TableScan.begin (fuel : ℕ) (heapFile : HeapFile) (state : TableScan) : Option TableScan := do
  let (iterator, bpm) := (HeapFileIterator.begin fuel heapFile.firstPageId).exec state.bpm
  return { iterator := ← iterator, initialized := true, bpm := bpm }

/-- `TableScanExecutor`. -/
def TableScanExecutor (fuel : ℕ) (heapFile : HeapFile) : Executor where
  State := TableScan
  init := TableScan.begin fuel heapFile
  next state output := do
    let state ← if state.initialized then some state else state.begin fuel heapFile
    if state.iterator.valid then
      let (data, bpm) := state.iterator.getRecord.exec state.bpm
      let tuple ← tupleOf (← data)
      let (iterator, bpm) := (state.iterator.next fuel).exec bpm
      return (true, tuple, { state with iterator := ← iterator, bpm := bpm })
    else
      return (false, output, state)

/-- The state of an `IndexScanExecutor`. -/
structure IndexScan where
  results : List (KeyType × RID) := []
  currentIdx : ℕ := 0
  bpm : BufferPoolManager

namespace IndexScan

/-- The record ids that `Init` asks for. -/
def find (fuel : ℕ) (index : BPlusTree) (lowKey highKey : KeyType) (isRange : Bool) :
    PoolM (Option (List (KeyType × RID))) :=
  if isRange then
    index.rangeScan fuel lowKey highKey
  else do
    return (← index.lookup fuel lowKey).map fun rids => rids.map fun rid => (lowKey, rid)

/-- `Init`. -/
def begin (fuel : ℕ) (index : BPlusTree) (lowKey highKey : KeyType) (isRange : Bool)
    (state : IndexScan) : Option IndexScan := do
  let (results, bpm) := (find fuel index lowKey highKey isRange).exec state.bpm
  return { results := ← results, bpm := bpm }

/-- The loop of `Next`, over the record ids that are left: the first record that is still there, and
the index behind it. -/
def fetchNext : List (KeyType × RID) → ℕ → PoolM (Option (Option Tuple × ℕ))
  | [], idx => return some (none, idx)
  | (_, rid) :: rest, idx => do
    match ← HeapFile.getRecord rid with
    | some data =>
      match tupleOf data with
      | some tuple =>
        let _ ← unpinPage rid.pageId false
        return some (some tuple, idx + 1)
      | none => return none
    | none => fetchNext rest (idx + 1)

end IndexScan

/-- `IndexScanExecutor`. -/
def IndexScanExecutor (fuel : ℕ) (index : BPlusTree) (lowKey highKey : KeyType) (isRange : Bool) :
    Executor where
  State := IndexScan
  init := IndexScan.begin fuel index lowKey highKey isRange
  next state output := do
    let (found, bpm) :=
      (IndexScan.fetchNext (state.results.drop state.currentIdx) state.currentIdx).exec state.bpm
    let (tuple, idx) ← found
    let state := { state with currentIdx := idx, bpm := bpm }
    match tuple with
    | some tuple => return (true, tuple, state)
    | none => return (false, output, state)

/-- The leaf of a plan. -/
inductive Scan
  | table (heapFile : HeapFile)
  | index (index : BPlusTree) (lowKey highKey : KeyType) (isRange : Bool)

namespace Scan

def executor (fuel : ℕ) : Scan → Executor
  | .table heapFile => TableScanExecutor fuel heapFile
  | .index tree lowKey highKey isRange => IndexScanExecutor fuel tree lowKey highKey isRange

variable {fuel : ℕ}

def pool : (scan : Scan) → (scan.executor fuel).State → BufferPoolManager
  | .table _, state => TableScan.bpm state
  | .index .., state => IndexScan.bpm state

/-- The page that the leaf has pinned between two calls. -/
def held : (scan : Scan) → (scan.executor fuel).State → List PageId
  | .table _, state => (TableScan.iterator state).held
  | .index .., _ => []

theorem length_held_le {scan : Scan} (state : (scan.executor fuel).State) :
    (scan.held state).length ≤ 1 := by
  cases scan with
  | table heapFile =>
    rw [held, HeapFileIterator.held]
    split <;> simp
  | index tree lowKey highKey isRange => exact Nat.zero_le 1

/-- The state before the first `Init`. -/
def start (bpm : BufferPoolManager) : (scan : Scan) → (scan.executor fuel).State
  | .table _ => ({ bpm := bpm } : TableScan)
  | .index .. => ({ bpm := bpm } : IndexScan)

end Scan

/-! ## 2. The calls of a table scan -/

/-- Every record of the heap file is a serialized one. -/
def HeapState.Readable (s : HeapState) : Prop :=
  ∀ rid data, s.stored rid = some data → (tupleOf data).isSome

open HeapState

/-- What a scan visits is a record, and a tuple. -/
theorem HeapState.Readable.of_mem {s : HeapState} (h : s.Readable)
    {e : RID × Option (List UInt8)} (he : e ∈ s.contents) :
    ∃ tuple, e.2.bind tupleOf = some tuple := by
  obtain ⟨hstored, hsome⟩ := (mem_contents e).mp he
  obtain ⟨bytes, hbytes⟩ := Option.isSome_iff_exists.mp hsome
  obtain ⟨tuple, htuple⟩ := Option.isSome_iff_exists.mp (h _ _ (hstored.trans hbytes))
  exact ⟨tuple, by rw [hbytes]; exact htuple⟩

namespace TableScan

variable {s : HeapState} {mode : PoolMode} {refusing : Prop} {Free : View → Prop}
  {On : PageId → View → Prop} {fuel : ℕ} {heapFile : HeapFile} {state : TableScan} {v : View}
  (hs : s.Ok) (hfuel : s.chain.length < fuel)
  (haccess : Access (poolSpec mode) s refusing Free On)
  (hmode : ∀ v : View, v.Exhausted → mode.mayFail v)

include hs hfuel haccess hmode

/-- **Init** has everything to visit. -/
theorem begin_spec (hfirst : heapFile.firstPageId = s.chain.head?.getD invalidPageId)
    (hshows : state.bpm.Shows v) (hfree : Free v) :
    ∃ state', state.begin fuel heapFile = some state' ∧ state'.initialized = true ∧ ∃ v' rest,
      state'.bpm.Shows v' ∧ Visits s Free On state'.iterator v' rest ∧
        (rest = s.contents ∨ refusing ∧ rest = []) := by
  have hbegin := haccess.begin hs hfuel hfree
  rw [← hfirst] at hbegin
  obtain ⟨v', hgoes, hshows', -⟩ := hshows.exec_reads hmode (HeapFileIterator.reads_begin _) hbegin
  obtain ⟨iterator, rest, heq, hvisits, hrest⟩ := hgoes
  exact ⟨{ iterator := iterator, initialized := true, bpm := _ },
    by simp [TableScan.begin, heq], rfl, v', rest, hshows', hvisits, hrest⟩

/-- **Next** hands out the record that the iterator is on, and goes on. -/
theorem next_spec (hinit : state.initialized = true) (hshows : state.bpm.Shows v)
    {e : RID × Option (List UInt8)} {todo : List (RID × Option (List UInt8))}
    (hvisits : Visits s Free On state.iterator v (e :: todo)) {tuple : Tuple}
    (htuple : e.2.bind tupleOf = some tuple) (output : Tuple) :
    ∃ state', (TableScanExecutor fuel heapFile).next state output = some (true, tuple, state') ∧
      state'.initialized = true ∧ ∃ v' rest, state'.bpm.Shows v' ∧
        Visits s Free On state'.iterator v' rest ∧ (rest = todo ∨ refusing ∧ rest = []) := by
  have hvalid : state.iterator.valid = true := hvisits.valid
  obtain ⟨v₁, ⟨hdata, hvisits₁⟩, hshows₁, -⟩ :=
    hshows.exec_reads hmode HeapFileIterator.reads_getRecord (hvisits.getRecord haccess)
  obtain ⟨v₂, hgoes, hshows₂, -⟩ := hshows₁.exec_reads hmode HeapFileIterator.reads_next
    (haccess.next hs hvisits₁ hfuel)
  obtain ⟨iterator, rest, heq, hvisits₂, hrest⟩ := hgoes
  obtain ⟨bytes, hbytes, htuple⟩ := Option.bind_eq_some_iff.mp htuple
  exact ⟨{ iterator := iterator, initialized := true, bpm := _ },
    by simp [TableScanExecutor, hinit, hvalid, hdata, hbytes, htuple, heq], rfl, v₂, rest, hshows₂,
    hvisits₂, hrest⟩

omit hs hfuel haccess hmode in
theorem next_ended (hinit : state.initialized = true)
    (hvisits : Visits s Free On state.iterator v []) (output : Tuple) :
    (TableScanExecutor fuel heapFile).next state output = some (false, output, state) := by
  have hvalid : state.iterator.valid = false := hvisits.valid
  simp [TableScanExecutor, hinit, hvalid]

end TableScan

/-! ### Two shots -/

/-- The shots go into a new heap file. -/
def shotInserts : List HeapOp :=
  [.insert (.data ⟨RecordSerializer.serialize { points := 2 }, by decide⟩),
    .insert (.data ⟨RecordSerializer.serialize { points := 3 }, by decide⟩)]

def twoShots : TableRun := shotInserts.foldl TableRun.step (TableRun.start (overNewFile 3))

theorem twoShots_heap : ∃ s : HeapState, s.Ok ∧ s.Readable ∧
    twoShots.heap.firstPageId = s.chain.head?.getD invalidPageId ∧
      twoShots.pool.Shows (View.quiet 3 s.pages) ∧ Listing twoShots.live s.stored := by
  have hops : Run.StepsOk TableRun.step TableRun.Admits (TableRun.start (overNewFile 3))
      shotInserts := by decide +kernel
  obtain ⟨s, hs, -⟩ := TableRun.sound_run (idle_overNewFile (by decide)) (headerAside_overNewFile 3)
    (by decide +kernel) hops
  refine ⟨s, hs.ok, fun rid data hstored => ?_, ?_, hs.shows, hs.lists⟩
  · have hlive : ∀ e ∈ twoShots.live, (tupleOf e.2).isSome := by decide +kernel
    exact hlive (rid, data) ((hs.lists.mem_iff rid data).mpr hstored)
  · rw [hs.first, Option.getD_some, hs.heap]
    rfl

end CourtDB
