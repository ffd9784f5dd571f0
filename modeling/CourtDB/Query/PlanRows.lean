/-
# Plans as lists

A plan of `FilterExecutor`, `ProjectionExecutor`, `SortExecutor` and `LimitExecutor` over a
`TableScanExecutor` stands for a list: the records of the heap file in the order of a scan,
filtered, mapped, sorted and cut (`Plan.Reads`).  `Init` begins such a list in whatever state an
earlier run was left, as long as the pool has a frame for the scan, and `Next` hands it out and then
nothing more (`Plan.reads_list`).

A scan that is reset in the middle keeps its page pinned, so the frames that are left are a
condition on the states in which the plan is reset, not on the first one alone.
-/
import CourtDB.Query.ScanPins
import Mathlib.Data.List.Permutation

namespace CourtDB

open BufferPoolManager HeapState

/-! ## 1. The list of a plan -/

/-- What an operator makes of a list.  `SortExecutor` may choose among the sorted permutations. -/
def Operator.Reads {V : Type} : Operator V → List Tuple → List Tuple → Prop
  | .filter predicate, xs, ys => ys = xs.filter predicate
  | .projection project, xs, ys => ys = xs.map project
  | .limit count, xs, ys => ys = xs.take count.toNat
  | .sort comparator, xs, ys => ys.Perm xs ∧ Ranks.Sorted comparator.Less ys
  | .topN _ _, _, _ | .aggregation _ _, _, _ => False

/-- The operators that have such a reading. -/
def Operator.HasReading {V : Type} : Operator V → Prop
  | .filter _ | .projection _ | .limit _ | .sort _ => True
  | .topN _ _ | .aggregation _ _ => False

/-- What the operators make of a list, one after the other. -/
def Plan.Reads {V : Type} : List (Operator V) → List Tuple → List Tuple → Prop
  | [], xs, ys => ys = xs
  | operator :: operators, xs, ys => ∃ zs, Reads operators xs zs ∧ operator.Reads zs ys

/-- The records of a heap file, in the order of a scan. -/
def HeapState.rows (s : HeapState) : List Tuple := s.contents.filterMap fun e => e.2.bind tupleOf

section Reading

variable {V : Type} [DoubleArith V] {lib : StdLib} {order : MapOrder} {moved : ℕ → Tuple → Tuple}

theorem FilterExecutor.passed_const (predicate : Tuple → Bool) (xs : List Tuple) (tuple : Tuple) :
    passed predicate (xs.map fun x _ => x) tuple = xs.filter predicate := by
  induction xs generalizing tuple with
  | nil => rfl
  | cons x xs ih =>
    rw [List.map_cons, passed, ih, ih, List.filter_cons]

/-- **An operator** over a list hands out what it makes of it. -/
theorem Operator.fills_const {operator : Operator V} (hreading : operator.HasReading)
    (hordered : operator.Ordered) (xs : List Tuple) :
    ∃ ys, operator.fills lib order (xs.map fun x _ => x) = ys.map (fun y _ => y) ∧
      operator.Reads xs ys := by
  cases operator with
  | filter predicate =>
    refine ⟨xs.filter predicate, ?_, rfl⟩
    rw [fills, FilterExecutor.passed_const]
  | projection project => exact ⟨xs.map project, by simp [fills], rfl⟩
  | limit count =>
    refine ⟨xs.take count.toNat, ?_, rfl⟩
    rw [fills, ← List.map_take, List.map_map]
    rfl
  | sort comparator =>
    refine ⟨lib.sort comparator xs, ?_, lib.sort_perm comparator xs hordered,
      lib.sort_sorted comparator xs hordered⟩
    rw [fills, collect_const]
  | topN comparator count => exact hreading.elim
  | aggregation groupKeyExtractor aggSpecs => exact hreading.elim

theorem Plan.fillsOf_reads {source : Source} {operators : List (Operator V)}
    (hreading : ∀ operator ∈ operators, operator.HasReading)
    (hordered : ∀ operator ∈ operators, operator.Ordered) :
    ∃ ys, fillsOf lib order moved source operators = ys.map (fun y _ => y) ∧
      Reads operators source.tuples ys := by
  induction operators with
  | nil => exact ⟨source.tuples, rfl, rfl⟩
  | cons operator operators ih =>
    obtain ⟨hread, hreads⟩ := List.forall_mem_cons.mp hreading
    obtain ⟨hord, hords⟩ := List.forall_mem_cons.mp hordered
    obtain ⟨zs, hfills, hzs⟩ := ih hreads hords
    obtain ⟨ys, heq, hys⟩ := @Operator.fills_const V _ (lib.moving (moved operators.length)) order
      operator hread hord zs
    exact ⟨ys, by rw [fillsOf, hfills, heq], zs, hzs, hys⟩

end Reading

/-- A list as a source. -/
def Source.ofTuples (xs : List Tuple) : Source where
  executor := TupleSource xs
  tuples := xs
  produces state := ⟨_, rfl, Materialized.fills _ { child := state.child, tuples := xs }⟩
  start := { child := () }

/-! ## 2. The rows of a scan -/

/-- The pool can serve a scan: there are fewer pinned pages than frames, and no pin counter is at
its limit. -/
def BufferPoolManager.HasFrame (b : BufferPoolManager) : Prop :=
  (∀ ids : List PageId, ids.Nodup → (∀ id ∈ ids, 0 < b.pinsOf id) → ids.length < b.poolSize) ∧
    ∀ id, b.pinsOf id + 1 < 2 ^ 32

namespace TableScan

variable {s : HeapState} {scanFuel : ℕ} {heapFile : HeapFile}

/-- The pages behind the scan are those of `s`. -/
def Faces (s : HeapState) (state : TableScan) : Prop := ∃ v, state.bpm.Shows v ∧ v.pages = s.pages

/-- A scan that refuses nothing hands out the tuples of what it has to visit. -/
theorem fills (hs : s.Ok) (hfuel : s.chain.length < scanFuel) {Free : View → Prop}
    {On : PageId → View → Prop} (haccess : Access (poolSpec .frames) s False Free On)
    {todo : List (RID × Option (List UInt8))} {v : View}
    {state : (TableScanExecutor scanFuel heapFile).State}
    (hinit : TableScan.initialized state = true) (hshows : (TableScan.bpm state).Shows v)
    (hvisits : Visits s Free On (TableScan.iterator state) v todo)
    (htuples : ∀ e ∈ todo, ∃ tuple, e.2.bind tupleOf = some tuple) :
    (TableScanExecutor scanFuel heapFile).Fills
      ((todo.filterMap fun e => e.2.bind tupleOf).map fun x _ => x) state := by
  induction todo generalizing state v with
  | nil =>
    refine ⟨fun other => other = state, rfl, ?_⟩
    rintro other rfl output
    exact ⟨output, other, next_ended hinit hvisits output, rfl⟩
  | cons e todo ih =>
    obtain ⟨⟨tuple, htuple⟩, hrest⟩ := List.forall_mem_cons.mp htuples
    have hcons : (e :: todo).filterMap (fun e => e.2.bind tupleOf) =
        tuple :: todo.filterMap fun e => e.2.bind tupleOf := List.filterMap_cons_some htuple
    rw [hcons]
    intro output
    obtain ⟨state', heq, hinit', v', rest, hshows', hvisits', hgoes⟩ :=
      next_spec hs hfuel haccess (fun _ hex => hex) hinit hshows hvisits htuple output
    obtain rfl := hgoes.resolve_right fun hno => hno.1
    exact ⟨state', heq, ih hinit' hshows' hvisits' hrest⟩

/-- **A scan** begins the rows of the heap file, if the pool can serve it. -/
theorem producesFrom (hs : s.Ok) (hreadable : s.Readable) (hfuel : s.chain.length < scanFuel)
    (hfirst : heapFile.firstPageId = s.chain.head?.getD invalidPageId) :
    (TableScanExecutor scanFuel heapFile).ProducesFrom
      (fun state => Faces s state ∧ (TableScan.bpm state).HasFrame) (s.rows.map fun x _ => x) := by
  rintro state ⟨⟨v, hshows, hpages⟩, hframe, hpins⟩
  have hbase : ∀ id, v.pins id + 1 < 2 ^ 32 := fun id => hshows.pins id ▸ hpins id
  have hframes : ∀ ids : List PageId, ids.Nodup → (∀ id ∈ ids, 0 < v.pins id) →
      ids.length < v.frames := by
    intro ids hnodup hpinned
    rw [← hshows.frames]
    exact hframe ids hnodup fun id hid => hshows.pins id ▸ hpinned id hid
  obtain ⟨state', heq, hinit, v', rest, hshows', hvisits, hgoes⟩ :=
    begin_spec hs hfuel (hs.servedAccess hbase hframes) (fun _ hex => hex) hfirst hshows
      ⟨rfl, hpages, .start hshows⟩
  obtain rfl := hgoes.resolve_right fun hno => hno.1
  exact ⟨state', heq, fills hs hfuel (hs.servedAccess hbase hframes) hinit hshows' hvisits
    fun e he => hreadable.of_mem he⟩

end TableScan

/-! ## 3. Runs -/

/-- The states in which an operator can be initialised again, by runs that began where there was
`Room`: each is `Init` and then any number of calls of `Next`. -/
inductive Executor.Reached (executor : Executor) (Room : executor.State → Prop)
    (start : executor.State) : executor.State → Prop
  | start : Reached executor Room start start
  | run {state first last : executor.State} {outputs : List Tuple}
      (h : Reached executor Room start state) (hroom : Room state)
      (hinit : executor.init state = some first)
      (hnexts : executor.nexts outputs first = some last) :
      Reached executor Room start last

section Runs

variable {V : Type} [DoubleArith V] {lib : StdLib} {order : MapOrder} {moved : ℕ → Tuple → Tuple}
  {s : HeapState} {scanFuel fuel : ℕ} {heapFile : HeapFile} {operators : List (Operator V)}

/-- **The run lemma**: the heap file stays as it is. -/
theorem Plan.reached_faces (hs : s.Ok) (hreadable : s.Readable)
    (hfirst : heapFile.firstPageId = s.chain.head?.getD invalidPageId)
    (hordered : ∀ operator ∈ operators, operator.Ordered) (hscan : s.chain.length < scanFuel)
    (hfuel : s.contents.length < fuel)
    {start : (TableScanExecutor scanFuel heapFile).State} (hstart : TableScan.Faces s start)
    {state : (build lib order fuel moved (TableScanExecutor scanFuel heapFile) operators).State}
    (h : (build lib order fuel moved (TableScanExecutor scanFuel heapFile) operators).Reached
      (fun state => (TableScan.bpm (leafState operators state)).HasFrame)
      (Plan.start lib order fuel moved start operators) state) :
    TableScan.Faces s (leafState operators state) := by
  induction h with
  | start =>
    rw [leafState_start]
    exact hstart
  | @run state first last outputs h hroom hinit hnexts ih =>
    obtain ⟨v, hshows, hpages⟩ := ih
    have hbase : ∀ id, v.pins id + 1 < 2 ^ 32 := fun id => hshows.pins id ▸ hroom.2 id
    have hkeeps : Keeps
        (build lib order fuel moved (TableScanExecutor scanFuel heapFile) operators) _ _ _ :=
      Plan.keeps (Scan.table_keeps hs hreadable hbase hscan hfirst) hfuel hordered
    obtain ⟨first', hinit', hlive⟩ := hkeeps.init state ⟨v, hshows, hpages, .start hshows⟩
    obtain rfl := Option.some.inj (hinit.symm.trans hinit')
    obtain ⟨last', left, hnexts', hlast⟩ := hkeeps.nexts outputs hlive
    obtain rfl := Option.some.inj (hnexts.symm.trans hnexts')
    obtain ⟨j, hj⟩ := LiveOver.below hlast
    obtain ⟨v', hshows', hkeeping⟩ := Scan.Live.keeping hj
    exact ⟨v', hshows', hkeeping.pages⟩

/-- **Plans mean what their list semantics says.**  In whatever state earlier runs left the plan,
`Init` begins a list that the operators may make of the records of the heap file, in the order of a
scan; `Next` hands out its tuples one after the other, and then returns false for ever. -/
theorem Plan.reads_list (lib : StdLib) (order : MapOrder) (moved : ℕ → Tuple → Tuple) (hs : s.Ok)
    (hreadable : s.Readable) (hfirst : heapFile.firstPageId = s.chain.head?.getD invalidPageId)
    (hreading : ∀ operator ∈ operators, operator.HasReading)
    (hordered : ∀ operator ∈ operators, operator.Ordered) {b : BufferPoolManager} {v : View}
    (hb : b.Shows v) (hpages : v.pages = s.pages) :
    ∃ enough, ∀ scanFuel fuel, enough < scanFuel → enough < fuel →
      let plan := build lib order fuel moved (TableScanExecutor scanFuel heapFile) operators
      let Room (state : plan.State) : Prop := (TableScan.bpm (leafState operators state)).HasFrame
      ∀ state, plan.Reached Room (start lib order fuel moved ({ bpm := b } : TableScan) operators)
        state → Room state →
        ∃ state' ys, plan.init state = some state' ∧ Reads operators s.rows ys ∧
          plan.Fills (ys.map fun y _ => y) state' := by
  refine ⟨max (max s.chain.length s.contents.length)
    (calls lib order moved (Source.ofTuples s.rows) operators), ?_⟩
  intro scanFuel fuel hscan hfuel plan Room state hreached hroom
  obtain ⟨⟨hscan, -⟩, -⟩ := (max_lt_iff.mp hscan).imp max_lt_iff.mp id
  obtain ⟨⟨-, hlength⟩, hcalls⟩ := (max_lt_iff.mp hfuel).imp max_lt_iff.mp id
  have hfaces := reached_faces hs hreadable hfirst hordered hscan hlength ⟨v, hb, hpages⟩ hreached
  obtain ⟨state', hinit, hfills⟩ := Plan.producesFrom
    (TableScan.producesFrom hs hreadable hscan hfirst) hcalls.le state ⟨hfaces, hroom⟩
  obtain ⟨ys, heq, hreads⟩ := @fillsOf_reads V _ lib order moved (Source.ofTuples s.rows) operators
    hreading hordered
  rw [heq] at hfills
  exact ⟨state', ys, hinit, hreads, hfills⟩

end Runs

/-- The lowest of two shots, by points: the plan begins, and hands out the one of two points. -/
theorem Plan.reads_list_twoShots :
    let operators : List (Operator ℚ) := [.limit 1, .sort byPoints]
    ∃ enough, ∀ scanFuel fuel, enough < scanFuel → enough < fuel →
      let plan := build insertionLib AggregationExecutor.insertionOrder fuel (fun _ tuple => tuple)
        (TableScanExecutor scanFuel twoShots.heap) operators
      ∃ state tuple, plan.init (start insertionLib AggregationExecutor.insertionOrder fuel
          (fun _ tuple => tuple) ({ bpm := twoShots.pool } : TableScan) operators) = some state ∧
        tuple.points = 2 ∧ plan.Fills [fun _ => tuple] state := by
  intro operators
  obtain ⟨s, hs, hreadable, hfirst, hshows, hlists⟩ := twoShots_heap
  have hreading : ∀ operator ∈ operators, operator.HasReading := by
    simp [operators, Operator.HasReading]
  have hordered : ∀ operator ∈ operators, operator.Ordered := by
    simp only [operators, List.forall_mem_cons]
    exact ⟨trivial, inferInstanceAs (IsStrictWeakOrder Tuple byPoints.Less), by simp⟩
  -- nothing is pinned, so there is a frame
  have hroom : twoShots.pool.HasFrame := by
    refine ⟨fun ids _ hpinned => ?_, fun id => (hshows.pins id).symm ▸ (by decide : 0 + 1 < 2 ^ 32)⟩
    cases ids with
    | nil => exact hshows.frames ▸ (by decide : 0 < 3)
    | cons id ids => exact absurd (hpinned id List.mem_cons_self) (hshows.pins id ▸ Nat.lt_irrefl 0)
  -- the rows of the scan are the two shots, in some order
  obtain ⟨two, three, hrows, htwo, hless⟩ : ∃ two three : Tuple, s.rows.Perm [three, two] ∧
      two.points = 2 ∧ byPoints two three = true := by
    have hperm := (TableRun.contents_perm hs hlists).filterMap fun e => e.2.bind tupleOf
    refine ⟨{ points := 2 }, { points := 3 }, hperm.trans (List.Perm.of_eq ?_), rfl, rfl⟩
    decide +kernel
  obtain ⟨enough, henough⟩ := Plan.reads_list (V := ℚ) insertionLib
    AggregationExecutor.insertionOrder
    (fun _ tuple => tuple) hs hreadable hfirst hreading hordered hshows rfl
  refine ⟨enough, fun scanFuel fuel hscan hfuel => ?_⟩
  obtain ⟨state, ys, hinit, ⟨zs, ⟨ws, rfl, hperm, hsorted⟩, rfl⟩, hfills⟩ :=
    henough scanFuel fuel hscan hfuel _ .start hroom
  refine ⟨state, two, hinit, htwo, ?_⟩
  rcases List.perm_pair.mp (hperm.trans hrows) with rfl | rfl
  · exact absurd hless (List.rel_of_pairwise_cons hsorted List.mem_cons_self)
  · exact hfills

end CourtDB
