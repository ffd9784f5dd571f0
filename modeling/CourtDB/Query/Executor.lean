/-
# Query executors

`Executor` (`query/executor.h`, `query/executor.cpp`) is the interface of the query operators:
`Init`, then `Next` for one tuple after the other until it returns false.  An operator pulls from
its child, and `SortExecutor` and `TopNExecutor` pull everything on `Init`.

`Delivers` says what an operator hands out after `Init`, and every operator has one lemma that
says what it delivers when its child delivers a given list.  `TopNExecutor` is then compared with
`LimitExecutor` over `SortExecutor`: the number of its input tuples is narrowed to 32 bits before
the limit is clipped against it, and where that changes the clipped limit, rows are missing.
-/
import CourtDB.Lib.Ranks
import CourtDB.Storage.Record
import Mathlib.Data.List.Sort

namespace CourtDB

open Ranks

/-- The unit of data flowing between operators. -/
abbrev Tuple := NBARecord

abbrev TupleComparator := Tuple → Tuple → Bool

/-- The order that a comparator decides. -/
abbrev TupleComparator.Less (comparator : TupleComparator) : Tuple → Tuple → Prop :=
  fun a b => comparator a b = true

/-- What the operators take from the standard library: the contents of a moved-from tuple, and
the permutations that `std::sort` and `std::partial_sort` choose, of which only the order is
promised, and for strict weak orders only. -/
structure StdLib where
  movedFrom : Tuple → Tuple
  sort : TupleComparator → List Tuple → List Tuple
  partialSort : TupleComparator → ℕ → List Tuple → List Tuple
  sort_perm : ∀ comparator tuples, IsStrictWeakOrder Tuple comparator.Less →
    (sort comparator tuples).Perm tuples
  sort_sorted : ∀ comparator tuples, IsStrictWeakOrder Tuple comparator.Less →
    Sorted comparator.Less (sort comparator tuples)
  partialSort_perm : ∀ comparator k tuples, IsStrictWeakOrder Tuple comparator.Less →
    k ≤ tuples.length → (partialSort comparator k tuples).Perm tuples
  partialSort_partlySorted : ∀ comparator k tuples, IsStrictWeakOrder Tuple comparator.Less →
    k ≤ tuples.length → PartlySorted comparator.Less k (partialSort comparator k tuples)

/-! ## 1. The interface

The caller's tuple is an argument and a result of `Next`, because an operator need not write all of
it.  Where a loop of the source has no bound, its fuel runs out instead (`none`). -/

/-- An operator: `Init`, and `Next` with the caller's tuple, which returns whether there was a
tuple, the caller's tuple as it is afterwards, and the operator's state. -/
structure Executor where
  State : Type
  init : State → Option State
  next : State → Tuple → Option (Bool × Tuple × State)

namespace Executor

/-- `while (child->Next(&tuple)) tuples.push_back(std::move(tuple))`.  It has no result when the
fuel, the number of calls it may make, runs out. -/
def drain (lib : StdLib) (child : Executor) :
    ℕ → child.State → Tuple → List Tuple → Option (List Tuple × child.State)
  | 0, _, _, _ => none
  | fuel + 1, state, tuple, tuples => do
    let (found, tuple, state) ← child.next state tuple
    if found then
      child.drain lib fuel state (lib.movedFrom tuple) (tuples ++ [tuple])
    else
      return (tuples, state)

/-- The rows of a query: `Init`, then `Next` until it returns false. -/
def rows (lib : StdLib) (fuel : ℕ) (executor : Executor) (state : executor.State)
    (output : Tuple) : Option (List Tuple) := do
  let state ← executor.init state
  let (tuples, _) ← executor.drain lib fuel state output []
  return tuples

end Executor

/-! ## 2. The operators

Each has the state of its child in its own, and hands it on explicitly: a child has one parent, and
nobody else calls it. -/

/-- The loop of `FilterExecutor::Next`, with its own tuple. -/
def FilterExecutor.pull (child : Executor) (predicate : Tuple → Bool) :
    ℕ → child.State → Tuple → Option (Option Tuple × child.State)
  | 0, _, _ => none
  | fuel + 1, state, tuple => do
    let (found, tuple, state) ← child.next state tuple
    if found then
      if predicate tuple then
        return (some tuple, state)
      else
        pull child predicate fuel state tuple
    else
      return (none, state)

/-- `FilterExecutor`. -/
def FilterExecutor (fuel : ℕ) (child : Executor) (predicate : Tuple → Bool) : Executor where
  State := child.State
  init := child.init
  next state output := do
    let (result, state) ← FilterExecutor.pull child predicate fuel state {}
    match result with
    | some tuple => return (true, tuple, state)
    | none => return (false, output, state)

/-- `ProjectionExecutor`. -/
def ProjectionExecutor (child : Executor) (projection : Tuple → Tuple) : Executor where
  State := child.State
  init := child.init
  next state output := do
    let (found, tuple, state) ← child.next state {}
    if found then
      return (true, projection tuple, state)
    else
      return (false, output, state)

/-- The state of an operator that keeps tuples: `sorted_tuples_` of `SortExecutor`, `top_tuples_`
of `TopNExecutor`, and `current_idx_`. -/
structure Materialized (σ : Type) where
  child : σ
  tuples : List Tuple := []
  currentIdx : ℕ := 0

/-- `Next` of both. -/
def Materialized.next {σ : Type} (state : Materialized σ) (output : Tuple) :
    Option (Bool × Tuple × Materialized σ) :=
  match state.tuples[state.currentIdx]? with
  | some tuple => some (true, tuple, { state with currentIdx := state.currentIdx + 1 })
  | none => some (false, output, state)

/-- An operator that keeps tuples, by its `Init`. -/
def Materialized.executor {σ : Type} (init : Materialized σ → Option (Materialized σ)) :
    Executor where
  State := Materialized σ
  init := init
  next := Materialized.next

/-- `SortExecutor`. -/
def SortExecutor (lib : StdLib) (fuel : ℕ) (child : Executor) (comparator : TupleComparator) :
    Executor :=
  Materialized.executor fun (state : Materialized child.State) => do
    let childState ← child.init state.child
    let (sortedTuples, childState) ← child.drain lib fuel childState {} []
    return { child := childState, tuples := lib.sort comparator sortedTuples }

/-- `TopNExecutor`. -/
def TopNExecutor (lib : StdLib) (fuel : ℕ) (child : Executor) (comparator : TupleComparator)
    (limit : UInt32) : Executor :=
  Materialized.executor fun (state : Materialized child.State) => do
    let childState ← child.init state.child
    let (allTuples, childState) ← child.drain lib fuel childState {} []
    let k := min limit (UInt32.ofNat allTuples.length)
    if 0 < k then
      let allTuples := lib.partialSort comparator k.toNat allTuples
      return { child := childState, tuples := allTuples.take k.toNat }
    else
      return { child := childState }

/-- The state of a `LimitExecutor`. -/
structure Limited (σ : Type) where
  child : σ
  emitted : UInt32 := 0

/-- `LimitExecutor`. -/
def LimitExecutor (child : Executor) (limit : UInt32) : Executor where
  State := Limited child.State
  init state := do
    let childState ← child.init state.child
    return { child := childState }
  next state output :=
    if limit ≤ state.emitted then
      some (false, output, state)
    else do
      let (found, tuple, childState) ← child.next state.child {}
      if found then
        return (true, tuple, { child := childState, emitted := state.emitted + 1 })
      else
        return (false, output, { state with child := childState })

/-! ## 3. What an operator delivers -/

/-- What an operator leaves in the caller's tuple, by what the tuple held before. -/
abbrev Fill := Tuple → Tuple

/-- What a loop reads that passes its own tuple, and `after` of what it has read of it the next
time. -/
def collect (after : Tuple → Tuple) : List Fill → Tuple → List Tuple
  | [], _ => []
  | f :: fs, tuple => f tuple :: collect after fs (after (f tuple))

theorem length_collect (after : Tuple → Tuple) (fs : List Fill) (tuple : Tuple) :
    (collect after fs tuple).length = fs.length := by
  induction fs generalizing tuple with
  | nil => rfl
  | cons f fs ih => rw [collect, List.length_cons, ih, List.length_cons]

/-- Where the whole tuple is written, nothing of the loop's own tuple is read. -/
theorem collect_const (after : Tuple → Tuple) (xs : List Tuple) (tuple : Tuple) :
    collect after (xs.map fun x _ => x) tuple = xs := by
  induction xs generalizing tuple with
  | nil => rfl
  | cons x xs ih => rw [List.map_cons, collect, ih]

namespace Executor

variable {executor : Executor} {state : executor.State} {xs : List Tuple} {fs : List Fill}

/-- `Next` returns false. -/
def Stops (executor : Executor) (state : executor.State) : Prop :=
  ∀ output, ∃ output' state', executor.next state output = some (false, output', state')

/-- `Next` hands out `xs`, whatever the caller's tuples hold, and then returns false. -/
def Yields (executor : Executor) : List Tuple → executor.State → Prop
  | [], state => executor.Stops state
  | x :: xs, state => ∀ output, ∃ state', executor.next state output = some (true, x, state') ∧
      executor.Yields xs state'

/-- After `Init`, the operator hands out `xs`. -/
def Delivers (executor : Executor) (xs : List Tuple) (state : executor.State) : Prop :=
  ∃ state', executor.init state = some state' ∧ executor.Yields xs state'

/-- `Next` fills the caller's tuples by `fs`, and then returns false. -/
def Pulls (executor : Executor) : List Fill → executor.State → Prop
  | [], state => executor.Stops state
  | f :: fs, state => ∀ output, ∃ state', executor.next state output
      = some (true, f output, state') ∧
      executor.Pulls fs state'

theorem Yields.pulls (h : executor.Yields xs state) :
    executor.Pulls (xs.map fun x _ => x) state := by
  induction xs generalizing state with
  | nil => exact h
  | cons x xs ih =>
    intro output
    obtain ⟨state', hnext, hrest⟩ := h output
    exact ⟨state', hnext, ih hrest⟩

/-- Pulling until `Next` returns false collects what the operator leaves in the loop's tuple. -/
theorem Pulls.drain (h : executor.Pulls fs state) (lib : StdLib) {fuel : ℕ}
    (hfuel : fs.length < fuel) (tuple : Tuple) (tuples : List Tuple) :
    ∃ state', executor.drain lib fuel state tuple tuples
      = some (tuples ++ collect lib.movedFrom fs tuple, state') := by
  induction fs generalizing state fuel tuple tuples with
  | nil =>
    obtain ⟨fuel, rfl⟩ := Nat.exists_eq_add_of_lt hfuel
    obtain ⟨output', state', hnext⟩ := h tuple
    exact ⟨state', by simp [Executor.drain, collect, hnext]⟩
  | cons f fs ih =>
    obtain ⟨fuel, rfl⟩ := Nat.exists_eq_add_of_lt hfuel
    obtain ⟨state', hnext, hrest⟩ := h tuple
    have hleft : fs.length < fs.length + 1 + fuel := by omega
    obtain ⟨last, hlast⟩ := ih hrest hleft (lib.movedFrom (f tuple)) (tuples ++ [f tuple])
    refine ⟨last, ?_⟩
    rw [List.append_assoc] at hlast
    simpa [Executor.drain, collect, hnext] using hlast

theorem Yields.drain (h : executor.Yields xs state) (lib : StdLib) {fuel : ℕ}
    (hfuel : xs.length < fuel) (tuple : Tuple) (tuples : List Tuple) :
    ∃ state', executor.drain lib fuel state tuple tuples = some (tuples ++ xs, state') := by
  have hdrain := h.pulls.drain lib (by rwa [List.length_map]) tuple tuples
  rwa [collect_const] at hdrain

theorem Delivers.drain (h : executor.Delivers xs state) (lib : StdLib) {fuel : ℕ}
    (hfuel : xs.length < fuel) (tuple : Tuple) :
    ∃ first last, executor.init state = some first ∧
      executor.drain lib fuel first tuple [] = some (xs, last) := by
  obtain ⟨first, hinit, hyields⟩ := h
  obtain ⟨last, hdrain⟩ := hyields.drain lib hfuel tuple []
  exact ⟨first, last, hinit, hdrain⟩

/-- A query has the rows that its plan delivers. -/
theorem Delivers.rows (h : executor.Delivers xs state) (lib : StdLib) {fuel : ℕ}
    (hfuel : xs.length < fuel) (output : Tuple) :
    executor.rows lib fuel state output = some xs := by
  obtain ⟨first, last, hinit, hdrain⟩ := h.drain lib hfuel output
  simp [Executor.rows, hinit, hdrain]

end Executor

/-! ## 4. Sorting and limiting -/

/-- `Next` of an operator that keeps tuples hands out those from `current_idx_` on. -/
theorem Materialized.yields {σ : Type} (init : Materialized σ → Option (Materialized σ))
    (state : Materialized σ) :
    (Materialized.executor init).Yields (state.tuples.drop state.currentIdx) state := by
  generalize hxs : state.tuples.drop state.currentIdx = xs
  induction xs generalizing state with
  | nil =>
    intro output
    have hlen := List.drop_eq_nil_iff.mp hxs
    exact ⟨output, state, by simp [Materialized.executor, Materialized.next, hlen]⟩
  | cons x xs ih =>
    intro output
    have hget : state.tuples[state.currentIdx]? = some x := by
      rw [← List.head?_drop, hxs, List.head?_cons]
    have hrest : state.tuples.drop (state.currentIdx + 1) = xs := by
      rw [← List.drop_drop, hxs, List.drop_one, List.tail_cons]
    refine ⟨{ state with currentIdx := state.currentIdx + 1 }, ?_, ih _ hrest⟩
    simp [Materialized.executor, Materialized.next, hget]

theorem Materialized.delivers {σ : Type} {init : Materialized σ → Option (Materialized σ)}
    {state : Materialized σ} {childState : σ} {tuples : List Tuple}
    (h : init state = some { child := childState, tuples := tuples }) :
    (Materialized.executor init).Delivers tuples state :=
  ⟨_, h, Materialized.yields init { child := childState, tuples := tuples }⟩

section Operators

variable {lib : StdLib} {fuel : ℕ} {child : Executor} {comparator : TupleComparator}
  {limit : UInt32} {xs : List Tuple}

theorem SortExecutor.init_eq {state : Materialized child.State} {first last : child.State}
    (hinit : child.init state.child = some first)
    (hdrain : child.drain lib fuel first {} [] = some (xs, last)) :
    (SortExecutor lib fuel child comparator).init state =
      some { child := last, tuples := lib.sort comparator xs } := by
  simp [SortExecutor, Materialized.executor, hinit, hdrain]

theorem SortExecutor.delivers {state : Materialized child.State} (h : child.Delivers xs state.child)
    (hfuel : xs.length < fuel) :
    (SortExecutor lib fuel child comparator).Delivers (lib.sort comparator xs) state := by
  obtain ⟨first, last, hinit, hdrain⟩ := h.drain lib hfuel {}
  exact Materialized.delivers (SortExecutor.init_eq hinit hdrain)

/-- `k`, the limit clipped against the number of the input tuples, in 32 bits. -/
def TopNExecutor.clippedLimit (limit : UInt32) (size : ℕ) : ℕ :=
  min limit.toNat (size % 2 ^ 32)

theorem TopNExecutor.toNat_min (limit : UInt32) (size : ℕ) :
    (min limit (UInt32.ofNat size)).toNat = clippedLimit limit size := by
  rw [clippedLimit, ← UInt32.toNat_ofNat']
  have hmin : min limit (UInt32.ofNat size) =
      if limit ≤ UInt32.ofNat size then limit else UInt32.ofNat size := rfl
  rw [hmin, apply_ite UInt32.toNat, Nat.min_def]
  exact if_congr UInt32.le_iff_toNat_le rfl rfl

/-- The tuples that are kept of the input `xs`. -/
def TopNExecutor.topTuples (lib : StdLib) (comparator : TupleComparator) (limit : UInt32)
    (xs : List Tuple) : List Tuple :=
  (lib.partialSort comparator (clippedLimit limit xs.length) xs).take (clippedLimit limit xs.length)

theorem TopNExecutor.init_eq {state : Materialized child.State} {first last : child.State}
    (hinit : child.init state.child = some first)
    (hdrain : child.drain lib fuel first {} [] = some (xs, last)) :
    (TopNExecutor lib fuel child comparator limit).init state =
      some { child := last, tuples := topTuples lib comparator limit xs } := by
  have hpos : 0 < min limit (UInt32.ofNat xs.length) ↔ 0 < clippedLimit limit xs.length := by
    rw [UInt32.lt_iff_toNat_lt, toNat_min]
    rfl
  rw [topTuples]
  by_cases h0 : 0 < clippedLimit limit xs.length
  · simp [TopNExecutor, Materialized.executor, hinit, hdrain, hpos, h0, toNat_min]
  · simp [TopNExecutor, Materialized.executor, hinit, hdrain, hpos, Nat.eq_zero_of_not_pos h0]

theorem TopNExecutor.delivers {state : Materialized child.State}
    (h : child.Delivers xs state.child) (hfuel : xs.length < fuel) :
    (TopNExecutor lib fuel child comparator limit).Delivers
      (topTuples lib comparator limit xs) state := by
  obtain ⟨first, last, hinit, hdrain⟩ := h.drain lib hfuel {}
  exact Materialized.delivers (TopNExecutor.init_eq hinit hdrain)

/-- Below the limit there is one tuple more to hand out, and the counter does not wrap. -/
theorem LimitExecutor.left_of_not_full {emitted : UInt32} (h : ¬ limit ≤ emitted) :
    ∃ n, limit.toNat - emitted.toNat = n + 1 ∧ limit.toNat - (emitted + 1).toNat = n := by
  have hless : emitted.toNat < limit.toNat := UInt32.lt_iff_toNat_lt.mp (UInt32.not_le.mp h)
  have hcount : (emitted + 1).toNat = emitted.toNat + 1 := by
    have := limit.toNat_lt
    rw [UInt32.toNat_add, UInt32.toNat_one, Nat.mod_eq_of_lt (by omega)]
  exact ⟨limit.toNat - emitted.toNat - 1, by omega, by omega⟩

theorem LimitExecutor.yields {state : Limited child.State} (h : child.Yields xs state.child) :
    (LimitExecutor child limit).Yields (xs.take (limit.toNat - state.emitted.toNat)) state := by
  induction xs generalizing state with
  | nil =>
    rw [List.take_nil]
    intro output
    obtain ⟨output', childState, hnext⟩ := h {}
    by_cases hfull : limit ≤ state.emitted
    · exact ⟨output, state, by simp [LimitExecutor, hfull]⟩
    · exact ⟨output, { state with child := childState }, by simp [LimitExecutor, hfull, hnext]⟩
  | cons x xs ih =>
    by_cases hfull : limit ≤ state.emitted
    · have hnone : limit.toNat - state.emitted.toNat = 0 :=
        Nat.sub_eq_zero_of_le (UInt32.le_iff_toNat_le.mp hfull)
      rw [hnone, List.take_zero]
      intro output
      exact ⟨output, state, by simp [LimitExecutor, hfull]⟩
    · obtain ⟨n, hn, hleft⟩ := left_of_not_full hfull
      rw [hn, List.take_succ_cons]
      intro output
      obtain ⟨childState, hnext, hrest⟩ := h {}
      refine ⟨{ child := childState, emitted := state.emitted + 1 }, ?_, ?_⟩
      · simp [LimitExecutor, hfull, hnext]
      · rw [← hleft]
        exact @ih { child := childState, emitted := state.emitted + 1 } hrest

theorem LimitExecutor.delivers {state : Limited child.State} (h : child.Delivers xs state.child) :
    (LimitExecutor child limit).Delivers (xs.take limit.toNat) state := by
  obtain ⟨childState, hinit, hyields⟩ := h
  refine ⟨{ child := childState }, by simp [LimitExecutor, hinit], ?_⟩
  exact @LimitExecutor.yields _ _ _ { child := childState } hyields

end Operators

/-! ## 5. The first rows in order -/

/-- What `TopNExecutor` (`top`) and `LimitExecutor` over `SortExecutor` (`limited`) are to have in
common: the same number of rows of the input, in order, and equal up to ties. -/
structure AgreeUpToTies (comparator : TupleComparator) (limit : UInt32)
    (xs top limited : List Tuple) : Prop where
  length_top : top.length = min limit.toNat xs.length
  length_limited : limited.length = min limit.toNat xs.length
  incomparable : List.Forall₂ (IncompRel comparator.Less) top limited
  sorted_top : Sorted comparator.Less top
  sorted_limited : Sorted comparator.Less limited
  subperm_top : top.Subperm xs
  subperm_limited : limited.Subperm xs

section TopN

variable (lib : StdLib) (comparator : TupleComparator) (limit : UInt32)
  [IsStrictWeakOrder Tuple comparator.Less]

theorem TopNExecutor.clippedLimit_eq_iff (size : ℕ) :
    clippedLimit limit size = min limit.toNat size ↔
      size < 2 ^ 32 ∨ limit.toNat ≤ size % 2 ^ 32 := by
  have hlimit := limit.toNat_lt
  rw [clippedLimit]
  rcases Nat.lt_or_ge size (2 ^ 32) with hsize | hsize
  · rw [Nat.mod_eq_of_lt hsize]
    exact iff_of_true rfl (Or.inl hsize)
  · have hmod : size % 2 ^ 32 < 2 ^ 32 := Nat.mod_lt _ (by decide)
    omega

/-- Both lists come from permutations of the input whose first `k` tuples are in place, so they
agree as far as they have the same length. -/
theorem agreeUpToTies_iff (xs : List Tuple) (k : ℕ) (hk : k ≤ xs.length) :
    AgreeUpToTies comparator limit xs ((lib.partialSort comparator k xs).take k)
      ((lib.sort comparator xs).take limit.toNat) ↔ k = min limit.toNat xs.length := by
  have hperm := lib.partialSort_perm comparator k xs inferInstance hk
  have hpart := lib.partialSort_partlySorted comparator k xs inferInstance hk
  have hsortPerm := lib.sort_perm comparator xs inferInstance
  have hsorted := lib.sort_sorted comparator xs inferInstance
  have hlength : ((lib.partialSort comparator k xs).take k).length = k := by
    rw [List.length_take_of_le (hperm.length_eq ▸ hk)]
  constructor
  · intro h
    rw [← h.length_top, hlength]
  · intro h
    have hlimited : (lib.sort comparator xs).take limit.toNat =
        (lib.sort comparator xs).take k := by
      rw [h, ← hsortPerm.length_eq, List.take_eq_take_min]
    have hties := hpart.forall₂_incompRel (hsorted.partlySorted k) (hperm.trans hsortPerm.symm)
    rw [hlimited]
    exact {
      length_top := hlength.trans h
      length_limited := by rw [← hties.length_eq, hlength, h]
      incomparable := hties
      sorted_top := hpart.sorted_take
      sorted_limited := hsorted.take k
      subperm_top := (List.take_sublist _ _).subperm.trans hperm.subperm
      subperm_limited := (List.take_sublist _ _).subperm.trans hsortPerm.subperm }

omit [IsStrictWeakOrder Tuple comparator.Less] in
theorem TopNExecutor.rows_eq {child : Executor} {xs : List Tuple}
    {state : Materialized child.State} (hchild : child.Delivers xs state.child) {fuel : ℕ}
    (hfuel : xs.length < fuel) (output : Tuple) :
    (TopNExecutor lib fuel child comparator limit).rows lib fuel state output =
      some ((lib.partialSort comparator (clippedLimit limit xs.length) xs).take
        (clippedLimit limit xs.length)) := by
  have hk : clippedLimit limit xs.length ≤ xs.length :=
    (Nat.min_le_right _ _).trans (Nat.mod_le _ _)
  refine (TopNExecutor.delivers hchild hfuel).rows lib ?_ output
  exact (List.length_take_le _ _).trans_lt (hk.trans_lt hfuel)

theorem LimitExecutor.sort_rows_eq {child : Executor} {xs : List Tuple}
    {state : Limited (Materialized child.State)} (hchild : child.Delivers xs state.child.child)
    {fuel : ℕ} (hfuel : xs.length < fuel) (output : Tuple) :
    (LimitExecutor (SortExecutor lib fuel child comparator) limit).rows lib fuel state output =
      some ((lib.sort comparator xs).take limit.toNat) := by
  have hsort := (lib.sort_perm comparator xs inferInstance).length_eq
  have hdelivers :
      (LimitExecutor (SortExecutor lib fuel child comparator) limit).Delivers _ state :=
    LimitExecutor.delivers (SortExecutor.delivers hchild hfuel)
  refine hdelivers.rows lib ?_ output
  exact (List.length_take_le' _ _).trans_lt (hsort ▸ hfuel)

/-- **Where the two plans agree**, on children that deliver the same tuples: the number of tuples
fits 32 bits, or what is left of it there does not cut the limit. -/
theorem TopNExecutor.agrees_with_limit_iff {child child' : Executor} {xs : List Tuple}
    {topN : Materialized child.State} {limited : Limited (Materialized child'.State)}
    (hchild : child.Delivers xs topN.child) (hchild' : child'.Delivers xs limited.child.child)
    {fuel : ℕ} (hfuel : xs.length < fuel) (output output' : Tuple) :
    ∃ top rows,
      (TopNExecutor lib fuel child comparator limit).rows lib fuel topN output = some top ∧
      (LimitExecutor (SortExecutor lib fuel child' comparator) limit).rows lib fuel limited
        output' = some rows ∧
      (AgreeUpToTies comparator limit xs top rows ↔
        xs.length < 2 ^ 32 ∨ limit.toNat ≤ xs.length % 2 ^ 32) := by
  have hk : clippedLimit limit xs.length ≤ xs.length :=
    (Nat.min_le_right _ _).trans (Nat.mod_le _ _)
  refine ⟨_, _, rows_eq lib comparator limit hchild hfuel output,
    LimitExecutor.sort_rows_eq lib comparator limit hchild' hfuel output', ?_⟩
  rw [agreeUpToTies_iff lib comparator limit xs _ hk, clippedLimit_eq_iff]

end TopN

/-! ### Concrete runs

The sorting functions insert; the partial one starts from the other end, and so breaks ties the
other way. -/

theorem insertionSort_sorted (comparator : TupleComparator) (xs : List Tuple)
    (h : IsStrictWeakOrder Tuple comparator.Less) :
    Sorted comparator.Less (xs.insertionSort fun a b => ¬ comparator.Less b a) := by
  have htotal : Std.Total fun a b => ¬ comparator.Less b a :=
    ⟨fun a b => (em (comparator.Less b a)).symm.imp_right (asymm_of comparator.Less)⟩
  have htrans : IsTrans Tuple fun a b => ¬ comparator.Less b a :=
    ⟨fun _ _ _ hab hbc => not_lt_trans hbc hab⟩
  exact List.pairwise_insertionSort _ xs

def insertionLib : StdLib where
  movedFrom _ := {}
  sort comparator xs := xs.insertionSort fun a b => ¬ comparator.Less b a
  partialSort comparator _ xs := xs.reverse.insertionSort fun a b => ¬ comparator.Less b a
  sort_perm _ xs _ := List.perm_insertionSort _ xs
  sort_sorted := insertionSort_sorted
  partialSort_perm _ _ xs _ _ := (List.perm_insertionSort _ _).trans xs.reverse_perm
  partialSort_partlySorted comparator k xs h _ :=
    (insertionSort_sorted comparator xs.reverse h).partlySorted k

/-- An operator without a child, which hands out a given list. -/
def TupleSource (xs : List Tuple) : Executor :=
  Materialized.executor fun (_ : Materialized Unit) => some { child := (), tuples := xs }

theorem TupleSource.delivers (xs : List Tuple) (state : Materialized Unit) :
    (TupleSource xs).Delivers xs state :=
  Materialized.delivers rfl

def byPoints : TupleComparator := fun a b => a.points < b.points

instance : IsStrictWeakOrder Tuple byPoints.Less where
  irrefl a := by simp [byPoints]
  trans a b c hab hbc := by
    simp only [TupleComparator.Less, byPoints, decide_eq_true_eq] at hab hbc ⊢
    exact UInt8.lt_trans hab hbc
  incomp_trans a b c hab hbc := by
    simp only [TupleComparator.Less, byPoints, decide_eq_true_eq, UInt8.not_lt] at hab hbc ⊢
    exact ⟨UInt8.le_trans hbc.1 hab.1, UInt8.le_trans hab.2 hbc.2⟩

/-- Three shots, two of them for the same points. -/
def threeShots : List Tuple :=
  [{ quarter := 1, points := 3 }, { quarter := 2, points := 2 }, { quarter := 3, points := 2 }]

/-- The first shot in order: one plan takes it from the third quarter, the other from the
second. -/
theorem TopNExecutor.agrees_with_limit_threeShots :
    ∃ top rows,
      (TopNExecutor insertionLib 4 (TupleSource threeShots) byPoints 1).rows insertionLib 4
        { child := { child := () } } {} = some top ∧
      (LimitExecutor (SortExecutor insertionLib 4 (TupleSource threeShots) byPoints) 1).rows
        insertionLib 4 { child := { child := { child := () } } } {} = some rows ∧
      top ≠ rows ∧ AgreeUpToTies byPoints 1 threeShots top rows := by
  have hsource := TupleSource.delivers threeShots { child := () }
  obtain ⟨top, rows, htop, hrows, hagree⟩ :=
    TopNExecutor.agrees_with_limit_iff insertionLib byPoints 1 hsource hsource
      (by decide : 3 < 4) {} {}
  refine ⟨top, rows, htop, hrows, ?_, hagree.mpr (by decide)⟩
  rintro rfl
  exact absurd (htop.trans hrows.symm) (by decide)

/-- Of 2³² equal tuples, `TopNExecutor` hands out none. -/
theorem TopNExecutor.disagrees_with_limit :
    let xs := List.replicate (2 ^ 32) ({} : Tuple)
    ∃ top rows,
      (TopNExecutor insertionLib (2 ^ 32 + 1) (TupleSource xs) byPoints 1).rows insertionLib
        (2 ^ 32 + 1) { child := { child := () } } {} = some top ∧
      (LimitExecutor (SortExecutor insertionLib (2 ^ 32 + 1) (TupleSource xs) byPoints) 1).rows
        insertionLib (2 ^ 32 + 1) { child := { child := { child := () } } } {} = some rows ∧
      ¬ AgreeUpToTies byPoints 1 xs top rows := by
  intro xs
  have hlength : xs.length = 2 ^ 32 := List.length_replicate
  clear_value xs
  have hfuel : xs.length < 2 ^ 32 + 1 := by omega
  have hk : clippedLimit 1 xs.length = 0 := by
    rw [hlength]
    decide
  refine ⟨_, _, rows_eq insertionLib byPoints 1
      (TupleSource.delivers xs { child := () }) hfuel {},
    LimitExecutor.sort_rows_eq insertionLib byPoints 1
      (TupleSource.delivers xs { child := () }) hfuel {}, ?_⟩
  intro hagree
  have hsame := (agreeUpToTies_iff insertionLib byPoints 1 xs _ (by omega)).mp hagree
  rw [hk, hlength] at hsame
  exact absurd hsame (by decide)

end CourtDB
