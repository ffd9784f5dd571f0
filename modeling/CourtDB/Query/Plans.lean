/-
# Plans, and the caller's tuple

`Next` is called with a tuple of the caller's, and what it leaves there may depend on what was in
it.  `Produces` says of an operator how: it fills one tuple after the other by a list of functions,
and is exhausted for ever after.  A function that ignores its argument is a whole row; one that does
not is a row with holes, through which the caller's tuple shows.

Every operator has one lemma that says what it produces from what its child produces, for any
contents of the tuples that it passes itself: fresh ones, the one it has just read
(`AggregationExecutor::Init`, `FilterExecutor::Next`), or the one it has just moved from
(`SortExecutor::Init`, `TopNExecutor::Init`).  What a moved-from tuple holds is not said by the
language, so it is a parameter of the library (`StdLib`), and another one for each operator.

Every operator has one child, so a plan is the list of its operators, the root first, over a source
of tuples (`Plan`).  The lemmas are composed by induction on that list (`Plan.producesFrom`), and
`calls` bounds the calls that the loops of the plan make, so that enough fuel can be named.

`init` of an operator begins anew in whatever state it is called, as `Reset` does in the source:
what it produces is what it would produce the first time.
-/
import CourtDB.Query.Aggregation

namespace CourtDB

/-! ## 1. What an operator produces

`Fills` is about a state, `Produces` about every state.  The leaves of a plan may need to be in some
state before their `Init`, as the pool must have a frame for a scan; for that there is
`ProducesFrom`. -/

namespace Executor

variable {executor : Executor} {state : executor.State} {fs : List Fill}

/-- `Next` returns false, now and for ever. -/
def Exhausted (executor : Executor) (state : executor.State) : Prop :=
  ∃ Out : executor.State → Prop, Out state ∧ ∀ s, Out s → ∀ output, ∃ output' s',
    executor.next s output = some (false, output', s') ∧ Out s'

/-- `Next` fills the caller's tuples by `fs`, and then there are no more. -/
def Fills (executor : Executor) : List Fill → executor.State → Prop
  | [], state => executor.Exhausted state
  | f :: fs, state => ∀ output, ∃ state', executor.next state output
      = some (true, f output, state') ∧
      executor.Fills fs state'

/-- `Init`, in whatever state, is the beginning of `fs`. -/
def Produces (executor : Executor) (fs : List Fill) : Prop :=
  ∀ state, ∃ state', executor.init state = some state' ∧ executor.Fills fs state'

/-- `Init`, in a state that is `Ready`, is the beginning of `fs`. -/
def ProducesFrom (executor : Executor) (Ready : executor.State → Prop) (fs : List Fill) : Prop :=
  ∀ state, Ready state → ∃ state', executor.init state = some state' ∧ executor.Fills fs state'

theorem Exhausted.next (h : executor.Exhausted state) (output : Tuple) :
    ∃ output' state', executor.next state output = some (false, output', state') ∧
      executor.Exhausted state' := by
  obtain ⟨Out, hout, hstep⟩ := h
  obtain ⟨output', state', hnext, hout'⟩ := hstep state hout output
  exact ⟨output', state', hnext, Out, hout', hstep⟩

theorem Fills.pulls (h : executor.Fills fs state) : executor.Pulls fs state := by
  induction fs generalizing state with
  | nil =>
    intro output
    obtain ⟨output', state', hnext, -⟩ := h.next output
    exact ⟨output', state', hnext⟩
  | cons f fs ih =>
    intro output
    obtain ⟨state', hnext, hrest⟩ := h output
    exact ⟨state', hnext, ih hrest⟩

/-- An operator whose state says what is left. -/
theorem Fills.of_rest (rest : executor.State → List Fill)
    (hstop : ∀ s, rest s = [] → ∀ output, executor.next s output = some (false, output, s))
    (hnext : ∀ s f fs, rest s = f :: fs → ∀ output, ∃ s',
      executor.next s output = some (true, f output, s') ∧ rest s' = fs)
    (state : executor.State) : executor.Fills (rest state) state := by
  generalize hfs : rest state = fs
  induction fs generalizing state with
  | nil => exact ⟨fun s => rest s = [], hfs, fun s hs output => ⟨output, s, hstop s hs output, hs⟩⟩
  | cons f fs ih =>
    intro output
    obtain ⟨state', heq, hrest⟩ := hnext state f fs hfs output
    exact ⟨state', heq, ih state' hrest⟩

end Executor

open Executor

/-- The rows of a list behind an index. -/
theorem drop_eq_cons {α : Type} {l rest : List α} {i : ℕ} {a : α} (h : l.drop i = a :: rest) :
    l[i]? = some a ∧ l.drop (i + 1) = rest := by
  constructor
  · rw [← List.head?_drop, h, List.head?_cons]
  · rw [← List.drop_drop, h, List.drop_one, List.tail_cons]

/-! ## 2. The operators

One lemma each, in the order of the source.  A filter reads on until a tuple passes, and passes its
own tuple down each time; a limit counts; a sort, a top-n and an aggregation read everything in
`Init` and then hand out what they have kept. -/

section Operators

variable {lib : StdLib} {fuel : ℕ} {child : Executor} {Ready : child.State → Prop} {fs : List Fill}

/-- The tuples that pass the predicate, each as it was read. -/
def FilterExecutor.passed (predicate : Tuple → Bool) : List Fill → Tuple → List Tuple
  | [], _ => []
  | f :: fs, tuple =>
    if predicate (f tuple) then f tuple :: passed predicate fs {} else passed predicate fs (f tuple)

/-- **The loop of `Next`** runs to the end, or to the first tuple that passes. -/
theorem FilterExecutor.pull_eq {predicate : Tuple → Bool} {state : child.State}
    (h : child.Fills fs state) (hfuel : fs.length < fuel) (tuple : Tuple) :
    (passed predicate fs tuple = [] ∧
      ∃ state', pull child predicate fuel state tuple = some (none, state') ∧
        child.Exhausted state') ∨
    ∃ x gs state', passed predicate fs tuple = x :: passed predicate gs {} ∧
      gs.length < fs.length ∧ pull child predicate fuel state tuple = some (some x, state') ∧
      child.Fills gs state' := by
  induction fs generalizing state fuel tuple with
  | nil =>
    obtain ⟨fuel, rfl⟩ := Nat.exists_eq_add_of_lt hfuel
    obtain ⟨output', state', hnext, hout⟩ := h.next tuple
    exact Or.inl ⟨rfl, state', by simp [pull, hnext], hout⟩
  | cons f fs ih =>
    obtain ⟨fuel, rfl⟩ := Nat.exists_eq_add_of_lt hfuel
    obtain ⟨state', hnext, hrest⟩ := h tuple
    by_cases hpass : predicate (f tuple) = true
    · refine Or.inr ⟨f tuple, fs, state', ?_, Nat.lt_succ_self _, ?_, hrest⟩
      · rw [passed, if_pos hpass]
      · simp [pull, hnext, hpass]
    · have hleft : fs.length < fs.length + 1 + fuel := by omega
      have hpulled : pull child predicate (fs.length + 1 + fuel + 1) state tuple =
          pull child predicate (fs.length + 1 + fuel) state' (f tuple) := by
        simp [pull, hnext, hpass]
      rw [passed, if_neg hpass, List.length_cons, hpulled]
      rcases ih hrest hleft (f tuple) with hnone | ⟨x, gs, last, hx, hlen, hpull, hgs⟩
      · exact Or.inl hnone
      · exact Or.inr ⟨x, gs, last, hx, Nat.lt_succ_of_lt hlen, hpull, hgs⟩

theorem FilterExecutor.exhausted {predicate : Tuple → Bool} {state : child.State}
    (h : child.Exhausted state) (hfuel : 0 < fuel) :
    (FilterExecutor fuel child predicate).Exhausted state := by
  obtain ⟨fuel, rfl⟩ := Nat.exists_eq_add_of_lt hfuel
  refine ⟨child.Exhausted, h, fun s hs output => ?_⟩
  obtain ⟨output', s', hnext, hs'⟩ := hs.next {}
  exact ⟨output, s', by simp [FilterExecutor, pull, hnext], hs'⟩

theorem FilterExecutor.fills {predicate : Tuple → Bool} {state : child.State}
    (h : child.Fills fs state) (hfuel : fs.length < fuel) :
    (FilterExecutor fuel child predicate).Fills
      ((passed predicate fs {}).map fun x _ => x) state := by
  induction hn : fs.length using Nat.strong_induction_on generalizing fs state with
  | _ n ih =>
    subst hn
    rcases @pull_eq fuel child fs predicate state h hfuel {} with
      ⟨hnil, state', hpull, hout⟩ | ⟨x, gs, state', hx, hlen, hpull, hgs⟩
    · rw [hnil]
      have hfalse : (FilterExecutor fuel child predicate).Exhausted state' :=
        exhausted hout (Nat.zero_lt_of_lt hfuel)
      refine ⟨fun s => s = state ∨ (FilterExecutor fuel child predicate).Exhausted s,
        Or.inl rfl, ?_⟩
      rintro s (rfl | hs) output
      · exact ⟨output, state', by simp [FilterExecutor, hpull], Or.inr hfalse⟩
      · obtain ⟨output', s', hnext, hs'⟩ := hs.next output
        exact ⟨output', s', hnext, Or.inr hs'⟩
    · rw [hx]
      intro output
      exact ⟨state', by simp [FilterExecutor, hpull], ih _ hlen hgs (hlen.trans hfuel) rfl⟩

theorem FilterExecutor.producesFrom {predicate : Tuple → Bool} (h : child.ProducesFrom Ready fs)
    (hfuel : fs.length < fuel) :
    (FilterExecutor fuel child predicate).ProducesFrom Ready
      ((passed predicate fs {}).map fun x _ => x) := by
  intro state hready
  obtain ⟨state', hinit, hfills⟩ := h state hready
  exact ⟨state', hinit, fills hfills hfuel⟩

theorem ProjectionExecutor.fills {projection : Tuple → Tuple} {state : child.State}
    (h : child.Fills fs state) :
    (ProjectionExecutor child projection).Fills (fs.map fun f _ => projection (f {})) state := by
  induction fs generalizing state with
  | nil =>
    refine ⟨child.Exhausted, h, fun s hs output => ?_⟩
    obtain ⟨output', s', hnext, hs'⟩ := hs.next {}
    exact ⟨output, s', by simp [ProjectionExecutor, hnext], hs'⟩
  | cons f fs ih =>
    intro output
    obtain ⟨state', hnext, hrest⟩ := h {}
    exact ⟨state', by simp [ProjectionExecutor, hnext], ih hrest⟩

theorem ProjectionExecutor.producesFrom {projection : Tuple → Tuple}
    (h : child.ProducesFrom Ready fs) : (ProjectionExecutor child projection).ProducesFrom Ready
      (fs.map fun f _ => projection (f {})) := by
  intro state hready
  obtain ⟨state', hinit, hfills⟩ := h state hready
  exact ⟨state', hinit, fills hfills⟩

/-- A limit that is reached stays reached. -/
theorem LimitExecutor.exhausted {limit : UInt32} {state : Limited child.State}
    (h : limit ≤ state.emitted ∨ child.Exhausted state.child) :
    (LimitExecutor child limit).Exhausted state := by
  refine ⟨fun s => limit ≤ s.emitted ∨ child.Exhausted s.child, h, fun s hs output => ?_⟩
  by_cases hfull : limit ≤ s.emitted
  · exact ⟨output, s, by simp [LimitExecutor, hfull], Or.inl hfull⟩
  · obtain ⟨output', childState, hnext, hout⟩ := (hs.resolve_left hfull).next {}
    exact ⟨output, { s with child := childState }, by simp [LimitExecutor, hfull, hnext],
      Or.inr hout⟩

theorem LimitExecutor.fills {limit : UInt32} {state : Limited child.State}
    (h : child.Fills fs state.child) :
    (LimitExecutor child limit).Fills
      ((fs.take (limit.toNat - state.emitted.toNat)).map fun f _ => f {}) state := by
  induction fs generalizing state with
  | nil => rw [List.take_nil]; exact exhausted (Or.inr h)
  | cons f fs ih =>
    by_cases hfull : limit ≤ state.emitted
    · rw [Nat.sub_eq_zero_of_le (UInt32.le_iff_toNat_le.mp hfull), List.take_zero]
      exact exhausted (Or.inl hfull)
    · obtain ⟨n, hn, hleft⟩ := left_of_not_full hfull
      rw [hn, List.take_succ_cons, List.map_cons]
      intro output
      obtain ⟨childState, hnext, hrest⟩ := h {}
      refine ⟨{ child := childState, emitted := state.emitted + 1 }, ?_, ?_⟩
      · simp [LimitExecutor, hfull, hnext]
      · rw [← hleft]
        exact @ih { child := childState, emitted := state.emitted + 1 } hrest

theorem LimitExecutor.producesFrom {limit : UInt32} (h : child.ProducesFrom Ready fs) :
    (LimitExecutor child limit).ProducesFrom (fun state => Ready (Limited.child state))
      ((fs.take limit.toNat).map fun f _ => f {}) := by
  intro state hready
  obtain ⟨childState, hinit, hfills⟩ := h _ hready
  refine ⟨{ child := childState }, by simp [LimitExecutor, hinit], ?_⟩
  exact @fills child fs limit { child := childState } hfills

/-- The operators that keep tuples hand them out as they are. -/
theorem Materialized.fills {σ : Type} (init : Materialized σ → Option (Materialized σ))
    (state : Materialized σ) :
    (Materialized.executor init).Fills
      ((state.tuples.drop state.currentIdx).map fun x _ => x) state := by
  refine @Fills.of_rest (Materialized.executor init)
    (fun s : Materialized σ => (s.tuples.drop s.currentIdx).map fun x _ => x) ?_ ?_ state
  · intro s hnil output
    have hlen := List.drop_eq_nil_iff.mp (List.map_eq_nil_iff.mp hnil)
    simp [Materialized.executor, Materialized.next, hlen]
  · intro s f fs hcons output
    obtain ⟨x, xs, hdrop, rfl, hrest⟩ := List.map_eq_cons_iff.mp hcons
    obtain ⟨hget, htail⟩ := drop_eq_cons hdrop
    refine ⟨{ s with currentIdx := s.currentIdx + 1 }, ?_, by rw [htail, hrest]⟩
    simp [Materialized.executor, Materialized.next, hget]

theorem SortExecutor.producesFrom {comparator : TupleComparator} (h : child.ProducesFrom Ready fs)
    (hfuel : fs.length < fuel) :
    (SortExecutor lib fuel child comparator).ProducesFrom
      (fun state => Ready (Materialized.child state))
      ((lib.sort comparator (collect lib.movedFrom fs {})).map fun x _ => x) := by
  intro state hready
  obtain ⟨first, hinit, hfills⟩ := h _ hready
  obtain ⟨last, hdrain⟩ := hfills.pulls.drain lib hfuel {} []
  exact ⟨_, init_eq hinit hdrain, Materialized.fills _ { child := last, tuples := _ }⟩

theorem TopNExecutor.producesFrom {comparator : TupleComparator} {limit : UInt32}
    (h : child.ProducesFrom Ready fs) (hfuel : fs.length < fuel) :
    (TopNExecutor lib fuel child comparator limit).ProducesFrom
      (fun state => Ready (Materialized.child state))
      ((topTuples lib comparator limit (collect lib.movedFrom fs {})).map fun x _ => x) := by
  intro state hready
  obtain ⟨first, hinit, hfills⟩ := h _ hready
  obtain ⟨last, hdrain⟩ := hfills.pulls.drain lib hfuel {} []
  exact ⟨_, init_eq hinit hdrain, Materialized.fills _ { child := last, tuples := _ }⟩

end Operators

section Aggregation

variable {V : Type} [DoubleArith V] {order : MapOrder} {fuel : ℕ} {child : Executor}
  {Ready : child.State → Prop} {fs : List Fill} {groupKeyExtractor : GroupKeyExtractor}
    {aggSpecs : List (AggSpec V)}

/-- The results go to some of the fields only. -/
theorem AggregationExecutor.fills (state : Aggregated V child.State) :
    (AggregationExecutor order fuel child groupKeyExtractor aggSpecs).Fills
      ((state.results.drop state.currentIdx).map AggResult.encode) state := by
  refine @Fills.of_rest (AggregationExecutor order fuel child groupKeyExtractor aggSpecs)
    (fun s : Aggregated V child.State => (s.results.drop s.currentIdx).map AggResult.encode)
    ?_ ?_ state
  · intro s hnil output
    have hlen := List.drop_eq_nil_iff.mp (List.map_eq_nil_iff.mp hnil)
    simp [AggregationExecutor, hlen]
  · intro s f fs hcons output
    obtain ⟨x, xs, hdrop, rfl, hrest⟩ := List.map_eq_cons_iff.mp hcons
    obtain ⟨hget, htail⟩ := drop_eq_cons hdrop
    refine ⟨{ s with currentIdx := s.currentIdx + 1 }, ?_, by rw [htail, hrest]⟩
    simp [AggregationExecutor, hget]

theorem AggregationExecutor.producesFrom (h : child.ProducesFrom Ready fs)
    (hfuel : fs.length < fuel) :
    (AggregationExecutor order fuel child groupKeyExtractor aggSpecs).ProducesFrom
      (fun state => Ready (Aggregated.child state))
      ((resultsOf order groupKeyExtractor aggSpecs (collect id fs {})).map AggResult.encode) := by
  intro state hready
  obtain ⟨first, hinit, hfills⟩ := h _ hready
  obtain ⟨last, heq⟩ := @init_eq_of_pulls V _ order fuel child groupKeyExtractor aggSpecs _ state _
    hinit hfills.pulls hfuel
  exact ⟨_, heq, fills { child := last, results := _ }⟩

end Aggregation

/-! ## 3. Plans

An operator with its functions, and the executor of the list.  The state of a plan is nested, each
operator holding that of its child. -/

/-- An operator, with its functions. -/
inductive Operator (V : Type)
  | filter (predicate : Tuple → Bool)
  | projection (projection : Tuple → Tuple)
  | limit (limit : UInt32)
  | sort (comparator : TupleComparator)
  | topN (comparator : TupleComparator) (limit : UInt32)
  | aggregation (groupKeyExtractor : GroupKeyExtractor) (aggSpecs : List (AggSpec V))

/-- What a plan reads from: an executor that overwrites the caller's tuple with its own. -/
structure Source where
  executor : Executor
  tuples : List Tuple
  produces : executor.Produces (tuples.map fun x _ => x)
  start : executor.State

structure Plan (V : Type) where
  operators : List (Operator V)
  source : Source

/-- The library, with other contents for moved-from tuples. -/
def StdLib.moving (lib : StdLib) (movedFrom : Tuple → Tuple) : StdLib :=
  { lib with movedFrom := movedFrom }

section Plans

variable {V : Type} [DoubleArith V]

def Operator.executor (lib : StdLib) (order : MapOrder) (fuel : ℕ) (child : Executor) :
    Operator V → Executor
  | .filter predicate => FilterExecutor fuel child predicate
  | .projection project => ProjectionExecutor child project
  | .limit count => LimitExecutor child count
  | .sort comparator => SortExecutor lib fuel child comparator
  | .topN comparator count => TopNExecutor lib fuel child comparator count
  | .aggregation groupKeyExtractor aggSpecs =>
    AggregationExecutor order fuel child groupKeyExtractor aggSpecs

/-- The state of the child. -/
def Operator.childState {lib : StdLib} {order : MapOrder} {fuel : ℕ} {child : Executor} :
    (operator : Operator V) → (operator.executor lib order fuel child).State → child.State
  | .filter _, state => state
  | .projection _, state => state
  | .limit _, state => Limited.child state
  | .sort _, state => Materialized.child state
  | .topN _ _, state => Materialized.child state
  | .aggregation _ _, state => Aggregated.child state

/-- The state before the first `Init`. -/
def Operator.start {lib : StdLib} {order : MapOrder} {fuel : ℕ} {child : Executor} :
    (operator : Operator V) → child.State → (operator.executor lib order fuel child).State
  | .filter _, state => state
  | .projection _, state => state
  | .limit _, state => ({ child := state } : Limited child.State)
  | .sort _, state => ({ child := state } : Materialized child.State)
  | .topN _ _, state => ({ child := state } : Materialized child.State)
  | .aggregation _ _, state => ({ child := state } : Aggregated V child.State)

/-- What it produces over a child that produces `fs`. -/
def Operator.fills (lib : StdLib) (order : MapOrder) (fs : List Fill) : Operator V → List Fill
  | .filter predicate => (FilterExecutor.passed predicate fs {}).map fun x _ => x
  | .projection project => fs.map fun f _ => project (f {})
  | .limit count => (fs.take count.toNat).map fun f _ => f {}
  | .sort comparator => (lib.sort comparator (collect lib.movedFrom fs {})).map fun x _ => x
  | .topN comparator count =>
    (TopNExecutor.topTuples lib comparator count (collect lib.movedFrom fs {})).map fun x _ => x
  | .aggregation groupKeyExtractor aggSpecs =>
    (AggregationExecutor.resultsOf order groupKeyExtractor aggSpecs (collect id fs {})).map
      AggResult.encode

theorem Operator.producesFrom {lib : StdLib} {order : MapOrder} {fuel : ℕ} {child : Executor}
    {Ready : child.State → Prop} {fs : List Fill} (h : child.ProducesFrom Ready fs)
    (hfuel : fs.length < fuel) (operator : Operator V) :
    (operator.executor lib order fuel child).ProducesFrom
      (fun state => Ready (operator.childState state)) (operator.fills lib order fs) := by
  cases operator with
  | filter predicate => exact FilterExecutor.producesFrom h hfuel
  | projection project => exact ProjectionExecutor.producesFrom h
  | limit count => exact LimitExecutor.producesFrom h
  | sort comparator => exact SortExecutor.producesFrom h hfuel
  | topN comparator count => exact TopNExecutor.producesFrom h hfuel
  | aggregation groupKeyExtractor aggSpecs => exact AggregationExecutor.producesFrom h hfuel

namespace Plan

variable (lib : StdLib) (order : MapOrder) (fuel : ℕ) (moved : ℕ → Tuple → Tuple)

/-- The operators `operators` over a leaf.  `moved n` is what the operator with `n` others below
it finds in a tuple that it has moved from. -/
def build (leaf : Executor) : List (Operator V) → Executor
  | [] => leaf
  | operator :: operators =>
    operator.executor (lib.moving (moved operators.length)) order fuel (build leaf operators)

def executor (plan : Plan V) : Executor :=
  build lib order fuel moved plan.source.executor plan.operators

variable {lib order fuel moved} in
/-- The state of the leaf. -/
def leafState {leaf : Executor} : (operators : List (Operator V)) →
    (build lib order fuel moved leaf operators).State → leaf.State
  | [], state => state
  | operator :: operators, state => leafState operators (operator.childState state)

/-- The state before the first `Init`. -/
def start {leaf : Executor} (state : leaf.State) :
    (operators : List (Operator V)) → (build lib order fuel moved leaf operators).State
  | [] => state
  | operator :: operators => operator.start (start state operators)

def fillsOf (source : Source) : List (Operator V) → List Fill
  | [] => source.tuples.map fun x _ => x
  | operator :: operators =>
    operator.fills (lib.moving (moved operators.length)) order (fillsOf source operators)

/-- How many calls the loops of the plan make at most. -/
def calls (source : Source) : List (Operator V) → ℕ
  | [] => 0
  | _ :: operators =>
    max ((fillsOf lib order moved source operators).length + 1) (calls source operators)

variable {lib order fuel moved} {source : Source}

/-- **What a plan produces**, over any leaf that hands out the tuples of the source. -/
theorem producesFrom {leaf : Executor} {Ready : leaf.State → Prop}
    (h : leaf.ProducesFrom Ready (source.tuples.map fun x _ => x)) {operators : List (Operator V)}
    (hfuel : calls lib order moved source operators ≤ fuel) :
    (build lib order fuel moved leaf operators).ProducesFrom
      (fun state => Ready (leafState operators state))
      (fillsOf lib order moved source operators) := by
  induction operators with
  | nil => exact h
  | cons operator operators ih =>
    obtain ⟨hlast, hrest⟩ := max_le_iff.mp hfuel
    exact Operator.producesFrom (ih hrest) hlast operator

theorem produces {operators : List (Operator V)}
    (hfuel : calls lib order moved source operators ≤ fuel) :
    (build lib order fuel moved source.executor operators).Produces
      (fillsOf lib order moved source operators) := fun state =>
  producesFrom (fun state (_ : True) => source.produces state) hfuel state trivial

end Plan

end Plans

/-! ## 4. Runs

What a user sees of a plan.  The tuples that the user passes are part of the call, because what is
in them may show. -/

/-- A call of an operator that has been initialised. -/
inductive Call
  | reset
  | next (output : Tuple)

/-- The same call, but for what the caller's tuple holds. -/
inductive Call.Same : Call → Call → Prop
  | reset : Same .reset .reset
  | next (output output' : Tuple) : Same (.next output) (.next output')

namespace Executor

/-- What the caller sees: of each `Next` whether it returned true, and then the tuple. -/
def observe (executor : Executor) : List Call → executor.State → Option (List (Option Tuple))
  | [], _ => some []
  | .reset :: calls, state => do
    let state ← executor.init state
    executor.observe calls state
  | .next output :: calls, state => do
    let (found, tuple, state) ← executor.next state output
    let seen ← executor.observe calls state
    return (if found then some tuple else none) :: seen

/-- A run: `Init`, then the calls. -/
def run (executor : Executor) (calls : List Call) (state : executor.State) :
    Option (List (Option Tuple)) :=
  executor.observe (.reset :: calls) state

variable {executor executor' : Executor} {xs : List Tuple}

/-- **Two operators that write the same whole tuples** look the same, whatever the caller's tuples
hold. -/
theorem observe_eq (h : executor.Produces (xs.map fun x _ => x))
    (h' : executor'.Produces (xs.map fun x _ => x)) {calls calls' : List Call}
    (hcalls : List.Forall₂ Call.Same calls calls') {ys : List Tuple} {state : executor.State}
    {state' : executor'.State} (hfills : executor.Fills (ys.map fun x _ => x) state)
    (hfills' : executor'.Fills (ys.map fun x _ => x) state') :
    ∃ seen, executor.observe calls state = some seen ∧
      executor'.observe calls' state' = some seen := by
  induction hcalls generalizing ys state state' with
  | nil => exact ⟨[], rfl, rfl⟩
  | cons hcall _ ih =>
    cases hcall with
    | reset =>
      obtain ⟨first, hinit, hfirst⟩ := h state
      obtain ⟨first', hinit', hfirst'⟩ := h' state'
      obtain ⟨seen, hseen, hseen'⟩ := ih hfirst hfirst'
      exact ⟨seen, by simp [observe, hinit, hseen], by simp [observe, hinit', hseen']⟩
    | next output output' =>
      cases ys with
      | nil =>
        obtain ⟨tuple, rest, hnext, hrest⟩ := Exhausted.next hfills output
        obtain ⟨tuple', rest', hnext', hrest'⟩ := Exhausted.next hfills' output'
        obtain ⟨seen, hseen, hseen'⟩ := @ih [] rest rest' hrest hrest'
        exact ⟨none :: seen, by simp [observe, hnext, hseen], by simp [observe, hnext', hseen']⟩
      | cons y ys =>
        obtain ⟨rest, hnext, hrest⟩ := hfills output
        obtain ⟨rest', hnext', hrest'⟩ := hfills' output'
        obtain ⟨seen, hseen, hseen'⟩ := ih hrest hrest'
        exact ⟨some y :: seen, by simp [observe, hnext, hseen], by simp [observe, hnext', hseen']⟩

theorem run_eq (h : executor.Produces (xs.map fun x _ => x))
    (h' : executor'.Produces (xs.map fun x _ => x)) {calls calls' : List Call}
    (hcalls : List.Forall₂ Call.Same calls calls') (state : executor.State)
    (state' : executor'.State) :
    ∃ seen, executor.run calls state = some seen ∧ executor'.run calls' state' = some seen := by
  obtain ⟨first, hinit, hfirst⟩ := h state
  obtain ⟨first', hinit', hfirst'⟩ := h' state'
  obtain ⟨seen, hseen, hseen'⟩ := observe_eq h h' hcalls hfirst hfirst'
  exact ⟨seen, by simp [run, observe, hinit, hseen], by simp [run, observe, hinit', hseen']⟩

/-- The tuples of a run that passes the same tuple `n` times. -/
theorem mem_observe_replicate {fs : List Fill} (n : ℕ) (tuple : Tuple) {state : executor.State}
    (h : executor.Fills fs state) :
    ∃ seen, executor.observe (List.replicate n (.next tuple)) state = some seen ∧
      ∀ x, some x ∈ seen ↔ ∃ f ∈ fs.take n, f tuple = x := by
  induction n generalizing fs state with
  | zero => exact ⟨[], rfl, by simp⟩
  | succ n ih =>
    cases fs with
    | nil =>
      obtain ⟨tuple', rest, hnext, hrest⟩ := Exhausted.next h tuple
      obtain ⟨seen, hseen, hmem⟩ := @ih [] rest hrest
      refine ⟨none :: seen, by simp [List.replicate_succ, observe, hnext, hseen], fun x => ?_⟩
      simpa using hmem x
    | cons f fs =>
      obtain ⟨rest, hnext, hrest⟩ := h tuple
      obtain ⟨seen, hseen, hmem⟩ := ih hrest
      refine ⟨some (f tuple) :: seen, by simp [List.replicate_succ, observe, hnext, hseen],
        fun x => ?_⟩
      simp [hmem, eq_comm]

theorem run_replicate {fs : List Fill} (h : executor.Produces fs) (n : ℕ) (tuple : Tuple)
    (state : executor.State) :
    ∃ seen, executor.run (List.replicate n (.next tuple)) state = some seen ∧
      ∀ x, some x ∈ seen ↔ ∃ f ∈ fs.take n, f tuple = x := by
  obtain ⟨first, hinit, hfills⟩ := h state
  obtain ⟨seen, hseen, hmem⟩ := mem_observe_replicate n tuple hfills
  exact ⟨seen, by simp [run, observe, hinit, hseen], hmem⟩

end Executor

end CourtDB
