/-
# The calls of a plan

The operators of a plan reach its leaf through `Init` and `Next` only: `Init` of the plan calls the
leaf's `Init` once and then its `Next`, and `Next` of the plan calls only `Next`.  So what these two
calls keep true of the leaf, the calls of the plan keep true (`Plan.keeps`), whatever the operators
do with the tuples and however early they stop.

`Keeps` is that contract, for one executor.  It is stated with the tuples left: `Live k` is a state
after which the leaf hands out at most `k` tuples more, and each `Next` that returns a tuple takes
one of them.  With it every loop of the plan ends: a filter passes over at most `k` tuples, and
`Init` of a sort, a top-n or an aggregation, which reads its child to the end, calls `Next` at most
`k + 1` times.

There is one lemma for each operator, that it keeps what its child keeps, and the plan is an
induction on its operators.  Nothing is said of the rows here: this is about which calls reach the
leaf, in which states, and that they come to an end.
-/
import CourtDB.Query.Plans

namespace CourtDB

/-- `Init` makes a `Ready` state `Live`, and `Next` keeps it so.  `Live k` is a state with at most
`k` tuples left. -/
structure Keeps (executor : Executor) (Ready : executor.State → Prop)
    (Live : ℕ → executor.State → Prop) (n : ℕ) : Prop where
  init : ∀ state, Ready state → ∃ state', executor.init state = some state' ∧ Live n state'
  next : ∀ k state, Live k state → ∀ output, ∃ found output' state' left,
    executor.next state output = some (found, output', state') ∧ Live left state' ∧ left ≤ k ∧
      (found = true → left < k)
  le : ∀ k state, Live k state → k ≤ n

/-! ## 1. Loops

The loops that call `Next` of a child: until a tuple passes (`pull`), until there is none (`drain`,
`groups`), and the caller's own loop (`nexts`). -/

/-- `Next`, once with each of the caller's tuples. -/
def Executor.nexts (executor : Executor) : List Tuple → executor.State → Option executor.State
  | [], state => some state
  | output :: outputs, state => do
    let (_, _, state) ← executor.next state output
    executor.nexts outputs state

section Loops

variable {child : Executor} {Ready : child.State → Prop} {Live : ℕ → child.State → Prop} {n : ℕ}
  (h : Keeps child Ready Live n)

include h

/-- The loop of a filter asks its child for tuples until one passes, or none is left. -/
theorem Keeps.pull (predicate : Tuple → Bool) {fuel k : ℕ} {state : child.State} (hk : k < fuel)
    (hlive : Live k state) (tuple : Tuple) :
    ∃ found state' left, FilterExecutor.pull child predicate fuel state tuple
      = some (found, state') ∧ Live left state' ∧ left ≤ k ∧ (found.isSome = true → left < k) := by
  induction fuel generalizing k state tuple with
  | zero => exact absurd hk (Nat.not_lt_zero k)
  | succ fuel ih =>
    obtain ⟨found, tuple', state', left, hnext, hlive', hle, hlt⟩ := h.next k state hlive tuple
    cases found with
    | false => exact ⟨none, state', left, by simp [FilterExecutor.pull, hnext], hlive',
        hle, by simp⟩
    | true =>
      have hless := hlt rfl
      by_cases hpass : predicate tuple' = true
      · exact ⟨some tuple', state', left, by simp [FilterExecutor.pull, hnext, hpass], hlive', hle,
          fun _ => hless⟩
      · obtain ⟨found, last, rest, hpull, hlast, hle', hlt'⟩ := ih (by omega) hlive' tuple'
        refine ⟨found, last, rest, by simp [FilterExecutor.pull, hnext, hpass, hpull], hlast,
          by omega, fun hsome => ?_⟩
        exact (hlt' hsome).trans hless

/-- The loop of `Sort` and `TopN` takes all tuples that are left. -/
theorem Keeps.drain (lib : StdLib) {fuel k : ℕ} {state : child.State} (hk : k < fuel)
    (hlive : Live k state) (tuple : Tuple) (tuples : List Tuple) :
    ∃ xs state' left, child.drain lib fuel state tuple tuples = some (tuples ++ xs, state') ∧
      xs.length ≤ k ∧ Live left state' := by
  induction fuel generalizing k state tuple tuples with
  | zero => exact absurd hk (Nat.not_lt_zero k)
  | succ fuel ih =>
    obtain ⟨found, tuple', state', left, hnext, hlive', hle, hlt⟩ := h.next k state hlive tuple
    cases found with
    | false =>
      exact ⟨[], state', left, by simp [Executor.drain, hnext], Nat.zero_le k, hlive'⟩
    | true =>
      have hless := hlt rfl
      obtain ⟨xs, last, rest, hdrain, hlen, hlast⟩ :=
        ih (by omega) hlive' (lib.movedFrom tuple') (tuples ++ [tuple'])
      refine ⟨tuple' :: xs, last, rest, ?_, by rw [List.length_cons]; omega, hlast⟩
      rw [List.append_assoc] at hdrain
      simpa [Executor.drain, hnext] using hdrain

/-- The loop of an aggregation takes all tuples that are left. -/
theorem Keeps.groups {V : Type} [DoubleArith V] (groupKeyExtractor : GroupKeyExtractor)
    (aggSpecs : List (AggSpec V)) {fuel k : ℕ} {state : child.State} (hk : k < fuel)
    (hlive : Live k state) (tuple : Tuple) (table : List (GroupKey × GroupAccumulator V)) :
    ∃ (xs : List Tuple) (state' : child.State) (left : ℕ),
      AggregationExecutor.groups child groupKeyExtractor aggSpecs fuel state tuple table
        = some (xs.foldl (fun table x => Grouping.upsert (groupKeyExtractor x) {}
            (fun acc => acc.accumulate aggSpecs x) table) table, state') ∧
      xs.length ≤ k ∧ Live left state' := by
  induction fuel generalizing k state tuple table with
  | zero => exact absurd hk (Nat.not_lt_zero k)
  | succ fuel ih =>
    obtain ⟨found, tuple', state', left, hnext, hlive', hle, hlt⟩ := h.next k state hlive tuple
    cases found with
    | false =>
      exact ⟨[], state', left, by simp [AggregationExecutor.groups, hnext], Nat.zero_le k, hlive'⟩
    | true =>
      have hless := hlt rfl
      obtain ⟨xs, last, rest, hgroups, hlen, hlast⟩ := ih (by omega) hlive' tuple' _
      refine ⟨tuple' :: xs, last, rest, ?_, by rw [List.length_cons]; omega, hlast⟩
      simpa [AggregationExecutor.groups, hnext] using hgroups

/-- A caller may ask for tuples as often as it likes. -/
theorem Keeps.nexts (outputs : List Tuple) {k : ℕ} {state : child.State} (hlive : Live k state) :
    ∃ state' left, child.nexts outputs state = some state' ∧ Live left state' := by
  induction outputs generalizing k state with
  | nil => exact ⟨state, k, rfl, hlive⟩
  | cons output outputs ih =>
    obtain ⟨found, output', state', left, hnext, hlive', -⟩ := h.next k state hlive output
    obtain ⟨last, rest, hnexts, hlast⟩ := ih hlive'
    exact ⟨last, rest, by simp [Executor.nexts, hnext, hnexts], hlast⟩

end Loops

/-! ## 2. Operators

Operators that keep tuples (`Materialized`, `Aggregated`) read their child in `Init` and never
again, so after `Init` any live state of the child will do.  The others call the child in each
`Next`. -/

section Operators

variable {V : Type} [DoubleArith V] {lib : StdLib} {order : MapOrder} {fuel : ℕ}
  {child : Executor} {Ready : child.State → Prop} {Live : ℕ → child.State → Prop} {n : ℕ}

/-- What `std::sort` asks of a comparator. -/
def Operator.Ordered : Operator V → Prop
  | .sort comparator => IsStrictWeakOrder Tuple comparator.Less
  | .filter _ | .projection _ | .limit _ | .topN _ _ | .aggregation _ _ => True

/-- A live state of an operator over a live child. -/
def Operator.LiveOver (Live : ℕ → child.State → Prop) (n k : ℕ) :
    (operator : Operator V) → (operator.executor lib order fuel child).State → Prop
  | .filter _, state => Live k state
  | .projection _, state => Live k state
  | .limit _, state => Live k (Limited.child state)
  | .sort _, state | .topN _ _, state => (∃ j, Live j (Materialized.child state)) ∧
      (Materialized.tuples state).length - Materialized.currentIdx state ≤ k ∧ k ≤ n
  | .aggregation _ _, state => (∃ j, Live j (Aggregated.child state)) ∧
      (Aggregated.results state).length - Aggregated.currentIdx state ≤ k ∧ k ≤ n

/-- Below an operator in use its child is in use. -/
theorem Operator.LiveOver.below {operator : Operator V} {k : ℕ}
    {state : (operator.executor lib order fuel child).State}
    (h : operator.LiveOver Live n k state) : ∃ j, Live j (operator.childState state) := by
  cases operator with
  | filter predicate => exact ⟨k, h⟩
  | projection project => exact ⟨k, h⟩
  | limit count => exact ⟨k, h⟩
  | sort comparator => exact h.1
  | topN comparator count => exact h.1
  | aggregation groupKeyExtractor aggSpecs => exact h.1

section

variable (h : Keeps child Ready Live n)

include h

/-- A filter hands out at most what its child does. -/
theorem FilterExecutor.keeps (hfuel : n < fuel) (predicate : Tuple → Bool) :
    Keeps (FilterExecutor fuel child predicate) Ready Live n where
  init := h.init
  le := h.le
  next k state hlive output := by
    obtain ⟨found, state', left, hpull, hlive', hle, hlt⟩ :=
      h.pull predicate ((h.le k state hlive).trans_lt hfuel) hlive {}
    cases found with
    | none => exact ⟨false, output, state', left, by simp [FilterExecutor, hpull], hlive',
        hle, by simp⟩
    | some x =>
      exact ⟨true, x, state', left, by simp [FilterExecutor, hpull], hlive', hle, fun _ => hlt rfl⟩

/-- A projection hands out as many tuples as its child. -/
theorem ProjectionExecutor.keeps (projection : Tuple → Tuple) :
    Keeps (ProjectionExecutor child projection) Ready Live n where
  init := h.init
  le := h.le
  next k state hlive output := by
    obtain ⟨found, tuple, state', left, hnext, hlive', hle, hlt⟩ := h.next k state hlive {}
    cases found with
    | false =>
      exact ⟨false, output, state', left, by simp [ProjectionExecutor, hnext], hlive', hle, by simp⟩
    | true =>
      exact ⟨true, projection tuple, state', left, by simp [ProjectionExecutor, hnext], hlive', hle,
        hlt⟩

/-- A limit hands out no more than its child. -/
theorem LimitExecutor.keeps (limit : UInt32) :
    Keeps (LimitExecutor child limit) (fun state => Ready state.child)
      (fun k state => Live k state.child) n where
  init state hready := by
    obtain ⟨childState, hinit, hlive⟩ := h.init _ hready
    exact ⟨{ child := childState }, by simp [LimitExecutor, hinit], hlive⟩
  le k state hlive := h.le k _ hlive
  next k state hlive output := by
    by_cases hfull : limit ≤ state.emitted
    · exact ⟨false, output, state, k, by simp [LimitExecutor, hfull], hlive, le_rfl, by simp⟩
    · obtain ⟨found, tuple, childState, left, hnext, hlive', hle, hlt⟩ := h.next k _ hlive {}
      cases found with
      | false =>
        exact ⟨false, output, { state with child := childState }, left,
          by simp [LimitExecutor, hfull, hnext], hlive', hle, by simp⟩
      | true =>
        exact ⟨true, tuple, { child := childState, emitted := state.emitted + 1 }, left,
          by simp [LimitExecutor, hfull, hnext], hlive', hle, hlt⟩

/-- `Init` of the operators that keep tuples reads the child to the end. -/
theorem Keeps.init_drain (lib : StdLib) (hfuel : n < fuel) {state : child.State}
    (hready : Ready state) :
    ∃ first xs last left, child.init state = some first ∧
      child.drain lib fuel first {} [] = some (xs, last) ∧ xs.length ≤ n ∧ Live left last := by
  obtain ⟨first, hinit, hlive⟩ := h.init _ hready
  obtain ⟨xs, last, left, hdrain, hlen, hlast⟩ := h.drain lib hfuel hlive {} []
  exact ⟨first, xs, last, left, hinit, hdrain, hlen, hlast⟩

end

/-- Tuples that were kept need no child. -/
theorem Materialized.keeps {init : Materialized child.State → Option (Materialized child.State)}
    (hinit : ∀ state, Ready state.child → ∃ childState tuples left,
      init state = some { child := childState, tuples := tuples } ∧ Live left childState ∧
        tuples.length ≤ n) :
    Keeps (Materialized.executor init) (fun state => Ready (Materialized.child state))
      (fun k state => (∃ j, Live j (Materialized.child state)) ∧
        (Materialized.tuples state).length - Materialized.currentIdx state ≤ k ∧ k ≤ n) n where
  init state hready := by
    obtain ⟨childState, tuples, left, heq, hlive, hlen⟩ := hinit state hready
    exact ⟨_, heq, ⟨left, hlive⟩, hlen, le_rfl⟩
  le k state hlive := hlive.2.2
  next k state hlive output := by
    obtain ⟨hchild, hrest, hk⟩ := hlive
    cases hget : (Materialized.tuples state)[Materialized.currentIdx state]? with
    | some x =>
      have hlt := (List.getElem?_eq_some_iff.mp hget).1
      have hless : (Materialized.tuples state).length - (Materialized.currentIdx state + 1)
        ≤ k - 1 := by
        omega
      exact ⟨true, x, { state with currentIdx := Materialized.currentIdx state + 1 }, k - 1,
        by simp [Materialized.executor, Materialized.next, hget],
          ⟨hchild, hless, by omega⟩, by omega, by omega⟩
    | none =>
      exact ⟨false, output, state, k, by simp [Materialized.executor, Materialized.next, hget],
        ⟨hchild, hrest, hk⟩, le_rfl, by simp⟩

/-- An aggregation has read all its input when `Init` returns. -/
theorem AggregationExecutor.keeps (h : Keeps child Ready Live n) (hfuel : n < fuel)
    (groupKeyExtractor : GroupKeyExtractor) (aggSpecs : List (AggSpec V)) :
    Keeps (AggregationExecutor order fuel child groupKeyExtractor aggSpecs)
      (fun state => Ready (Aggregated.child state))
      (fun k state => (∃ j, Live j (Aggregated.child state)) ∧
        (Aggregated.results state).length - Aggregated.currentIdx state ≤ k ∧ k ≤ n) n where
  init state hready := by
    obtain ⟨first, hinit, hlive⟩ := h.init _ hready
    obtain ⟨xs, last, left, hgroups, hlen, hlast⟩ :=
      h.groups groupKeyExtractor aggSpecs hfuel hlive {} []
    refine ⟨{ child := last, results := resultsOf order groupKeyExtractor aggSpecs xs }, ?_,
      ⟨left, hlast⟩, (length_resultsOf_le order groupKeyExtractor aggSpecs xs).trans hlen, le_rfl⟩
    simp [AggregationExecutor, hinit, hgroups, resultsOf, tableOf]
  le k state hlive := hlive.2.2
  next k state hlive output := by
    obtain ⟨hchild, hrest, hk⟩ := hlive
    cases hget : (Aggregated.results state)[Aggregated.currentIdx state]? with
    | some x =>
      have hlt := (List.getElem?_eq_some_iff.mp hget).1
      have hless : (Aggregated.results state).length - (Aggregated.currentIdx state + 1)
        ≤ k - 1 := by
        omega
      exact ⟨true, AggResult.encode x output,
        { state with currentIdx := Aggregated.currentIdx state + 1 }, k - 1,
        by simp [AggregationExecutor, hget], ⟨hchild, hless, by omega⟩, by omega, by omega⟩
    | none =>
      exact ⟨false, output, state, k, by simp [AggregationExecutor, hget],
        ⟨hchild, hrest, hk⟩, le_rfl, by simp⟩

/-- **An operator** keeps what its child keeps. -/
theorem Operator.keeps (h : Keeps child Ready Live n) (hfuel : n < fuel) {operator : Operator V}
    (hordered : operator.Ordered) :
    Keeps (operator.executor lib order fuel child) (fun state => Ready (operator.childState state))
      (operator.LiveOver Live n) n := by
  cases operator with
  | filter predicate => exact FilterExecutor.keeps h hfuel predicate
  | projection project => exact ProjectionExecutor.keeps h project
  | limit count => exact LimitExecutor.keeps h count
  | sort comparator =>
    refine Materialized.keeps fun state hready => ?_
    obtain ⟨first, xs, last, left, hinit, hdrain, hlen, hlast⟩ := h.init_drain lib hfuel hready
    refine ⟨last, _, left, SortExecutor.init_eq hinit hdrain, hlast, ?_⟩
    exact (lib.sort_perm comparator xs hordered).length_eq.trans_le hlen
  | topN comparator count =>
    refine Materialized.keeps fun state hready => ?_
    obtain ⟨first, xs, last, left, hinit, hdrain, hlen, hlast⟩ := h.init_drain lib hfuel hready
    refine ⟨last, _, left, TopNExecutor.init_eq hinit hdrain, hlast, ?_⟩
    exact ((List.length_take_le _ _).trans ((Nat.min_le_right _ _).trans (Nat.mod_le _ _))).trans
      hlen
  | aggregation groupKeyExtractor aggSpecs =>
    exact AggregationExecutor.keeps h hfuel groupKeyExtractor aggSpecs

end Operators

/-! ## 3. Plans

The states of a plan are nested, one for each operator; `LiveOver` finds the leaf's state at the
bottom. -/

section Plans

variable {V : Type} [DoubleArith V] {lib : StdLib} {order : MapOrder} {fuel : ℕ}
  {moved : ℕ → Tuple → Tuple} {leaf : Executor} {Ready : leaf.State → Prop}
  {Live : ℕ → leaf.State → Prop} {n : ℕ}

namespace Plan

/-- A live state of a plan over a live leaf. -/
def LiveOver (Live : ℕ → leaf.State → Prop) (n : ℕ) : (operators : List (Operator V)) → ℕ →
    (build lib order fuel moved leaf operators).State → Prop
  | [] => Live
  | operator :: operators => operator.LiveOver (LiveOver Live n operators) n

/-- Below a plan in use its leaf is in use. -/
theorem LiveOver.below {operators : List (Operator V)} {k : ℕ}
    {state : (build lib order fuel moved leaf operators).State}
    (h : LiveOver Live n operators k state) : ∃ j, Live j (leafState operators state) := by
  induction operators generalizing k with
  | nil => exact ⟨k, h⟩
  | cons operator operators ih =>
    obtain ⟨j, hj⟩ := Operator.LiveOver.below h
    exact ih hj

/-- **A plan** keeps what its leaf keeps. -/
theorem keeps (h : Keeps leaf Ready Live n) (hfuel : n < fuel) {operators : List (Operator V)}
    (hordered : ∀ operator ∈ operators, operator.Ordered) :
    Keeps (build lib order fuel moved leaf operators)
      (fun state => Ready (leafState operators state))
      (LiveOver Live n operators) n := by
  induction operators with
  | nil => exact h
  | cons operator operators ih =>
    refine Operator.keeps (ih fun o ho => hordered o (List.mem_cons_of_mem _ ho)) hfuel ?_
    exact hordered operator List.mem_cons_self

theorem leafState_start (operators : List (Operator V)) (state : leaf.State) :
    leafState operators (start lib order fuel moved state operators) = state := by
  induction operators with
  | nil => rfl
  | cons operator operators ih => cases operator <;> exact ih

end Plan

end Plans

end CourtDB
