/-
# GROUP BY

`AggregationExecutor` (`query/executor.h`, `query/executor.cpp`) goes once through its input and
keeps four accumulators for each group and aggregate, which it creates with sentinels when it sees
the group first.  The results come in the order of a hash map, which is not specified.

The arithmetic is a parameter, `DoubleArith`: what the operator does with a value does not depend on
how numbers are rounded.  The results are compared with the aggregates of each group over the
rationals, where sums do not depend on the order.  Then the sentinels are harmless, because no
extracted value lies beyond them, and only the 64-bit counter can be wrong: `init_groupBy` is about
inputs in which no group has 2⁶⁴ tuples.

What `GROUP BY` means is said without the operator: one result for each key of the input, and in it
for each aggregate the value that the tuples of this key have (`AggSpec.Denotes`).  The operator is
connected to it in three steps:

* the accumulators of one group are a fold over its tuples (`foldl_accumulate`);
* the table after `Init` has the groups of the input, however they are interleaved; this is a fact
  about grouping folds in general, and comes from the library (`grouped_tableOf`);
* the values of the accumulators are the aggregates (`denotes_value`), where the range of the
  numbers and the counter come in.

What `Next` makes of a result is another matter: it writes some fields of a tuple and leaves others
(`AggResult.encode`; `Query.StaleTuples` is about these).
-/
import CourtDB.Lib.Grouping
import CourtDB.Query.Executor
import Mathlib.Algebra.BigOperators.Ring.Finset
import Mathlib.Algebra.Order.Field.Rat
import Mathlib.Algebra.Order.Group.Abs
import Mathlib.Tactic.NormNum

namespace CourtDB

open Grouping

/-! ## 1. The data model

The number of accumulators follows the list of aggregates, by `resize` at the first tuple of each
group.  The hash map is a function with an order in which it is gone through. -/

/-- What the operator does with numbers. -/
class DoubleArith (V : Type) where
  zero : V
  maxVal : V
  lowest : V
  add : V → V → V
  div : V → V → V
  min : V → V → V
  max : V → V → V
  ofCount : UInt64 → V
  toUInt16 : V → UInt16

/-- The greatest finite double. -/
def dblMax : ℚ := (2 ^ 53 - 1) * 2 ^ 971

/-- Exact arithmetic.  The conversion of a number that does not fit is not specified. -/
instance : DoubleArith ℚ where
  zero := 0
  maxVal := dblMax
  lowest := -dblMax
  add := (· + ·)
  div := (· / ·)
  min := min
  max := max
  ofCount n := n.toNat
  toUInt16 q := UInt16.ofNat q.floor.toNat

/-- The type of a group key, a string. -/
abbrev GroupKey := List UInt8

abbrev GroupKeyExtractor := Tuple → GroupKey

inductive AggType
  | count
  | sum
  | avg
  | min
  | max
deriving DecidableEq, Repr

/-- What to aggregate and how.  The name of the result is not used. -/
structure AggSpec (V : Type) where
  type : AggType
  valueExtractor : Tuple → V

structure AggResult (V : Type) where
  groupKey : GroupKey
  values : List V
deriving DecidableEq

structure GroupAccumulator (V : Type) where
  count : UInt64 := 0
  sums : List V := []
  mins : List V := []
  maxs : List V := []

/-- The order in which an `unordered_map` is gone through. -/
structure MapOrder where
  iterate : {α : Type} → List (GroupKey × α) → List (GroupKey × α)
  perm : ∀ {α : Type} (groups : List (GroupKey × α)), (iterate groups).Perm groups

/-- `vector::resize`. -/
def resize {α : Type} (l : List α) (n : ℕ) (value : α) : List α :=
  l.take n ++ List.replicate (n - l.length) value

section

variable {V : Type} [DoubleArith V]

open DoubleArith

/-! ## 2. The operator -/

/-- One tuple goes to the accumulators of its group. -/
def GroupAccumulator.accumulate (aggSpecs : List (AggSpec V)) (acc : GroupAccumulator V)
    (tuple : Tuple) : GroupAccumulator V :=
  let numAggs := aggSpecs.length
  let acc :=
    if acc.sums.isEmpty then
      { acc with
        sums := resize acc.sums numAggs zero
        mins := resize acc.mins numAggs maxVal
        maxs := resize acc.maxs numAggs lowest }
    else acc
  { count := acc.count + 1
    sums := acc.sums.zipWith (fun v spec => add v (spec.valueExtractor tuple)) aggSpecs
    mins := acc.mins.zipWith (fun v spec => min v (spec.valueExtractor tuple)) aggSpecs
    maxs := acc.maxs.zipWith (fun v spec => max v (spec.valueExtractor tuple)) aggSpecs }

/-- The value of aggregate `i`. -/
def GroupAccumulator.value (acc : GroupAccumulator V) (spec : AggSpec V) (i : ℕ) : V :=
  match spec.type with
  | .count => ofCount acc.count
  | .sum => acc.sums.getD i zero
  | .avg => if acc.count > 0 then div (acc.sums.getD i zero) (ofCount acc.count) else zero
  | .min => acc.mins.getD i zero
  | .max => acc.maxs.getD i zero

/-- The result of a group. -/
def GroupAccumulator.result (aggSpecs : List (AggSpec V)) (entry : GroupKey × GroupAccumulator V) :
    AggResult V where
  groupKey := entry.1
  values := aggSpecs.zipIdx.map fun spec => entry.2.value spec.1 spec.2

/-- The tuple that `Next` hands out for a result.  Only these fields are written, and of the scores
and the distance only as many as there are aggregates. -/
def AggResult.encode (result : AggResult V) (output : Tuple) : Tuple :=
  let output := { output with gameId := [], team := result.groupKey, description := [] }
  let output :=
    match result.values[0]? with
    | some value => { output with homeScore := toUInt16 value }
    | none => output
  let output :=
    match result.values[1]? with
    | some value => { output with awayScore := toUInt16 value }
    | none => output
  let output :=
    match result.values[2]? with
    | some value => { output with shotDistance := toUInt16 value }
    | none => output
  { output with season := toUInt16 (result.values.headD zero) }

/-- The state of an `AggregationExecutor`. -/
structure Aggregated (V σ : Type) where
  child : σ
  results : List (AggResult V) := []
  currentIdx : ℕ := 0

namespace AggregationExecutor

/-- The loop of `Init`: the child's tuple is read, and overwritten by the next one. -/
def groups (child : Executor) (groupKeyExtractor : GroupKeyExtractor)
    (aggSpecs : List (AggSpec V)) : ℕ → child.State → Tuple →
    List (GroupKey × GroupAccumulator V) →
    Option (List (GroupKey × GroupAccumulator V) × child.State)
  | 0, _, _, _ => none
  | fuel + 1, state, tuple, table => do
    let (found, tuple, state) ← child.next state tuple
    if found then
      groups child groupKeyExtractor aggSpecs fuel state tuple
        (upsert (groupKeyExtractor tuple) {} (fun acc => acc.accumulate aggSpecs tuple) table)
    else
      return (table, state)

end AggregationExecutor

/-- `AggregationExecutor`. -/
def AggregationExecutor (order : MapOrder) (fuel : ℕ) (child : Executor)
    (groupKeyExtractor : GroupKeyExtractor) (aggSpecs : List (AggSpec V)) : Executor where
  State := Aggregated V child.State
  init state := do
    let childState ← child.init state.child
    let (table, childState) ←
      AggregationExecutor.groups child groupKeyExtractor aggSpecs fuel childState {} []
    return {
      child := childState
      results := (order.iterate table).map (GroupAccumulator.result aggSpecs) }
  next state output :=
    match state.results[state.currentIdx]? with
    | some result =>
      some (true, result.encode output, { state with currentIdx := state.currentIdx + 1 })
    | none => some (false, output, state)

/-! ## 3. What the accumulators hold

All four accumulators are kept for each aggregate, whatever its type; the type is looked at when the
result is made. -/

namespace GroupAccumulator

variable {aggSpecs : List (AggSpec V)}

/-- The accumulators of a group after the tuples `xs`. -/
def ofTuples (aggSpecs : List (AggSpec V)) (xs : List Tuple) : GroupAccumulator V where
  count := UInt64.ofNat xs.length
  sums := aggSpecs.map fun spec => xs.foldl (fun v x => add v (spec.valueExtractor x)) zero
  mins := aggSpecs.map fun spec => xs.foldl (fun v x => min v (spec.valueExtractor x)) maxVal
  maxs := aggSpecs.map fun spec => xs.foldl (fun v x => max v (spec.valueExtractor x)) lowest

theorem zipWith_map_self {α β γ : Type} (f : α → β) (g : β → α → γ) (l : List α) :
    (l.map f).zipWith g l = l.map fun a => g (f a) a := by
  induction l with
  | nil => rfl
  | cons a l ih => simp [ih]

theorem resize_nil {α : Type} (n : ℕ) (value : α) : resize [] n value = List.replicate n value := by
  simp [resize]

/-- The sentinels are put in place of nothing. -/
theorem accumulate_default (x : Tuple) :
    GroupAccumulator.accumulate aggSpecs {} x = (ofTuples aggSpecs []).accumulate aggSpecs x := by
  cases aggSpecs with
  | nil => rfl
  | cons spec aggSpecs =>
    simp [accumulate, ofTuples, resize_nil, List.map_const', List.replicate_succ]

/-- One tuple more. -/
theorem accumulate_ofTuples (xs : List Tuple) (x : Tuple) :
    (ofTuples aggSpecs xs).accumulate aggSpecs x = ofTuples aggSpecs (xs ++ [x]) := by
  have hcount : UInt64.ofNat xs.length + 1 = UInt64.ofNat (xs ++ [x]).length := by
    rw [List.length_append, List.length_singleton, UInt64.ofNat_add]
    rfl
  cases aggSpecs with
  | nil => exact congrArg (fun count => (⟨count, [], [], []⟩ : GroupAccumulator V)) hcount
  | cons spec aggSpecs =>
    simp only [accumulate, ofTuples, List.map_cons, List.isEmpty_cons, Bool.false_eq_true, if_false,
      List.zipWith_cons_cons, zipWith_map_self, hcount, List.foldl_concat]

theorem foldl_ofTuples (ys : List Tuple) : ∀ xs : List Tuple,
    ys.foldl (accumulate aggSpecs) (ofTuples aggSpecs xs) = ofTuples aggSpecs (xs ++ ys) := by
  induction ys with
  | nil => simp
  | cons y ys ih =>
    intro xs
    rw [List.foldl_cons, accumulate_ofTuples, ih, List.append_assoc, List.singleton_append]

/-- **The accumulators of a group** that has tuples. -/
theorem foldl_accumulate {xs : List Tuple} (h : xs ≠ []) :
    xs.foldl (accumulate aggSpecs) {} = ofTuples aggSpecs xs := by
  cases xs with
  | nil => exact absurd rfl h
  | cons x xs =>
    rw [List.foldl_cons, accumulate_default, accumulate_ofTuples, foldl_ofTuples]
    rfl

end GroupAccumulator

/-! ## 4. Init

The loop passes one tuple to the child again and again, so a child that does not write all fields
would see what it left there. -/

namespace AggregationExecutor

variable {order : MapOrder} {fuel : ℕ} {child : Executor} {xs : List Tuple}
  {groupKeyExtractor : GroupKeyExtractor} {aggSpecs : List (AggSpec V)}

/-- The table after the tuples `xs`. -/
def tableOf (groupKeyExtractor : GroupKeyExtractor) (aggSpecs : List (AggSpec V))
    (xs : List Tuple) : List (GroupKey × GroupAccumulator V) :=
  xs.foldl (fun table x => upsert (groupKeyExtractor x) {}
    (fun acc => acc.accumulate aggSpecs x) table) []

/-- The results of the tuples `xs`. -/
def resultsOf (order : MapOrder) (groupKeyExtractor : GroupKeyExtractor)
    (aggSpecs : List (AggSpec V)) (xs : List Tuple) : List (AggResult V) :=
  (order.iterate (tableOf groupKeyExtractor aggSpecs xs)).map (GroupAccumulator.result aggSpecs)

/-- The loop goes through what the child leaves in its tuple. -/
theorem groups_eq {fs : List Fill} {state : child.State} (h : child.Pulls fs state)
    (hfuel : fs.length < fuel) (tuple : Tuple) (table : List (GroupKey × GroupAccumulator V)) :
    ∃ state', groups child groupKeyExtractor aggSpecs fuel state tuple table
      = some ((collect id fs tuple).foldl (fun table x => upsert (groupKeyExtractor x) {}
          (fun acc => acc.accumulate aggSpecs x) table) table, state') := by
  induction fs generalizing state fuel tuple table with
  | nil =>
    obtain ⟨fuel, rfl⟩ := Nat.exists_eq_add_of_lt hfuel
    obtain ⟨output', state', hnext⟩ := h tuple
    exact ⟨state', by simp [groups, collect, hnext]⟩
  | cons f fs ih =>
    obtain ⟨fuel, rfl⟩ := Nat.exists_eq_add_of_lt hfuel
    obtain ⟨state', hnext, hrest⟩ := h tuple
    have hleft : fs.length < fs.length + 1 + fuel := by omega
    obtain ⟨last, hlast⟩ := ih hrest hleft (f tuple) _
    exact ⟨last, by simpa [groups, collect, hnext] using hlast⟩

theorem init_eq_of_pulls {fs : List Fill} {state : Aggregated V child.State}
    {first : child.State} (hinit : child.init state.child = some first)
    (h : child.Pulls fs first) (hfuel : fs.length < fuel) :
    ∃ childState, (AggregationExecutor order fuel child groupKeyExtractor aggSpecs).init state
      = some {
          child := childState
          results := resultsOf order groupKeyExtractor aggSpecs (collect id fs {}) } := by
  obtain ⟨last, hgroups⟩ :=
    @groups_eq V _ fuel child groupKeyExtractor aggSpecs fs _ h hfuel {} []
  exact ⟨last, by simp [AggregationExecutor, hinit, hgroups, resultsOf, tableOf]⟩

theorem init_eq {state : Aggregated V child.State} (h : child.Delivers xs state.child)
    (hfuel : xs.length < fuel) :
    ∃ childState, (AggregationExecutor order fuel child groupKeyExtractor aggSpecs).init state
      = some { child := childState, results := resultsOf order groupKeyExtractor aggSpecs xs } := by
  obtain ⟨first, hinit, hyields⟩ := h
  have hstate := @init_eq_of_pulls V _ order fuel child groupKeyExtractor aggSpecs _ _ _ hinit
    hyields.pulls (by rwa [List.length_map])
  rwa [collect_const] at hstate

/-- The fold invariant, however the groups are interleaved. -/
theorem grouped_tableOf :
    Grouped groupKeyExtractor {} (GroupAccumulator.accumulate aggSpecs) xs
      (tableOf groupKeyExtractor aggSpecs xs) := by
  have h := grouped_foldl xs
    (grouped_nil groupKeyExtractor {} (GroupAccumulator.accumulate aggSpecs))
  rwa [List.nil_append] at h

/-- The results are those of the groups, each from the tuples of its key. -/
theorem mem_resultsOf {result : AggResult V} :
    result ∈ resultsOf order groupKeyExtractor aggSpecs xs ↔
      ∃ k, (∃ x ∈ xs, groupKeyExtractor x = k) ∧ result = GroupAccumulator.result aggSpecs
        (k, .ofTuples aggSpecs (group groupKeyExtractor k xs)) := by
  have htable := @grouped_tableOf V _ xs groupKeyExtractor aggSpecs
  have haccs : ∀ k, (∃ x ∈ xs, groupKeyExtractor x = k) →
      (group groupKeyExtractor k xs).foldl (GroupAccumulator.accumulate aggSpecs) {}
        = .ofTuples aggSpecs (group groupKeyExtractor k xs) := fun k hk =>
    GroupAccumulator.foldl_accumulate fun hnil => group_eq_nil_iff.mp hnil hk
  rw [resultsOf, List.mem_map]
  constructor
  · rintro ⟨⟨k, acc⟩, hmem, rfl⟩
    obtain ⟨hk, rfl⟩ := (htable.mem_iff k acc).mp ((order.perm _).mem_iff.mp hmem)
    exact ⟨k, hk, by rw [haccs k hk]⟩
  · rintro ⟨k, hk, rfl⟩
    exact ⟨_, (order.perm _).mem_iff.mpr ((htable.mem_iff k _).mpr ⟨hk, (haccs k hk).symm⟩), rfl⟩

/-- One result for each key. -/
theorem resultsOf_keys_nodup :
    ((resultsOf order groupKeyExtractor aggSpecs xs).map AggResult.groupKey).Nodup := by
  rw [resultsOf, List.map_map]
  exact ((order.perm _).map Prod.fst).nodup_iff.mpr grouped_tableOf.keys_nodup

theorem mem_keys_resultsOf {k : GroupKey} :
    k ∈ (resultsOf order groupKeyExtractor aggSpecs xs).map AggResult.groupKey ↔
      ∃ x ∈ xs, groupKeyExtractor x = k := by
  rw [List.mem_map]
  constructor
  · rintro ⟨result, hmem, rfl⟩
    obtain ⟨k, hk, rfl⟩ := mem_resultsOf.mp hmem
    exact hk
  · exact fun hk => ⟨_, mem_resultsOf.mpr ⟨k, hk, rfl⟩, rfl⟩

/-- There are no more results than tuples. -/
theorem length_resultsOf_le (order : MapOrder) (groupKeyExtractor : GroupKeyExtractor)
    (aggSpecs : List (AggSpec V)) (xs : List Tuple) :
    (resultsOf order groupKeyExtractor aggSpecs xs).length ≤ xs.length := by
  have hsubset : (resultsOf order groupKeyExtractor aggSpecs xs).map AggResult.groupKey ⊆
      xs.map groupKeyExtractor := fun k hk => List.mem_map.mpr (mem_keys_resultsOf.mp hk)
  have hlen := (List.subperm_of_subset resultsOf_keys_nodup hsubset).length_le
  rwa [List.length_map, List.length_map] at hlen

end AggregationExecutor

end

/-! ## 5. The aggregates of a group

The specification.  It is a relation, and functional; the order of the tuples does not matter. -/

/-- `v` is the aggregate of the tuples `xs`. -/
def AggSpec.Denotes (spec : AggSpec ℚ) (xs : List Tuple) (v : ℚ) : Prop :=
  match spec.type with
  | .count => v = xs.length
  | .sum => v = (xs.map spec.valueExtractor).sum
  | .avg => v = (xs.map spec.valueExtractor).sum / xs.length
  | .min => IsLeast {q | ∃ x ∈ xs, spec.valueExtractor x = q} v
  | .max => IsGreatest {q | ∃ x ∈ xs, spec.valueExtractor x = q} v

/-- The aggregate needs the number of tuples. -/
def AggSpec.Counts (spec : AggSpec ℚ) : Prop := spec.type = .count ∨ spec.type = .avg

/-- The results of `GROUP BY`: one for each key, with the aggregates of the tuples of that key. -/
structure GroupBy (groupKeyExtractor : GroupKeyExtractor) (aggSpecs : List (AggSpec ℚ))
    (xs : List Tuple) (results : List (AggResult ℚ)) : Prop where
  keys_nodup : (results.map AggResult.groupKey).Nodup
  mem_keys : ∀ k, k ∈ results.map AggResult.groupKey ↔ ∃ x ∈ xs, groupKeyExtractor x = k
  values : ∀ result ∈ results, List.Forall₂
    (fun spec v => spec.Denotes (group groupKeyExtractor result.groupKey xs) v)
    aggSpecs result.values

theorem AggSpec.Denotes.unique {spec : AggSpec ℚ} {xs : List Tuple} {v w : ℚ}
    (hv : spec.Denotes xs v) (hw : spec.Denotes xs w) : v = w := by
  obtain ⟨type, valueExtractor⟩ := spec
  cases type with
  | count => exact hv.trans (Eq.symm hw)
  | sum => exact hv.trans (Eq.symm hw)
  | avg => exact hv.trans (Eq.symm hw)
  | min => exact IsLeast.unique hv hw
  | max => exact IsGreatest.unique hv hw

theorem AggSpec.Denotes.perm {spec : AggSpec ℚ} {xs ys : List Tuple} {v : ℚ} (h : xs.Perm ys)
    (hv : spec.Denotes xs v) : spec.Denotes ys v := by
  unfold AggSpec.Denotes at hv ⊢
  simpa only [h.length_eq, (h.map spec.valueExtractor).sum_eq, h.mem_iff] using hv

namespace GroupAccumulator

variable {aggSpecs : List (AggSpec ℚ)} {xs : List Tuple}

theorem foldl_add (f : Tuple → ℚ) (xs : List Tuple) :
    xs.foldl (fun v x => DoubleArith.add v (f x)) DoubleArith.zero = (xs.map f).sum := by
  rw [List.sum_eq_foldl, List.foldl_map]
  rfl

/-- The value of an aggregate, if its numbers lie within the sentinels and the tuples can be
counted. -/
theorem denotes_value (hne : xs ≠ []) {spec : AggSpec ℚ} {i : ℕ} (hspec : aggSpecs[i]? = some spec)
    (hrange : ∀ x ∈ xs, |spec.valueExtractor x| ≤ dblMax)
    (hcount : spec.Counts → xs.length < 2 ^ 64) :
    spec.Denotes xs ((ofTuples aggSpecs xs).value spec i) := by
  have hlength : spec.Counts → (UInt64.ofNat xs.length).toNat = xs.length := fun h =>
    UInt64.toNat_ofNat_of_lt' (hcount h)
  unfold AggSpec.Denotes value
  split
  · rename_i htype
    exact congrArg Nat.cast (hlength (Or.inl htype))
  · simp [ofTuples, List.getD_eq_getElem?_getD, hspec, foldl_add]
  · rename_i htype
    have hpos : (ofTuples aggSpecs xs).count > 0 := by
      refine UInt64.lt_iff_toNat_lt.mpr ?_
      rw [show (ofTuples aggSpecs xs).count = UInt64.ofNat xs.length from rfl,
        hlength (Or.inr htype)]
      exact List.length_pos_of_ne_nil hne
    rw [if_pos hpos]
    simp only [ofTuples, List.getD_eq_getElem?_getD, List.getElem?_map, hspec, Option.map_some,
      Option.getD_some, foldl_add]
    exact congrArg (fun n : ℕ => (xs.map spec.valueExtractor).sum / n) (hlength (Or.inr htype))
  · simp only [ofTuples, List.getD_eq_getElem?_getD, List.getElem?_map, hspec, Option.map_some,
      Option.getD_some]
    exact isLeast_foldl_min _ hne fun x hx => (abs_le.mp (hrange x hx)).2
  · simp only [ofTuples, List.getD_eq_getElem?_getD, List.getElem?_map, hspec, Option.map_some,
      Option.getD_some]
    exact isGreatest_foldl_max _ hne fun x hx => (abs_le.mp (hrange x hx)).1

end GroupAccumulator

/-! ## 6. GROUP BY

The results have no order, and are compared as lists up to permutation. -/

namespace GroupBy

variable {groupKeyExtractor : GroupKeyExtractor} {aggSpecs : List (AggSpec ℚ)}
  {xs ys : List Tuple} {results results' : List (AggResult ℚ)}

theorem perm_input (h : GroupBy groupKeyExtractor aggSpecs xs results) (hperm : xs.Perm ys) :
    GroupBy groupKeyExtractor aggSpecs ys results where
  keys_nodup := h.keys_nodup
  mem_keys k := by simp only [h.mem_keys, hperm.mem_iff]
  values result hmem := (h.values result hmem).imp fun _ _ hv => hv.perm (hperm.filter _)

/-- Two values of one list of aggregates are equal. -/
theorem values_unique {k : GroupKey} {vs ws : List ℚ}
    (hv : List.Forall₂ (fun spec v => spec.Denotes (group groupKeyExtractor k xs) v) aggSpecs vs)
    (hw : List.Forall₂ (fun spec v => spec.Denotes (group groupKeyExtractor k xs) v) aggSpecs ws) :
    vs = ws := by
  induction hv generalizing ws with
  | nil =>
    cases hw
    rfl
  | cons hhead _ ih =>
    cases hw with
    | cons hhead' htail' => rw [hhead.unique hhead', ih htail']

theorem mem_of_mem (h : GroupBy groupKeyExtractor aggSpecs xs results)
    (h' : GroupBy groupKeyExtractor aggSpecs xs results') {result : AggResult ℚ}
    (hmem : result ∈ results) : result ∈ results' := by
  have hkey := (h.mem_keys result.groupKey).mp (List.mem_map_of_mem hmem)
  obtain ⟨other, hother, heq⟩ := List.mem_map.mp ((h'.mem_keys result.groupKey).mpr hkey)
  have hvalues : other.values = result.values := by
    have hv := h'.values other hother
    rw [heq] at hv
    exact values_unique hv (h.values result hmem)
  have hsame : other = result := by
    cases other
    cases result
    exact congrArg₂ AggResult.mk heq hvalues
  exact hsame ▸ hother

/-- **The results are determined** by the input, up to their order. -/
theorem perm (h : GroupBy groupKeyExtractor aggSpecs xs results)
    (h' : GroupBy groupKeyExtractor aggSpecs xs results') : results.Perm results' :=
  (List.perm_ext_iff_of_nodup (.of_map _ h.keys_nodup) (.of_map _ h'.keys_nodup)).mpr
    fun _ => ⟨h.mem_of_mem h', h'.mem_of_mem h⟩

/-- The counts add up to the number of tuples. -/
theorem sum_counts (h : GroupBy groupKeyExtractor aggSpecs xs results) {i : ℕ} {spec : AggSpec ℚ}
    (hspec : aggSpecs[i]? = some spec) (htype : spec.type = .count) :
    (results.map fun result => result.values.getD i 0).sum = xs.length := by
  have hvalue : ∀ result ∈ results, result.values.getD i 0 =
      ((group groupKeyExtractor result.groupKey xs).length : ℚ) := fun result hmem => by
    obtain ⟨hi, hget⟩ := List.getElem?_eq_some_iff.mp hspec
    obtain ⟨hlen, hall⟩ := List.forall₂_iff_get.mp (h.values result hmem)
    have hdenotes := hall i hi (hlen ▸ hi)
    rw [List.get_eq_getElem, hget, AggSpec.Denotes, htype] at hdenotes
    simpa [List.getD_eq_getElem?_getD, List.getElem?_eq_getElem (hlen ▸ hi)] using hdenotes
  rw [List.map_congr_left hvalue, ← sum_length_group h.keys_nodup h.mem_keys, List.map_map,
    Nat.cast_list_sum, List.map_map]
  rfl

end GroupBy

namespace AggregationExecutor

variable {order : MapOrder} {fuel : ℕ} {child : Executor} {groupKeyExtractor : GroupKeyExtractor}
  {aggSpecs : List (AggSpec ℚ)} {xs : List Tuple}

/-- The results, if the numbers lie within the range of the sentinels and the groups can be
counted. -/
theorem groupBy_resultsOf
    (hrange : ∀ spec ∈ aggSpecs, ∀ x ∈ xs, |spec.valueExtractor x| ≤ dblMax)
    (hcount : ∀ spec ∈ aggSpecs, spec.Counts →
      ∀ k, (group groupKeyExtractor k xs).length < 2 ^ 64) :
    GroupBy groupKeyExtractor aggSpecs xs (resultsOf order groupKeyExtractor aggSpecs xs) := by
  refine ⟨resultsOf_keys_nodup, fun k => mem_keys_resultsOf, fun result hmem => ?_⟩
  obtain ⟨k, hk, rfl⟩ := mem_resultsOf.mp hmem
  have hne : group groupKeyExtractor k xs ≠ [] := fun hnil => group_eq_nil_iff.mp hnil hk
  refine List.forall₂_iff_get.mpr ⟨by simp [GroupAccumulator.result], fun i hi _ => ?_⟩
  have hmem : aggSpecs[i] ∈ aggSpecs := List.getElem_mem hi
  have hdenotes := GroupAccumulator.denotes_value hne (List.getElem?_eq_getElem hi)
    (fun x hx => hrange _ hmem x (List.mem_of_mem_filter hx)) (fun h => hcount _ hmem h k)
  simpa [GroupAccumulator.result] using hdenotes

/-- **GROUP BY is correct and independent of the order of its input**, if the 64-bit counter can
count every group. -/
theorem init_groupBy (order : MapOrder) (child : Executor) (groupKeyExtractor : GroupKeyExtractor)
    (aggSpecs : List (AggSpec ℚ)) (xs : List Tuple)
    (hrange : ∀ spec ∈ aggSpecs, ∀ x ∈ xs, |spec.valueExtractor x| ≤ dblMax)
    (hcount : ∀ spec ∈ aggSpecs, spec.Counts →
      ∀ k, (group groupKeyExtractor k xs).length < 2 ^ 64)
    (state : Aggregated ℚ child.State) (hchild : child.Delivers xs state.child)
    (fuel : ℕ) (hfuel : xs.length < fuel) :
    ∃ last,
      (AggregationExecutor order fuel child groupKeyExtractor aggSpecs).init state = some last ∧
      GroupBy groupKeyExtractor aggSpecs xs last.results ∧
      (∀ i spec, aggSpecs[i]? = some spec → spec.type = .count →
        (last.results.map fun result => result.values.getD i 0).sum = xs.length) ∧
      ∀ (order' : MapOrder) (child' : Executor) (ys : List Tuple)
        (state' last' : Aggregated ℚ child'.State) (fuel' : ℕ), xs.Perm ys →
        child'.Delivers ys state'.child → ys.length < fuel' →
        (AggregationExecutor order' fuel' child' groupKeyExtractor aggSpecs).init state'
          = some last' →
        last'.results.Perm last.results := by
  obtain ⟨childState, hinit⟩ := @init_eq ℚ _ order fuel child xs groupKeyExtractor aggSpecs _
    hchild hfuel
  have hgroupBy : GroupBy groupKeyExtractor aggSpecs xs
      (resultsOf order groupKeyExtractor aggSpecs xs) := groupBy_resultsOf hrange hcount
  refine ⟨_, hinit, hgroupBy, fun i spec => hgroupBy.sum_counts, ?_⟩
  intro order' child' ys state' last' fuel' hperm hchild' hfuel' hinit'
  obtain ⟨childState', heq⟩ := @init_eq ℚ _ order' fuel' child' ys groupKeyExtractor aggSpecs _
    hchild' hfuel'
  obtain rfl := Option.some.inj (hinit'.symm.trans heq)
  have hgroupBy' : GroupBy groupKeyExtractor aggSpecs ys
      (resultsOf order' groupKeyExtractor aggSpecs ys) := by
    refine groupBy_resultsOf (fun spec hspec x hx => hrange spec hspec x (hperm.mem_iff.mpr hx))
      fun spec hspec h k => ?_
    exact (hperm.filter _).length_eq ▸ hcount spec hspec h k
  exact hgroupBy'.perm (hgroupBy.perm_input hperm)

/-! ### Concrete runs -/

/-- A map that is gone through in the order in which the keys came. -/
def insertionOrder : MapOrder where
  iterate groups := groups
  perm groups := .refl groups

/-- All aggregates of the points, by the number of the points itself. -/
def pointsSpecs : List (AggSpec ℚ) :=
  [.count, .sum, .avg, .min, .max].map fun type => ⟨type, fun tuple => tuple.points.toNat⟩

def byPointsKey : GroupKeyExtractor := fun tuple => [tuple.points]

theorem pointsSpecs_range : ∀ spec ∈ pointsSpecs, ∀ x ∈ threeShots,
    |spec.valueExtractor x| ≤ dblMax := by
  -- points are bytes, far below the greatest double
  intro spec hspec x hx
  obtain ⟨type, -, rfl⟩ := List.mem_map.mp hspec
  have hbig : (256 : ℚ) ≤ dblMax :=
    (by norm_num : (256 : ℚ) ≤ 2 ^ 53 - 1).trans
      (le_mul_of_one_le_right (by norm_num) (one_le_pow₀ (by norm_num)))
  have hsmall : ((x.points.toNat : ℕ) : ℚ) ≤ 256 := by exact_mod_cast x.points.toNat_lt.le
  exact (Nat.abs_cast _).trans_le (hsmall.trans hbig)

/-- Three shots in two groups, read forwards and backwards. -/
theorem init_groupBy_threeShots :
    ∃ last last',
      (AggregationExecutor insertionOrder 4 (TupleSource threeShots) byPointsKey pointsSpecs).init
        { child := { child := () } } = some last ∧
      (AggregationExecutor insertionOrder 4 (TupleSource threeShots.reverse) byPointsKey
        pointsSpecs).init { child := { child := () } } = some last' ∧
      GroupBy byPointsKey pointsSpecs threeShots last.results ∧
      (last.results.map fun result => result.values.getD 0 0).sum = 3 ∧
      last'.results.Perm last.results := by
  obtain ⟨last, hinit, hgroupBy, hcounts, hperm⟩ :=
    init_groupBy insertionOrder (TupleSource threeShots) byPointsKey pointsSpecs threeShots
      pointsSpecs_range
      (fun _ _ _ k => (List.length_filter_le _ _).trans_lt (by decide : threeShots.length < 2 ^ 64))
      { child := { child := () } } (TupleSource.delivers threeShots { child := () }) 4 (by decide)
  obtain ⟨childState, hinit'⟩ := @init_eq ℚ _ insertionOrder 4 (TupleSource threeShots.reverse)
    threeShots.reverse byPointsKey pointsSpecs { child := { child := () } }
    (TupleSource.delivers threeShots.reverse { child := () }) (by decide)
  exact ⟨last, _, hinit, hinit', hgroupBy, hcounts 0 _ rfl rfl,
    hperm insertionOrder _ threeShots.reverse _ _ 4 threeShots.reverse_perm.symm
      (TupleSource.delivers threeShots.reverse { child := () }) (by decide) hinit'⟩

/-- The counter of a group of 2⁶⁴ tuples says 0. -/
theorem init_not_groupBy :
    let xs := List.replicate (2 ^ 64) ({} : Tuple)
    let countSpecs : List (AggSpec ℚ) := [⟨.count, fun _ => 0⟩]
    ∃ last,
      (AggregationExecutor insertionOrder (2 ^ 64 + 1) (TupleSource xs) byPointsKey
        countSpecs).init
        { child := { child := () } } = some last ∧
      (∀ result ∈ last.results, result.values = [0]) ∧
      ¬ GroupBy byPointsKey countSpecs xs last.results := by
  intro xs countSpecs
  -- one group of 2⁶⁴ tuples, which is never unfolded
  have hlength : xs.length = 2 ^ 64 := List.length_replicate
  have hall : ∀ x ∈ xs, byPointsKey x = [0] := fun x hx => by rw [List.eq_of_mem_replicate hx]; rfl
  clear_value xs
  have hgroup : ∀ k, (∃ x ∈ xs, byPointsKey x = k) → group byPointsKey k xs = xs := by
    rintro k ⟨x, hx, rfl⟩
    refine List.filter_eq_self.mpr fun y hy => ?_
    rw [hall x hx, hall y hy]
    exact decide_eq_true rfl
  obtain ⟨childState, hinit⟩ := @init_eq ℚ _ insertionOrder (2 ^ 64 + 1) (TupleSource xs) xs
    byPointsKey countSpecs { child := { child := () } } (TupleSource.delivers xs { child := () })
    (by omega)
  -- the counter has wrapped to zero
  have hvalues : ∀ result ∈ resultsOf insertionOrder byPointsKey countSpecs xs,
      result.values = [0] := by
    intro result hmem
    obtain ⟨k, hk, rfl⟩ := mem_resultsOf.mp hmem
    rw [hgroup k hk]
    have hzero : UInt64.ofNat xs.length = 0 := by rw [hlength]; rfl
    exact congrArg (fun n : UInt64 => [(n.toNat : ℚ)]) hzero
  -- but the group is not empty
  refine ⟨_, hinit, hvalues, fun hgroupBy => ?_⟩
  obtain ⟨x, hx⟩ : ∃ x, x ∈ xs :=
    List.exists_mem_of_length_pos (hlength ▸ by decide)
  obtain ⟨result, hmem, -⟩ := List.mem_map.mp ((hgroupBy.mem_keys _).mpr ⟨x, hx, rfl⟩)
  have hdenotes := hgroupBy.values result hmem
  rw [hvalues result hmem] at hdenotes
  have hkey := (hgroupBy.mem_keys _).mp (List.mem_map_of_mem hmem)
  rw [hgroup _ hkey] at hdenotes
  have hcount : (0 : ℚ) = xs.length := (List.forall₂_cons.mp hdenotes).1
  rw [hlength] at hcount
  norm_num at hcount

end AggregationExecutor

end CourtDB
