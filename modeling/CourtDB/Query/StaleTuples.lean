/-
# Stale fields

`AggregationExecutor::Next` writes some fields of the caller's tuple and leaves the others.  What
was in them shows in the rows of a plan when the aggregation is the root, where the tuple is the
user's, and when it is the child of a `SortExecutor` or a `TopNExecutor`, which pass a tuple that
they have moved from.  All the other operators pass fresh tuples, or the tuple that they have read
before, and hand out whole ones.

`leakFree_iff` says so for every shape of a plan: all plans of the shape hide the callers' tuples
and the moved-from ones if and only if no aggregation stands in one of these places.  A shape is the
list of the kinds of the operators (`Kind`), without their functions: a single plan may hide its
holes for other reasons, as when a projection on top builds every field anew.

One direction is an induction on the operators: on sealed shapes every row is a whole one, by what
`Query.Plans` says each operator produces.  For the other there is a plan for each shape that is not
sealed, and two runs of it which differ in what they show.  It is one construction for all shapes:
two tuples, aggregations that group by a string, and other operators that let everything through, so
that a mark which one run has in a stale field is handed on to the top, whatever stands in between.
-/
import CourtDB.Query.Plans

namespace CourtDB

open Executor
open AggregationExecutor (insertionOrder resultsOf mem_resultsOf resultsOf_keys_nodup
  mem_keys_resultsOf)

/-! ## 1. Shapes -/

/-- What an operator is, without its functions. -/
inductive Kind
  | filter
  | projection
  | limit
  | sort
  | topN
  | aggregation
deriving DecidableEq

/-- `Init` passes a tuple to the child that it has moved from. -/
def Kind.Moves (kind : Kind) : Prop := kind = .sort ∨ kind = .topN

def Operator.kind {V : Type} : Operator V → Kind
  | .filter _ => .filter
  | .projection _ => .projection
  | .limit _ => .limit
  | .sort _ => .sort
  | .topN _ _ => .topN
  | .aggregation _ _ => .aggregation

/-- No aggregation is the root, and none is the child of an operator that passes moved-from
tuples. -/
def Sealed (kinds : List Kind) : Prop :=
  kinds.head? ≠ some .aggregation ∧
    kinds.IsChain fun kind child => kind.Moves → child ≠ .aggregation

section

variable {V : Type} [DoubleArith V]

/-- **Two runs** that differ only in what the callers' tuples and the moved-from tuples hold show
the same. -/
def Plan.LeakFree (plan : Plan V) : Prop :=
  ∀ (lib : StdLib) (order : MapOrder), ∃ enough, ∀ fuel, enough ≤ fuel →
    ∀ (moved moved' : ℕ → Tuple → Tuple) (calls calls' : List Call),
      List.Forall₂ Call.Same calls calls' →
      ∀ (state : (plan.executor lib order fuel moved).State)
        (state' : (plan.executor lib order fuel moved').State),
        ∃ seen, (plan.executor lib order fuel moved).run calls state = some seen ∧
          (plan.executor lib order fuel moved').run calls' state' = some seen

/-! ## 2. Sealed plans

Whole rows at the root do not show the user's tuple, and whole rows of a child do not show what it
was passed. -/

section Sealed

variable {lib : StdLib} {order : MapOrder} {source : Source} {moved moved' : ℕ → Tuple → Tuple}

/-- The other operators write whole tuples. -/
theorem Operator.fills_whole {operator : Operator V} (h : operator.kind ≠ .aggregation)
    (fs : List Fill) : ∃ xs : List Tuple, operator.fills lib order fs = xs.map fun x _ => x := by
  cases operator with
  | filter predicate => exact ⟨_, rfl⟩
  | projection project =>
    exact ⟨fs.map fun f => project (f {}), by rw [List.map_map]; rfl⟩
  | limit count =>
    exact ⟨(fs.take count.toNat).map fun f => f {}, by rw [List.map_map]; rfl⟩
  | sort comparator => exact ⟨_, rfl⟩
  | topN comparator count => exact ⟨_, rfl⟩
  | aggregation groupKeyExtractor aggSpecs => exact absurd rfl h

/-- What moved-from tuples hold matters only over a child that does not. -/
theorem Operator.fills_moving {operator : Operator V} {fs : List Fill} (after after' : Fill)
    (h : operator.kind.Moves → ∃ xs : List Tuple, fs = xs.map fun x _ => x) :
    operator.fills (lib.moving after) order fs = operator.fills (lib.moving after') order fs := by
  cases operator with
  | filter predicate => rfl
  | projection project => rfl
  | limit count => rfl
  | sort comparator =>
    obtain ⟨xs, rfl⟩ := h (Or.inl rfl)
    simp only [fills, StdLib.moving, collect_const]
  | topN comparator count =>
    obtain ⟨xs, rfl⟩ := h (Or.inr rfl)
    simp only [fills, collect_const]
    rfl
  | aggregation groupKeyExtractor aggSpecs => rfl

namespace Plan

/-- A plan without an aggregation on top writes whole tuples. -/
theorem fillsOf_whole {operators : List (Operator V)}
    (h : (operators.map Operator.kind).head? ≠ some .aggregation) :
    ∃ xs : List Tuple, fillsOf lib order moved source operators = xs.map fun x _ => x := by
  cases operators with
  | nil => exact ⟨source.tuples, rfl⟩
  | cons operator operators =>
    exact Operator.fills_whole (fun heq => h (congrArg some heq)) _

theorem fillsOf_moved {operators : List (Operator V)}
    (h : (operators.map Operator.kind).IsChain fun kind child =>
      kind.Moves → child ≠ .aggregation) :
    fillsOf lib order moved source operators = fillsOf lib order moved' source operators := by
  induction operators with
  | nil => rfl
  | cons operator operators ih =>
    rw [fillsOf, fillsOf, ← ih h.of_cons]
    refine Operator.fills_moving _ _ fun hmoves => fillsOf_whole ?_
    cases operators with
    | nil => exact nofun
    | cons child operators => exact fun heq => h.rel hmoves (Option.some.inj heq)

/-- So the calls have the same outcome, whatever a move leaves behind. -/
theorem calls_moved {operators : List (Operator V)}
    (h : (operators.map Operator.kind).IsChain fun kind child =>
      kind.Moves → child ≠ .aggregation) :
    calls lib order moved source operators = calls lib order moved' source operators := by
  induction operators with
  | nil => rfl
  | cons operator operators ih =>
    rw [calls, calls, ← ih h.of_cons, fillsOf_moved h.of_cons]

/-- **Sealed plans hide** what they are not to show. -/
theorem leakFree_of_sealed {plan : Plan V} (h : Sealed (plan.operators.map Operator.kind)) :
    plan.LeakFree := by
  intro lib order
  refine ⟨calls lib order (fun _ tuple => tuple) plan.source plan.operators, ?_⟩
  intro fuel hfuel moved moved' calls calls' hcalls state state'
  have hproduces : ∀ moved : ℕ → Tuple → Tuple, (plan.executor lib order fuel moved).Produces
      (fillsOf lib order (fun _ tuple => tuple) plan.source plan.operators) := fun moved => by
    rw [fillsOf_moved h.2]
    exact produces ((calls_moved h.2).trans_le hfuel)
  obtain ⟨xs, hxs⟩ : ∃ xs : List Tuple,
      fillsOf lib order (fun _ tuple => tuple) plan.source plan.operators = xs.map fun x _ => x :=
    fillsOf_whole h.1
  rw [hxs] at hproduces
  exact run_eq (hproduces moved) (hproduces moved') hcalls state state'

end Plan

end Sealed

/-! ## 3. The plans that leak

For the other shapes there is a plan that leaks.  Its source has two tuples, its aggregations group
by a string, and the other operators let everything through.  The byte 1 stands nowhere in the data,
only in what the first of two runs finds in the players' name of moved-from tuples. -/

/-- The strings that an aggregation hands on: its own stale one, and its key. -/
def markOf (tuple : Tuple) : List UInt8 := tuple.player ++ tuple.team

def stain : Tuple → Tuple := fun tuple => { tuple with player := [1] }

def wash : Tuple → Tuple := fun tuple => { tuple with player := [] }

def twoTeams : Source where
  executor := TupleSource [{ team := [2] }, { team := [3] }]
  tuples := [{ team := [2] }, { team := [3] }]
  produces := fun state => ⟨_, rfl, Materialized.fills _ { child := state.child, tuples := _ }⟩
  start := { child := () }

/-- An operator that lets everything through. -/
def Kind.operator (key : GroupKeyExtractor) : Kind → Operator V
  | filter => .filter fun _ => true
  | projection => .projection id
  | limit => .limit 0xFFFFFFFF
  | sort => .sort fun _ _ => false
  | topN => .topN (fun _ _ => false) 0xFFFFFFFF
  | aggregation => .aggregation key []

instance : IsStrictWeakOrder Tuple (TupleComparator.Less fun _ _ => false) where
  irrefl _ := Bool.false_ne_true
  trans _ _ _ h _ := absurd h Bool.false_ne_true
  incomp_trans _ _ _ _ _ := ⟨Bool.false_ne_true, Bool.false_ne_true⟩

omit [DoubleArith V] in
/-- Each kind has an operator of it. -/
theorem Kind.kind_operator (key : GroupKeyExtractor) (kind : Kind) :
    (kind.operator key : Operator V).kind = kind := by
  cases kind <;> rfl

/-- A plan that groups by team. -/
def byTeam (kinds : List Kind) : List (Operator V) :=
  kinds.map (Kind.operator NBARecord.team)

omit [DoubleArith V] in
theorem map_kind_byTeam (kinds : List Kind) :
    (byTeam kinds : List (Operator V)).map Operator.kind = kinds := by
  rw [byTeam, List.map_map]
  exact List.map_id'' (Kind.kind_operator NBARecord.team) kinds

/-- An aggregation leaves the player of the tuple it writes to. -/
theorem AggResult.encode_player (result : AggResult V) (tuple : Tuple) :
    (result.encode tuple).player = tuple.player := by
  unfold AggResult.encode
  cases result.values[0]? <;> cases result.values[1]? <;> cases result.values[2]? <;> rfl

/-- The key of its group goes into the team. -/
theorem AggResult.encode_team (result : AggResult V) (tuple : Tuple) :
    (result.encode tuple).team = result.groupKey := by
  unfold AggResult.encode
  cases result.values[0]? <;> cases result.values[1]? <;> cases result.values[2]? <;> rfl

section Plain

variable {key : GroupKeyExtractor} {kind : Kind} {fs : List Fill} {after : Fill}

/-- Each of `xs` is what one of `fs` leaves in a tuple with `P`. -/
abbrev Reads (P : Tuple → Prop) (fs : List Fill) (xs : List Tuple) : Prop :=
  List.Forall₂ (fun f x => ∃ tuple, P tuple ∧ f tuple = x) fs xs

theorem Reads.exists_fill {P : Tuple → Prop} {xs : List Tuple} (h : Reads P fs xs) {x : Tuple}
    (hx : x ∈ xs) : ∃ f ∈ fs, ∃ tuple, P tuple ∧ f tuple = x := by
  induction h with
  | nil => exact absurd hx List.not_mem_nil
  | cons hhead _ ih =>
    rcases List.mem_cons.mp hx with rfl | hx
    · exact ⟨_, List.mem_cons_self, hhead⟩
    · obtain ⟨f, hf, hread⟩ := ih hx
      exact ⟨f, List.mem_cons_of_mem _ hf, hread⟩

theorem Reads.exists_tuple {P : Tuple → Prop} {xs : List Tuple} (h : Reads P fs xs) {f : Fill}
    (hf : f ∈ fs) : ∃ x ∈ xs, ∃ tuple, P tuple ∧ f tuple = x := by
  induction h with
  | nil => exact absurd hf List.not_mem_nil
  | cons hhead _ ih =>
    rcases List.mem_cons.mp hf with rfl | hf
    · exact ⟨_, List.mem_cons_self, hhead⟩
    · obtain ⟨x, hx, hread⟩ := ih hf
      exact ⟨x, List.mem_cons_of_mem _ hx, hread⟩

/-- What is collected reads what was left behind. -/
theorem reads_collect {P : Tuple → Prop} (hafter : ∀ f ∈ fs, ∀ tuple, P tuple → P (after (f tuple)))
    {tuple : Tuple} (h : P tuple) : Reads P fs (collect after fs tuple) := by
  induction fs generalizing tuple with
  | nil => exact .nil
  | cons f fs ih =>
    refine .cons ⟨tuple, h, rfl⟩ (ih (fun g hg => hafter g (List.mem_cons_of_mem f hg)) ?_)
    exact hafter f List.mem_cons_self tuple h

theorem passed_all (fs : List Fill) :
    FilterExecutor.passed (fun _ => true) fs {} = fs.map fun f => f {} := by
  induction fs with
  | nil => rfl
  | cons f fs ih => rw [FilterExecutor.passed, if_pos rfl, ih, List.map_cons]

/-- Sorting by a constant comparator is a permutation of what was collected, also with a limit
that is out of reach. -/
theorem Kind.fills_of_moves (key : GroupKeyExtractor) (after : Fill) (hkind : kind.Moves)
    (hlen : fs.length ≤ 2) :
    ∃ ys : List Tuple, (kind.operator key : Operator V).fills (insertionLib.moving after)
        insertionOrder fs = ys.map (fun y _ => y) ∧ ys.Perm (collect after fs {}) := by
  have hcollect := length_collect after fs {}
  rcases hkind with rfl | rfl
  · exact ⟨_, rfl, insertionLib.sort_perm _ _ inferInstance⟩
  · refine ⟨_, rfl, ?_⟩
    have hclip : TopNExecutor.clippedLimit 0xFFFFFFFF (collect after fs {}).length =
        (collect after fs {}).length := by
      have hmod : (collect after fs {}).length % 2 ^ 32 = (collect after fs {}).length :=
        Nat.mod_eq_of_lt (by omega)
      rw [TopNExecutor.clippedLimit, hmod]
      exact Nat.min_eq_right (hcollect.trans_le (hlen.trans (by decide)))
    have hperm := insertionLib.partialSort_perm (fun _ _ => false)
      (collect after fs {}).length (collect after fs {}) inferInstance le_rfl
    show (TopNExecutor.topTuples insertionLib _ _ (collect after fs {})).Perm _
    rw [TopNExecutor.topTuples, hclip, List.take_of_length_le hperm.length_eq.le]
    exact hperm

/-- The operators without aggregation hand out what they read. -/
theorem Kind.fills_plain (key : GroupKeyExtractor) (hkind : kind ≠ .aggregation)
    {P : Tuple → Prop} (h0 : P {}) (hafter : ∀ f ∈ fs, ∀ tuple, P tuple → P (after (f tuple)))
    (hlen : fs.length ≤ 2) :
    ∃ xs ys : List Tuple, (kind.operator key : Operator V).fills (insertionLib.moving after)
        insertionOrder fs = ys.map (fun y _ => y) ∧ ys.Perm xs ∧ Reads P fs xs := by
  have hfresh : Reads P fs (fs.map fun f => f {}) :=
    List.forall₂_map_right_iff.mpr (List.forall₂_same.mpr fun f _ => ⟨{}, h0, rfl⟩)
  have hmoved := reads_collect hafter h0
  cases kind with
  | filter => exact ⟨_, _, by rw [operator, Operator.fills, passed_all], .refl _, hfresh⟩
  | projection => exact ⟨_, _, by rw [List.map_map]; rfl, .refl _, hfresh⟩
  | limit =>
    refine ⟨_, fs.map fun f => f {}, ?_, .refl _, hfresh⟩
    rw [operator, Operator.fills, List.take_of_length_le (hlen.trans (by decide)), List.map_map]
    rfl
  | sort =>
    obtain ⟨ys, heq, hperm⟩ := fills_of_moves (V := V) key after (Or.inl rfl) hlen
    exact ⟨_, ys, heq, hperm, hmoved⟩
  | topN =>
    obtain ⟨ys, heq, hperm⟩ := fills_of_moves (V := V) key after (Or.inr rfl) hlen
    exact ⟨_, ys, heq, hperm, hmoved⟩
  | aggregation => exact absurd rfl hkind

theorem Kind.length_fills (hlen : fs.length ≤ 2) :
    ((kind.operator key : Operator V).fills (insertionLib.moving after) insertionOrder fs).length
      ≤ 2 := by
  by_cases hkind : kind = .aggregation
  · subst hkind
    have hrows := AggregationExecutor.length_resultsOf_le insertionOrder key ([] : List (AggSpec V))
      (collect id fs {})
    rw [length_collect] at hrows
    exact (List.length_map _).trans_le (hrows.trans hlen)
  · obtain ⟨xs, ys, heq, hperm, hreads⟩ := fills_plain (V := V) (P := fun _ => True) key
      hkind trivial (fun _ _ _ _ => trivial) hlen
    rw [heq, List.length_map, hperm.length_eq, ← hreads.length_eq]
    exact hlen

/-- A stain in a row stays, where the aggregations group by it. -/
theorem Kind.stained_fills (hlen : fs.length ≤ 2)
    (h : ∃ f ∈ fs, ∀ tuple, 1 ∈ markOf (f tuple)) :
    ∃ f ∈ (kind.operator markOf : Operator V).fills (insertionLib.moving after) insertionOrder fs,
      ∀ tuple, 1 ∈ markOf (f tuple) := by
  obtain ⟨f, hf, hstained⟩ := h
  by_cases hkind : kind = .aggregation
  · subst hkind
    have hreads := @reads_collect fs id (fun _ => True) (fun _ _ _ _ => trivial) {} trivial
    obtain ⟨x, hx, tuple, -, rfl⟩ := hreads.exists_tuple hf
    have hkey : markOf (f tuple) ∈
        (resultsOf insertionOrder markOf ([] : List (AggSpec V)) (collect id fs {})).map
          AggResult.groupKey := mem_keys_resultsOf.mpr ⟨_, hx, rfl⟩
    obtain ⟨result, hresult, heq⟩ := List.mem_map.mp hkey
    refine ⟨result.encode, List.mem_map_of_mem hresult, fun output => List.mem_append_right _ ?_⟩
    rw [AggResult.encode_team, heq]
    exact hstained tuple
  · obtain ⟨xs, ys, heq, hperm, hreads⟩ := fills_plain (V := V)
      (P := fun _ => True) markOf hkind trivial (fun _ _ _ _ => trivial) hlen
    obtain ⟨x, hx, tuple, -, rfl⟩ := hreads.exists_tuple hf
    rw [heq]
    exact ⟨_, List.mem_map_of_mem (hperm.mem_iff.mpr hx), fun _ => hstained tuple⟩

/-- Without a stain none appears. -/
theorem Kind.clean_fills (hlen : fs.length ≤ 2) (hkey : ∀ tuple, 1 ∉ markOf tuple → 1 ∉ key tuple)
    (h : ∀ f ∈ fs, ∀ tuple, 1 ∉ markOf tuple → 1 ∉ markOf (f tuple)) :
    ∀ f ∈ (kind.operator key : Operator V).fills (insertionLib.moving wash) insertionOrder fs,
      ∀ tuple, 1 ∉ markOf tuple → 1 ∉ markOf (f tuple) := by
  intro f hf output houtput
  by_cases hkind : kind = .aggregation
  · subst hkind
    have hreads := @reads_collect fs id (fun tuple => 1 ∉ markOf tuple) h {} List.not_mem_nil
    obtain ⟨result, hresult, rfl⟩ := List.mem_map.mp hf
    obtain ⟨x, hx, heq⟩ := mem_keys_resultsOf.mp (List.mem_map_of_mem hresult)
    obtain ⟨g, hg, tuple, htuple, rfl⟩ := hreads.exists_fill hx
    intro hmem
    rw [markOf, AggResult.encode_player, AggResult.encode_team, ← heq] at hmem
    rcases List.mem_append.mp hmem with hplayer | hteam
    · exact houtput (List.mem_append_left _ hplayer)
    · exact hkey _ (h g hg tuple htuple) hteam
  · have hwash : ∀ g ∈ fs, ∀ tuple, 1 ∉ markOf tuple → 1 ∉ markOf (wash (g tuple)) :=
      fun g hg tuple htuple hmem => h g hg tuple htuple (List.mem_append_right _ hmem)
    obtain ⟨xs, ys, heq, hperm, hreads⟩ := fills_plain (V := V) key hkind
      List.not_mem_nil hwash hlen
    rw [heq] at hf
    obtain ⟨y, hy, rfl⟩ := List.mem_map.mp hf
    obtain ⟨g, hg, tuple, htuple, rfl⟩ := hreads.exists_fill (hperm.mem_iff.mp hy)
    exact h g hg tuple htuple

/-- The rows stand for two teams, whatever tuples they are read in. -/
def TwoTeams (fs : List Fill) : Prop :=
  ∃ teams : List GroupKey, teams.Perm [[2], [3]] ∧
    List.Forall₂ (fun f team => ∀ tuple : Tuple, (f tuple).team = team) fs teams

theorem TwoTeams.length_eq (h : TwoTeams fs) : fs.length = 2 := by
  obtain ⟨teams, hperm, hteams⟩ := h
  exact hteams.length_eq.trans hperm.length_eq

theorem TwoTeams.map_team {P : Tuple → Prop} {teams : List GroupKey} {xs : List Tuple}
    (hteams : List.Forall₂ (fun f team => ∀ tuple : Tuple, (f tuple).team = team) fs teams)
    (hreads : Reads P fs xs) : xs.map NBARecord.team = teams := by
  induction hteams generalizing xs with
  | nil =>
    cases hreads
    rfl
  | cons hteam _ ih =>
    cases hreads with
    | cons hread hreads =>
      obtain ⟨tuple, -, rfl⟩ := hread
      rw [List.map_cons, hteam, ih hreads]

/-- Grouped by team they stay two. -/
theorem Kind.twoTeams_fills (h : TwoTeams fs) :
    TwoTeams ((kind.operator NBARecord.team : Operator V).fills (insertionLib.moving after)
      insertionOrder fs) := by
  obtain ⟨teams, hperm, hteams⟩ := h
  have hlen : fs.length ≤ 2 := (hteams.length_eq.trans hperm.length_eq).le
  by_cases hkind : kind = .aggregation
  · subst hkind
    have hreads := @reads_collect fs id (fun _ => True) (fun _ _ _ _ => trivial) {} trivial
    refine ⟨(resultsOf insertionOrder NBARecord.team ([] : List (AggSpec V))
      (collect id fs {})).map AggResult.groupKey, ?_, ?_⟩
    · refine (List.perm_ext_iff_of_nodup resultsOf_keys_nodup (by decide)).mpr fun k => ?_
      rw [mem_keys_resultsOf, ← List.mem_map, TwoTeams.map_team hteams hreads, hperm.mem_iff]
    · refine List.forall₂_map_left_iff.mpr (List.forall₂_map_right_iff.mpr ?_)
      exact List.forall₂_same.mpr fun result _ => result.encode_team
  · obtain ⟨xs, ys, heq, hys, hreads⟩ := fills_plain (V := V)
      (P := fun _ => True) NBARecord.team hkind trivial (fun _ _ _ _ => trivial) hlen
    refine ⟨ys.map NBARecord.team, ?_, ?_⟩
    · rw [← TwoTeams.map_team hteams hreads] at hperm
      exact (hys.map _).trans hperm
    · rw [heq]
      refine List.forall₂_map_left_iff.mpr (List.forall₂_map_right_iff.mpr ?_)
      exact List.forall₂_same.mpr fun y _ _ => rfl

end Plain

/-! ## 4. The exact shapes

Where an operator that moves stands over an aggregation, the second row of the aggregation is
written into the tuple that the first was moved from.  From there on up the mark stays. -/

namespace Plan

theorem forall₂_same_replicate (n : ℕ) (tuple tuple' : Tuple) :
    List.Forall₂ Call.Same (.replicate n (.next tuple)) (.replicate n (.next tuple')) := by
  induction n with
  | zero => exact .nil
  | succ n ih => exact .cons (.next tuple tuple') ih

/-- A tuple that one run shows and the other does not. -/
theorem not_leakFree {plan : Plan V} {lib : StdLib} {order : MapOrder}
    {moved moved' : ℕ → Tuple → Tuple} {n : ℕ} {tuple tuple' x : Tuple}
    (hshown : ∃ f ∈ (fillsOf lib order moved plan.source plan.operators).take n, f tuple = x)
    (hhidden : ∀ f ∈ (fillsOf lib order moved' plan.source plan.operators).take n, f tuple' ≠ x) :
    ¬ plan.LeakFree := by
  intro hfree
  obtain ⟨enough, hrun⟩ := hfree lib order
  obtain ⟨fuel, henough, hfuel⟩ : ∃ fuel, enough ≤ fuel ∧
      calls lib order moved plan.source plan.operators ≤ fuel ∧
      calls lib order moved' plan.source plan.operators ≤ fuel :=
    ⟨max enough (max _ _), le_max_left _ _, le_max_of_le_right (le_max_left _ _),
      le_max_of_le_right (le_max_right _ _)⟩
  let state : (plan.executor lib order fuel moved).State :=
    start lib order fuel moved plan.source.start plan.operators
  let state' : (plan.executor lib order fuel moved').State :=
    start lib order fuel moved' plan.source.start plan.operators
  obtain ⟨seen, hseen, hseen'⟩ := hrun fuel henough moved moved' _ _
    (forall₂_same_replicate n tuple tuple') state state'
  obtain ⟨shown, hrun₁, hmem⟩ := run_replicate (produces hfuel.1) n tuple state
  obtain ⟨shown', hrun₂, hmem'⟩ := run_replicate (produces hfuel.2) n tuple' state'
  obtain rfl := Option.some.inj (hseen.symm.trans hrun₁)
  obtain rfl := Option.some.inj (hseen'.symm.trans hrun₂)
  obtain ⟨f, hf, heq⟩ := (hmem' x).mp ((hmem x).mpr hshown)
  exact hhidden f hf heq

/-- Two runs of one plan, of which only the first shows the stain. -/
structure Stained (operators : List (Operator V)) : Prop where
  stained : ∃ f ∈ fillsOf insertionLib insertionOrder (fun _ => stain) twoTeams operators,
    ∀ tuple, 1 ∈ markOf (f tuple)
  clean : ∀ f ∈ fillsOf insertionLib insertionOrder (fun _ => wash) twoTeams operators,
    ∀ tuple, 1 ∉ markOf tuple → 1 ∉ markOf (f tuple)
  length_stained :
    (fillsOf insertionLib insertionOrder (fun _ => stain) twoTeams operators).length ≤ 2
  length_clean :
    (fillsOf insertionLib insertionOrder (fun _ => wash) twoTeams operators).length ≤ 2

/-- A stained plan shows what a move left behind. -/
theorem Stained.not_leakFree {operators : List (Operator V)} (h : Stained operators) :
    ¬ (⟨operators, twoTeams⟩ : Plan V).LeakFree := by
  obtain ⟨f, hf, hstain⟩ := h.stained
  have hshown : ∃ g ∈ (fillsOf insertionLib insertionOrder (fun _ => stain) twoTeams
      operators).take 2, g {} = f {} :=
    ⟨f, by rwa [List.take_of_length_le h.length_stained], rfl⟩
  have hhidden : ∀ g ∈ (fillsOf insertionLib insertionOrder (fun _ => wash) twoTeams
      operators).take 2, g {} ≠ f {} := fun g hg heq =>
    h.clean g (List.mem_of_mem_take hg) {} List.not_mem_nil (heq ▸ hstain {})
  exact Plan.not_leakFree hshown hhidden

/-- One more operator hands the stain on. -/
theorem Stained.cons {operators : List (Operator V)} (h : Stained operators) (kind : Kind) :
    Stained (kind.operator markOf :: operators) where
  stained := Kind.stained_fills h.length_stained h.stained
  clean := Kind.clean_fills h.length_clean (fun _ => id) h.clean
  length_stained := Kind.length_fills h.length_stained
  length_clean := Kind.length_fills h.length_clean

/-- Plans that group by team have two rows, without a stain. -/
theorem twoTeams_fillsOf (after : Fill) (kinds : List Kind) :
    TwoTeams (fillsOf insertionLib insertionOrder (fun _ => after) twoTeams
      (byTeam kinds : List (Operator V))) := by
  induction kinds with
  | nil => exact ⟨[[2], [3]], .refl _, .cons (fun _ => rfl) (.cons (fun _ => rfl) .nil)⟩
  | cons kind kinds ih => exact Kind.twoTeams_fills ih

/-- Where moved-from tuples are washed, no mark comes through. -/
theorem clean_fillsOf (kinds : List Kind) :
    ∀ f ∈ fillsOf insertionLib insertionOrder (fun _ => wash) twoTeams
      (byTeam kinds : List (Operator V)), ∀ tuple, 1 ∉ markOf tuple → 1 ∉ markOf (f tuple) := by
  induction kinds with
  | nil =>
    intro f hf tuple _
    obtain ⟨x, hx, rfl⟩ := List.mem_map.mp hf
    exact (by decide : ∀ x ∈ twoTeams.tuples, 1 ∉ markOf x) x hx
  | cons kind kinds ih =>
    exact Kind.clean_fills (twoTeams_fillsOf wash kinds).length_eq.le
      (fun _ hmark hteam => hmark (List.mem_append_right _ hteam)) ih

/-- **An aggregation under an operator that passes moved-from tuples**: the second row keeps what
such a tuple holds. -/
theorem stained_of_moves {kind : Kind} (hkind : kind.Moves) (kinds : List Kind) :
    Stained (kind.operator markOf :: byTeam (.aggregation :: kinds) : List (Operator V)) := by
  have hlen : ∀ after : Fill, (fillsOf insertionLib insertionOrder (fun _ => after) twoTeams
      (byTeam (.aggregation :: kinds) : List (Operator V))).length = 2 := fun after =>
    (twoTeams_fillsOf after (.aggregation :: kinds)).length_eq
  refine ⟨?_, Kind.clean_fills (hlen wash).le (fun _ => id) (clean_fillsOf _),
    Kind.length_fills (hlen stain).le, Kind.length_fills (hlen wash).le⟩
  obtain ⟨ys, heq, hperm⟩ := Kind.fills_of_moves (V := V) markOf stain hkind
    (hlen stain).le
  obtain ⟨f, g, hfs⟩ := List.length_eq_two.mp (hlen stain)
  have hg : g (stain (f {})) ∈ ys := hperm.mem_iff.mpr (by rw [hfs]; simp [collect])
  obtain ⟨result, -, rfl⟩ : ∃ result ∈ resultsOf insertionOrder NBARecord.team
      ([] : List (AggSpec V)) _, AggResult.encode result = g :=
    List.mem_map.mp (hfs ▸ List.mem_cons_of_mem f List.mem_cons_self)
  refine ⟨fun _ => result.encode (stain (f {})), ?_, fun _ => List.mem_append_left _ ?_⟩
  · have hmem := List.mem_map_of_mem (f := fun (y : Tuple) (_ : Tuple) => y) hg
    rwa [← heq] at hmem
  · rw [AggResult.encode_player]
    exact List.mem_cons_self

/-- Every shape with such an aggregation has a plan that leaks. -/
theorem exists_stained {kinds : List Kind}
    (h : ¬ kinds.IsChain fun kind child => kind.Moves → child ≠ .aggregation) :
    ∃ operators : List (Operator V), operators.map Operator.kind = kinds ∧ Stained operators := by
  induction kinds with
  | nil => exact absurd .nil h
  | cons kind kinds ih =>
    by_cases hrest : kinds.IsChain fun kind child => kind.Moves → child ≠ .aggregation
    · cases kinds with
      | nil => exact absurd (.singleton kind) h
      | cons child kinds =>
        have hhead : kind.Moves ∧ child = .aggregation := by
          by_contra hnot
          exact h (.cons_cons (fun hmoves heq => hnot ⟨hmoves, heq⟩) hrest)
        obtain ⟨hmoves, rfl⟩ := hhead
        refine ⟨_, ?_, stained_of_moves hmoves kinds⟩
        rw [List.map_cons, Kind.kind_operator, map_kind_byTeam]
    · obtain ⟨operators, hkinds, hstained⟩ := ih hrest
      refine ⟨_, ?_, hstained.cons kind⟩
      rw [List.map_cons, Kind.kind_operator, hkinds]

/-- **An aggregation at the root**: its row keeps what the caller's tuple holds. -/
theorem not_leakFree_of_root (kinds : List Kind) :
    ¬ (⟨byTeam (.aggregation :: kinds), twoTeams⟩ : Plan V).LeakFree := by
  have hlen := (twoTeams_fillsOf (V := V) wash (.aggregation :: kinds)).length_eq
  obtain ⟨f, g, hfs⟩ := List.length_eq_two.mp hlen
  obtain ⟨result, -, rfl⟩ : ∃ result ∈ resultsOf insertionOrder NBARecord.team
      ([] : List (AggSpec V)) _, AggResult.encode result = f :=
    List.mem_map.mp (hfs ▸ List.mem_cons_self)
  have htake : (fillsOf insertionLib insertionOrder (fun _ => wash) twoTeams
      (byTeam (.aggregation :: kinds) : List (Operator V))).take 1 = [result.encode] := by
    rw [hfs]
    rfl
  have hshown : ∃ h ∈ (fillsOf insertionLib insertionOrder (fun _ => wash) twoTeams
      (byTeam (.aggregation :: kinds) : List (Operator V))).take 1,
      h { player := [1] } = result.encode { player := [1] } :=
    ⟨result.encode, htake ▸ List.mem_cons_self, rfl⟩
  have hhidden : ∀ h ∈ (fillsOf insertionLib insertionOrder (fun _ => wash) twoTeams
      (byTeam (.aggregation :: kinds) : List (Operator V))).take 1,
      h {} ≠ result.encode { player := [1] } := by
    rw [htake]
    intro h hh heq
    obtain rfl := List.mem_singleton.mp hh
    have hplayer := congrArg NBARecord.player heq
    rw [AggResult.encode_player, AggResult.encode_player] at hplayer
    exact absurd hplayer (by decide)
  exact Plan.not_leakFree hshown hhidden

/-- **Which shapes of plans hide the callers' tuples**: those without an aggregation at the root or
under an operator that passes moved-from tuples. -/
theorem leakFree_iff (V : Type) [DoubleArith V] (kinds : List Kind) :
    (∀ plan : Plan V, plan.operators.map Operator.kind = kinds → plan.LeakFree) ↔ Sealed kinds := by
  constructor
  · intro h
    refine ⟨fun hroot => ?_, ?_⟩
    · obtain ⟨below, rfl⟩ := List.head?_eq_some_iff.mp hroot
      exact not_leakFree_of_root (V := V) below (h _ (map_kind_byTeam _))
    · by_contra hchain
      obtain ⟨operators, hkinds, hstained⟩ := exists_stained (V := V) hchain
      exact hstained.not_leakFree (h _ hkinds)
  · rintro hsealed plan rfl
    exact leakFree_of_sealed hsealed

end Plan

end

/-! ### A concrete run -/

/-- `SELECT COUNT(*) GROUP BY team`, over one tuple. -/
def countByTeam : Plan ℚ where
  operators := [.aggregation NBARecord.team [⟨.count, fun _ => 1⟩]]
  source := {
    executor := TupleSource [{ team := [65] }]
    tuples := [{ team := [65] }]
    produces := fun state => ⟨_, rfl, Materialized.fills _ { child := state.child, tuples := _ }⟩
    start := { child := () } }

/-- The points of the caller's tuple are those of the row. -/
theorem Plan.countByTeam_leaks :
    let executor := countByTeam.executor insertionLib insertionOrder 2 fun _ tuple => tuple
    executor.run [.next { points := 2 }] { child := { child := () } } =
      some [some { team := [65], season := 1, homeScore := 1, points := 2 }] ∧
    executor.run [.next { points := 3 }] { child := { child := () } } =
      some [some { team := [65], season := 1, homeScore := 1, points := 3 }] ∧
    ¬ countByTeam.LeakFree := by
  refine ⟨rfl, rfl, ?_⟩
  have hshown : ∃ f ∈ (fillsOf insertionLib insertionOrder (fun _ tuple => tuple)
      countByTeam.source countByTeam.operators).take 1, f { points := 2 } =
        { team := [65], season := 1, homeScore := 1, points := 2 } :=
    ⟨_, List.mem_cons_self, rfl⟩
  have hhidden : ∀ f ∈ (fillsOf insertionLib insertionOrder (fun _ tuple => tuple)
      countByTeam.source countByTeam.operators).take 1, f { points := 3 } ≠
        { team := [65], season := 1, homeScore := 1, points := 2 } := by
    intro f hf
    obtain rfl := List.mem_singleton.mp hf
    exact fun heq => absurd (congrArg NBARecord.points heq) (by decide)
  exact Plan.not_leakFree hshown hhidden

end CourtDB
