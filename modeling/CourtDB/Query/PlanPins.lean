/-
# The pins of a query

A query builds a plan, calls `Init` and then `Next` some times, and either destroys the plan or
resets it, reads it to the end and then destroys it.  The plan's leaf may have a page pinned when it
is reset or destroyed: a `TableScanExecutor` whose iterator is on a record.  Nobody gives such a pin
back, and no other pin is left behind (`Query.run_spec`).

The iterator of a table scan is replaced by a new one in `Init`, and it has no destructor that would
unpin its page.  So what counts is the state of the leaf at these two moments, in a plan of any
operators: `gives_back_iff` says that a query gives back its pins if and only if its plan holds no
page then.  An index scan never does, and a table scan does not once it was read to the end.

Queries follow one another.  A pin that is left stays for good, so the account of a query starts
with the pins that are there (`rebase`).
-/
import CourtDB.Query.ScanPins

namespace CourtDB

open BufferPoolManager
open AggregationExecutor (insertionOrder)

/-! ## 1. Queries -/

/-- A plan, the caller's tuples for the calls of `Next` after `Init`, and whether the plan is then
reset and read to the end. -/
structure Query (V : Type) where
  operators : List (Operator V)
  scan : Scan
  outputs : List Tuple
  reset : Bool

namespace Query

section Queries

variable {V : Type} [DoubleArith V]

section Run

variable (lib : StdLib) (order : MapOrder) (moved : ℕ → Tuple → Tuple) (scanFuel fuel : ℕ)

/-- The plan of a query. -/
def plan (query : Query V) : Executor :=
  Plan.build lib order fuel moved (query.scan.executor scanFuel) query.operators

variable {lib order moved scanFuel fuel}

/-- The plan as it is built. -/
def start (query : Query V) (bpm : BufferPoolManager) :
    (query.plan lib order moved scanFuel fuel).State :=
  Plan.start lib order fuel moved (query.scan.start bpm) query.operators

def pool (query : Query V) (state : (query.plan lib order moved scanFuel fuel).State) :
    BufferPoolManager :=
  query.scan.pool (Plan.leafState query.operators state)

/-- The page that the plan has pinned. -/
def held (query : Query V) (state : (query.plan lib order moved scanFuel fuel).State) :
    List PageId :=
  query.scan.held (Plan.leafState query.operators state)

variable (lib order moved scanFuel fuel)

/-- The query on a pool: the pages that the plan had pinned when it was reset and when it was
destroyed, and the pool afterwards. -/
def run (query : Query V) (bpm : BufferPoolManager) : Option (List PageId × BufferPoolManager) := do
  let plan := query.plan lib order moved scanFuel fuel
  let state ← plan.init (query.start bpm)
  let state ← plan.nexts query.outputs state
  if query.reset then
    let first ← plan.init state
    let (_, last) ← plan.drain lib fuel first {} []
    return (query.held state ++ query.held last, query.pool last)
  else
    return (query.held state, query.pool state)

/-- One query after the other. -/
def runAll : List (Query V) → BufferPoolManager → Option (List PageId × BufferPoolManager)
  | [], bpm => some ([], bpm)
  | query :: queries, bpm => do
    let (left, bpm) ← query.run lib order moved scanFuel fuel bpm
    let (left', bpm) ← runAll queries bpm
    return (left ++ left', bpm)

end Run

/-- The query reads the heap file `s`, or a tree over it, and its comparators order tuples. -/
structure Over (s : HeapState) (query : Query V) : Prop where
  scan : query.scan.Over s
  ordered : ∀ operator ∈ query.operators, operator.Ordered

/-! ## 2. The account -/

section Account

variable {lib : StdLib} {order : MapOrder} {moved : ℕ → Tuple → Tuple} {scanFuel fuel : ℕ}
  {s : HeapState} {query : Query V}

/-- Of a plan, the pool shows `s` with `base` for the pins of others. -/
def Stands (s : HeapState) (base : PageId → ℕ) (query : Query V) (held : List PageId)
    (state : (query.plan lib order moved scanFuel fuel).State) : Prop :=
  ∃ v, (query.pool state).Shows v ∧ s.Keeping base held v

/-- A plan that is reset starts among the pins that it leaves behind. -/
theorem Stands.rebase {base : PageId → ℕ} {held : List PageId}
    {state : (query.plan lib order moved scanFuel fuel).State}
    (h : Stands s base query held state) :
    Stands s (fun id => base id + held.count id) query [] state := by
  obtain ⟨v, hshows, hkeeping⟩ := h
  exact ⟨v, hshows, hkeeping.pages, hkeeping.holding.rebase⟩

/-- **Init and Next** of the plan of a query. -/
theorem Over.keeps (h : query.Over s) (hs : s.Ok) (hreadable : s.Readable) :
    ∃ enough, ∀ scanFuel, enough < scanFuel → ∃ enough', ∀ fuel, enough' < fuel →
      ∀ base : PageId → ℕ, (∀ id, base id + 2 < 2 ^ 32) → ∃ Live,
        Keeps (query.plan lib order moved scanFuel fuel) (Stands s base query []) Live enough' ∧
          ∀ k state, Live k state → Stands s base query (query.held state) state := by
  obtain ⟨enough, hkeeps⟩ := h.scan.keeps hs hreadable
  refine ⟨enough, fun scanFuel hscan => ⟨query.scan.bound s scanFuel, fun fuel hfuel => ?_⟩⟩
  intro base hbase
  refine ⟨_, Plan.keeps (hkeeps scanFuel hscan base hbase) hfuel h.ordered, fun k state hlive => ?_⟩
  obtain ⟨j, hj⟩ := hlive.below
  exact hj.keeping

/-- What a query does to the pins: the pages that its plan was still holding keep a pin each. -/
def Accounts (lib : StdLib) (order : MapOrder) (moved : ℕ → Tuple → Tuple) (s : HeapState)
    (scanFuel fuel : ℕ) (query : Query V) : Prop :=
  ∀ (base : PageId → ℕ) (b : BufferPoolManager) (v : View), (∀ id, base id + 3 < 2 ^ 32) →
    b.Shows v → s.Keeping base [] v →
    ∃ left b' v', query.run lib order moved scanFuel fuel b = some (left, b') ∧ b'.Shows v' ∧
      s.Keeping (fun id => base id + left.count id) [] v'

theorem Over.accounts (h : query.Over s) (hs : s.Ok) (hreadable : s.Readable) :
    ∃ enough, ∀ scanFuel, enough < scanFuel → ∃ enough', ∀ fuel, enough' < fuel →
      query.Accounts lib order moved s scanFuel fuel := by
  obtain ⟨enough, hkeeps⟩ := @Over.keeps V _ lib order moved s query h hs hreadable
  refine ⟨enough, fun scanFuel hscan => ?_⟩
  obtain ⟨enough', hkeeps⟩ := hkeeps scanFuel hscan
  refine ⟨enough', fun fuel hfuel base b v hbase hshows hkeeping => ?_⟩
  obtain ⟨Live, hplan, hstands⟩ := hkeeps fuel hfuel base fun id => Nat.lt_of_succ_lt (hbase id)
  have hready : Stands s base query []
      (query.start b : (query.plan lib order moved scanFuel fuel).State) := by
    refine ⟨v, ?_, hkeeping⟩
    rw [pool, start, Plan.leafState_start]
    cases query.scan <;> exact hshows
  obtain ⟨first, hinit, hfirst⟩ := hplan.init _ hready
  obtain ⟨state, left, hnexts, hlive⟩ := hplan.nexts query.outputs hfirst
  have hstate := hstands _ _ hlive
  by_cases hreset : query.reset = true
  · have hroom : ∀ id, base id + (query.held state).count id + 2 < 2 ^ 32 := by
      intro id
      have hcount := (List.count_le_length (l := query.held state) (a := id)).trans
        (Scan.length_held_le _)
      have := hbase id
      omega
    obtain ⟨Live', hplan', hstands'⟩ := hkeeps fuel hfuel _ hroom
    obtain ⟨again, hinit', hagain⟩ := hplan'.init _ hstate.rebase
    obtain ⟨xs, last, left', hdrain, -, hlast⟩ := hplan'.drain lib
      ((hplan'.le _ _ hagain).trans_lt hfuel) hagain {} []
    obtain ⟨v', hshows', hkeeping'⟩ := (hstands' _ _ hlast).rebase
    refine ⟨query.held state ++ query.held last, query.pool last, v', ?_, hshows', ?_⟩
    · simp [run, hinit, hnexts, hreset, hinit', hdrain]
    · simpa only [List.count_append, ← Nat.add_assoc] using hkeeping'
  · obtain ⟨v', hshows', hkeeping'⟩ := hstate.rebase
    refine ⟨query.held state, query.pool state, v', ?_, hshows', hkeeping'⟩
    simp [run, hinit, hnexts, hreset]

/-- Fuel for several queries. -/
theorem accounts_all (hs : s.Ok) (hreadable : s.Readable) (queries : List (Query V))
    (h : ∀ query ∈ queries, query.Over s) :
    ∃ enough, ∀ scanFuel, enough < scanFuel → ∃ enough', ∀ fuel, enough' < fuel →
      ∀ query ∈ queries, query.Accounts lib order moved s scanFuel fuel := by
  induction queries with
  | nil => exact ⟨0, fun _ _ => ⟨0, fun _ _ => nofun⟩⟩
  | cons query queries ih =>
    obtain ⟨hquery, hqueries⟩ := List.forall_mem_cons.mp h
    obtain ⟨m, hm⟩ := @Over.accounts V _ lib order moved s query hquery hs hreadable
    obtain ⟨n, hn⟩ := ih hqueries
    refine ⟨max m n, fun scanFuel hscan => ?_⟩
    obtain ⟨m', hm'⟩ := hm scanFuel ((le_max_left m n).trans_lt hscan)
    obtain ⟨n', hn'⟩ := hn scanFuel ((le_max_right m n).trans_lt hscan)
    refine ⟨max m' n', fun fuel hfuel => List.forall_mem_cons.mpr ⟨?_, ?_⟩⟩
    · exact hm' fuel ((le_max_left m' n').trans_lt hfuel)
    · exact hn' fuel ((le_max_right m' n').trans_lt hfuel)

/-- **Queries that leave nothing behind** leave the pins as they were. -/
theorem runAll_spec {base : PageId → ℕ} (hbase : ∀ id, base id + 3 < 2 ^ 32)
    {queries : List (Query V)}
    (h : ∀ query ∈ queries, query.Accounts lib order moved s scanFuel fuel)
    {b b' : BufferPoolManager} {v : View} (hshows : b.Shows v) (hkeeping : s.Keeping base [] v)
    (hrun : runAll lib order moved scanFuel fuel queries b = some ([], b')) :
    ∃ v', b'.Shows v' ∧ s.Keeping base [] v' := by
  induction queries generalizing b v with
  | nil =>
    obtain ⟨-, rfl⟩ := Prod.mk.inj (Option.some.inj hrun)
    exact ⟨v, hshows, hkeeping⟩
  | cons query queries ih =>
    obtain ⟨hquery, hqueries⟩ := List.forall_mem_cons.mp h
    obtain ⟨left, b₁, v₁, heq, hshows₁, hkeeping₁⟩ := hquery base b v hbase hshows hkeeping
    rw [runAll, heq, Option.bind_eq_bind, Option.bind_some] at hrun
    obtain ⟨⟨left', b₂⟩, hrest, hpair⟩ := Option.bind_eq_some_iff.mp hrun
    obtain ⟨hleft, rfl⟩ := Prod.mk.inj (Option.some.inj hpair)
    obtain ⟨rfl, rfl⟩ := List.append_eq_nil_iff.mp hleft
    exact ih hqueries hshows₁ hkeeping₁ hrest

end Account

/-! ## 3. The theorem -/

/-- **A query gives its pins back** if and only if no page is pinned by its plan when it is reset
and when it is destroyed.  However many queries ran before and did so, with enough fuel the query
returns. -/
theorem gives_back_iff (lib : StdLib) (order : MapOrder) (moved : ℕ → Tuple → Tuple) {s : HeapState}
    (hs : s.Ok) (hreadable : s.Readable) {b : BufferPoolManager} {v : View} (hb : b.Shows v)
    (hpages : v.pages = s.pages) (hpins : ∀ id, b.pinsOf id + 3 < 2 ^ 32)
    (earlier : List (Query V)) (query : Query V) (hearlier : ∀ q ∈ earlier, q.Over s)
    (hquery : query.Over s) :
    ∃ enough, ∀ scanFuel, enough < scanFuel → ∃ enough', ∀ fuel, enough' < fuel → ∀ b',
      runAll lib order moved scanFuel fuel earlier b = some ([], b') →
        ∃ left b'', query.run lib order moved scanFuel fuel b' = some (left, b'') ∧
          ((∀ id, b''.pinsOf id = b.pinsOf id) ↔ left = []) := by
  obtain ⟨enough, haccounts⟩ := @accounts_all V _ lib order moved s hs hreadable (query :: earlier)
    (List.forall_mem_cons.mpr ⟨hquery, hearlier⟩)
  refine ⟨enough, fun scanFuel hscan => ?_⟩
  obtain ⟨enough', haccounts⟩ := haccounts scanFuel hscan
  refine ⟨enough', fun fuel hfuel b' hrun => ?_⟩
  obtain ⟨haccount, hall⟩ := List.forall_mem_cons.mp (haccounts fuel hfuel)
  have hroom : ∀ id, v.pins id + 3 < 2 ^ 32 := fun id => hb.pins id ▸ hpins id
  obtain ⟨v', hshows', hkeeping'⟩ := runAll_spec hroom hall hb ⟨hpages, .start hb⟩ hrun
  obtain ⟨left, b'', v'', heq, hshows'', hkeeping''⟩ :=
    haccount v.pins b' v' hroom hshows' hkeeping'
  refine ⟨left, b'', heq, ?_⟩
  have hcount : ∀ id, b''.pinsOf id = b.pinsOf id + left.count id := by
    intro id
    rw [hshows''.pins, hkeeping''.holding.pins, List.count_nil, Nat.add_zero, hb.pins]
  simp only [hcount, Nat.add_eq_left, List.count_eq_zero, List.eq_nil_iff_forall_not_mem]

end Queries

/-! ### Two shots -/

/-- One row is read, and the plan is destroyed. -/
def firstShot : Query ℚ where
  operators := [.limit 1]
  scan := .table twoShots.heap
  outputs := [{}]
  reset := false

/-- The first row of the two, after a query that read both. -/
theorem gives_back_iff_firstShot :
    let allShots : Query ℚ := { firstShot with operators := [], outputs := [{}, {}] }
    ∃ enough, ∀ scanFuel, enough < scanFuel → ∃ enough', ∀ fuel, enough' < fuel → ∀ b',
      runAll insertionLib insertionOrder (fun _ tuple => tuple) scanFuel fuel [allShots]
        twoShots.pool = some ([], b') →
        ∃ left b'', firstShot.run insertionLib insertionOrder (fun _ tuple => tuple)
          scanFuel fuel b'
          = some (left, b'') ∧
            ((∀ id, b''.pinsOf id = twoShots.pool.pinsOf id) ↔ left = []) := by
  intro allShots
  obtain ⟨s, hs, hreadable, hfirst, hshows, -⟩ := twoShots_heap
  have hpins : ∀ id, twoShots.pool.pinsOf id + 3 < 2 ^ 32 := fun id =>
    (hshows.pins id).symm ▸ (by decide : 0 + 3 < 2 ^ 32)
  have hover : firstShot.Over s := ⟨hfirst, by simp [firstShot, Operator.Ordered]⟩
  have hall : ∀ q ∈ [allShots], q.Over s := by
    intro q hq
    obtain rfl := List.mem_singleton.mp hq
    exact ⟨hfirst, nofun⟩
  exact gives_back_iff insertionLib insertionOrder (fun _ tuple => tuple) hs hreadable hshows
    rfl hpins [allShots] firstShot hall hover

/-- Its page stays pinned. -/
theorem firstShot_keeps_pin :
    ((firstShot.run insertionLib insertionOrder (fun _ tuple => tuple) 3 3 twoShots.pool).map
      fun r => (r.1, r.2.pinsOf 1)) = some ([1], 1) ∧ twoShots.pool.pinsOf 1 = 0 := by
  decide +kernel

end Query

end CourtDB
