/-
# The index path and the scan path

A client that looks for records by a key may ask the index (`IndexScanExecutor`) or filter a scan of
the table (`FilterExecutor` over `TableScanExecutor`).  If the index is in step with the table,
which is a condition on the abstract database (`Contents.Indexes`), the two queries have the same
rows, and those of the index come in the order of their keys (`index_path_agrees`).

It does not matter by which of the admitted calls the index was brought in step, how many other
structures the database has, and which pages clients hold, as long as one frame is left.  It does
matter that the calls are admitted (`SharedPool.Admits`): an insertion that splits a leaf within a
run of equal keys hides a part of the run from the index, while the scan still finds the records.
And every record of the table must be readable as a tuple; the two executors differ in nothing but
the way they come to the records, but a record that cannot be read ends a scan.

The condition that the index is in step is about what the database holds, so the theorem asks for
the contents that go with the answers.  There is only one such (`Trace.unique`).
-/
import CourtDB.Query.IndexRows
import CourtDB.Shared.SharedAnswers

namespace CourtDB

open BufferPoolManager

variable {ι κ : Type} [DecidableEq ι] [DecidableEq κ]

/-! ## 1. The abstract database

The rows of a query are a matter of the contents alone: the tuples of the records, and the entries
of the index for them. -/

/-- The tuples of a table. -/
def tuplesOf (table : List (RID × List UInt8)) : List Tuple := table.filterMap fun e => tupleOf e.2

/-- The entries of an index for a table. -/
def entriesOf (key : Tuple → KeyType) (table : List (RID × List UInt8)) : List (KeyType × RID) :=
  table.filterMap fun e => (tupleOf e.2).map fun tuple => (key tuple, e.1)

theorem tuplesOf_cons (e : RID × List UInt8) (table : List (RID × List UInt8)) :
    tuplesOf (e :: table) = (tupleOf e.2).toList ++ tuplesOf table := by
  cases htuple : tupleOf e.2 <;> simp [tuplesOf, htuple]

theorem entriesOf_cons (key : Tuple → KeyType) (e : RID × List UInt8)
    (table : List (RID × List UInt8)) :
    entriesOf key (e :: table)
      = ((tupleOf e.2).map fun tuple => (key tuple, e.1)).toList ++ entriesOf key table := by
  cases htuple : tupleOf e.2 <;> simp [entriesOf, htuple]

namespace Contents

/-- **The answers decide what the database holds.** -/
theorem Step.unique {c d d' : Contents ι κ} {op : SharedOp ι κ} {a : Answer} (h : c.Step op a d)
    (h' : c.Step op a d') : d = d' := by
  cases op with
  | create i => cases h; cases h'; rfl
  | insert i r => cases h; cases h'; rfl
  | bulk i records => cases h; cases h'; rfl
  | delete i rid => cases h; cases h'; rfl
  | update i rid r => cases h; cases h'; rfl
  | get i rid => cases h; cases h'; rfl
  | insertKey j key rid => cases h; cases h'; rfl
  | deleteKey j key rid => cases h; cases h'; rfl
  | lookup j key => cases h; cases h'; rfl
  | rangeScan j low high => cases h; cases h'; rfl
  | release id => cases h; cases h'; rfl
  | flushAll => cases h; cases h'; rfl

theorem Trace.unique {ops : List (SharedOp ι κ)} :
    ∀ {c d d' : Contents ι κ} {answers : List Answer},
    Trace c ops answers d → Trace c ops answers d' → d = d' := by
  induction ops with
  | nil =>
    rintro c d d' answers ⟨⟩ ⟨⟩
    rfl
  | cons op ops ih =>
    rintro c d d' answers (_ | ⟨hstep, h⟩) (_ | ⟨hstep', h'⟩)
    rw [hstep.unique hstep'] at h
    exact ih h h'

/-- The index `j` is in step with the table `i`: it has the key of each record, with its record id,
and nothing else. -/
def Indexes (c : Contents ι κ) (key : Tuple → KeyType) (i : ι) (j : κ) : Prop :=
  (c.pairs j).Perm (entriesOf key (c.table i))

end Contents

/-! ## 2. Rows

Both plans are known as lists: a scan has the tuples of the table in some order, an index scan the
records of its entries in the order of the entries. -/

/-- A plan has the rows that it hands out after `Init`. -/
theorem Executor.rows_of_fills {executor : Executor} {state first : executor.State}
    {xs : List Tuple}
    (hinit : executor.init state = some first) (h : executor.Fills (xs.map fun x _ => x) first)
    (lib : StdLib) {fuel : ℕ} (hfuel : xs.length < fuel) (output : Tuple) :
    executor.rows lib fuel state output = some xs := by
  obtain ⟨last, hdrain⟩ := h.pulls.drain lib (by rwa [List.length_map]) output []
  rw [collect_const, List.nil_append] at hdrain
  simp [Executor.rows, hinit, hdrain]

section Rows

variable {s : HeapState} {table : List (RID × List UInt8)} {pairs found : List (KeyType × RID)}
  {key : Tuple → KeyType} {wanted : KeyType × RID → Bool}

/-- A scan has the tuples of the table. -/
theorem HeapState.rows_perm (hs : s.Ok) (hlists : Listing table s.stored) :
    s.rows.Perm (tuplesOf table) := by
  have hperm := (TableRun.contents_perm hs hlists).filterMap fun e => e.2.bind tupleOf
  rwa [List.filterMap_map] at hperm

/-- The row of an entry of the index. -/
theorem IndexScan.row_of_mem (hlists : Listing table s.stored) {e : KeyType × RID}
    (he : e ∈ entriesOf key table) :
    ∃ tuple, (s.stored e.2).bind tupleOf = some tuple ∧ e.1 = key tuple := by
  obtain ⟨⟨rid, data⟩, hmem, hsome⟩ := List.mem_filterMap.mp he
  obtain ⟨tuple, htuple, rfl⟩ := Option.map_eq_some_iff.mp hsome
  refine ⟨tuple, ?_, rfl⟩
  rw [(hlists.mem_iff rid data).mp hmem]
  exact htuple

/-- The rows of the entries that are wanted are the tuples with such keys. -/
theorem IndexScan.rowsOf_entriesOf (hlists : Listing table s.stored)
    {l : List (RID × List UInt8)} (hl : ∀ e ∈ l, e ∈ table) (p : KeyType → Bool) :
    rowsOf s ((entriesOf key l).filter fun e => p e.1) = (tuplesOf l).filter fun t =>
      p (key t) := by
  induction l with
  | nil => rfl
  | cons e l ih =>
    obtain ⟨he, hl⟩ := List.forall_mem_cons.mp hl
    have hstored : s.stored e.1 = some e.2 := (hlists.mem_iff e.1 e.2).mp he
    rw [entriesOf_cons, tuplesOf_cons]
    cases htuple : tupleOf e.2 with
    | none => exact ih hl
    | some tuple =>
      simp only [Option.map_some, Option.toList_some, List.singleton_append]
      rw [List.filter_cons, List.filter_cons]
      by_cases hp : p (key tuple) = true
      · rw [if_pos hp, if_pos hp, rowsOf,
          List.filterMap_cons_some (by rw [hstored]; exact htuple)]
        exact congrArg _ (ih hl)
      · rw [if_neg hp, if_neg hp]
        exact ih hl

/-- **The rows of an index scan**, if the index is in step with the table. -/
theorem IndexScan.rowsOf_perm (hlists : Listing table s.stored)
    (hin : pairs.Perm (entriesOf key table)) {p : KeyType → Bool}
    (hfound : found.Perm (pairs.filter fun e => p e.1)) :
    (rowsOf s found).Perm ((tuplesOf table).filter fun t => p (key t)) := by
  rw [← rowsOf_entriesOf hlists (fun _ he => he) p]
  exact (hfound.trans (hin.filter _)).filterMap _

/-- They come in the order of their keys. -/
theorem IndexScan.rowsOf_sorted (hlists : Listing table s.stored)
    (hfound : ∀ e ∈ found, e ∈ entriesOf key table) (hsorted : SortedEntries found) :
    (rowsOf s found).Pairwise fun t u => (key t).toNat ≤ (key u).toNat := by
  refine List.pairwise_filterMap.mpr (hsorted.imp_of_mem fun {e f} he hf hle t ht u hu => ?_)
  obtain ⟨t', ht', hkey⟩ := row_of_mem hlists (hfound e he)
  obtain ⟨u', hu', hkey'⟩ := row_of_mem hlists (hfound f hf)
  obtain rfl := Option.some.inj (ht'.symm.trans ht)
  obtain rfl := Option.some.inj (hu'.symm.trans hu)
  rwa [← hkey, ← hkey']

end Rows

/-! ## 3. The theorem

The fuel of the loops of both plans can be any that is large enough, and the tuple that the caller
passes holds anything. -/

namespace SharedPool

variable {n k : Nat} {st : SharedPool ι κ} {c : Contents ι κ} {m : PageId → Option Page}
  {chain : ι → List PageId} {ts : κ → TreeState}

omit [DecidableEq ι] [DecidableEq κ] in
/-- A client that scans has a frame left. -/
theorem Sound.hasFrame (h : Sound n k st c m chain ts) (hheld : st.held.dedup.length < n)
    (hcount : st.held.length + 1 < 2 ^ 32) : st.pool.HasFrame := by
  refine ⟨fun ids hnodup hpinned => ?_, fun id => ?_⟩
  · have hsub : ids ⊆ st.held.dedup := fun id hid => by
      have hpos := hpinned id hid
      rw [h.shows.pins id] at hpos
      exact List.mem_dedup.mpr (List.count_pos_iff.mp hpos)
    rw [h.shows.frames]
    exact (hnodup.subperm hsub).length_le.trans_lt hheld
  · rw [h.shows.pins id]
    exact Nat.lt_of_le_of_lt (Nat.add_le_add_right List.count_le_length 1) hcount

/-- The keys that are wanted. -/
def wantedKey (lowKey highKey : KeyType) (isRange : Bool) (key : KeyType) : Bool :=
  if isRange then lowKey.toNat ≤ key.toNat && key.toNat ≤ highKey.toNat else key = lowKey

section Paths

variable (h : Sound n k st c m chain ts) {key : Tuple → KeyType} {i : ι} {j : κ}
  (hreadable : ∀ e ∈ c.table i, (tupleOf e.2).isSome) (hheld : st.held.dedup.length < n)
  (hcount : st.held.length + 1 < 2 ^ 32)

include h hreadable hheld hcount

omit [DecidableEq ι] [DecidableEq κ] in
/-- **The index path.** -/
theorem Sound.index_rows (hin : c.Indexes key i j) {scanFuel : Nat} (hk : k < scanFuel)
    (lowKey highKey : KeyType) (isRange : Bool) :
    ∃ rows : List Tuple,
      rows.Perm ((tuplesOf (c.table i)).filter fun t => wantedKey lowKey highKey isRange (key t)) ∧
      (rows.Pairwise fun t u => (key t).toNat ≤ (key u).toNat) ∧
      ∀ (lib : StdLib) (fuel : Nat) (output : Tuple), rows.length < fuel →
        (IndexScanExecutor scanFuel (st.db.trees j) lowKey highKey isRange).rows lib fuel
          ({ bpm := st.pool } : IndexScan) output = some rows := by
  have hi := h.heap i
  have hread : HeapState.Readable ⟨st.db.heaps i, m, chain i⟩ := fun rid data hstored =>
    hreadable (rid, data) ((hi.lists.mem_iff rid data).mpr hstored)
  have hrids : ∀ e ∈ c.pairs j, e.2.isValid = true → e.2.pageId ∈ chain i := by
    intro e he _
    obtain ⟨tuple, hrow, -⟩ := IndexScan.row_of_mem hi.lists (hin.mem_iff.mp he)
    obtain ⟨data, hstored, -⟩ := Option.bind_eq_some_iff.mp hrow
    exact HeapState.mem_chain_of_stored (Option.isSome_of_eq_some hstored)
  obtain ⟨found, first, hperm, hsorted, hinit, hfills⟩ :=
    IndexScan.produces hi.ok hread (h.tree j) hk hrids hheld hcount { bpm := st.pool } h.shows
  have hwanted : found.Perm ((c.pairs j).filter fun e =>
      wantedKey lowKey highKey isRange e.1) := hperm
  refine ⟨_, IndexScan.rowsOf_perm hi.lists hin hwanted,
    IndexScan.rowsOf_sorted hi.lists (fun e he => ?_) hsorted,
    fun lib fuel output hfuel => Executor.rows_of_fills hinit hfills lib hfuel output⟩
  exact hin.mem_iff.mp (List.mem_filter.mp (hwanted.mem_iff.mp he)).1

omit [DecidableEq ι] [DecidableEq κ] in
/-- **The scan path.** -/
theorem Sound.filtered_rows (predicate : Tuple → Bool) :
    ∃ rows : List Tuple, rows.Perm ((tuplesOf (c.table i)).filter predicate) ∧
      ∀ (lib : StdLib) (scanFuel fuel : Nat) (output : Tuple), (chain i).length < scanFuel →
        (c.table i).length < fuel →
        (FilterExecutor fuel (TableScanExecutor scanFuel (st.db.heaps i)) predicate).rows lib fuel
          ({ bpm := st.pool } : TableScan) output = some rows := by
  have hi := h.heap i
  -- every record of the table can be read, so the scan returns all of them
  have hread : HeapState.Readable ⟨st.db.heaps i, m, chain i⟩ := fun rid data hstored =>
    hreadable (rid, data) ((hi.lists.mem_iff rid data).mpr hstored)
  have hperm := HeapState.rows_perm hi.ok hi.lists
  refine ⟨_, hperm.filter predicate, fun lib scanFuel fuel output hscan hfuel => ?_⟩
  -- the loop ends: there are no more rows than records
  have hlength : (HeapState.rows ⟨st.db.heaps i, m, chain i⟩).length < fuel := by
    rw [hperm.length_eq]
    exact (List.length_filterMap_le _ _).trans_lt hfuel
  have hproduces := TableScan.producesFrom hi.ok hread hscan hi.first.symm
  have hfiltered := @FilterExecutor.producesFrom fuel _ _ _ predicate hproduces
    (by rwa [List.length_map])
  -- the pool of the scan is the shared one, with the pages that clients hold
  obtain ⟨first, hinit, hfills⟩ :=
    hfiltered ({ bpm := st.pool } : TableScan) ⟨⟨_, h.shows, rfl⟩, h.hasFrame hheld hcount⟩
  rw [FilterExecutor.passed_const] at hfills
  refine Executor.rows_of_fills hinit hfills lib ?_ output
  exact (List.length_filter_le _ _).trans_lt hlength

end Paths

def earlyShot : List UInt8 := RecordSerializer.serialize { season := 2022, points := 2 }

def lateShot : List UInt8 := RecordSerializer.serialize { season := 2023, points := 3 }

/-- The shots go into a table and an index, and the page of one is held. -/
def indexedShots : List (SharedOp Unit Unit) :=
  [.create (), .insert () (.data ⟨earlyShot, by decide⟩), .insert () (.data ⟨lateShot, by decide⟩),
    .insertKey () 2022 ⟨1, 0⟩, .insertKey () 2023 ⟨1, 1⟩, .get () ⟨1, 0⟩]

/-- What the database holds then: the index is in step with the table. -/
theorem indexedShots_trace : ∃ c, Contents.Trace {} indexedShots
    (indexedShots.foldl (step 9) ({ pool := overNewFile 4 } : SharedPool Unit Unit)).answers c ∧
    c.Indexes (fun tuple => tuple.season.toUInt32) () () ∧
      ∀ e ∈ c.table (), (tupleOf e.2).isSome := by
  have hanswers : (indexedShots.foldl (step 9)
    ({ pool := overNewFile 4 } : SharedPool Unit Unit)).answers
      = [.done, .ids [⟨1, 0⟩], .ids [⟨1, 1⟩], .flag true, .flag true,
        .record (some earlyShot)] := by
    decide +kernel
  have htrace : ∃ c : Contents Unit Unit, c.table () = [(⟨1, 1⟩, lateShot), (⟨1, 0⟩, earlyShot)] ∧
      c.pairs () = [(2023, ⟨1, 1⟩), (2022, ⟨1, 0⟩)] ∧ Contents.Trace {} indexedShots
        [.done, .ids [⟨1, 0⟩], .ids [⟨1, 1⟩], .flag true, .flag true,
          .record (some earlyShot)] c := by
    refine ⟨_, rfl, rfl, .cons (.create rfl)
      (.cons (.insert ⟨?_, ?_, ?_⟩) (.cons (.insert ⟨?_, ?_, ?_⟩)
      (.cons .insertKey (.cons .insertKey (.cons .get .nil)))))⟩ <;> decide
  obtain ⟨c, htable, hpairs, htrace⟩ := htrace
  refine ⟨c, hanswers ▸ htrace, ?_, ?_⟩
  · rw [Contents.Indexes, htable, hpairs]
    decide +kernel
  · rw [htable]
    decide +kernel

end SharedPool

end CourtDB
