/-
# The pins of the scans

The leaves of a plan are the only executors that reach the pool, so what a plan has pinned is what
its leaf has pinned.  The two leaves differ:

* `IndexScanExecutor` gives back every page before a call returns.  `Init` asks the tree for the
  record ids, and each `Next` reads one record and unpins its page.
* `TableScanExecutor` has an iterator, which stays on the page of its record between two calls.  The
  page is pinned until the iterator leaves it, and nothing else is.

Both hold that of any pool (`Scan.Over.keeps`): of any pins that others have, and of any fetches
that are refused.  A record that cannot be fetched is passed over, which is also how a scan comes to
an end early.

The pages are only read.  So the heap file and the tree under the leaf may be described once, for
all calls, and it is enough to know of them where their pointers lead and that record ids found in
the tree name pages that exist (`Scan.Over`).
-/
import CourtDB.Query.PlanCalls
import CourtDB.Query.Scans

namespace CourtDB

open PoolM BufferPoolManager

/-! ## 1. The calls of an index scan only read

`Program.Only` is a property of the calls a program makes.  It passes through `bind`, so each lemma
is the body of the function with its loops done by induction on the fuel. -/

namespace BPlusTree

variable {t : BPlusTree} {fuel : ℕ} {key low high : KeyType}

theorem reads_load (id : PageId) : (LeafNode.load id).Only PoolCall.Reads :=
  (reads_readPage id).bind fun _ => trivial

theorem reads_descend (id : PageId) : (t.descend key fuel id).Only PoolCall.Reads := by
  induction fuel generalizing id with
  | zero => trivial
  | succ fuel ih =>
    unfold descend
    refine (reads_readPage id).bind fun page => ?_
    split
    · trivial
    · refine (reads_unpinPage id).bind fun _ => (reads_fetchPage _).bind fun found => ?_
      split
      · exact ih _
      · trivial

theorem reads_findLeafPage : (t.findLeafPage fuel key).Only PoolCall.Reads := by
  refine (reads_fetchPage _).bind fun found => ?_
  split
  · exact reads_descend _
  · trivial

theorem reads_lookupNext (id : PageId) (results : List RID) :
    (t.lookupNext key fuel id results).Only PoolCall.Reads := by
  induction fuel generalizing id results with
  | zero => trivial
  | succ fuel ih =>
    unfold lookupNext
    split
    · refine (reads_fetchPage id).bind fun found => ?_
      split
      · refine (reads_load id).bind fun leaf => (reads_unpinPage id).bind fun _ => ?_
        split
        · trivial
        · exact ih _ _
      · trivial
    · trivial

theorem reads_lookup : (t.lookup fuel key).Only PoolCall.Reads := by
  unfold lookup
  split
  · trivial
  · refine reads_findLeafPage.bind fun found => ?_
    cases found with
    | none => trivial
    | some leafId =>
      cases leafId with
      | none => trivial
      | some leafId =>
        exact (reads_load leafId).bind fun leaf => (reads_unpinPage leafId).bind fun _ =>
          reads_lookupNext _ _

theorem reads_scanLeaves (id : PageId) (results : List (KeyType × RID)) :
    (t.scanLeaves low high fuel id results).Only PoolCall.Reads := by
  induction fuel generalizing id results with
  | zero => trivial
  | succ fuel ih =>
    unfold scanLeaves
    refine (reads_load id).bind fun leaf => (reads_unpinPage id).bind fun _ => ?_
    split
    · trivial
    · split
      · trivial
      · refine (reads_fetchPage _).bind fun found => ?_
        split
        · exact ih _ _
        · trivial

theorem reads_rangeScan : (t.rangeScan fuel low high).Only PoolCall.Reads := by
  unfold rangeScan
  split
  · trivial
  · refine reads_findLeafPage.bind fun found => ?_
    cases found with
    | none => trivial
    | some leafId =>
      cases leafId with
      | none => trivial
      | some leafId => exact reads_scanLeaves leafId []

end BPlusTree

namespace IndexScan

variable {fuel : ℕ} {index : BPlusTree} {lowKey highKey : KeyType} {isRange : Bool}

theorem reads_find : (find fuel index lowKey highKey isRange).Only PoolCall.Reads := by
  unfold find
  split
  · exact BPlusTree.reads_rangeScan
  · exact BPlusTree.reads_lookup.bind fun _ => trivial

theorem reads_fetchNext (results : List (KeyType × RID)) (idx : ℕ) :
    (fetchNext results idx).Only PoolCall.Reads := by
  induction results generalizing idx with
  | nil => trivial
  | cons e rest ih =>
    unfold fetchNext
    refine (HeapFile.reads_getRecord e.2).bind fun data => ?_
    cases data with
    | none => exact ih _
    | some data =>
      simp only []
      split
      · exact (reads_unpinPage _).bind fun _ => trivial
      · trivial

end IndexScan

/-! ## 2. What the scans keep

For the index scan: nothing is held before the call, and nothing after it.  `Next` passes over
record ids whose record is gone, so its loop is bounded by the record ids that are left. -/

open HeapState

section Index

variable {s : HeapState} {base : PageId → ℕ} {v : View}

/-- **The loop of Next** goes on to a record that is there, or to the end, and holds nothing. -/
theorem IndexScan.fetchNext_pins (hs : s.Ok) (hreadable : s.Readable)
    (hbase : ∀ id, base id + 1 < 2 ^ 32) {results : List (KeyType × RID)}
    (hrids : ∀ e ∈ results, e.2.isValid = true → e.2.pageId ∈ s.chain) (idx : ℕ)
    (hv : s.Keeping base [] v) :
    (fetchNext results idx).wp .erratic (fun r v' => ∃ tuple idx', r = some (tuple, idx') ∧
      idx ≤ idx' ∧ idx' ≤ idx + results.length ∧ (tuple.isSome = true → idx < idx') ∧
      s.Keeping base [] v') v := by
  induction results generalizing idx v with
  | nil => exact ⟨none, idx, rfl, le_rfl, le_rfl, nofun, hv⟩
  | cons e rest ih =>
    obtain ⟨hrid, hrest⟩ := List.forall_mem_cons.mp hrids
    unfold fetchNext
    rw [wp, Program.wp_bind]
    refine Program.wp_mono (hs.getRecord_pins hbase hrid hv) fun data v' hdata => ?_
    rcases hdata with ⟨rfl, hfree⟩ | ⟨bytes, rfl, hstored, hon⟩
    · refine Program.wp_mono (ih hrest (idx + 1) hfree) fun r v'' hr => ?_
      obtain ⟨tuple, idx', hr, hle, hge, hlt, hkeeping⟩ := hr
      refine ⟨tuple, idx', hr, by omega, ?_, fun _ => by omega, hkeeping⟩
      rw [List.length_cons]
      omega
    · obtain ⟨tuple, htuple⟩ := Option.isSome_iff_exists.mp (hreadable _ _ hstored)
      simp only [htuple]
      rw [Program.wp_bind]
      refine (hs.scanAccess hbase).unpin hon fun v'' hfree => ?_
      refine ⟨some tuple, idx + 1, rfl, Nat.le_succ idx, ?_, fun _ => Nat.lt_succ_self idx, hfree⟩
      rw [List.length_cons]
      omega

/-- **The record ids of Init.** -/
theorem IndexScan.find_pins {index : BPlusTree} {nodes : NodeMap} {level rank : PageId → ℕ}
    {top fuel : ℕ} (hstanding : Standing index.rootPageId nodes level rank s.pages)
    (htop : ∀ id, level id ≤ top ∧ rank id < top) (hfuel : top < fuel)
    (hbase : ∀ id, base id + 2 < 2 ^ 32) (hv : s.Keeping base [] v) (lowKey highKey : KeyType)
    (isRange : Bool) :
    (find fuel index lowKey highKey isRange).wp .erratic (fun r v' => ∃ results, r = some results ∧
      Found nodes ((fuel + 1) * 2 ^ 16) (results.map Prod.snd) ∧ Holding base [] [] v') v := by
  have hno : fuel ≤ top → False := Nat.not_le.mpr hfuel
  rw [← hv.pages] at hstanding
  cases isRange with
  | true =>
    refine Program.wp_of_guard (PoolM.wpe_rangeScan hbase hstanding hv.holding htop
      (fun hle _ => (hno hle).elim) fun results v' hfound _ hholding => ?_)
    exact ⟨results, rfl, hfound.mono (Nat.mul_le_mul_right _ fuel.le_succ), hholding⟩
  | false =>
    rw [wp, find, if_neg Bool.false_ne_true, Program.wp_bind]
    refine Program.wp_of_guard (PoolM.wpe_lookup hbase hstanding hv.holding htop
      (fun hle _ => (hno hle).elim) fun rids v' hfound _ hholding => ?_)
    refine ⟨rids.map fun rid => (lowKey, rid), rfl, ?_, hholding⟩
    rwa [List.map_map, show (Prod.snd ∘ fun rid : RID => (lowKey, rid)) = id from rfl, List.map_id]

end Index

/-! ## 3. The leaves of a plan

`Ready` and `Live` are the states of a leaf before its `Init` and after it.  `Live k` counts the
tuples that may still come, which is what the loops of the operators above need to end. -/

namespace Scan

variable {s : HeapState} {base : PageId → ℕ} {fuel : ℕ} {scan : Scan}

/-- What the leaf reads is the heap file `s`, or a tree whose record ids name records of it. -/
def Over (s : HeapState) : Scan → Prop
  | .table heapFile => heapFile.firstPageId = s.chain.head?.getD invalidPageId
  | .index tree .. => ∃ nodes level rank, Standing tree.rootPageId nodes level rank s.pages ∧
      ∀ rid, nodes.Lists rid → rid.isValid = true → rid.pageId ∈ s.chain

/-- The most tuples that the leaf hands out. -/
def bound (s : HeapState) (fuel : ℕ) : Scan → ℕ
  | .table _ => s.contents.length
  | .index .. => (fuel + 1) * 2 ^ 16

/-- The leaf may be initialised. -/
def Ready (s : HeapState) (base : PageId → ℕ) (scan : Scan) (state : (scan.executor fuel).State) :
    Prop :=
  ∃ v, (scan.pool state).Shows v ∧ s.Keeping base [] v

/-- The leaf between two calls, with at most `k` tuples left. -/
def Live (s : HeapState) (base : PageId → ℕ) :
    (scan : Scan) → ℕ → (scan.executor fuel).State → Prop
  | .table _, k, state => TableScan.initialized state = true ∧ k ≤ s.contents.length ∧
      ∃ v todo, (TableScan.bpm state).Shows v ∧
        Visits s (s.Keeping base []) (fun id => s.Keeping base [id]) (TableScan.iterator state) v
          todo ∧ todo <:+ s.contents ∧ todo.length ≤ k
  | .index .., k, state => (∃ v, (IndexScan.bpm state).Shows v ∧ s.Keeping base [] v) ∧
      (∀ e ∈ IndexScan.results state, e.2.isValid = true → e.2.pageId ∈ s.chain) ∧
      (IndexScan.results state).length - IndexScan.currentIdx state ≤ k ∧ k ≤ (fuel + 1) * 2 ^ 16

/-- **The pins of a leaf** are those it holds. -/
theorem Live.keeping {k : ℕ} {state : (scan.executor fuel).State} (h : scan.Live s base k state) :
    ∃ v, (scan.pool state).Shows v ∧ s.Keeping base (scan.held state) v := by
  cases scan with
  | table heapFile =>
    obtain ⟨-, -, v, todo, hshows, hvisits, -⟩ := h
    exact ⟨v, hshows, hvisits.keeping⟩
  | index tree lowKey highKey isRange => exact h.1

/-- A table scan holds the page of its iterator between two calls. -/
theorem table_keeps (hs : s.Ok) (hreadable : s.Readable) (hbase : ∀ id, base id + 1 < 2 ^ 32)
    (hfuel : s.chain.length < fuel) {heapFile : HeapFile} (hover : (table heapFile).Over s) :
    Keeps ((table heapFile).executor fuel) (Ready s base (table heapFile))
      (Live s base (table heapFile)) s.contents.length where
  -- `Init` moves to the first record, whose page stays pinned
  init state hready := by
    obtain ⟨v, hshows, hkeeping⟩ := hready
    obtain ⟨state', heq, hinit, v', rest, hshows', hvisits, hrest⟩ := TableScan.begin_spec hs hfuel
      (hs.scanAccess hbase) (fun _ _ => trivial) hover hshows hkeeping
    refine ⟨state', heq, hinit, le_rfl, v', rest, hshows', hvisits, ?_⟩
    rcases hrest with rfl | ⟨-, rfl⟩
    · exact ⟨List.suffix_rfl, le_rfl⟩
    · exact ⟨List.nil_suffix, Nat.zero_le _⟩
  le k state hlive := hlive.2.1
  -- `Next` hands out the record and moves on; at the end it changes nothing
  next k state hlive output := by
    obtain ⟨hinit, hk, v, todo, hshows, hvisits, hsuffix, hlen⟩ := hlive
    cases todo with
    | nil =>
      exact ⟨false, output, state, k, TableScan.next_ended hinit hvisits output,
        ⟨hinit, hk, v, [], hshows, hvisits, hsuffix, hlen⟩, le_rfl, by simp⟩
    | cons e todo =>
      obtain ⟨tuple, htuple⟩ := hreadable.of_mem (hsuffix.subset List.mem_cons_self)
      obtain ⟨state', heq, hinit', v', rest, hshows', hvisits', hrest⟩ :=
        TableScan.next_spec hs hfuel (hs.scanAccess hbase) (fun _ _ => trivial) hinit hshows
          hvisits htuple output
      rw [List.length_cons] at hlen
      refine ⟨true, tuple, state', k - 1, heq, ⟨hinit', by omega, v', rest, hshows', hvisits', ?_⟩,
        Nat.sub_le _ _, fun _ => by omega⟩
      rcases hrest with rfl | ⟨-, rfl⟩
      · exact ⟨(List.suffix_cons _ _).trans hsuffix, by omega⟩
      · exact ⟨List.nil_suffix, Nat.zero_le _⟩

/-- An index scan holds nothing between two calls. -/
theorem index_keeps (hs : s.Ok) (hreadable : s.Readable) (hbase : ∀ id, base id + 2 < 2 ^ 32)
    {tree : BPlusTree} {lowKey highKey : KeyType} {isRange : Bool} {nodes : NodeMap}
    {level rank : PageId → ℕ} {top : ℕ}
    (hstanding : Standing tree.rootPageId nodes level rank s.pages)
    (hrids : ∀ rid, nodes.Lists rid → rid.isValid = true → rid.pageId ∈ s.chain)
    (htop : ∀ id, level id ≤ top ∧ rank id < top) (hfuel : top < fuel) :
    Keeps ((index tree lowKey highKey isRange).executor fuel)
      (Ready s base (index tree lowKey highKey isRange))
      (Live s base (index tree lowKey highKey isRange)) ((fuel + 1) * 2 ^ 16) where
  -- `Init` collects the record ids, and gives back every leaf it reads
  init state hready := by
    obtain ⟨v, hshows, hkeeping⟩ := hready
    change (IndexScan.bpm state).Shows v at hshows
    obtain ⟨v', ⟨results, heq, hfound, hholding⟩, hshows', hpages⟩ :=
      hshows.exec_reads (fun _ _ => trivial) IndexScan.reads_find
        (IndexScan.find_pins hstanding htop hfuel hbase hkeeping lowKey highKey isRange)
    refine ⟨{ results := results, bpm := _ },
      by simp [executor, IndexScanExecutor, IndexScan.begin, heq],
      ⟨v', hshows', hpages.trans hkeeping.pages, hholding⟩, fun e he => ?_, ?_, le_rfl⟩
    · exact hrids _ (hfound.listed _ (List.mem_map_of_mem he))
    · exact (Nat.sub_le _ _).trans ((List.length_map _).symm.trans_le hfound.length_le)
  le k state hlive := hlive.2.2.2
  -- `Next` fetches records until one is there, and gives each page back
  next k state hlive output := by
    obtain ⟨⟨v, hshows, hkeeping⟩, hmem, hlen, hk⟩ := hlive
    have hdrop : ∀ e ∈ (IndexScan.results state).drop (IndexScan.currentIdx state),
        e.2.isValid = true → e.2.pageId ∈ s.chain := fun e he => hmem e (List.mem_of_mem_drop he)
    have hfetch := IndexScan.fetchNext_pins hs hreadable (fun id => Nat.lt_of_succ_lt (hbase id))
      hdrop (IndexScan.currentIdx state) hkeeping
    obtain ⟨v', ⟨tuple, idx, heq, hle, hge, hlt, hkeeping'⟩, hshows', -⟩ :=
      hshows.exec_reads (fun _ _ => trivial) (IndexScan.reads_fetchNext _ _) hfetch
    rw [List.length_drop] at hge
    generalize hrun : (IndexScan.fetchNext _ _).exec (IndexScan.bpm state) = run at heq hshows'
    refine ⟨tuple.isSome, tuple.getD output,
      ({ results := IndexScan.results state, currentIdx := idx, bpm := run.2 } : IndexScan),
      (IndexScan.results state).length - idx, ?_,
      ⟨⟨v', hshows', hkeeping'⟩, hmem, le_rfl, ?_⟩, ?_, fun hsome => ?_⟩
    · -- the tuple, if there is one, and the position behind it
      cases tuple <;> simp [executor, IndexScanExecutor, hrun, heq]
    · omega
    · omega
    · have hless := hlt hsome
      omega

/-- **The leaves** keep their account of the pins, whatever pins there are. -/
theorem Over.keeps (h : scan.Over s) (hs : s.Ok) (hreadable : s.Readable) :
    ∃ enough, ∀ fuel, enough < fuel → ∀ base : PageId → ℕ, (∀ id, base id + 2 < 2 ^ 32) →
      Keeps (scan.executor fuel) (Ready s base scan) (Live s base scan) (scan.bound s fuel) := by
  cases scan with
  | table heapFile =>
    exact ⟨s.chain.length, fun fuel hfuel base hbase =>
      table_keeps hs hreadable (fun id => Nat.lt_of_succ_lt (hbase id)) hfuel h⟩
  | index tree lowKey highKey isRange =>
    obtain ⟨nodes, level, rank, hstanding, hrids⟩ := h
    obtain ⟨top, htop⟩ := TreeCall.exists_top level rank
    exact ⟨top, fun fuel hfuel base hbase =>
      index_keeps hs hreadable hbase hstanding hrids htop hfuel⟩

end Scan

end CourtDB
