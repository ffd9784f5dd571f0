/-
# Bulk insertion and single insertions

`BulkInsert` holds one page and leaves it at the first record that it refuses, while `InsertRecord`
looks for a place for each record.  The two leave records on different pages, and different numbers
of pages behind them.  What they store is the same: a record id is answered exactly for the records
that an empty page takes (`RecordArg.fitsPage`), each at a place of its own (`bulkInsert_agrees`).

So the two are not compared with each other step by step.  Both are sequences of insertions in the
sense of `InsertsAll`, in which each answer is one that an insertion may give, and from this alone
follows what the claim compares: which answers are valid, that the places are different and were
free, that the records are there in the end together with those of before, and what the counter
says.
-/
import CourtDB.Heap.RecordTable
import CourtDB.Storage.PageUpdate

namespace CourtDB

/-- The argument is a record that an empty page takes. -/
def RecordArg.fitsPage : RecordArg → Bool
  | .null _ => false
  | .data r => r.length != 0 && decide (r.bytes.length ≤ 4072)

/-! ## 1. Several insertions -/

namespace HeapState

variable {s t : HeapState} {a : RecordArg} {rid : RID} {records : List RecordArg} {rids : List RID}

theorem unfit_iff : Unfit a ↔ a.fitsPage = false := by
  cases a with
  | null _ => exact ⟨fun _ => rfl, fun _ r hr => absurd hr (by simp)⟩
  | data r =>
    simp only [RecordArg.fitsPage, Bool.and_eq_false_iff, bne_eq_false_iff_eq,
      decide_eq_false_iff_not,
      Nat.not_le]
    exact ⟨fun h => h r rfl, fun h _ hr => RecordArg.data.inj hr ▸ h⟩

/-- One insertion answers a valid record id exactly for a record that fits on a page. -/
theorem Inserts.isValid_eq (h : s.Inserts t a rid) (hfit : rid.isValid = true → ¬ Unfit a) :
    rid.isValid = a.fitsPage := by
  rcases h with ⟨rfl, hunfit, -⟩ | ⟨-, -, hvalid, -⟩
  · rw [unfit_iff.mp hunfit]
    decide
  · rw [hvalid]
    exact (Bool.not_eq_false _ ▸ mt unfit_iff.mpr (hfit hvalid)).symm

theorem Inserts.stored_mono (h : s.Inserts t a rid) {i : RID} {bytes : List UInt8}
    (hst : s.stored i = some bytes) : t.stored i = some bytes := by
  rcases h with ⟨-, -, hsame, -⟩ | ⟨r, -, -, hfree, hsame, -⟩
  · rw [hsame, hst]
  · have hne : i ≠ rid := fun heq => by
      rw [heq, hfree] at hst
      exact absurd hst (by simp)
    rw [hsame, Function.update_of_ne hne, hst]

namespace InsertsAll

/-- The answers are valid exactly where the records fit. -/
theorem isValid_eq (h : InsertsAll s t records rids) (hfits : OnlyFit records rids) :
    rids.map RID.isValid = records.map RecordArg.fitsPage := by
  induction h with
  | nil => rfl
  | cons hins _ _ ih =>
    obtain ⟨hfit, hrest⟩ := List.forall₂_cons.mp hfits
    rw [List.map_cons, List.map_cons, hins.isValid_eq hfit, ih hrest]

/-- **Earlier records are kept.** -/
theorem stored_mono (h : InsertsAll s t records rids) {i : RID} {bytes : List UInt8}
    (hst : s.stored i = some bytes) : t.stored i = some bytes := by
  induction h with
  | nil hsame => rw [hsame, hst]
  | cons hins _ _ ih => exact ih (hins.stored_mono hst)

/-- **The places were free.** -/
theorem free (h : InsertsAll s t records rids) :
    ∀ rid ∈ rids, rid.isValid = true → s.stored rid = none := by
  induction h with
  | nil => exact fun _ hrid => absurd hrid List.not_mem_nil
  | cons hins _ _ ih =>
    intro rid hrid hvalid
    rcases List.mem_cons.mp hrid with rfl | hrid
    · rcases hins with ⟨hnil, -⟩ | ⟨-, -, -, hfree, -⟩
      · rw [hnil] at hvalid
        exact absurd hvalid (by decide)
      · exact hfree
    · have hnone := ih rid hrid hvalid
      by_contra hsome
      obtain ⟨bytes, hbytes⟩ := Option.ne_none_iff_exists'.mp hsome
      rw [hins.stored_mono hbytes] at hnone
      exact absurd hnone (by simp)

/-- **The records are stored** in the end. -/
theorem stored_zip (h : InsertsAll s t records rids) :
    ∀ e ∈ records.zip rids, e.2.isValid = true → t.stored e.2 = some e.1.bytes := by
  induction h with
  | nil => exact fun _ he => absurd he List.not_mem_nil
  | cons hins _ hrest ih =>
    intro e he hvalid
    rcases List.mem_cons.mp he with rfl | he
    · rcases hins with ⟨rfl, -⟩ | ⟨r, rfl, -, -, hst, -⟩
      · exact absurd hvalid (show ¬ ({} : RID).isValid = true by decide)
      · refine hrest.stored_mono ?_
        rw [hst, Function.update_self]
        rfl
    · exact ih e he hvalid

/-- **No place is taken twice.** -/
theorem nodup (h : InsertsAll s t records rids) : (rids.filter RID.isValid).Nodup := by
  induction h with
  | nil => exact List.nodup_nil
  | @cons s u t a rid records rids hins _ hrest ih =>
    by_cases hvalid : rid.isValid = true
    · rw [List.filter_cons_of_pos hvalid]
      refine List.nodup_cons.mpr ⟨fun hmem => ?_, ih⟩
      have hfree := hrest.free rid (List.mem_filter.mp hmem).1 hvalid
      rcases hins with ⟨hnil, -⟩ | ⟨r, -, -, -, hst, -⟩
      · exact absurd hvalid (by rw [hnil]; decide)
      · rw [hst, Function.update_self] at hfree
        exact absurd hfree (by simp)
    · rw [List.filter_cons_of_neg hvalid]
      exact ih

/-- The counter counts the valid answers. -/
theorem recordCount_eq (h : InsertsAll s t records rids) :
    t.heap.recordCount = s.heap.recordCount + UInt32.ofNat ((rids.map RID.isValid).count true) := by
  induction h with
  | nil _ hcount => simp [hcount]
  | cons hins _ _ ih =>
    rw [ih, List.map_cons]
    rcases hins with ⟨rfl, -, -, hcount⟩ | ⟨-, -, hvalid, -, -, hcount⟩
    · rw [hcount, List.count_cons_of_ne (by decide)]
    · rw [hcount, hvalid, List.count_cons_self, UInt32.ofNat_add]
      grind

end InsertsAll

end HeapState

/-! ## 2. The two ways -/

namespace TableRun

open BufferPoolManager HeapState

variable {n : Nat} {m₀ : PageId → Option Page} {st : TableRun} {s : HeapState}
  {records : List RecordArg}

/-- What a program leaves behind that inserts the records: the state it ends in, on an idle pool. -/
structure Stores (n : Nat) (s : HeapState) (records : List RecordArg)
    (rids : List RID) (heap : HeapFile) (pool : BufferPoolManager) (t : HeapState) : Prop where
  extending : s.Extends t
  heap : heap = t.heap
  inserts : InsertsAll s t records rids
  fits : OnlyFit records rids
  shows : pool.Shows (View.quiet n t.pages)
  aside : pool.HeaderAside

theorem Sound.bulkInsert (h : Sound n m₀ st s)
    (hok : (st.heap.bulkInsert records).CallsOk BufferPoolManager.handle Succeeds st.pool) :
    ∃ rids heap t, ((st.heap.bulkInsert records).exec st.pool).1 = some (rids, heap) ∧
      Stores n s records rids heap ((st.heap.bulkInsert records).exec st.pool).2 t := by
  have hwp : (st.heap.bulkInsert records).wp .succeeds (fun res v => ∃ rids t,
      res = some (rids, t.heap) ∧ v = View.quiet n t.pages ∧ s.Extends t ∧
      InsertsAll s t records rids ∧ OnlyFit records rids) (View.quiet n s.pages) := by
    rw [← h.heap]
    exact h.ok.bulkInsert PoolMode.serves_succeeds (fun _ _ => PoolMode.creates_succeeds) records
      fun rids t hext hins hfits => ⟨rids, t, rfl, rfl, hext, hins, hfits⟩
  obtain ⟨_, ⟨rids, t, hres, rfl, hext, hins, hfits⟩, hshows⟩ := h.shows.exec_succeeds hok hwp
  exact ⟨rids, t.heap, t, hres, hext, rfl, hins, hfits, hshows, h.aside.exec h.shows hok hwp⟩

theorem Sound.insertEach (h : Sound n m₀ st s)
    (hok : (HeapFile.insertEach records st.heap []).CallsOk BufferPoolManager.handle Succeeds
      st.pool) :
    ∃ t, Stores n s records ((HeapFile.insertEach records st.heap []).exec st.pool).1.1
      ((HeapFile.insertEach records st.heap []).exec st.pool).1.2
      ((HeapFile.insertEach records st.heap []).exec st.pool).2 t := by
  have hwp : (HeapFile.insertEach records st.heap []).wp .succeeds (fun res v => ∃ t : HeapState,
      res.2 = t.heap ∧ v = View.quiet n t.pages ∧ s.Extends t ∧
      InsertsAll s t records res.1 ∧ OnlyFit records res.1) (View.quiet n s.pages) := by
    rw [← h.heap]
    exact h.ok.insertEach PoolMode.serves_succeeds (fun _ _ => PoolMode.creates_succeeds) records []
      fun rids t hext hins hfits => ⟨t, rfl, rfl, hext, hins, hfits⟩
  obtain ⟨_, ⟨t, hres, rfl, hext, hins, hfits⟩, hshows⟩ := h.shows.exec_succeeds hok hwp
  exact ⟨t, hext, hres, hins, hfits, hshows, h.aside.exec h.shows hok hwp⟩

/-- A record of the final state is read back. -/
theorem Stores.readRecord {t : HeapState} {rids : List RID} {heap : HeapFile}
    {pool : BufferPoolManager} (h : Stores n s records rids heap pool t) (hn : 0 < n) {rid : RID}
    {bytes : List UInt8} (hst : t.stored rid = some bytes) :
    ((HeapFile.readRecord rid).exec pool).1 = some bytes := by
  have hmem := mem_chain_of_stored (Option.isSome_of_eq_some hst)
  rw [readRecord_eq h.extending.ok h.shows hn h.aside fun hno => absurd hmem hno, hst]

/-- **Bulk insertion agrees with one insertion after the other.**  In every state that the
operations reach, `BulkInsert` answers each record; an answer is valid exactly where a loop of
`InsertRecord` answers a valid record id; the valid ones are different and named no record before;
each reads its record back, the records that were there are as they were, and the record counters of
the two ways are equal. -/
theorem bulkInsert_agrees {b : BufferPoolManager} (hb : b.Idle m₀) (haside : b.HeaderAside)
    (hcreate : HeapFile.create.CallsOk BufferPoolManager.handle Succeeds b) {ops : List HeapOp}
    (hops : Run.StepsOk step Admits (start b) ops) (records : List RecordArg)
    (hbulk : ((ops.foldl step (start b)).heap.bulkInsert records).CallsOk BufferPoolManager.handle
      Succeeds (ops.foldl step (start b)).pool)
    (heach : (HeapFile.insertEach records (ops.foldl step (start b)).heap []).CallsOk
      BufferPoolManager.handle Succeeds (ops.foldl step (start b)).pool) :
    let st := ops.foldl step (start b)
    let bulk := (st.heap.bulkInsert records).exec st.pool
    let each := (HeapFile.insertEach records st.heap []).exec st.pool
    ∃ rids heap, bulk.1 = some (rids, heap) ∧ rids.length = records.length ∧
      rids.map RID.isValid = each.1.1.map RID.isValid ∧
      (rids.filter RID.isValid).Nodup ∧
      (∀ rid ∈ rids, rid.isValid = true → ((HeapFile.readRecord rid).exec st.pool).1 = none) ∧
      (∀ e ∈ records.zip rids, e.2.isValid = true →
        ((HeapFile.readRecord e.2).exec bulk.2).1 = some e.1.bytes) ∧
      (∀ e ∈ st.live, ((HeapFile.readRecord e.1).exec st.pool).1 = some e.2 ∧
        ((HeapFile.readRecord e.1).exec bulk.2).1 = some e.2) ∧
      heap.getRecordCount = each.1.2.getRecordCount := by
  intro st bulk each
  obtain ⟨s, hs, -⟩ := sound_run hb haside hcreate hops
  have hn : 0 < b.poolSize := hb.size_pos
  -- both ways are insertions one after the other, from the same state
  obtain ⟨rids, heap, t, hres, ht⟩ := hs.bulkInsert hbulk
  obtain ⟨u, hu⟩ := hs.insertEach heach
  have hvalid := ht.inserts.isValid_eq ht.fits
  have hvalid' := hu.inserts.isValid_eq hu.fits
  refine ⟨rids, heap, hres, ?_, hvalid.trans hvalid'.symm, ht.inserts.nodup, fun rid hrid hv => ?_,
    fun e he hv => ht.readRecord hn (ht.inserts.stored_zip e he hv), fun e he => ?_, ?_⟩
  · simpa only [List.length_map] using congrArg List.length hvalid
  · -- a place that was answered was free, or its page did not exist
    rw [readRecord_eq hs.ok hs.shows hn hs.aside fun hno => ?_, ht.inserts.free rid hrid hv]
    exact ht.extending.fresh _ (ht.inserts.mem_chain rid hrid hv) hno
  · have hst : s.stored e.1 = some e.2 := (hs.lists.mem_iff _ _).mp he
    refine ⟨?_, ht.readRecord hn (ht.inserts.stored_mono hst)⟩
    have hmem := mem_chain_of_stored (Option.isSome_of_eq_some hst)
    rw [readRecord_eq hs.ok hs.shows hn hs.aside fun hno => absurd hmem hno, hst]
  · -- both counters count the valid answers
    rw [HeapFile.getRecordCount, HeapFile.getRecordCount, ht.heap, hu.heap,
      ht.inserts.recordCount_eq, hu.inserts.recordCount_eq, hvalid, hvalid']

/-- A record, a null pointer, an empty record, one that fits on no page, and another record, after
one that is there already. -/
theorem bulkInsert_agrees_mixed :
    let st := [HeapOp.insert (.data ⟨[7], by decide⟩)].foldl step (start (overNewFile 3))
    let records : List RecordArg := [.data ⟨[8, 9], by decide⟩, .null 3, .data ⟨[], by decide⟩,
      .data (Page.recordOfLength 5000 (by decide)), .data ⟨[7], by decide⟩]
    let bulk := (st.heap.bulkInsert records).exec st.pool
    let each := (HeapFile.insertEach records st.heap []).exec st.pool
    ∃ rids heap, bulk.1 = some (rids, heap) ∧ rids.length = records.length ∧
      rids.map RID.isValid = each.1.1.map RID.isValid ∧
      (rids.filter RID.isValid).Nodup ∧
      (∀ rid ∈ rids, rid.isValid = true → ((HeapFile.readRecord rid).exec st.pool).1 = none) ∧
      (∀ e ∈ records.zip rids, e.2.isValid = true →
        ((HeapFile.readRecord e.2).exec bulk.2).1 = some e.1.bytes) ∧
      (∀ e ∈ st.live, ((HeapFile.readRecord e.1).exec st.pool).1 = some e.2 ∧
        ((HeapFile.readRecord e.1).exec bulk.2).1 = some e.2) ∧
      heap.getRecordCount = each.1.2.getRecordCount :=
  bulkInsert_agrees (idle_overNewFile (by decide)) (headerAside_overNewFile 3) (by decide +kernel)
    (by decide +kernel) _ (by decide +kernel) (by decide +kernel)

end TableRun

end CourtDB
