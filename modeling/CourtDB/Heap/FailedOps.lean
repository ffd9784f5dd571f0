/-
# Heap operations that answer an invalid record id

An insert or an update that cannot be done answers an invalid record id.  With frames enough there
is one reason for that: the record has no bytes, or more than a page can take (4072).  The heap file
notices the second only when a page of its own has refused the record.  By then `InsertRecord` has
added that page to the chain, and `UpdateRecord` has deleted the old record.

So the two equivalences below name the lengths up to 4072 as those where a failed call changes
nothing.
-/
import CourtDB.Heap.HeapUpdate
import CourtDB.Heap.PageChain
import CourtDB.Heap.RecordTable

namespace CourtDB

open BufferPoolManager HeapState

namespace TableRun

variable {n : Nat} {m₀ : PageId → Option Page} {st : TableRun} {s : HeapState} {rid : RID}
  {r : RecordData}

/-! ## 1. UpdateRecord -/

/-- If `UpdateRecord` answers an invalid id, every record id that names no page of others reads as
before, the old one included, and the count is the same. -/
def FailedUpdateKeeps (m₀ : PageId → Option Page) (st : TableRun) (rid : RID) (r : RecordData) :
    Prop :=
  let res := (st.heap.updateRecord rid r).exec st.pool
  res.1.1.isValid = false →
    (∀ i : RID, m₀ i.pageId = none →
      ((HeapFile.readRecord i).exec res.2).1 = ((HeapFile.readRecord i).exec st.pool).1) ∧
    res.1.2.getRecordCount = st.heap.getRecordCount

/-- **UpdateRecord of a stored record.**  It succeeds if the new one fits on a page, and otherwise
the old one is gone. -/
theorem Sound.updateRecord (h : Sound n m₀ st s) (hlive : (s.stored rid).isSome)
    (hok : (st.heap.updateRecord rid r).CallsOk BufferPoolManager.handle Succeeds st.pool) :
    let res := (st.heap.updateRecord rid r).exec st.pool
    r.bytes.length ≤ 4072 ∧ res.1.1.isValid = true ∨
      4072 < r.bytes.length ∧ res.1.1 = {} ∧ ∃ t : HeapState, s.Evolves t ∧
        res.2.Shows (View.quiet n t.pages) ∧ res.2.HeaderAside ∧
        t.stored = Function.update s.stored rid none := by
  intro res
  have hid := mem_chain_of_stored hlive
  have hwp : (st.heap.updateRecord rid r).wp .succeeds
      (fun a v => r.bytes.length ≤ 4072 ∧ a.1.isValid = true ∨
        4072 < r.bytes.length ∧ a.1 = {} ∧ ∃ t : HeapState, s.Evolves t ∧
          v = View.quiet n t.pages ∧ t.stored = Function.update s.stored rid none)
      (View.quiet n s.pages) := by
    rw [← h.heap]
    have hvalid : rid.isValid = true := isValid_of_mem h.ok hid rid.slotId
    refine h.ok.updateRecord PoolMode.serves_succeeds hid r (fun _ _ => PoolMode.creates_succeeds)
      (fun q v hq hover => ?_) (fun t ht _ _ hst => ?_) fun u t i hu hust _ hpos ht hins hsea => ?_
    · obtain ⟨q', hq', hql⟩ := h.ok.layout _ hid
      obtain rfl := Option.some.inj (hq.symm.trans hq')
      exact .inl ⟨hover.length_le hql, hvalid⟩
    · refine .inl ⟨@Ok.stored_length_le _ ht.ok rid _ ?_, hvalid⟩
      rw [hst, Function.update_self]
    · rcases hins with ⟨rfl, hunfit, hst, -⟩ | ⟨r', hr', hi, -, hst, -⟩
      · refine .inr ⟨(hunfit r rfl).resolve_left fun hz => ?_, rfl, t,
          hu.toEvolves.trans ht.toEvolves, rfl, hst.trans hust⟩
        have h0 := RecordData.toNat_length r
        rw [hz] at h0
        exact absurd (hpos hlive) (by rw [← h0]; decide)
      · obtain rfl := RecordArg.data.inj hr'
        refine .inl ⟨@Ok.stored_length_le _ ht.ok i _ ?_, hi⟩
        rw [hst, Function.update_self]
  have haside := h.aside.exec h.shows hok hwp
  obtain ⟨v, hres, hshows⟩ := h.shows.exec_succeeds hok hwp
  rcases hres with hres | ⟨hbig, hinv, t, hev, rfl, hst⟩
  · exact .inl hres
  · exact .inr ⟨hbig, hinv, t, hev, hshows, haside, hst⟩

/-- **A failed update of a live record changes nothing exactly when it cannot fail**: a record of
more than 4072 bytes is refused after the old one was deleted. -/
theorem failed_update_iff {b : BufferPoolManager} (hb : b.Idle m₀) (haside : b.HeaderAside)
    (hcreate : HeapFile.create.CallsOk BufferPoolManager.handle Succeeds b) {ops : List HeapOp}
    (hops : Run.StepsOk step Admits (start b) ops) {rid : RID}
    (hlive : ((ops.foldl step (start b)).live.lookup rid).isSome) {r : RecordData}
    (hok : ((ops.foldl step (start b)).heap.updateRecord rid r).CallsOk BufferPoolManager.handle
      Succeeds (ops.foldl step (start b)).pool) :
    FailedUpdateKeeps m₀ (ops.foldl step (start b)) rid r ↔ r.bytes.length ≤ 4072 := by
  obtain ⟨s, hs, -⟩ := sound_run hb haside hcreate hops
  rw [hs.lists.lookup] at hlive
  have hid := mem_chain_of_stored hlive
  rcases hs.updateRecord hlive hok with ⟨hle, hvalid⟩ | ⟨hbig, hinv, t, hev, hshows, haside', hst⟩
  · refine ⟨fun _ => hle, fun _ hno => ?_⟩
    rw [hvalid] at hno
    exact absurd hno (by decide)
  · refine ⟨fun hkeeps => ?_, fun hle => absurd hle (Nat.not_le.mpr hbig)⟩
    obtain ⟨hreads, -⟩ := hkeeps (by rw [hinv]; rfl)
    have hread := hreads rid (hs.fresh _ hid)
    have hmem : rid.pageId ∈ t.chain := hev.grows.subset hid
    rw [readRecord_eq hs.ok hs.shows hb.size_pos hs.aside fun hno => absurd hid hno,
      readRecord_eq hev.ok hshows hb.size_pos haside' fun hno => absurd hmem hno, hst,
      Function.update_self] at hread
    rw [← hread] at hlive
    exact absurd hlive (by simp)

/-- A heap file with one record of one byte. -/
def oneRecord : TableRun := [HeapOp.insert (.data ⟨[1], by decide⟩)].foldl step
    (start (overNewFile 3))

theorem stepsOk_oneRecord : Run.StepsOk step Admits (start (overNewFile 3))
    [HeapOp.insert (.data ⟨[1], by decide⟩)] := by
  decide +kernel

/-- An update by two bytes. -/
theorem failed_update_short :
    FailedUpdateKeeps (fun _ => none) oneRecord ⟨1, 0⟩ ⟨[2, 3], by decide⟩ :=
  (failed_update_iff (idle_overNewFile (by decide)) (headerAside_overNewFile 3) (by decide +kernel)
    stepsOk_oneRecord (by decide +kernel) (by decide +kernel)).mpr (by decide)

/-- An update by 5000 bytes deletes the record and stores nothing. -/
theorem failed_update_loses :
    (oneRecord.live.lookup ⟨1, 0⟩).isSome ∧
      (oneRecord.heap.updateRecord ⟨1, 0⟩ (Page.recordOfLength 5000 (by decide))).CallsOk
        BufferPoolManager.handle Succeeds oneRecord.pool ∧
      ¬ FailedUpdateKeeps (fun _ => none) oneRecord ⟨1, 0⟩
        (Page.recordOfLength 5000 (by decide)) := by
  refine ⟨by decide +kernel, by decide +kernel, fun hkeeps => ?_⟩
  obtain ⟨hreads, -⟩ := hkeeps (by decide +kernel)
  exact absurd (hreads ⟨1, 0⟩ rfl) (by decide +kernel)

/-! ## 2. InsertRecord -/

/-- If `InsertRecord` answers an invalid id, both counters, the chain and the set of listed pages
are as before. -/
def RejectedInsertKeeps (st : TableRun) (a : RecordArg) : Prop :=
  let res := (st.heap.insertRecord a).exec st.pool
  res.1.1.isValid = false →
    res.1.2.getPageCount = st.heap.getPageCount ∧
    res.1.2.getRecordCount = st.heap.getRecordCount ∧
    (∀ fuel, pageChain res.2 fuel res.1.2.getFirstPageId
      = pageChain st.pool fuel st.heap.getFirstPageId) ∧
    ∀ id, id ∈ res.1.2.pagesWithSpace ↔ id ∈ st.heap.pagesWithSpace

/-- **InsertRecord succeeds on what fits on a page**, and a record that has bytes and does not fit
costs a page or two. -/
theorem Sound.insertRecord (h : Sound n m₀ st s) (a : RecordArg)
    (hok : (st.heap.insertRecord a).CallsOk BufferPoolManager.handle Succeeds st.pool) :
    let res := (st.heap.insertRecord a).exec st.pool
    res.1.1.isValid = true ∧ ¬ Unfit a ∨
      res.1.1 = {} ∧ Unfit a ∧
        ∀ r, a = .data r → r.length ≠ 0 → res.1.2.pageCount ≠ st.heap.pageCount := by
  intro res
  have hwp : (st.heap.insertRecord a).wp .succeeds
      (fun x _ => x.1.isValid = true ∧ ¬ Unfit a ∨ x.1 = {} ∧ Unfit a ∧
        ∀ r, a = .data r → r.length ≠ 0 → x.2.pageCount ≠ st.heap.pageCount)
      (View.quiet n s.pages) := by
    rw [← h.heap]
    refine h.ok.insertRecord PoolMode.serves_succeeds a (fun _ _ => PoolMode.creates_succeeds)
      fun i t hext hins hsea => ?_
    rcases hins with ⟨rfl, hunfit, -⟩ | ⟨_, -, hi, -⟩
    · refine .inr ⟨rfl, hunfit, fun r hr hr0 hsame => ?_⟩
      obtain ⟨ids, hne, hlen, hchain⟩ := hsea.unfit r hr hr0 rfl
      have hcounted := hext.counted
      rw [hsame, hchain, List.length_append, UInt32.ofNat_add, ← UInt32.add_assoc] at hcounted
      have hzero : UInt32.ofNat ids.length = 0 := by grind
      have hlen0 := congrArg UInt32.toNat hzero
      rw [UInt32.toNat_ofNat_of_lt' (lt_of_le_of_lt hlen (by decide))] at hlen0
      exact hne (List.length_eq_zero_iff.mp hlen0)
    · exact .inl ⟨hi, hsea.fit hi⟩
  obtain ⟨_, hres, -⟩ := h.shows.exec_succeeds hok hwp
  exact hres

/-- An argument that names no bytes is refused at once. -/
theorem insertRecord_empty (heap : HeapFile) (b : BufferPoolManager) {a : RecordArg}
    (ha : ∀ r, a = .data r → r.length = 0) : (heap.insertRecord a).exec b = (({}, heap), b) := by
  cases a with
  | null k => rfl
  | data r =>
    rw [HeapFile.insertRecord, if_pos (ha r rfl)]
    rfl

/-- **A rejected insert changes nothing exactly when it is for an argument without bytes**, or
cannot happen: a record of more than 4072 bytes is rejected after the heap file grew. -/
theorem rejected_insert_iff {b : BufferPoolManager} (hb : b.Idle m₀) (haside : b.HeaderAside)
    (hcreate : HeapFile.create.CallsOk BufferPoolManager.handle Succeeds b) {ops : List HeapOp}
    (hops : Run.StepsOk step Admits (start b) ops) {a : RecordArg}
    (hok : ((ops.foldl step (start b)).heap.insertRecord a).CallsOk BufferPoolManager.handle
      Succeeds (ops.foldl step (start b)).pool) :
    RejectedInsertKeeps (ops.foldl step (start b)) a ↔
      ∀ r, a = .data r → r.bytes.length ≤ 4072 := by
  obtain ⟨s, hs, -⟩ := sound_run hb haside hcreate hops
  rcases hs.insertRecord a hok with ⟨hvalid, hfit⟩ | ⟨hinv, hunfit, hgrows⟩
  · refine ⟨fun _ r hr => ?_, fun _ hno => ?_⟩
    · by_contra hbig
      refine hfit fun r' hr' => .inr ?_
      obtain rfl := RecordArg.data.inj (hr.symm.trans hr')
      exact Nat.not_le.mp hbig
    · rw [hvalid] at hno
      exact absurd hno (by decide)
  · refine ⟨fun hkeeps r hr => ?_, fun hle _ => ?_⟩
    · by_contra hbig
      refine hgrows r hr (fun hzero => hbig ?_) (hkeeps (by rw [hinv]; rfl)).1
      rw [← RecordData.toNat_length, hzero]
      decide
    · rw [insertRecord_empty _ _ fun r hr =>
        (hunfit r hr).resolve_right (Nat.not_lt.mpr (hle r hr))]
      exact ⟨rfl, rfl, fun _ => rfl, fun _ => Iff.rfl⟩

/-- A record without bytes. -/
theorem rejected_insert_null : RejectedInsertKeeps oneRecord (.null 5000) :=
  (rejected_insert_iff (idle_overNewFile (by decide)) (headerAside_overNewFile 3)
    (by decide +kernel)
    stepsOk_oneRecord (by decide +kernel)).mpr fun _ hr => absurd hr (by simp)

/-- A record of 5000 bytes is rejected, and two empty pages are left. -/
theorem rejected_insert_grows :
    (oneRecord.heap.insertRecord (.data (Page.recordOfLength 5000 (by decide)))).CallsOk
        BufferPoolManager.handle Succeeds oneRecord.pool ∧
      ¬ RejectedInsertKeeps oneRecord (.data (Page.recordOfLength 5000 (by decide))) := by
  refine ⟨by decide +kernel, fun hkeeps => ?_⟩
  exact absurd (hkeeps (by decide +kernel)).1 (by decide +kernel)

end TableRun

end CourtDB
