/-
# The pins of a scan

`HeapFileIterator` keeps the page it is on pinned from one call to the next.  Whatever pins there
are already, and whichever fetches are refused, its calls take and give back exactly that one pin
(`Ok.scanAccess`): an iterator that came to the end holds nothing.

This is `HeapScan` once more, with another account of the pool (`Keeping`): not which answers a call
gets, but which pages are pinned, on a pool of which nothing is known but that its bookkeeping is in
order.  The loops are the same, so only `Access` has to be shown anew.

`GetRecord` of a record id leaves one pin if it found a record, and none otherwise.  The header of
the source says that the caller is to unpin the page.
-/
import CourtDB.Buffer.ReadOnly
import CourtDB.Heap.HeapScan

namespace CourtDB

open PoolM BufferPoolManager

/-! ## 1. What the iterator does to the pool -/

namespace HeapFileIterator

variable {fuel : Nat} {it : HeapFileIterator}

/-- The page that the iterator has pinned. -/
def held (it : HeapFileIterator) : List PageId := if it.valid then [it.currentPageId] else []

theorem reads_walkPages (id : PageId) : (walkPages fuel it id).Only PoolCall.Reads := by
  induction fuel generalizing it id with
  | zero => trivial
  | succ fuel ih =>
    unfold walkPages
    split
    · trivial
    · refine (reads_fetchPage id).bind fun found => ?_
      split
      · refine (reads_readPage id).bind fun page => ?_
        cases page.nextRecord 0 with
        | some slotId => trivial
        | none => exact (reads_unpinPage id).bind fun _ => ih _
      · trivial

theorem reads_advance : (advanceToNextRecord fuel it).Only PoolCall.Reads := by
  unfold advanceToNextRecord
  split
  · refine (reads_readPage _).bind fun page => ?_
    cases page.nextRecord (it.currentSlot + 1) with
    | some slotId => trivial
    | none => exact (reads_unpinPage _).bind fun _ => reads_walkPages _
  · trivial

theorem reads_begin (id : PageId) : (HeapFileIterator.begin fuel id).Only PoolCall.Reads := by
  unfold HeapFileIterator.begin
  split
  · trivial
  · refine (reads_fetchPage id).bind fun found => ?_
    split
    · refine (reads_readPage id).bind fun page => ?_
      split
      · exact reads_advance
      · split
        · trivial
        · exact reads_advance
    · trivial

theorem reads_next : (it.next fuel).Only PoolCall.Reads := by
  unfold HeapFileIterator.next
  split
  · exact reads_advance
  · trivial

theorem reads_getRecord : it.getRecord.Only PoolCall.Reads :=
  (reads_readPage _).bind fun _ => trivial

end HeapFileIterator

theorem HeapFile.reads_getRecord (rid : RID) : (HeapFile.getRecord rid).Only PoolCall.Reads := by
  unfold HeapFile.getRecord
  split
  · refine (reads_fetchPage _).bind fun found => ?_
    split
    · refine (reads_readPage _).bind fun page => ?_
      cases page.getRecord rid.slotId with
      | some data => trivial
      | none => exact (reads_unpinPage _).bind fun _ => trivial
    · trivial
  · trivial

/-! ## 2. The account of a scan -/

namespace HeapState

variable {s : HeapState} {base : PageId → Nat} {held : List PageId} {v : View}

/-- The pages are those of `s`, and the client has pinned the pages `held`. -/
structure Keeping (s : HeapState) (base : PageId → Nat) (held : List PageId) (v : View) : Prop where
  pages : v.pages = s.pages
  holding : Holding base held [] v

/-- **Any pool** will do for a scan, if no pin counter is about to wrap. -/
theorem Ok.scanAccess (h : s.Ok) (hbase : ∀ id, base id + 1 < 2 ^ 32) :
    Access (poolSpec .erratic) s True (s.Keeping base []) (fun id => s.Keeping base [id]) where
  fetch {id v Q} hid hfree htrue hfalse := by
    obtain ⟨q, hq, -⟩ := h.layout id hid
    exact hfree.holding.wp_fetchPage (h.ids id hid).1 (by rw [hfree.pages, hq]; rfl) (hbase id)
      trivial hfalse fun hon => htrue _ ⟨hfree.pages, hon⟩
  read hq hon hQ :=
    hon.holding.wp_readPage List.mem_cons_self (hon.pages.symm ▸ hq) hQ
  unpin hon hQ := hon.holding.wp_unpinPage fun hfree => hQ _ ⟨hon.pages, hfree⟩

/-- **A pool with a frame left** refuses nothing. -/
theorem Ok.servedAccess (h : s.Ok) (hbase : ∀ id, base id + 1 < 2 ^ 32) {n : Nat}
    (hframe : ∀ ids : List PageId, ids.Nodup → (∀ id ∈ ids, 0 < base id) → ids.length < n) :
    Access (poolSpec .frames) s False (fun v => v.frames = n ∧ s.Keeping base [] v)
      (fun id v => v.frames = n ∧ s.Keeping base [id] v) where
  fetch {id v Q} hid hfree htrue _ := by
    obtain ⟨q, hq, -⟩ := h.layout id hid
    obtain ⟨hn, hpages, hholding⟩ := hfree
    refine hholding.wp_fetchPage (h.ids id hid).1 (by rw [hpages, hq]; rfl) (hbase id) trivial ?_
      fun hon => htrue _ ⟨hn, hpages, hon⟩
    rintro ⟨ids, hnodup, hlen, hpinned⟩
    refine absurd (hframe ids hnodup fun i hi => ?_) (Nat.not_lt.mpr (hn ▸ hlen))
    have hpos := hpinned i hi
    rwa [hholding.pins i] at hpos
  read hq hon hQ :=
    hon.2.holding.wp_readPage List.mem_cons_self (hon.2.pages.symm ▸ hq) hQ
  unpin hon hQ := hon.2.holding.wp_unpinPage fun hfree => hQ _ ⟨hon.1, hon.2.pages, hfree⟩

/-- Where an iterator stands, and what is left for it. -/
theorem Visits.keeping {it : HeapFileIterator} {todo : List (RID × Option (List UInt8))}
    (h : Visits s (s.Keeping base []) (fun id => s.Keeping base [id]) it v todo) :
    s.Keeping base it.held v := by
  cases h with
  | ended hvalid ht =>
    rw [HeapFileIterator.held, hvalid]
    exact ht
  | on hq hlay hslot hlink hpost ht => exact ht

section Iterator

variable {mode : PoolMode} {refusing : Prop} {Free : View → Prop} {On : PageId → View → Prop}
  {it : HeapFileIterator} {todo : List (RID × Option (List UInt8))}

/-- An iterator is valid while there is something to visit. -/
theorem Visits.valid (h : Visits s Free On it v todo) : it.valid = !todo.isEmpty := by
  cases h with
  | ended hvalid ht => exact hvalid
  | on hq hlay hslot hlink hpost ht => rfl

/-- **GetRecord** of the record that the iterator is on. -/
theorem Visits.getRecord (haccess : Access (poolSpec mode) s refusing Free On)
    {e : RID × Option (List UInt8)} (h : Visits s Free On it v (e :: todo)) :
    it.getRecord.wp mode (fun data v' => data = e.2 ∧ Visits s Free On it v' (e :: todo)) v := by
  cases h with
  | @on id slotId q post t hq hlay hslot hlink hpost ht =>
    rw [HeapFileIterator.getRecord, wp, Program.wp_bind]
    refine haccess.read hq ht fun p hp => ?_
    exact ⟨hp.getRecord (hp.symm.layout hlay) _, .on hq hlay hslot hlink hpost ht⟩

end Iterator

/-- **HeapFile::GetRecord** of a record id that names no page, or one of the heap file. -/
theorem Ok.getRecord_pins (h : s.Ok) (hbase : ∀ id, base id + 1 < 2 ^ 32) {rid : RID}
    (hrid : rid.isValid = true → rid.pageId ∈ s.chain) (hv : s.Keeping base [] v) :
    (HeapFile.getRecord rid).wp .erratic (fun data v' =>
      (data = none ∧ s.Keeping base [] v') ∨
      ∃ bytes, data = some bytes ∧ s.stored rid = some bytes ∧
        s.Keeping base [rid.pageId] v') v := by
  unfold HeapFile.getRecord
  split
  · rename_i hvalid
    have hid := hrid hvalid
    obtain ⟨q, hq, hql⟩ := h.layout _ hid
    rw [wp, Program.wp_bind]
    refine (h.scanAccess hbase).fetch hid hv (fun v' hon => ?_) fun _ => ?_
    · rw [if_pos rfl, Program.wp_bind]
      refine (h.scanAccess hbase).read hq hon fun p hp => ?_
      rw [hp.getRecord (hp.symm.layout hql)]
      cases hrec : q.getRecord rid.slotId with
      | some bytes =>
        refine Or.inr ⟨bytes, rfl, ?_, hon⟩
        rw [stored, if_pos hid, hq]
        exact hrec
      | none =>
        simp only []
        rw [Program.wp_bind]
        exact (h.scanAccess hbase).unpin hon fun v'' hfree => Or.inl ⟨rfl, hfree⟩
    · rw [if_neg Bool.false_ne_true]
      exact Or.inl ⟨rfl, hv⟩
  · exact Or.inl ⟨rfl, hv⟩

end HeapState

end CourtDB
