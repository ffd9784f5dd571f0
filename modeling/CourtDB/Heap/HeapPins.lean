/-
# The pins of a heap file's operations

Every operation of a heap file gives back what it fetched, whatever it is answered: it never holds
more than two pages, those of `AllocateNewPage`, and ends with none (`Balanced`).  This is read off
the programs and needs no invariant, so it holds for any directory and any pages.  `GetRecord` is
the exception that the source documents: with a record it leaves the page pinned for the caller.

`Tidy k m T held` is the statement: from a client that holds the pages `held` the program `m` unpins
only pages that are held, never holds more than `k`, and ends in `T`, which says what is held then.
It composes like a postcondition, so each lemma below is one walk through the body of the function.
Loops are inductions on their fuel.

The iterator is the other place where a pin outlives a call.  It is on a page exactly as long as it
is valid (`HoldsPage`), and `Next` gives the page back when it leaves it; the page of an iterator
that is thrown away before its end is never given back.
-/
import CourtDB.Buffer.OwnPins
import CourtDB.Heap.ScanPins

namespace CourtDB

namespace HeapFile

open PoolM

/-! ## 1. Pages

Operations that get or search pages.  The two pages of `AllocateNewPage` are the new one and the one
that will link to it. -/

theorem balanced_allocateNewPage (h : HeapFile) : h.allocateNewPage.Balanced 2 := by
  intro k held hroom
  unfold allocateNewPage
  rw [Tidy, Program.wp_bind]
  refine tidy_newPage (by omega) rfl fun id => ?_
  simp only []
  rw [Program.wp_bind]
  refine tidy_readPage fun p => ?_
  rw [Program.wp_bind]
  refine tidy_writePage ?_
  have hgive : Program.wp (tidySpec k) (do
      let _ ← unpinPage id true
      return (id, { h with
        lastPageId := id
        pageCount := h.pageCount + 1
        pagesWithSpace := h.pagesWithSpace ++ [id] })) (fun _ held' => held' = held)
          (id :: held) := by
    rw [Program.wp_bind]
    exact tidy_unpinPage fun _ => rfl
  split
  · rw [Program.wp_bind]
    refine tidy_fetchPage (by simp only [List.length_cons]; omega) hgive ?_
    simp only [if_true]
    rw [Program.wp_bind]
    refine tidy_readPage fun q => ?_
    rw [Program.wp_bind]
    refine tidy_writePage ?_
    rw [Program.wp_bind]
    exact tidy_unpinPage fun _ => hgive
  · exact hgive

theorem balanced_searchDirectory (recordLength : UInt16) (l : List PageId) :
    (searchDirectory recordLength l).Balanced 2 := by
  intro k held hroom
  induction l with
  | nil => exact rfl
  | cons id l ih =>
    rw [searchDirectory, Tidy, Program.wp_bind]
    refine tidy_fetchPage (by omega) ih ?_
    simp only [if_true]
    rw [Program.wp_bind]
    refine tidy_readPage fun p => ?_
    rw [Program.wp_bind]
    refine tidy_unpinPage fun _ => ?_
    split
    · exact rfl
    · exact ih

theorem balanced_findPageWithSpace (h : HeapFile) (recordLength : UInt16) :
    (h.findPageWithSpace recordLength).Balanced 2 := by
  intro k held hroom
  rw [findPageWithSpace, Tidy, Program.wp_bind]
  refine (balanced_searchDirectory _ _).tidy hroom fun r => ?_
  obtain ⟨found, listed⟩ := r
  cases found with
  | some id => exact rfl
  | none => exact balanced_allocateNewPage _ k held hroom

theorem balanced_create : create.Balanced 2 := by
  intro k held hroom
  rw [create, Tidy, Program.wp_bind]
  exact (balanced_allocateNewPage _).tidy hroom fun _ => rfl

theorem balanced_walkChain : ∀ (fuel : Nat) (h : HeapFile) (current : PageId),
    (walkChain fuel h current).Balanced 1
  | 0, _, _ => fun _ _ _ => rfl
  | fuel + 1, h, current => fun k held hroom => by
    unfold walkChain
    split
    · exact rfl
    rw [Tidy, Program.wp_bind]
    refine tidy_fetchPage (by omega) rfl ?_
    simp only [if_true]
    rw [Program.wp_bind]
    refine tidy_readPage fun p => ?_
    rw [Program.wp_bind]
    exact tidy_unpinPage fun _ => balanced_walkChain fuel _ _ k held hroom

theorem balanced_construct (fuel : Nat) (firstPageId : PageId) :
    (construct fuel firstPageId).Balanced 2 := by
  intro k held hroom
  unfold construct
  split
  · rw [Tidy, Program.wp_bind]
    exact balanced_create.tidy hroom fun _ => rfl
  · exact balanced_walkChain fuel _ firstPageId k held (by omega)

/-! ## 2. Record operations

`UpdateRecord` deletes and inserts when its page has no room, one after the other, so it holds no
more than each of them. -/

/-- The end of an insertion gives back the page that took the record. -/
theorem tidy_finishInsert (h : HeapFile) (id : PageId) (slotId : UInt16) (p : Page) {k : Nat}
    {held : List PageId} :
    Tidy k (h.finishInsert id slotId p) (fun _ held' => held' = held) (id :: held) := by
  rw [finishInsert, Tidy, Program.wp_bind]
  refine tidy_writePage ?_
  rw [Program.wp_bind]
  exact tidy_unpinPage fun _ => rfl

theorem balanced_insertOnNewPage (h : HeapFile) (a : RecordArg) :
    (h.insertOnNewPage a).Balanced 2 := by
  intro k held hroom
  rw [insertOnNewPage, Tidy, Program.wp_bind]
  refine (balanced_allocateNewPage h).tidy hroom fun r => ?_
  obtain ⟨id, h⟩ := r
  simp only []
  rw [Program.wp_bind]
  refine tidy_fetchPage (by omega) rfl ?_
  simp only [if_true]
  rw [Program.wp_bind]
  refine tidy_readPage fun p => ?_
  cases hins : p.insertRecord a with
  | mk slot page' =>
    cases slot with
    | some slotId => exact tidy_finishInsert h id slotId page'
    | none =>
      simp only []
      rw [Program.wp_bind]
      exact tidy_unpinPage fun _ => rfl

theorem balanced_insertRecord (h : HeapFile) (a : RecordArg) : (h.insertRecord a).Balanced 2 := by
  intro k held hroom
  cases a with
  | null n => exact rfl
  | data r =>
    rw [insertRecord]
    split
    · exact rfl
    rw [Tidy, Program.wp_bind]
    refine (balanced_findPageWithSpace h r.length).tidy hroom fun found => ?_
    obtain ⟨id, h⟩ := found
    simp only []
    rw [Program.wp_bind]
    refine tidy_fetchPage (by omega) rfl ?_
    simp only [if_true]
    rw [Program.wp_bind]
    refine tidy_readPage fun p => ?_
    cases hins : p.insertRecord (.data r) with
    | mk slot page' =>
      cases slot with
      | some slotId => exact tidy_finishInsert h id slotId page'
      | none =>
        simp only []
        rw [Program.wp_bind]
        exact tidy_unpinPage fun _ => balanced_insertOnNewPage h (.data r) k held hroom

theorem balanced_deleteRecord (h : HeapFile) (rid : RID) : (h.deleteRecord rid).Balanced 1 := by
  intro k held hroom
  unfold deleteRecord
  split
  · rw [Tidy, Program.wp_bind]
    refine tidy_fetchPage (by omega) rfl ?_
    simp only [if_true]
    rw [Program.wp_bind]
    refine tidy_readPage fun p => ?_
    cases hdel : p.deleteRecord rid.slotId with
    | mk deleted page' =>
      cases deleted with
      | true =>
        simp only []
        rw [Program.wp_bind]
        refine tidy_writePage ?_
        rw [Program.wp_bind]
        exact tidy_unpinPage fun _ => rfl
      | false =>
        simp only []
        rw [Program.wp_bind]
        exact tidy_unpinPage fun _ => rfl
  · exact rfl

theorem balanced_updateRecord (h : HeapFile) (rid : RID) (r : RecordData) :
    (h.updateRecord rid r).Balanced 2 := by
  intro k held hroom
  unfold updateRecord
  split
  · rw [Tidy, Program.wp_bind]
    refine tidy_fetchPage (by omega) rfl ?_
    simp only [if_true]
    rw [Program.wp_bind]
    refine tidy_readPage fun p => ?_
    cases hupd : p.updateRecord rid.slotId r with
    | mk updated page' =>
      cases updated with
      | true =>
        simp only []
        rw [Program.wp_bind]
        refine tidy_writePage ?_
        rw [Program.wp_bind]
        exact tidy_unpinPage fun _ => rfl
      | false =>
        simp only []
        rw [Program.wp_bind]
        refine tidy_writePage ?_
        rw [Program.wp_bind]
        exact tidy_unpinPage fun _ => balanced_insertRecord _ _ k held hroom
  · exact rfl

/-- **GetRecord** leaves the page of a record that it finds with the caller, and no other. -/
theorem tidy_getRecord (rid : RID) {k : Nat} {held : List PageId} (hroom : held.length < k) :
    Tidy k (getRecord rid)
      (fun r held' => held' = if r.isSome then rid.pageId :: held else held) held := by
  unfold getRecord
  split
  · rw [Tidy, Program.wp_bind]
    refine tidy_fetchPage hroom rfl ?_
    simp only [if_true]
    rw [Program.wp_bind]
    refine tidy_readPage fun p => ?_
    cases hrec : p.getRecord rid.slotId with
    | some data => exact rfl
    | none =>
      simp only []
      rw [Program.wp_bind]
      exact tidy_unpinPage fun _ => rfl
  · exact rfl

/-! ## 3. Bulk insertion

`BulkInsert` keeps its page from one record to the next, and changes it when it is full.  The page
is held at the head of the loop, and the loop gives it back at its end. -/

/-- The page that the loop of `BulkInsert` holds. -/
def current (r : Option (List RID × HeapFile × Option PageId)) : List PageId :=
  (r.bind fun e => e.2.2).toList

/-- **The loop of BulkInsert** always holds one page, unless it holds a null pointer.  A record that
meets the null pointer ends it. -/
theorem tidy_bulkInsertLoop (records : List RecordArg) : ∀ (h : HeapFile) (id : Option PageId)
    (rids : List RID) {k : Nat} {held : List PageId}, held.length + 2 ≤ k →
    Tidy k (bulkInsertLoop records h id rids) (fun r held' => held' = current r ++ held)
      (id.toList ++ held) := by
  induction records with
  | nil => exact fun h id rids k held _ => rfl
  | cons a records ih =>
    intro h id rids k held hroom
    cases id with
    -- the null pointer ends the loop
    | none => exact rfl
    | some id =>
      unfold bulkInsertLoop
      rw [Tidy, Program.wp_bind]
      refine tidy_readPage fun p => ?_
      cases hins : p.insertRecord a with
      | mk slot page' =>
        -- the page that is held took the record
        cases slot with
        | some slotId =>
          simp only []
          rw [Program.wp_bind]
          exact tidy_writePage (ih _ (some id) _ hroom)
        -- it is given back, and another page is found
        | none =>
          simp only []
          rw [Program.wp_bind]
          refine tidy_unpinPage fun _ => ?_
          rw [Program.wp_bind]
          refine (balanced_findPageWithSpace _ _).tidy hroom fun found => ?_
          obtain ⟨id', h'⟩ := found
          simp only []
          rw [Program.wp_bind]
          -- if that page cannot be fetched the loop has a null pointer from here on
          refine tidy_fetchPage (by omega) (ih h' none _ hroom) ?_
          simp only [if_true]
          rw [Program.wp_bind]
          refine tidy_readPage fun q => ?_
          cases hins' : q.insertRecord a with
          | mk slot' page'' =>
            cases slot' with
            | some slotId =>
              simp only []
              rw [Program.wp_bind]
              exact tidy_writePage (ih _ (some id') _ hroom)
            | none => exact ih h' (some id') _ hroom

theorem balanced_insertEach (records : List RecordArg) : ∀ (h : HeapFile) (rids : List RID),
    (insertEach records h rids).Balanced 2 := by
  induction records with
  | nil => exact fun _ _ _ _ _ => rfl
  | cons a records ih =>
    intro h rids k held hroom
    rw [insertEach, Tidy, Program.wp_bind]
    refine (balanced_insertRecord h a).tidy hroom fun r => ?_
    exact ih r.2 _ k held hroom

/-- **BulkInsert.** -/
theorem balanced_bulkInsert (h : HeapFile) (records : List RecordArg) :
    (h.bulkInsert records).Balanced 2 := by
  intro k held hroom
  rw [bulkInsert, Tidy, Program.wp_bind]
  refine (balanced_findPageWithSpace h 64).tidy hroom fun found => ?_
  obtain ⟨id, h⟩ := found
  simp only []
  rw [Program.wp_bind]
  refine tidy_fetchPage (by omega) ?_ ?_
  · rw [if_neg Bool.false_ne_true, Program.wp_bind]
    exact (balanced_insertEach records h []).tidy hroom fun _ => rfl
  simp only [if_true]
  rw [Program.wp_bind]
  refine Program.wp_mono (tidy_bulkInsertLoop records h (some id) [] hroom) fun r held' hheld => ?_
  rcases r with - | ⟨rids, h', - | id'⟩
  · exact hheld
  · exact hheld
  · obtain rfl : held' = id' :: held := hheld
    simp only []
    rw [Program.wp_bind]
    refine tidy_readPage fun p => ?_
    rw [Program.wp_bind]
    exact tidy_unpinPage fun _ => rfl

end HeapFile

/-! ## 4. Iteration

An iterator goes through pages, and through the slots of each.  It fetches the next page after it
has given back the one before. -/

namespace HeapFileIterator

open PoolM

/-- The iterator that was returned is valid as long as it is on a page, which it holds beside
`held`. -/
def HoldsPage (held : List PageId) (r : Option HeapFileIterator) (held' : List PageId) : Prop :=
  ∀ it, r = some it → it.valid = it.onPage ∧ held' = it.held ++ held

theorem HoldsPage.some {held : List PageId} {it : HeapFileIterator} (h : it.valid = it.onPage) :
    HoldsPage held (some it) (it.held ++ held) := fun _ hr => Option.some.inj hr ▸ ⟨h, rfl⟩

theorem tidy_walkPages : ∀ (fuel : Nat) (it : HeapFileIterator) (nextPageId : PageId) {k : Nat}
    {held : List PageId}, held.length < k →
    Tidy k (walkPages fuel it nextPageId) (HoldsPage held) held
  | 0, _, _, _, _, _ => fun _ hr => absurd hr (by simp)
  | fuel + 1, it, nextPageId, k, held, hroom => by
    unfold walkPages
    split
    · exact HoldsPage.some rfl
    rw [Tidy, Program.wp_bind]
    refine tidy_fetchPage hroom (HoldsPage.some rfl) ?_
    simp only [if_true]
    rw [Program.wp_bind]
    refine tidy_readPage fun p => ?_
    cases p.nextRecord 0 with
    | some slotId => exact HoldsPage.some rfl
    | none =>
      simp only []
      rw [Program.wp_bind]
      exact tidy_unpinPage fun _ => tidy_walkPages fuel _ _ hroom

/-- **AdvanceToNextRecord**, from a page that is held. -/
theorem tidy_advanceToNextRecord (fuel : Nat) {it : HeapFileIterator} (hon : it.onPage = true)
    {k : Nat} {held : List PageId} (hroom : held.length < k) :
    Tidy k (advanceToNextRecord fuel it) (HoldsPage held) (it.currentPageId :: held) := by
  rw [advanceToNextRecord, if_pos hon, Tidy, Program.wp_bind]
  refine tidy_readPage fun p => ?_
  cases p.nextRecord (it.currentSlot + 1) with
  | some slotId => exact HoldsPage.some rfl
  | none =>
    simp only []
    rw [Program.wp_bind]
    exact tidy_unpinPage fun _ => tidy_walkPages fuel it _ hroom

/-- **The constructor.** -/
theorem tidy_begin (fuel : Nat) (firstPageId : PageId) {k : Nat} {held : List PageId}
    (hroom : held.length < k) : Tidy k (begin fuel firstPageId) (HoldsPage held) held := by
  unfold begin
  split
  · exact HoldsPage.some rfl
  rw [Tidy, Program.wp_bind]
  refine tidy_fetchPage hroom (HoldsPage.some rfl) ?_
  simp only [if_true]
  rw [Program.wp_bind]
  refine tidy_readPage fun p => ?_
  split
  · exact tidy_advanceToNextRecord fuel rfl hroom
  split
  · exact HoldsPage.some rfl
  · exact tidy_advanceToNextRecord fuel rfl hroom

/-- **Next.** -/
theorem tidy_next (fuel : Nat) {it : HeapFileIterator} (hit : it.valid = it.onPage) {k : Nat}
    {held : List PageId} (hroom : held.length < k) :
    Tidy k (it.next fuel) (HoldsPage held) (it.held ++ held) := by
  unfold next
  split
  · rename_i hvalid
    rw [HeapFileIterator.held, if_pos hvalid]
    exact tidy_advanceToNextRecord fuel (hit.symm.trans hvalid) hroom
  · exact HoldsPage.some hit

/-- The loop of a client that reads all records. -/
theorem tidy_collect : ∀ (fuel : Nat) {it : HeapFileIterator}, it.valid = it.onPage →
    ∀ {k : Nat} {held : List PageId}, held.length < k →
    Tidy k (collect fuel it) (fun r held' => r.isSome = true → held' = held) (it.held ++ held)
  | 0, _, _, _, _, _ => fun hr => absurd hr (by simp)
  | fuel + 1, it, hit, k, held, hroom => by
    unfold collect
    split
    · rw [Tidy, Program.wp_bind]
      refine Program.wp_mono (Q := fun _ held' => held' = it.held ++ held) ?_
        fun data held' hheld => ?_
      · rw [HeapFileIterator.getRecord, Program.wp_bind]
        exact tidy_readPage fun _ => rfl
      obtain rfl : held' = it.held ++ held := hheld
      rw [Program.wp_bind]
      refine Program.wp_mono (tidy_next fuel hit hroom) fun r held' hheld => ?_
      cases r with
      | none => exact fun hr => absurd hr (by simp)
      | some it' =>
        obtain ⟨hit', rfl⟩ := hheld it' rfl
        simp only []
        rw [Program.wp_bind]
        refine Program.wp_mono (tidy_collect fuel hit' hroom) fun r held' hheld => ?_
        cases r with
        | none => exact fun hr => absurd hr (by simp)
        | some rest => exact fun _ => hheld rfl
    · rename_i hvalid
      rw [HeapFileIterator.held, if_neg hvalid]
      exact fun _ => rfl

end HeapFileIterator

/-- A whole scan. -/
theorem HeapFile.tidy_scan (h : HeapFile) (fuel : Nat) {k : Nat} {held : List PageId}
    (hroom : held.length < k) :
    PoolM.Tidy k (h.scan fuel) (fun r held' => r.isSome = true → held' = held) held := by
  rw [HeapFile.scan, PoolM.Tidy, Program.wp_bind]
  refine Program.wp_mono (HeapFileIterator.tidy_begin fuel h.firstPageId hroom)
    fun r held' hheld => ?_
  cases r with
  | none => exact fun hr => absurd hr (by simp)
  | some it =>
    obtain ⟨hit, rfl⟩ := hheld it rfl
    exact HeapFileIterator.tidy_collect fuel hit hroom

end CourtDB
