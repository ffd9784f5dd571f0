/-
# Heap files

`HeapFile` (`storage/heap_file.h`, `storage/heap_file.cpp`) keeps the records of a table in a
chain of pages.  Its own state is small: the two ends of the chain, two counters, and the
free-space directory, a list of the pages that are thought to have room.  Everything else is in
the pages, which it reaches through the buffer pool, so its functions are programs over the pool.

A null pointer from the pool is followed as the source follows it.  Where the source would go on
to dereference one (`BulkInsert` after a failed fetch in its loop), the program has no result.
-/
import CourtDB.Buffer.PoolProgram

namespace CourtDB

/-! ## 1. Record ids and the state of a heap file -/

/-- Where a record lies: its page and its slot. -/
structure RID where
  pageId : PageId := invalidPageId
  slotId : UInt16 := 0
deriving DecidableEq, Repr

/-- `IsValid`. -/
def RID.isValid (rid : RID) : Bool := rid.pageId != invalidPageId

/-- `PageType::kData`. -/
def dataPageFlag : UInt16 := 0x0001

structure HeapFile where
  firstPageId : PageId
  lastPageId : PageId
  recordCount : UInt32 := 0
  pageCount : UInt32 := 0
  pagesWithSpace : List PageId := []
deriving DecidableEq, Repr

namespace HeapFile

def getFirstPageId (h : HeapFile) : PageId := h.firstPageId

def getRecordCount (h : HeapFile) : UInt32 := h.recordCount

def getPageCount (h : HeapFile) : UInt32 := h.pageCount

/-! ## 2. Pages

`pages_with_space_` is a vector that is searched from the front.  A page is taken off it when a
search finds no room in it for the record at hand, or when less than 64 bytes are left in it; only
a deletion puts it on again. -/

/-- `AllocateNewPage`: a new page at the end of the chain, listed as having space. -/
def allocateNewPage (h : HeapFile) : PoolM (PageId × HeapFile) := do
  match ← newPage with
  | none => return (invalidPageId, h)
  | some newPageId =>
    let page ← readPage newPageId
    writePage newPageId (page.setFlags dataPageFlag)
    if h.lastPageId ≠ invalidPageId ∧ h.lastPageId ≠ newPageId then
      if ← fetchPage h.lastPageId then
        let lastPage ← readPage h.lastPageId
        writePage h.lastPageId (lastPage.setNextPageId newPageId)
        let _ ← unpinPage h.lastPageId true
    let _ ← unpinPage newPageId true
    return (newPageId, { h with
      lastPageId := newPageId
      pageCount := h.pageCount + 1
      pagesWithSpace := h.pagesWithSpace ++ [newPageId] })

/-- The loop of `FindPageWithSpace` over the directory: the first listed page with room, and the
directory without the pages before it. -/
def searchDirectory (recordLength : UInt16) :
    List PageId → PoolM (Option PageId × List PageId)
  | [] => return (none, [])
  | id :: rest => do
    if ← fetchPage id then
      let page ← readPage id
      let _ ← unpinPage id false
      if page.hasSpaceFor recordLength then
        return (some id, id :: rest)
      else
        searchDirectory recordLength rest
    else
      searchDirectory recordLength rest

/-- `FindPageWithSpace`. -/
def findPageWithSpace (h : HeapFile) (recordLength : UInt16) : PoolM (PageId × HeapFile) := do
  let (found, listed) ← searchDirectory recordLength h.pagesWithSpace
  match found with
  | some id => return (id, { h with pagesWithSpace := listed })
  | none => allocateNewPage { h with pagesWithSpace := listed }

/-- A page with less than 64 bytes of room is taken off the directory. -/
def trackSpace (h : HeapFile) (id : PageId) (page : Page) : HeapFile :=
  if page.hasSpaceFor 64 then h else { h with pagesWithSpace := h.pagesWithSpace.erase id }

/-- The constructor that makes a new heap file. -/
def create : PoolM HeapFile := do
  let (firstPageId, h) ← allocateNewPage ⟨invalidPageId, invalidPageId, 0, 0, []⟩
  return { h with firstPageId := firstPageId, lastPageId := firstPageId }

/-- The loop of the constructor over the chain of a heap file that exists.  It has no result when
the fuel, the number of pages it may visit, runs out. -/
def walkChain : Nat → HeapFile → PageId → PoolM (Option HeapFile)
  | 0, _, _ => return none
  | fuel + 1, h, current => do
    if current = invalidPageId then
      return some h
    else if ← fetchPage current then
      let page ← readPage current
      let next := page.getNextPageId
      let _ ← unpinPage current false
      walkChain fuel { h with
        lastPageId := if next = invalidPageId then current else h.lastPageId
        recordCount := h.recordCount + page.getNumRecords.toUInt32
        pageCount := h.pageCount + 1
        -- at least 64 bytes free
        pagesWithSpace :=
          if page.hasSpaceFor 64 then h.pagesWithSpace ++ [current] else h.pagesWithSpace } next
    else
      return some h

/-- The constructor. -/
def construct (fuel : Nat) (firstPageId : PageId) : PoolM (Option HeapFile) := do
  if firstPageId = invalidPageId then
    return some (← create)
  else
    walkChain fuel ⟨firstPageId, firstPageId, 0, 0, []⟩ firstPageId

/-! ## 3. Record operations -/

/-- The end of `InsertRecord`, on the page that took the record. -/
def finishInsert (h : HeapFile) (id : PageId) (slotId : UInt16) (page : Page) :
    PoolM (RID × HeapFile) := do
  writePage id page
  let _ ← unpinPage id true
  return (⟨id, slotId⟩, { h.trackSpace id page with recordCount := h.recordCount + 1 })

/-- `InsertRecord`'s second attempt, on a page of its own. -/
def insertOnNewPage (h : HeapFile) (a : RecordArg) : PoolM (RID × HeapFile) := do
  let (id, h) ← h.allocateNewPage
  if ← fetchPage id then
    let page ← readPage id
    match page.insertRecord a with
    | (some slotId, page') => h.finishInsert id slotId page'
    | (none, _) =>
      -- the record is too large for any page
      let _ ← unpinPage id true
      return ({}, h)
  else
    return ({}, h)

/-- `InsertRecord`. -/
def insertRecord (h : HeapFile) : RecordArg → PoolM (RID × HeapFile)
  | .null _ => return ({}, h)
  | .data r => do
    if r.length = 0 then
      return ({}, h)
    else
      let (id, h) ← h.findPageWithSpace r.length
      if ← fetchPage id then
        let page ← readPage id
        match page.insertRecord (.data r) with
        | (some slotId, page') => h.finishInsert id slotId page'
        | (none, _) =>
          let _ ← unpinPage id false
          h.insertOnNewPage (.data r)
      else
        return ({}, h)

/-- `DeleteRecord`. -/
def deleteRecord (h : HeapFile) (rid : RID) : PoolM (Bool × HeapFile) := do
  if rid.isValid then
    if ← fetchPage rid.pageId then
      let page ← readPage rid.pageId
      match page.deleteRecord rid.slotId with
      | (true, page') =>
        writePage rid.pageId page'
        let _ ← unpinPage rid.pageId true
        return (true, { h with
          recordCount := h.recordCount - 1
          pagesWithSpace :=
            if rid.pageId ∈ h.pagesWithSpace then h.pagesWithSpace
            else h.pagesWithSpace ++ [rid.pageId] })
      | (false, _) =>
        let _ ← unpinPage rid.pageId false
        return (false, h)
    else
      return (false, h)
  else
    return (false, h)

/-- `UpdateRecord`: in its place if the page accepts it; otherwise the old record is deleted and
counted off, whether there was one or not, and the new one is inserted. -/
def updateRecord (h : HeapFile) (rid : RID) (r : RecordData) : PoolM (RID × HeapFile) := do
  if rid.isValid then
    if ← fetchPage rid.pageId then
      let page ← readPage rid.pageId
      match page.updateRecord rid.slotId r with
      | (true, page') =>
        writePage rid.pageId page'
        let _ ← unpinPage rid.pageId true
        return (rid, h)
      | (false, _) =>
        writePage rid.pageId (page.deleteRecord rid.slotId).2
        let _ ← unpinPage rid.pageId true
        { h with recordCount := h.recordCount - 1 }.insertRecord (.data r)
    else
      return ({}, h)
  else
    return ({}, h)

/-- `GetRecord`: the bytes the returned pointer and length name.  On success the page stays
pinned for the caller. -/
def getRecord (rid : RID) : PoolM (Option (List UInt8)) := do
  if rid.isValid then
    if ← fetchPage rid.pageId then
      let page ← readPage rid.pageId
      match page.getRecord rid.slotId with
      | some data => return some data
      | none =>
        let _ ← unpinPage rid.pageId false
        return none
    else
      return none
  else
    return none

/-- A caller of `GetRecord` that copies the record and gives the page back. -/
def readRecord (rid : RID) : PoolM (Option (List UInt8)) := do
  match ← getRecord rid with
  | some data =>
    let _ ← unpinPage rid.pageId false
    return some data
  | none => return none

/-! ## 4. Bulk insertion -/

/-- The loop of `BulkInsert`.  `current` is the page it holds pinned, or nothing for a null
pointer; a record that meets the null pointer is undefined behaviour. -/
def bulkInsertLoop : List RecordArg → HeapFile → Option PageId → List RID →
    PoolM (Option (List RID × HeapFile × Option PageId))
  | [], h, current, rids => return some (rids, h, current)
  | _ :: _, _, none, _ => return none
  | a :: records, h, some id, rids => do
    let page ← readPage id
    match page.insertRecord a with
    | (some slotId, page') =>
      writePage id page'
      bulkInsertLoop records { h with recordCount := h.recordCount + 1 } (some id)
        (rids ++ [⟨id, slotId⟩])
    | (none, _) =>
      let _ ← unpinPage id true
      let (id, h) ← { h with pagesWithSpace := h.pagesWithSpace.erase id }.findPageWithSpace
        a.length
      if ← fetchPage id then
        let page ← readPage id
        match page.insertRecord a with
        | (some slotId, page') =>
          writePage id page'
          bulkInsertLoop records { h with recordCount := h.recordCount + 1 } (some id)
            (rids ++ [⟨id, slotId⟩])
        | (none, _) => bulkInsertLoop records h (some id) (rids ++ [{}])
      else
        bulkInsertLoop records h none (rids ++ [{}])

/-- The fallback of `BulkInsert`: one `InsertRecord` per record. -/
def insertEach : List RecordArg → HeapFile → List RID → PoolM (List RID × HeapFile)
  | [], h, rids => return (rids, h)
  | a :: records, h, rids => do
    let (rid, h) ← h.insertRecord a
    insertEach records h (rids ++ [rid])

/-- `BulkInsert`. -/
def bulkInsert (h : HeapFile) (records : List RecordArg) :
    PoolM (Option (List RID × HeapFile)) := do
  let (id, h) ← h.findPageWithSpace 64
  if ← fetchPage id then
    match ← bulkInsertLoop records h (some id) [] with
    | none => return none
    | some (rids, h, none) => return some (rids, h)
    | some (rids, h, some id) =>
      let page ← readPage id
      let _ ← unpinPage id true
      return some (rids, h.trackSpace id page)
  else
    return some (← insertEach records h [])

end HeapFile

/-! ## 5. Iteration -/

/-- `HeapFileIterator`.  `onPage` says that `current_page_` is not null. -/
structure HeapFileIterator where
  currentPageId : PageId
  currentSlot : UInt16 := 0
  onPage : Bool := false
  currentRid : RID := {}
  valid : Bool := false
deriving DecidableEq, Repr

/-- The first slot from `start` on that holds a record. -/
def Page.nextRecord (p : Page) (start : UInt16) : Option UInt16 :=
  (((List.range p.getNumSlots.toNat).drop start.toNat).map UInt16.ofNat).find?
    fun slotId => (p.getRecord slotId).isSome

namespace HeapFileIterator

/-- The iterator on a record of a pinned page. -/
def onRecord (id : PageId) (slotId : UInt16) : HeapFileIterator where
  currentPageId := id
  currentSlot := slotId
  onPage := true
  currentRid := ⟨id, slotId⟩
  valid := true

/-- No more records anywhere. -/
def ended (it : HeapFileIterator) : HeapFileIterator :=
  { it with onPage := false, currentRid := {}, valid := false }

/-- The loop of `AdvanceToNextRecord` over the pages of the chain.  It has no result when the
fuel, the number of pages it may visit, runs out. -/
def walkPages : Nat → HeapFileIterator → PageId → PoolM (Option HeapFileIterator)
  | 0, _, _ => return none
  | fuel + 1, it, nextPageId => do
    if nextPageId = invalidPageId then
      return some it.ended
    else if ← fetchPage nextPageId then
      let page ← readPage nextPageId
      match page.nextRecord 0 with
      | some slotId => return some (.onRecord nextPageId slotId)
      | none =>
        let _ ← unpinPage nextPageId false
        walkPages fuel { it with currentPageId := nextPageId } page.getNextPageId
    else
      return some it.ended

/-- `AdvanceToNextRecord`. -/
def advanceToNextRecord (fuel : Nat) (it : HeapFileIterator) : PoolM (Option HeapFileIterator) := do
  if it.onPage then
    let page ← readPage it.currentPageId
    match page.nextRecord (it.currentSlot + 1) with
    | some slotId => return some (.onRecord it.currentPageId slotId)
    | none =>
      let _ ← unpinPage it.currentPageId false
      walkPages fuel it page.getNextPageId
  else
    return some it.ended

/-- The constructor. -/
def begin (fuel : Nat) (firstPageId : PageId) : PoolM (Option HeapFileIterator) := do
  if firstPageId = invalidPageId then
    return some { currentPageId := firstPageId }
  else if ← fetchPage firstPageId then
    let page ← readPage firstPageId
    if page.getNumSlots = 0 then
      advanceToNextRecord fuel { currentPageId := firstPageId, onPage := true }
    else if (page.getRecord 0).isSome then
      return some (.onRecord firstPageId 0)
    else
      advanceToNextRecord fuel { currentPageId := firstPageId, onPage := true }
  else
    return some { currentPageId := firstPageId }

/-- `Next`. -/
def next (fuel : Nat) (it : HeapFileIterator) : PoolM (Option HeapFileIterator) :=
  if it.valid then advanceToNextRecord fuel it else return some it

/-- `GetRecord`. -/
def getRecord (it : HeapFileIterator) : PoolM (Option (List UInt8)) := do
  let page ← readPage it.currentPageId
  return page.getRecord it.currentSlot

/-- The loop of a client that reads records until the iterator is no longer valid. -/
def collect : Nat → HeapFileIterator → PoolM (Option (List (RID × Option (List UInt8))))
  | 0, _ => return none
  | fuel + 1, it => do
    if it.valid then
      let data ← it.getRecord
      match ← it.next fuel with
      | none => return none
      | some it' =>
        match ← collect fuel it' with
        | none => return none
        | some rest => return some ((it.currentRid, data) :: rest)
    else
      return some []

end HeapFileIterator

/-- A scan from `Begin()`: the record ids and records it visits, in order. -/
def HeapFile.scan (h : HeapFile) (fuel : Nat) :
    PoolM (Option (List (RID × Option (List UInt8)))) := do
  match ← HeapFileIterator.begin fuel h.firstPageId with
  | none => return none
  | some it => it.collect fuel

end CourtDB
