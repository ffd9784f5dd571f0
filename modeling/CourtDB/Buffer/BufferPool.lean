/-
# The buffer pool manager

`BufferPoolManager` (`buffer/buffer_pool_manager.h`, `buffer/buffer_pool_manager.cpp`) keeps a
fixed number of frames over the disk manager: a page table, a free list, an LRU replacer for
the frames nobody has pinned, and for each frame the page it holds with a pin count and a dirty
bit.

A `Page*` that `FetchPage` or `NewPage` returns points at a frame, so the model returns the
frame's number; the null pointer and `INVALID_FRAME_ID` are `none`.  The latch and the
statistics counters are left out: no operation looks at them.  The pool owns the only pointer
through which the disk is used, so the disk manager is a field of its state.
-/
import CourtDB.Disk.DiskManager

namespace CourtDB

open Bytes

/-! ## 1. The LRU replacer -/

/-- Frame identifier, an index into the frame array. -/
abbrev FrameId := Nat

/-- The evictable frames, most recently used first.  The source's map from frame ids to list
positions only says where, and whether, a frame is in the list. -/
structure LRUReplacer where
  lruList : List FrameId := []
deriving DecidableEq, Repr

namespace LRUReplacer

/-- `RecordAccess`: move, or add, the frame to the front. -/
def recordAccess (r : LRUReplacer) (frameId : FrameId) : LRUReplacer :=
  ⟨frameId :: r.lruList.erase frameId⟩

/-- `Remove`. -/
def remove (r : LRUReplacer) (frameId : FrameId) : LRUReplacer := ⟨r.lruList.erase frameId⟩

/-- `Evict`: take the least recently used frame off the back. -/
def evict (r : LRUReplacer) : Option FrameId × LRUReplacer :=
  (r.lruList.getLast?, ⟨r.lruList.dropLast⟩)

end LRUReplacer

/-! ## 2. The data model -/

/-- What the pool knows about a frame. -/
structure FrameMetadata where
  pageId : PageId := invalidPageId
  pinCount : UInt32 := 0
  isDirty : Bool := false
deriving DecidableEq, Repr

def FrameMetadata.isOccupied (m : FrameMetadata) : Bool := m.pageId != invalidPageId

/-- `BufferPoolManager`. -/
structure BufferPoolManager where
  poolSize : Nat
  disk : DiskManager
  pages : FrameId → Page
  metadata : FrameId → FrameMetadata
  freeList : List FrameId
  pageTable : PageId → Option FrameId
  replacer : LRUReplacer

namespace BufferPoolManager

/-- The constructor: every frame is free. -/
def create (poolSize : Nat) (disk : DiskManager) : BufferPoolManager where
  poolSize := poolSize
  disk := disk
  pages := fun _ => Page.ofId invalidPageId
  metadata := fun _ => {}
  freeList := List.range poolSize
  pageTable := fun _ => none
  replacer := {}

/-! ## 3. Frames -/

def setPage (b : BufferPoolManager) (f : FrameId) (p : Page) : BufferPoolManager :=
  { b with pages := Function.update b.pages f p }

def setMeta (b : BufferPoolManager) (f : FrameId) (m : FrameMetadata) : BufferPoolManager :=
  { b with metadata := Function.update b.metadata f m }

/-- The lines that write a frame back: serialize it, write the raw bytes under `pageId`, and
clear the dirty bit. -/
def writeBack (b : BufferPoolManager) (f : FrameId) (pageId : PageId) : BufferPoolManager :=
  let page := (b.pages f).serializeToBuffer
  { b.setPage f page with disk := (b.disk.writePage pageId page.data).2 }.setMeta f
    { b.metadata f with isDirty := false }

/-- `EvictFrame`: write the frame back if it is dirty, and forget its page. -/
def evictFrame (b : BufferPoolManager) (f : FrameId) : BufferPoolManager :=
  let pageId := (b.metadata f).pageId
  let b := if (b.metadata f).isDirty then b.writeBack f pageId else b
  { b with pageTable := Function.update b.pageTable pageId none }.setMeta f {}

/-- `FindFreeFrame`: the front of the free list, or else the replacer's victim. -/
def findFreeFrame (b : BufferPoolManager) : Option FrameId × BufferPoolManager :=
  match b.freeList with
  | f :: rest => (some f, { b with freeList := rest })
  | [] =>
    match b.replacer.evict with
    | (none, _) => (none, b)
    | (some victim, replacer) => (some victim, { b with replacer := replacer }.evictFrame victim)

/-! ## 4. Page access -/

/-- `FetchPage` on a resident page: one more pin. -/
def pinFrame (b : BufferPoolManager) (f : FrameId) : BufferPoolManager :=
  let pinCount := (b.metadata f).pinCount + 1
  let replacer := if pinCount = 1 then b.replacer.remove f else b.replacer
  { b with replacer := replacer }.setMeta f { b.metadata f with pinCount := pinCount }

/-- The frame `f` now holds `page` under `pageId`, with one pin. -/
def occupy (b : BufferPoolManager) (f : FrameId) (pageId : PageId) (page : Page)
    (isDirty : Bool) : BufferPoolManager :=
  { b.setPage f page with pageTable := Function.update b.pageTable pageId (some f) }.setMeta f
    { pageId := pageId, pinCount := 1, isDirty := isDirty }

/-- `FetchPage`. -/
def fetchPage (b : BufferPoolManager) (pageId : PageId) : Option FrameId × BufferPoolManager :=
  match b.pageTable pageId with
  | some f => (some f, b.pinFrame f)
  | none =>
    match b.findFreeFrame with
    | (none, b) => (none, b)
    | (some f, b) =>
      match b.disk.readPage pageId with
      | none => (none, { b with freeList := b.freeList ++ [f] })
      | some buffer => (some f, b.occupy f pageId ((b.pages f).loadFrom buffer) false)

/-- `UnpinPage`: the dirty bit is sticky, and the last unpin makes the frame evictable. -/
def unpinPage (b : BufferPoolManager) (pageId : PageId) (isDirty : Bool) :
    Bool × BufferPoolManager :=
  match b.pageTable pageId with
  | none => (false, b)
  | some f =>
    let m := b.metadata f
    if m.pinCount = 0 then (false, b)
    else
      let m : FrameMetadata :=
        { m with pinCount := m.pinCount - 1, isDirty := m.isDirty || isDirty }
      let replacer := if m.pinCount = 0 then b.replacer.recordAccess f else b.replacer
      (true, { b with replacer := replacer }.setMeta f m)

/-- `NewPage`: the new page lives in the frame, and on disk it is the zero page. -/
def newPage (b : BufferPoolManager) : Option FrameId × BufferPoolManager :=
  match b.findFreeFrame with
  | (none, b) => (none, b)
  | (some f, b) =>
    let newPageId := b.disk.allocatePage.1
    (some f, { b with disk := b.disk.allocatePage.2 }.occupy f newPageId (Page.ofId newPageId) true)

/-- The id of the page `NewPage` returns. -/
def newPageId (b : BufferPoolManager) : Option PageId :=
  b.newPage.1.map fun f => (b.newPage.2.pages f).getPageId

/-- `DeletePage`: a pinned page stays, any other is forgotten and deallocated. -/
def deletePage (b : BufferPoolManager) (pageId : PageId) : Bool × BufferPoolManager :=
  let deallocated := b.disk.deallocatePage pageId
  match b.pageTable pageId with
  | none => (deallocated.1, { b with disk := deallocated.2 })
  | some f =>
    if (b.metadata f).pinCount > 0 then (false, b)
    else
      let forgotten := { b with
        replacer := b.replacer.remove f
        pageTable := Function.update b.pageTable pageId none
        freeList := b.freeList ++ [f] }.setMeta f {}
      (deallocated.1, { forgotten with disk := deallocated.2 })

/-! ## 5. Flushing -/

/-- `FlushPage`. -/
def flushPage (b : BufferPoolManager) (pageId : PageId) : Bool × BufferPoolManager :=
  match b.pageTable pageId with
  | none => (false, b)
  | some f => (true, b.writeBack f pageId)

/-- One iteration of `FlushAllPages`. -/
def flushFrame (b : BufferPoolManager) (f : FrameId) : BufferPoolManager :=
  if (b.metadata f).isOccupied ∧ (b.metadata f).isDirty then
    b.writeBack f (b.metadata f).pageId
  else b

/-- `FlushAllPages`. -/
def flushAllPages (b : BufferPoolManager) : BufferPoolManager :=
  (List.range b.poolSize).foldl flushFrame b

/-- The destructor flushes; a new pool of `poolSize` frames then opens over the same disk. -/
def reopen (b : BufferPoolManager) (poolSize : Nat) : BufferPoolManager :=
  create poolSize b.flushAllPages.disk

end BufferPoolManager

end CourtDB
