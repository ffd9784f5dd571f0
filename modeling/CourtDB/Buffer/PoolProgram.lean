/-
# Programs over the buffer pool

The layers above the pool (recovery, heap files, the index) reach pages through its public
calls and the `Page*` they return, and through nothing else.  `PoolM` is the type of such
programs.  Each layer writes its functions once, as the source does, and `exec` runs them on a
`BufferPoolManager`.

A non-null `Page*` is the page's resident frame, so a program names the page by its id, reads it
with `readPage` and writes through the pointer with `writePage`.
-/
import CourtDB.Buffer.BufferPool
import CourtDB.Lib.Program

namespace CourtDB

/-! ## 1. The calls -/

/-- What a client can do with a pool. -/
inductive PoolCall
  | fetch (id : PageId)
  | new
  | unpin (id : PageId) (isDirty : Bool)
  | read (id : PageId)
  | write (id : PageId) (p : Page)
  | flushAll

/-- The answer to a call: of a pointer that is returned, whether it is null, or the id of the
page behind it. -/
abbrev PoolCall.Result : PoolCall → Type
  | .fetch _ => Bool
  | .new => Option PageId
  | .unpin _ _ => Bool
  | .read _ => Page
  | .write _ _ => Unit
  | .flushAll => Unit

/-- A client of the buffer pool that returns an `α`. -/
abbrev PoolM : Type → Type := Program PoolCall PoolCall.Result

/-- `FetchPage`: is the pointer non-null? -/
def fetchPage (id : PageId) : PoolM Bool := .call (.fetch id) .pure

/-- `NewPage`: the id of the page it returns. -/
def newPage : PoolM (Option PageId) := .call .new .pure

/-- `UnpinPage`. -/
def unpinPage (id : PageId) (isDirty : Bool) : PoolM Bool := .call (.unpin id isDirty) .pure

/-- The page behind the pointer to page `id`. -/
def readPage (id : PageId) : PoolM Page := .call (.read id) .pure

/-- Write through the pointer to page `id`. -/
def writePage (id : PageId) (p : Page) : PoolM Unit := .call (.write id p) .pure

/-- `FlushAllPages`. -/
def flushAllPages : PoolM Unit := .call .flushAll .pure

/-- The access pattern of the recovery manager and of the tests' clients: fetch the page, change
it through the pointer, unpin it as dirty; give up with `dflt` on a null pointer. -/
def withPage {α : Type} (id : PageId) (f : Page → α × Page) (dflt : α) : PoolM α := do
  if ← fetchPage id then
    let page ← readPage id
    writePage id (f page).2
    let _ ← unpinPage id true
    return (f page).1
  else
    return dflt

/-! ## 2. Running on the pool -/

namespace BufferPoolManager

/-- The page in the frame that `id` occupies. -/
def residentPage (b : BufferPoolManager) (id : PageId) : Page :=
  match b.pageTable id with
  | some f => b.pages f
  | none => Page.ofId invalidPageId

/-- A write through the pointer to `id`. -/
def setResidentPage (b : BufferPoolManager) (id : PageId) (p : Page) : BufferPoolManager :=
  match b.pageTable id with
  | some f => b.setPage f p
  | none => b

/-- The pool answers a call. -/
def handle : (o : PoolCall) → BufferPoolManager → o.Result × BufferPoolManager
  | .fetch id, b => ((b.fetchPage id).1.isSome, (b.fetchPage id).2)
  | .new, b => (b.newPageId, b.newPage.2)
  | .unpin id isDirty, b => b.unpinPage id isDirty
  | .read id, b => (b.residentPage id, b)
  | .write id p, b => ((), b.setResidentPage id p)
  | .flushAll, b => ((), b.flushAllPages)

end BufferPoolManager

namespace PoolM

variable {α β : Type}

/-- Run a program on a buffer pool. -/
def exec (m : PoolM α) (b : BufferPoolManager) : α × BufferPoolManager :=
  m.run BufferPoolManager.handle b

@[simp] theorem exec_pure (a : α) (b : BufferPoolManager) :
    exec (Pure.pure a) b = (a, b) := rfl

@[simp] theorem exec_bind (m : PoolM α) (f : α → PoolM β) (b : BufferPoolManager) :
    exec (m >>= f) b = exec (f (exec m b).1) (exec m b).2 := Program.run_bind m f b

@[simp] theorem exec_fetchPage (id : PageId) (b : BufferPoolManager) :
    exec (fetchPage id) b = ((b.fetchPage id).1.isSome, (b.fetchPage id).2) := rfl

@[simp] theorem exec_newPage (b : BufferPoolManager) :
    exec newPage b = (b.newPageId, b.newPage.2) := rfl

@[simp] theorem exec_unpinPage (id : PageId) (d : Bool) (b : BufferPoolManager) :
    exec (unpinPage id d) b = b.unpinPage id d := rfl

@[simp] theorem exec_readPage (id : PageId) (b : BufferPoolManager) :
    exec (readPage id) b = (b.residentPage id, b) := rfl

@[simp] theorem exec_writePage (id : PageId) (p : Page) (b : BufferPoolManager) :
    exec (writePage id p) b = ((), b.setResidentPage id p) := rfl

@[simp] theorem exec_flushAllPages (b : BufferPoolManager) :
    exec flushAllPages b = ((), b.flushAllPages) := rfl

end PoolM

end CourtDB
