/-
# What a database is for

A database keeps tables of records and indexes.  The abstract database (`Contents`) has for each
heap file the records under their ids and for each tree the pairs of keys and record ids, and
nothing else: no pages, no frames, no pins.  `Contents.Step` says what each operation may answer and
what it does to the contents.  It concerns the one table or index that is named, and the choice of a
new record id is the heap file's.

`Contents.Trace` is a sequence of operations with answers that the abstract database can give.
-/
import CourtDB.Heap.BulkInsert
import CourtDB.Index.TreeMultimap

namespace CourtDB

/-! ## 1. Operations -/

/-- The calls of the clients of a database with heap files `ι` and trees `κ`. -/
inductive SharedOp (ι κ : Type)
  | create (i : ι)
  | insert (i : ι) (a : RecordArg)
  | bulk (i : ι) (records : List RecordArg)
  | delete (i : ι) (rid : RID)
  | update (i : ι) (rid : RID) (r : RecordData)
  | get (i : ι) (rid : RID)
  | insertKey (j : κ) (key : KeyType) (rid : RID)
  | deleteKey (j : κ) (key : KeyType) (rid : RID)
  | lookup (j : κ) (key : KeyType)
  | rangeScan (j : κ) (low high : KeyType)
  | release (id : PageId)
  | flushAll

/-- What a call answers. -/
inductive Answer
  | done
  | flag (b : Bool)
  | ids (rids : List RID)
  | record (data : Option (List UInt8))
  | pairs (entries : List (KeyType × RID))
deriving DecidableEq

/-! ## 2. The abstract database -/

/-- The records of each heap file and the pairs of each tree. -/
structure Contents (ι κ : Type) where
  table : ι → List (RID × List UInt8) := fun _ => []
  pairs : κ → List (KeyType × RID) := fun _ => []

namespace Contents

variable {ι κ : Type} [DecidableEq ι] [DecidableEq κ]

def setTable (c : Contents ι κ) (i : ι) (l : List (RID × List UInt8)) : Contents ι κ :=
  { c with table := Function.update c.table i l }

def setPairs (c : Contents ι κ) (j : κ) (l : List (KeyType × RID)) : Contents ι κ :=
  { c with pairs := Function.update c.pairs j l }

/-- The record ids that were answered for `records` are new in the table, and different; an argument
that fits on no page got none. -/
def Fresh (table : List (RID × List UInt8)) (records : List RecordArg) (rids : List RID) : Prop :=
  (rids.filter RID.isValid).Nodup ∧
    (∀ rid ∈ rids, rid.isValid = true → table.lookup rid = none) ∧
    rids.map RID.isValid = records.map RecordArg.fitsPage

/-- **What an operation may answer, and what it does.**  An updated record keeps its id or is
inserted anew; one that fits on no page is gone after that. -/
inductive Step (c : Contents ι κ) : SharedOp ι κ → Answer → Contents ι κ → Prop
  | create {i : ι} (h : c.table i = []) : Step c (.create i) .done c
  | insert {i : ι} {a : RecordArg} {rid : RID} (h : Fresh (c.table i) [a] [rid]) :
      Step c (.insert i a) (.ids [rid]) (c.setTable i (TableRun.note (c.table i) a rid))
  | bulk {i : ι} {records : List RecordArg} {rids : List RID} (h : Fresh (c.table i) records rids) :
      Step c (.bulk i records) (.ids rids)
        (c.setTable i (TableRun.noteAll (c.table i) records rids))
  | delete {i : ι} {rid : RID} :
      Step c (.delete i rid) (.flag ((c.table i).lookup rid).isSome)
        (c.setTable i ((c.table i).filter fun e => decide (e.1 ≠ rid)))
  | update {i : ι} {rid rid' : RID} {r : RecordData} (hlive : ((c.table i).lookup rid).isSome)
      (h : rid' = rid ∧ rid.isValid = true ∨
        Fresh ((c.table i).filter fun e => decide (e.1 ≠ rid)) [.data r] [rid']) :
      Step c (.update i rid r) (.ids [rid']) (c.setTable i
        (TableRun.note ((c.table i).filter fun e => decide (e.1 ≠ rid)) (.data r) rid'))
  | get {i : ι} {rid : RID} : Step c (.get i rid) (.record ((c.table i).lookup rid)) c
  | insertKey {j : κ} {key : KeyType} {rid : RID} :
      Step c (.insertKey j key rid) (.flag true) (c.setPairs j ((key, rid) :: c.pairs j))
  | deleteKey {j : κ} {key : KeyType} {rid : RID} :
      Step c (.deleteKey j key rid) (.flag (decide ((key, rid) ∈ c.pairs j)))
        (c.setPairs j ((c.pairs j).erase (key, rid)))
  | lookup {j : κ} {key : KeyType} {rids : List RID}
      (h : rids.Perm (((c.pairs j).filter fun e => e.1 = key).map Prod.snd)) :
      Step c (.lookup j key) (.ids rids) c
  | rangeScan {j : κ} {low high : KeyType} {entries : List (KeyType × RID)}
      (h : entries.Perm ((c.pairs j).filter (inRange low high))) (hsorted : SortedEntries entries) :
      Step c (.rangeScan j low high) (.pairs entries) c
  | release {id : PageId} : Step c (.release id) .done c
  | flushAll : Step c .flushAll .done c

/-- Operations with answers of the abstract database, and what it holds then. -/
inductive Trace : Contents ι κ → List (SharedOp ι κ) → List Answer → Contents ι κ → Prop
  | nil {c : Contents ι κ} : Trace c [] [] c
  | cons {ops : List (SharedOp ι κ)} {answers : List Answer} {c d e : Contents ι κ}
      {op : SharedOp ι κ} {a : Answer} (hstep : c.Step op a d) (h : Trace d ops answers e) :
      Trace c (op :: ops) (a :: answers) e

end Contents

end CourtDB
