/-
# The nodes of the B+ tree

A node of the index occupies one page (`index/btree.h`, `index/btree.cpp`).  It does not use the
slot directory: from byte 20 on, where the page header ends, the page holds the node's header,
and from byte 31 on its entries.  `LeafNode` and `InternalNode` are the decoded copies on which the
tree works; `ofPage` decodes and `serializeToPage` writes a copy back.

The vectors `keys_` and `rids_` of a leaf always change together, so the model has one list of
entries.  An index into a node is at most its `num_keys`, so the model computes with `Nat` where
the source has a `uint16_t`.

Both searches are one loop, `bisect`: `findKeyPosition` takes the half to the right while the key in
the middle is smaller, `findChild` also when it is equal.
-/
import CourtDB.Lib.BinarySearch
import CourtDB.Heap.HeapFile

namespace CourtDB

open Bytes

/-! ## 1. Keys and headers -/

/-- Key type for the index. -/
abbrev KeyType := UInt32

/-- Comparison function type. -/
abbrev KeyComparator := KeyType → KeyType → Int

/-- Default comparator for unsigned integers. -/
def defaultKeyComparator (a b : KeyType) : Int :=
  if a < b then -1 else if a > b then 1 else 0

inductive BTreeNodeType
  | internalNode
  | leafNode
  | other (code : UInt8)
deriving DecidableEq, Repr

namespace BTreeNodeType

/-- The byte that stands for the type. -/
def code : BTreeNodeType → UInt8
  | internalNode => 1
  | leafNode => 2
  | other code => code

/-- `static_cast<BTreeNodeType>`. -/
def ofCode (code : UInt8) : BTreeNodeType :=
  if code = 1 then internalNode else if code = 2 then leafNode else other code

end BTreeNodeType

/-- Common header of internal and leaf nodes. -/
structure BTreeNodeHeader where
  nodeType : BTreeNodeType := .leafNode
  parentPageId : PageId := invalidPageId
  numKeys : UInt16 := 0
  nextPageId : PageId := invalidPageId
deriving DecidableEq, Repr

namespace BTreeNodeHeader

/-- The header bytes, after the 20 bytes of the page header. -/
def put (b : Buf) (h : BTreeNodeHeader) : Buf :=
  (((b.put 20 h.nodeType.code).put 21 h.parentPageId).put 25 h.numKeys).put 27 h.nextPageId

def get (b : Buf) : BTreeNodeHeader where
  nodeType := .ofCode (b.get UInt8 20)
  parentPageId := b.get PageId 21
  numKeys := b.get UInt16 25
  nextPageId := b.get PageId 27

end BTreeNodeHeader

instance : FixedRepr RID where
  size := 6
  encode rid := FixedRepr.encode (rid.pageId, rid.slotId)
  decode bs := ⟨(FixedRepr.decode (α := PageId × UInt16) bs).1,
    (FixedRepr.decode (α := PageId × UInt16) bs).2⟩
  length_encode rid := FixedRepr.length_encode (rid.pageId, rid.slotId)
  decode_encode rid := by rw [FixedRepr.decode_encode]

@[simp] theorem size_rid : FixedRepr.size RID = 6 := rfl

/-- The raw patch of the parent pointer, at byte 21 of the page. -/
def Page.setParentPageId (p : Page) (parentId : PageId) : Page :=
  { p with data := p.data.put 21 parentId }

/-- The raw read of the parent pointer. -/
def Page.getParentPageId (p : Page) : PageId := p.data.get PageId 21

/-- The raw read of the node type. -/
def Page.getNodeType (p : Page) : BTreeNodeType := .ofCode (p.data.get UInt8 20)

/-! ## 2. Leaf nodes -/

structure LeafNode where
  header : BTreeNodeHeader
  entries : List (KeyType × RID)
deriving DecidableEq, Repr

namespace LeafNode

/-- Maximum entries in a leaf node. -/
def maxKeys : UInt16 := 406

/-- `DeserializeFromPage`. -/
def ofPage (p : Page) : LeafNode where
  header := .get p.data
  entries := p.data.getAll (KeyType × RID) 31 (BTreeNodeHeader.get p.data).numKeys.toNat

/-- `SerializeToPage`. -/
def serializeToPage (n : LeafNode) (p : Page) : Page :=
  { p with data := (n.header.put p.data).putAll 31 (n.entries.take n.header.numKeys.toNat) }

def isFull (n : LeafNode) : Bool := n.header.numKeys ≥ maxKeys

def getKeys (n : LeafNode) : List KeyType := n.entries.map Prod.fst

/-- `FindKeyPosition`: the first position whose key is not smaller. -/
def findKeyPosition (n : LeafNode) (key : KeyType) (cmp : KeyComparator) : Nat :=
  bisect (fun k => cmp k key < 0) n.getKeys 0 n.header.numKeys.toNat

/-- `Insert`. -/
def insert (n : LeafNode) (key : KeyType) (rid : RID) (cmp : KeyComparator) : Bool × LeafNode :=
  if n.isFull then
    (false, n)
  else
    (true, {
      header := { n.header with numKeys := n.header.numKeys + 1 }
      entries := n.entries.insertIdx (n.findKeyPosition key cmp) (key, rid) })

/-- The loop of `Delete`: the position of the entry among the entries with its key. -/
def findEntry (key : KeyType) (rid : RID) (cmp : KeyComparator) :
    List (KeyType × RID) → Nat → Option Nat
  | [], _ => none
  | e :: rest, pos =>
    if cmp e.1 key = 0 then
      if e.2 = rid then some pos else findEntry key rid cmp rest (pos + 1)
    else
      none

/-- `Delete`. -/
def delete (n : LeafNode) (key : KeyType) (rid : RID) (cmp : KeyComparator) : Bool × LeafNode :=
  let pos := n.findKeyPosition key cmp
  match findEntry key rid cmp ((n.entries.take n.header.numKeys.toNat).drop pos) pos with
  | some i =>
    (true, {
      header := { n.header with numKeys := n.header.numKeys - 1 }
      entries := n.entries.eraseIdx i })
  | none => (false, n)

/-- `FindAll`. -/
def findAll (n : LeafNode) (key : KeyType) (cmp : KeyComparator) : List RID :=
  (((n.entries.take n.header.numKeys.toNat).drop (n.findKeyPosition key cmp)).takeWhile
    fun e => cmp e.1 key = 0).map Prod.snd

end LeafNode

/-! ## 3. Internal nodes -/

structure InternalNode where
  header : BTreeNodeHeader
  children : List PageId
  keys : List KeyType
deriving DecidableEq, Repr

namespace InternalNode

/-- Maximum keys in an internal node. -/
def maxKeys : UInt16 := 507

/-- `DeserializeFromPage`: children and keys alternate, and one child more is stored after the
last key, when there is a key. -/
def ofPage (p : Page) : InternalNode :=
  let header := BTreeNodeHeader.get p.data
  let n := header.numKeys.toNat
  let pairs := p.data.getAll (PageId × KeyType) 31 n
  { header := header
    children := pairs.map Prod.fst ++ [if n > 0 then p.data.get PageId (31 + 8 * n) else 0]
    keys := pairs.map Prod.snd }

/-- `GetChildAt`. -/
def getChildAt (n : InternalNode) (index : Nat) : PageId := n.children.getD index invalidPageId

/-- `SerializeToPage`. -/
def serializeToPage (n : InternalNode) (p : Page) : Page :=
  let m := n.header.numKeys.toNat
  let written := (n.header.put p.data).putAll 31 ((n.children.zip n.keys).take m)
  { p with data := if m > 0 then written.put (31 + 8 * m) (n.getChildAt m) else written }

def isFull (n : InternalNode) : Bool := n.header.numKeys ≥ maxKeys

/-- `SetChildAt`. -/
def setChildAt (n : InternalNode) (index : Nat) (childId : PageId) : InternalNode :=
  let resized := n.children ++ List.replicate (index + 1 - n.children.length) invalidPageId
  { n with children := resized.set index childId }

/-- `SetKeyAt`. -/
def setKeyAt (n : InternalNode) (index : Nat) (key : KeyType) : InternalNode :=
  let resized := n.keys ++ List.replicate (index + 1 - n.keys.length) 0
  { n with keys := resized.set index key }

/-- A loop of `SetChildAt` from index 0 on. -/
def setChildren (n : InternalNode) (children : List PageId) : InternalNode :=
  children.zipIdx.foldl (fun n c => n.setChildAt c.2 c.1) n

/-- A loop of `SetKeyAt` from index 0 on. -/
def setKeys (n : InternalNode) (keys : List KeyType) : InternalNode :=
  keys.zipIdx.foldl (fun n k => n.setKeyAt k.2 k.1) n

/-- `FindChild`: the position of the first key that is greater. -/
def findChild (n : InternalNode) (key : KeyType) (cmp : KeyComparator) : Nat :=
  bisect (fun k => cmp k key ≤ 0) n.keys 0 n.header.numKeys.toNat

/-- `InsertAfter`. -/
def insertAfter (n : InternalNode) (pos : Nat) (key : KeyType) (rightChild : PageId) :
    InternalNode where
  header := { n.header with numKeys := n.header.numKeys + 1 }
  keys := n.keys.insertIdx pos key
  children := n.children.insertIdx (pos + 1) rightChild

end InternalNode

/-! ## 4. Pages that hold a node -/

inductive BTreeNode
  | leaf (n : LeafNode)
  | internal (n : InternalNode)

namespace BTreeNode

/-- What `FindLeafPage` takes a page for. -/
def ofPage (p : Page) : BTreeNode :=
  if p.getNodeType = .leafNode then .leaf (LeafNode.ofPage p) else .internal (InternalNode.ofPage p)

def header : BTreeNode → BTreeNodeHeader
  | leaf n => n.header
  | internal n => n.header

/-- The node with another parent pointer. -/
def setParent (parentId : PageId) : BTreeNode → BTreeNode
  | leaf n => leaf { n with header := { n.header with parentPageId := parentId } }
  | internal n => internal { n with header := { n.header with parentPageId := parentId } }

/-- The children of a node. -/
def children : BTreeNode → List PageId
  | leaf _ => []
  | internal n => n.children

end BTreeNode

end CourtDB
