/-
# The B+ tree

`BPlusTree` (`index/btree.h`, `index/btree.cpp`) is the id of a root page and a comparator; its
nodes are pages of the buffer pool.  A `Page*` is the id of the page it points to, which is what
`GetPageId()` returns of it.  A node's constructor decodes the page behind the pointer and
`SerializeToPage` writes to it.

Loops that follow the tree, and the recursion of `InsertIntoParent`, have fuel.  Without fuel they
have no result (`none`), which is told apart from a null pointer (`some none`) and from every value.
-/
import CourtDB.Index.Node

namespace CourtDB

structure BPlusTree where
  rootPageId : PageId := invalidPageId
  comparator : KeyComparator := defaultKeyComparator

/-! ## 1. Nodes behind pointers

A node is a copy of what its page held when it was made.  So a node that is changed and not stored
leaves its page alone, and a page that is patched behind a node's back is overwritten when the node
is stored. -/

/-- `LeafNode::LeafNode(Page*)`. -/
def LeafNode.load (id : PageId) : PoolM LeafNode := do
  return LeafNode.ofPage (← readPage id)

/-- `LeafNode::SerializeToPage`. -/
def LeafNode.store (n : LeafNode) (id : PageId) : PoolM Unit := do
  writePage id (n.serializeToPage (← readPage id))

/-- `InternalNode::InternalNode(Page*)`. -/
def InternalNode.load (id : PageId) : PoolM InternalNode := do
  return InternalNode.ofPage (← readPage id)

/-- `InternalNode::SerializeToPage`. -/
def InternalNode.store (n : InternalNode) (id : PageId) : PoolM Unit := do
  writePage id (n.serializeToPage (← readPage id))

/-- The patch of one child's parent pointer; a child that cannot be fetched keeps its own. -/
def updateParentPointer (parentId childId : PageId) : PoolM Unit := do
  if ← fetchPage childId then
    writePage childId ((← readPage childId).setParentPageId parentId)
    let _ ← unpinPage childId true

/-! ## 2. Splits

The source copies what an overflowing node holds into vectors, inserts the new entry there, and cuts
the vectors in two.  Here the vectors are lists, and the keys and record ids of a leaf are one list
of entries.  A split position is half the length, rounded down, so with 407 entries the left leaf
gets 203 of them.

Of a parent the middle key goes up and stays in neither half.  The right parent begins with the
parent of the left one, and its children are patched before either half is stored. -/

namespace LeafNode

/-- All entries of an overflowing leaf. -/
def overflow (n : LeafNode) (key : KeyType) (rid : RID) (cmp : KeyComparator) :
    List (KeyType × RID) :=
  n.entries.insertIdx (n.findKeyPosition key cmp) (key, rid)

/-- The left leaf of a split: the first half of all entries. -/
def splitLeft (n : LeafNode) (all : List (KeyType × RID)) (rightPageId : PageId) : LeafNode where
  header := { n.header with
    numKeys := UInt16.ofNat (all.length / 2)
    nextPageId := rightPageId }
  entries := all.take (all.length / 2)

/-- The right leaf of a split, made of the node on a new page. -/
def splitRight (n fresh : LeafNode) (all : List (KeyType × RID)) : LeafNode where
  header := { fresh.header with
    nodeType := .leafNode
    parentPageId := n.header.parentPageId
    numKeys := UInt16.ofNat (all.length - all.length / 2)
    nextPageId := n.header.nextPageId }
  entries := all.drop (all.length / 2)

/-- The entries that the loop of `RangeScan` visits in a leaf. -/
def entriesFrom (n : LeafNode) (low : KeyType) (cmp : KeyComparator) : List (KeyType × RID) :=
  (n.entries.take n.header.numKeys.toNat).drop (n.findKeyPosition low cmp)

/-- `GetKeyAt`. -/
def getKeyAt (n : LeafNode) (index : Nat) : KeyType := n.getKeys.getD index 0

end LeafNode

namespace InternalNode

/-- All keys of an overflowing parent. -/
def overflowKeys (n : InternalNode) (pos : Nat) (splitKey : KeyType) : List KeyType :=
  (n.keys.take n.header.numKeys.toNat).insertIdx pos splitKey

/-- All children of an overflowing parent. -/
def overflowChildren (n : InternalNode) (pos : Nat) (rightId : PageId) : List PageId :=
  (n.children.take (n.header.numKeys.toNat + 1)).insertIdx (pos + 1) rightId

/-- The left parent of a split keeps the keys before the middle one. -/
def splitLeft (n : InternalNode) (keys : List KeyType) (children : List PageId) : InternalNode :=
  let mid := keys.length / 2
  let header := { n.header with numKeys := UInt16.ofNat mid }
  ({ n with header := header }.setKeys (keys.take mid)).setChildren (children.take (mid + 1))

/-- The right parent of a split, made of the node on a new page, gets the keys after it. -/
def splitRight (n fresh : InternalNode) (keys : List KeyType) (children : List PageId) :
    InternalNode :=
  let mid := keys.length / 2
  let header := { fresh.header with
    nodeType := .internalNode
    parentPageId := n.header.parentPageId
    numKeys := UInt16.ofNat (keys.length - mid - 1) }
  ({ fresh with header := header }.setKeys (keys.drop (mid + 1))).setChildren
    (children.drop (mid + 1))

end InternalNode

namespace BPlusTree

/-- `CreateNewRoot`. -/
def createNewRoot (t : BPlusTree) (leftId : PageId) (splitKey : KeyType) (rightId : PageId) :
    PoolM BPlusTree := do
  match ← newPage with
  | none => return t
  | some newRootId =>
    let fresh ← InternalNode.load newRootId
    let header : BTreeNodeHeader := ⟨.internalNode, invalidPageId, 1, invalidPageId⟩
    let rootNode :=
      (({ fresh with header := header }.setKeyAt 0 splitKey).setChildAt 0 leftId).setChildAt 1
        rightId
    rootNode.store newRootId
    updateParentPointer newRootId leftId
    updateParentPointer newRootId rightId
    let _ ← unpinPage newRootId true
    return { t with rootPageId := newRootId }

/-- `InsertIntoParent`.  It returns the tree because `CreateNewRoot` changes its root. -/
def insertIntoParent :
    Nat → BPlusTree → PageId → KeyType → PageId → PoolM (Option BPlusTree)
  | 0, _, _, _, _ => return none
  | fuel + 1, t, leftId, splitKey, rightId => do
    let leftPage ← readPage leftId
    let parentId := leftPage.getParentPageId
    if parentId = invalidPageId then
      return some (← t.createNewRoot leftId splitKey rightId)
    else if ← fetchPage parentId then
      let parentNode ← InternalNode.load parentId
      let pos := parentNode.findChild splitKey t.comparator
      if parentNode.isFull then
        let keys := parentNode.overflowKeys pos splitKey
        let children := parentNode.overflowChildren pos rightId
        match ← newPage with
        | none =>
          let _ ← unpinPage parentId false
          return some t
        | some newParentId =>
          let fresh ← InternalNode.load newParentId
          let newParent := parentNode.splitRight fresh keys children
          (newParent.children.take (newParent.header.numKeys.toNat + 1)).forM
            (updateParentPointer newParentId)
          (parentNode.splitLeft keys children).store parentId
          newParent.store newParentId
          match ← insertIntoParent fuel t parentId (keys.getD (keys.length / 2) 0) newParentId with
          | none => return none
          | some t =>
            let _ ← unpinPage parentId true
            let _ ← unpinPage newParentId true
            return some t
      else
        (parentNode.insertAfter pos splitKey rightId).store parentId
        let _ ← unpinPage parentId true
        return some t
    else
      return some t

/-! ## 3. Descending

One page is pinned at a time: the parent is given back before its child is fetched.  A refused fetch
ends the descent with a null pointer. -/

/-- The loop of `FindLeafPage`, from a page that is fetched: the leaf, or a null pointer. -/
def descend (t : BPlusTree) (key : KeyType) : Nat → PageId → PoolM (Option (Option PageId))
  | 0, _ => return none
  | fuel + 1, id => do
    let page ← readPage id
    if page.getNodeType = .leafNode then
      return some (some id)
    else
      let internal := InternalNode.ofPage page
      let childId := internal.getChildAt (internal.findChild key t.comparator)
      let _ ← unpinPage id false
      if ← fetchPage childId then
        descend t key fuel childId
      else
        return some none

/-- `FindLeafPage`: the leaf is left pinned. -/
def findLeafPage (fuel : Nat) (t : BPlusTree) (key : KeyType) :
    PoolM (Option (Option PageId)) := do
  if ← fetchPage t.rootPageId then
    t.descend key fuel t.rootPageId
  else
    return some none

/-! ## 4. Insert

`Insert` answers true whenever it has stored the entry in a leaf, and it does not look at what
became of the split higher up: `InsertIntoParent` and `CreateNewRoot` return nothing in the source.
Here they return the tree, because that is where the root is. -/

/-- `Insert` into an empty tree: a leaf root. -/
def insertFirst (t : BPlusTree) (key : KeyType) (rid : RID) : PoolM (Bool × BPlusTree) := do
  match ← newPage with
  | none => return (false, t)
  | some rootId =>
    let leaf : LeafNode := ⟨⟨.leafNode, invalidPageId, 0, invalidPageId⟩, []⟩
    (leaf.insert key rid t.comparator).2.store rootId
    let _ ← unpinPage rootId true
    return (true, { t with rootPageId := rootId })

/-- `Insert` into a full leaf: the leaf is split, and the first key of the right half goes to the
parent. -/
def insertSplitting (fuel : Nat) (t : BPlusTree) (leafId : PageId) (leaf : LeafNode)
    (key : KeyType) (rid : RID) : PoolM (Option (Bool × BPlusTree)) := do
  let all := leaf.overflow key rid t.comparator
  match ← newPage with
  | none =>
    let _ ← unpinPage leafId false
    return some (false, t)
  | some rightPageId =>
    let rightLeaf := leaf.splitRight (← LeafNode.load rightPageId) all
    (leaf.splitLeft all rightPageId).store leafId
    rightLeaf.store rightPageId
    match ← insertIntoParent fuel t leafId (rightLeaf.getKeyAt 0) rightPageId with
    | none => return none
    | some t =>
      let _ ← unpinPage leafId true
      let _ ← unpinPage rightPageId true
      return some (true, t)

/-- `Insert`. -/
def insert (fuel : Nat) (t : BPlusTree) (key : KeyType) (rid : RID) :
    PoolM (Option (Bool × BPlusTree)) := do
  if t.rootPageId = invalidPageId then
    return some (← t.insertFirst key rid)
  else
    match ← t.findLeafPage fuel key with
    | none => return none
    | some none => return some (false, t)
    | some (some leafId) =>
      let leaf ← LeafNode.load leafId
      match leaf.insert key rid t.comparator with
      | (true, leaf') =>
        leaf'.store leafId
        let _ ← unpinPage leafId true
        return some (true, t)
      | (false, _) => t.insertSplitting fuel leafId leaf key rid

/-! ## 5. Delete, Lookup, RangeScan

`Delete` looks at one leaf only.  It takes an entry out and never merges leaves, so a leaf can be
empty and is still in the chain.  `Lookup` and `RangeScan` go on along it, each by a condition
of its own. -/

/-- `Delete`. -/
def delete (fuel : Nat) (t : BPlusTree) (key : KeyType) (rid : RID) : PoolM (Option Bool) := do
  if t.rootPageId = invalidPageId then
    return some false
  else
    match ← t.findLeafPage fuel key with
    | none => return none
    | some none => return some false
    | some (some leafId) =>
      let leaf ← LeafNode.load leafId
      match leaf.delete key rid t.comparator with
      | (true, leaf') =>
        leaf'.store leafId
        let _ ← unpinPage leafId true
        return some true
      | (false, _) =>
        let _ ← unpinPage leafId false
        return some false

/-- The loop of `Lookup` over the leaves that follow. -/
def lookupNext (t : BPlusTree) (key : KeyType) :
    Nat → PageId → List RID → PoolM (Option (List RID))
  | 0, _, _ => return none
  | fuel + 1, nextLeafId, results => do
    if nextLeafId ≠ invalidPageId ∧ results ≠ [] then
      if ← fetchPage nextLeafId then
        let nextLeaf ← LeafNode.load nextLeafId
        let _ ← unpinPage nextLeafId false
        if nextLeaf.header.numKeys = 0 ∨ t.comparator (nextLeaf.getKeyAt 0) key ≠ 0 then
          return some results
        else
          lookupNext t key fuel nextLeaf.header.nextPageId
            (results ++ nextLeaf.findAll key t.comparator)
      else
        return some results
    else
      return some results

/-- `Lookup`. -/
def lookup (fuel : Nat) (t : BPlusTree) (key : KeyType) : PoolM (Option (List RID)) := do
  if t.rootPageId = invalidPageId then
    return some []
  else
    match ← t.findLeafPage fuel key with
    | none => return none
    | some none => return some []
    | some (some leafId) =>
      let leaf ← LeafNode.load leafId
      let _ ← unpinPage leafId false
      t.lookupNext key fuel leaf.header.nextPageId (leaf.findAll key t.comparator)

/-- The loop of `RangeScan`, from a leaf that is fetched. -/
def scanLeaves (t : BPlusTree) (low high : KeyType) :
    Nat → PageId → List (KeyType × RID) → PoolM (Option (List (KeyType × RID)))
  | 0, _, _ => return none
  | fuel + 1, id, results => do
    let leaf ← LeafNode.load id
    let visited := leaf.entriesFrom low t.comparator
    let found := visited.takeWhile fun e => t.comparator e.1 high ≤ 0
    let _ ← unpinPage id false
    if found.length < visited.length then
      -- past the upper bound
      return some (results ++ found)
    else if leaf.header.nextPageId = invalidPageId then
      return some (results ++ found)
    else if ← fetchPage leaf.header.nextPageId then
      scanLeaves t low high fuel leaf.header.nextPageId (results ++ found)
    else
      return some (results ++ found)

/-- `RangeScan`. -/
def rangeScan (fuel : Nat) (t : BPlusTree) (low high : KeyType) :
    PoolM (Option (List (KeyType × RID))) := do
  if t.rootPageId = invalidPageId then
    return some []
  else
    match ← t.findLeafPage fuel low with
    | none => return none
    | some none => return some []
    | some (some leafId) => t.scanLeaves low high fuel leafId []

end BPlusTree

end CourtDB
