/-
# Nodes and their pages

A node that fits its page is read back as it was written (`ofPage_serializeToPage`), and its parent
pointer can be patched in place (`ofPage_setParentPageId`).  Nothing of a node lies in the bytes
that the page header and an empty slot directory occupy, so a page that is evicted and fetched again
still holds the node (`Page.Stores.congr`), and so does one that goes to the disk and comes back
(`BTreeNode.survives_disk`).

A page of the index is used in two ways at once.  To the pool it is a slotted page, whose header the
page layer writes into the first bytes when the page leaves its frame; to the index it is an array
of bytes in which a node begins at byte 20.  The two do not meet as long as the page has no slots
(`Page.Bare`), and no function of the index makes one.

"Fits" is what a node must meet to be written whole: the length of its vectors is the one in its
header, and there is room for them on the page.  The source does not check either; a node that is
too long would be written past the page.
-/
import CourtDB.Index.Node
import CourtDB.Storage.PageImage
import CourtDB.Disk.DiskManager

namespace CourtDB

open Bytes

/-! ## 1. The header -/

namespace BTreeNodeHeader

theorem get_congr {b b' : Buf} (h : ∀ i, 20 ≤ i → i < 31 → b i = b' i) : get b = get b' := by
  unfold get
  congr 1
  · exact congrArg _ (Buf.get_congr fun i h1 h2 => h i h1 (lt_of_lt_of_le h2 (by decide)))
  all_goals
    refine Buf.get_congr fun i h1 h2 => h i (le_trans (by decide) h1) ?_
    exact lt_of_lt_of_le h2 (by decide)

theorem get_put (b : Buf) {h : BTreeNodeHeader} (htype : .ofCode h.nodeType.code = h.nodeType) :
    get (put b h) = h := by
  unfold get put
  simp only [Buf.get_put_self, Buf.get_put_of_disjoint, size_uint8, size_uint16, size_uint32,
    Nat.reduceAdd, Nat.reduceLeDiff, or_false, htype]

theorem get_patch (b : Buf) (parentId : PageId) :
    get (b.put 21 parentId) = { get b with parentPageId := parentId } := by
  unfold get
  simp only [Buf.get_put_self, Buf.get_put_of_disjoint, size_uint8, size_uint16, size_uint32,
    Nat.reduceAdd, Nat.reduceLeDiff, or_true, or_false]

end BTreeNodeHeader

/-! ## 2. Nodes that fit

A leaf has 406 entries at most, and an internal node 507 keys.  A full leaf with one more entry
never reaches a page: it is split first. -/

/-- The leaf is one, its length is the one in its header, and there is room for it. -/
structure LeafNode.Fits (n : LeafNode) : Prop where
  type : n.header.nodeType = .leafNode
  length : n.entries.length = n.header.numKeys.toNat
  le : n.entries.length ≤ 406

/-- The same for an internal node, which has a key and one child more than keys. -/
structure InternalNode.Fits (n : InternalNode) : Prop where
  type : n.header.nodeType = .internalNode
  length : n.keys.length = n.header.numKeys.toNat
  children : n.children.length = n.keys.length + 1
  pos : 0 < n.keys.length
  le : n.keys.length ≤ 507

def BTreeNode.Fits : BTreeNode → Prop
  | leaf n => n.Fits
  | internal n => n.Fits

/-- What of an internal node is written: its vectors up to its number of keys. -/
def InternalNode.stored (n : InternalNode) : InternalNode where
  header := n.header
  keys := n.keys.take n.header.numKeys.toNat
  children := n.children.take (n.header.numKeys.toNat + 1)

theorem InternalNode.Fits.stored_eq {n : InternalNode} (h : n.Fits) : n.stored = n := by
  unfold InternalNode.stored
  rw [← h.length, List.take_length, ← h.children, List.take_length]

theorem LeafNode.ofPage_congr {p q : Page} (h : ∀ i, 20 ≤ i → i < pageSize → p.data i = q.data i)
    (hq : (ofPage q).Fits) : ofPage p = ofPage q := by
  have hheader : BTreeNodeHeader.get p.data = .get q.data :=
    BTreeNodeHeader.get_congr fun i h1 h2 => h i h1 (lt_trans h2 (by decide))
  have hle := hq.length ▸ hq.le
  unfold ofPage at *
  rw [hheader]
  congr 1
  refine Buf.getAll_congr fun i h1 h2 => h i (by omega) (lt_of_lt_of_le h2 ?_)
  simp only [size_prod, size_uint32, size_rid, pageSize] at *
  omega

theorem InternalNode.ofPage_congr {p q : Page}
    (h : ∀ i, 20 ≤ i → i < pageSize → p.data i = q.data i) (hq : (ofPage q).Fits) :
    ofPage p = ofPage q := by
  have hheader : BTreeNodeHeader.get p.data = .get q.data :=
    BTreeNodeHeader.get_congr fun i h1 h2 => h i h1 (lt_trans h2 (by decide))
  have hle := hq.length ▸ hq.le
  unfold ofPage at *
  simp only [hheader, pageSize] at *
  have hpairs : p.data.getAll (PageId × KeyType) 31 (BTreeNodeHeader.get q.data).numKeys.toNat
      = q.data.getAll (PageId × KeyType) 31 (BTreeNodeHeader.get q.data).numKeys.toNat := by
    refine Buf.getAll_congr fun i h1 h2 => h i (by omega) (lt_of_lt_of_le h2 ?_)
    simp only [size_prod, size_uint32]
    omega
  have hlast : p.data.get PageId (31 + 8 * (BTreeNodeHeader.get q.data).numKeys.toNat)
      = q.data.get PageId (31 + 8 * (BTreeNodeHeader.get q.data).numKeys.toNat) := by
    refine Buf.get_congr fun i h1 h2 => h i (by omega) (lt_of_lt_of_le h2 ?_)
    simp only [size_uint32]
    omega
  rw [hpairs, hlast]

/-! ## 3. Writing and reading back

The writes go from the front to the back, and each field is read where it was written; the library
of byte buffers has the lemma for one field. -/

namespace LeafNode

theorem header_serializeToPage (n : LeafNode) (p : Page)
    (htype : n.header.nodeType = .leafNode) :
    BTreeNodeHeader.get (n.serializeToPage p).data = n.header := by
  have hout : BTreeNodeHeader.get (n.serializeToPage p).data = .get (n.header.put p.data) :=
    BTreeNodeHeader.get_congr fun i _ h2 => Buf.putAll_apply_of_not_mem (.inl h2)
  rw [hout, BTreeNodeHeader.get_put _ (by rw [htype]; rfl)]

theorem ofPage_serializeToPage {n : LeafNode} (h : n.Fits) (p : Page) :
    BTreeNode.ofPage (n.serializeToPage p) = .leaf n := by
  have hheader := n.header_serializeToPage p h.type
  have htype : (n.serializeToPage p).getNodeType = .leafNode :=
    (congrArg BTreeNodeHeader.nodeType hheader).trans h.type
  have hentries : n.entries.take n.header.numKeys.toNat = n.entries := by
    rw [← h.length, List.take_length]
  rw [BTreeNode.ofPage, if_pos htype, ofPage, hheader]
  congr 2
  rw [serializeToPage, hentries]
  exact Buf.getAll_putAll h.length

end LeafNode

namespace InternalNode

variable {n : InternalNode}

theorem getChildAt_eq {i : Nat} (h : i < n.children.length) : n.getChildAt i = n.children[i] :=
  List.getD_eq_getElem _ _ h

/-- The bytes of the header area and of the pairs survive the last child. -/
theorem data_serializeToPage (n : InternalNode) (p : Page) {i : Nat}
    (hi : i < 31 + 8 * n.header.numKeys.toNat) :
    (n.serializeToPage p).data i = ((n.header.put p.data).putAll 31
      ((n.children.zip n.keys).take n.header.numKeys.toNat)) i := by
  simp only [serializeToPage]
  split
  · exact Buf.put_apply_of_not_mem (.inl hi)
  · rfl

theorem header_serializeToPage (n : InternalNode) (p : Page)
    (htype : n.header.nodeType = .internalNode) :
    BTreeNodeHeader.get (n.serializeToPage p).data = n.header := by
  have hout : BTreeNodeHeader.get (n.serializeToPage p).data = .get (n.header.put p.data) :=
    BTreeNodeHeader.get_congr fun i _ h2 => by
      rw [n.data_serializeToPage p (by omega)]
      exact Buf.putAll_apply_of_not_mem (.inl h2)
  rw [hout, BTreeNodeHeader.get_put _ (by rw [htype]; rfl)]

theorem ofPage_serializeToPage (htype : n.header.nodeType = .internalNode)
    (hpos : 0 < n.header.numKeys.toNat) (hkeys : n.header.numKeys.toNat ≤ n.keys.length)
    (hchildren : n.header.numKeys.toNat < n.children.length) (p : Page) :
    BTreeNode.ofPage (n.serializeToPage p) = .internal n.stored := by
  have hheader := n.header_serializeToPage p htype
  have hnode : (n.serializeToPage p).getNodeType ≠ .leafNode := by
    have h := (congrArg BTreeNodeHeader.nodeType hheader).trans htype
    change (n.serializeToPage p).getNodeType = _ at h
    rw [h]
    decide
  have hlen : ((n.children.zip n.keys).take n.header.numKeys.toNat).length
      = n.header.numKeys.toNat := by
    simp only [List.length_take, List.length_zip]
    omega
  have hpairs : (n.serializeToPage p).data.getAll (PageId × KeyType) 31 n.header.numKeys.toNat
      = (n.children.zip n.keys).take n.header.numKeys.toNat := by
    have hback : ((n.header.put p.data).putAll 31
        ((n.children.zip n.keys).take n.header.numKeys.toNat)).getAll (PageId × KeyType) 31
          n.header.numKeys.toNat = (n.children.zip n.keys).take n.header.numKeys.toNat :=
      Buf.getAll_putAll hlen
    rw [← hback]
    refine Buf.getAll_congr fun i _ h2 => ?_
    rw [n.data_serializeToPage p (by simpa using h2)]
  have hlast : (n.serializeToPage p).data.get PageId (31 + 8 * n.header.numKeys.toNat)
      = n.children[n.header.numKeys.toNat] := by
    simp only [serializeToPage, if_pos hpos, Buf.get_put_self]
    exact getChildAt_eq hchildren
  rw [BTreeNode.ofPage, if_neg hnode]
  congr 1
  unfold ofPage stored
  simp only [hheader, hpairs, hlast, if_pos hpos]
  congr 1
  · rw [List.zip_eq_zipWith, List.take_zipWith, ← List.zip_eq_zipWith,
      List.map_fst_zip (by simp only [List.length_take]; omega),
      List.take_append_getElem]
  · rw [List.zip_eq_zipWith, List.take_zipWith, ← List.zip_eq_zipWith,
      List.map_snd_zip (by simp only [List.length_take]; omega)]

end InternalNode

/-- **Patching the parent pointer** of a page patches it in the node. -/
theorem BTreeNode.ofPage_setParentPageId (p : Page) (parentId : PageId) :
    ofPage (p.setParentPageId parentId) = (ofPage p).setParent parentId := by
  have hheader := BTreeNodeHeader.get_patch p.data parentId
  have htype : (p.setParentPageId parentId).getNodeType = p.getNodeType :=
    congrArg BTreeNodeHeader.nodeType hheader
  have hdata : ∀ i, 31 ≤ i → p.data.put 21 parentId i = p.data i := fun i hi =>
    Buf.put_apply_of_not_mem (.inr (le_trans (by decide) hi))
  unfold ofPage
  rw [htype]
  split
  · refine congrArg BTreeNode.leaf ?_
    unfold LeafNode.ofPage Page.setParentPageId
    rw [hheader]
    congr 1
    exact Buf.getAll_congr fun i h1 _ => hdata i h1
  · refine congrArg BTreeNode.internal ?_
    unfold InternalNode.ofPage Page.setParentPageId
    simp only [hheader]
    rw [Buf.getAll_congr fun i h1 _ => hdata i h1,
      Buf.get_congr fun i h1 _ => hdata i (le_trans (Nat.le_add_right _ _) h1)]

theorem Page.getParentPageId_eq (p : Page) :
    p.getParentPageId = (BTreeNode.ofPage p).header.parentPageId := by
  unfold BTreeNode.ofPage
  split <;> rfl

/-! ## 4. Pages that store a node

What the modules above need of a page: it stores the node, and does so after any change that leaves
the bytes from 20 on alone. -/

/-- The page has no slots. -/
def Page.Bare (p : Page) : Prop := p.header.numSlots = 0 ∧ p.slots = []

theorem Page.Bare.directoryFits {p : Page} (h : p.Bare) : p.DirectoryFits := by
  unfold DirectoryFits
  rw [h.1, h.2]
  decide

theorem Page.Bare.congr {p q : Page} (h : q.Bare) (hp : p.SameContent q) : p.Bare :=
  ⟨(congrArg PageHeader.numSlots hp.header).trans h.1, hp.slots.trans h.2⟩

/-- The page has no slots and holds the node. -/
structure Page.Stores (p : Page) (n : BTreeNode) : Prop where
  bare : p.Bare
  node : BTreeNode.ofPage p = n
  fits : n.Fits

theorem Page.Stores.ofPage_leaf {p : Page} {k : LeafNode} (h : p.Stores (.leaf k)) :
    LeafNode.ofPage p = k := by
  have hnode := h.node
  unfold BTreeNode.ofPage at hnode
  split at hnode
  · exact BTreeNode.leaf.inj hnode
  · exact absurd hnode (by simp)

theorem Page.Stores.nodeType_leaf {p : Page} {k : LeafNode} (h : p.Stores (.leaf k)) :
    p.getNodeType = .leafNode := by
  have hnode := h.node
  unfold BTreeNode.ofPage at hnode
  split at hnode
  · assumption
  · exact absurd hnode (by simp)

theorem Page.Stores.ofPage_internal {p : Page} {k : InternalNode} (h : p.Stores (.internal k)) :
    p.getNodeType ≠ .leafNode ∧ InternalNode.ofPage p = k := by
  have hnode := h.node
  unfold BTreeNode.ofPage at hnode
  split at hnode
  · exact absurd hnode (by simp)
  · rename_i hne
    exact ⟨hne, BTreeNode.internal.inj hnode⟩

/-- The page still stores the node after it was evicted and fetched. -/
theorem Page.Stores.congr {p q : Page} {n : BTreeNode} (h : q.Stores n) (hp : p.SameContent q) :
    p.Stores n := by
  have hbare := h.bare.congr hp
  have hdata : ∀ i, 20 ≤ i → i < pageSize → p.data i = q.data i := fun i h1 h2 =>
    hp.data i h2 (.inr (by rw [hbare.1]; simpa using h1))
  have htype : p.getNodeType = q.getNodeType :=
    congrArg BTreeNodeType.ofCode (Buf.get_congr fun i h1 h2 =>
      hdata i h1 (lt_trans h2 (by decide)))
  obtain ⟨hb, hnode, hfits⟩ := h
  refine ⟨hbare, ?_, hfits⟩
  rw [← hnode] at hfits ⊢
  unfold BTreeNode.ofPage at *
  rw [htype]
  split at hfits
  · rw [if_pos ‹_›, if_pos ‹_›, LeafNode.ofPage_congr hdata hfits]
  · rw [if_neg ‹_›, if_neg ‹_›, InternalNode.ofPage_congr hdata hfits]

theorem Page.Stores.leaf {p : Page} {n : LeafNode} (hp : p.Bare) (h : n.Fits) :
    (n.serializeToPage p).Stores (.leaf n) :=
  ⟨hp, LeafNode.ofPage_serializeToPage h p, h⟩

theorem Page.Stores.internal {p : Page} {n : InternalNode} (hp : p.Bare)
    (htype : n.header.nodeType = .internalNode) (hpos : 0 < n.header.numKeys.toNat)
    (hle : n.header.numKeys.toNat ≤ 507) (hkeys : n.header.numKeys.toNat ≤ n.keys.length)
    (hchildren : n.header.numKeys.toNat < n.children.length) :
    (n.serializeToPage p).Stores (.internal n.stored) := by
  refine ⟨hp, InternalNode.ofPage_serializeToPage htype hpos hkeys hchildren p, ?_⟩
  have hlen : n.stored.keys.length = n.header.numKeys.toNat := List.length_take_of_le hkeys
  refine ⟨htype, hlen, ?_, hlen ▸ hpos, hlen ▸ hle⟩
  rw [hlen]
  exact List.length_take_of_le hchildren

theorem BTreeNode.Fits.setParent {n : BTreeNode} (h : n.Fits) (parentId : PageId) :
    (n.setParent parentId).Fits := by
  cases n with
  | leaf n => exact ⟨h.type, h.length, h.le⟩
  | internal n => exact ⟨h.type, h.length, h.children, h.pos, h.le⟩

theorem Page.Stores.setParentPageId {p : Page} {n : BTreeNode} (h : p.Stores n)
    (parentId : PageId) : (p.setParentPageId parentId).Stores (n.setParent parentId) :=
  ⟨h.bare, by rw [BTreeNode.ofPage_setParentPageId, h.node], h.fits.setParent parentId⟩

/-! ## 5. The page layer

The whole way of a page: its frame writes the header into the image, the disk keeps the image, and
another frame reads it. -/

/-- `SerializeToPage`, of either class. -/
def BTreeNode.serializeToPage : BTreeNode → Page → Page
  | leaf n => n.serializeToPage
  | internal n => n.serializeToPage

/-- The page as a frame holds it after `SerializeToBuffer`, `WritePage`, `ReadPage` and
`DeserializeFromBuffer`. -/
def Page.reread (p : Page) (d : DiskManager) (id : PageId) (frame : Page) : Option Page :=
  ((d.writePage id p.serializeToBuffer.data).2.readPage id).map frame.loadFrom

/-- **Through the disk** a page keeps its content, whatever the frame held before. -/
theorem Page.exists_reread {p : Page} (hp : p.DirectoryFits) {d : DiskManager} {id : PageId}
    (hid : id < d.header.pageCount) (frame : Page) :
    ∃ q, p.reread d id frame = some q ∧ q.SameContent p := by
  have himage := d.writePage_file_self id p.serializeToBuffer.data hid
  have hread := DiskManager.readPage_of_lt (d.writePage id p.serializeToBuffer.data).2
    ((d.writePage_header id _).symm ▸ hid)
  refine ⟨frame.loadFrom p.serializeToBuffer.data, ?_, sameContent_loadFrom_serialize frame hp⟩
  rw [reread, hread, himage]
  exact congrArg some (loadFrom_congr frame fun i hi => Buf.fill_apply_of_lt hi)

namespace BTreeNode

variable {n : BTreeNode} {p : Page}

theorem header_serializeToPage (n : BTreeNode) (p : Page) :
    (n.serializeToPage p).header = p.header := by
  cases n <;> rfl

theorem stores_serializeToPage (hp : p.Bare) (h : n.Fits) : (n.serializeToPage p).Stores n := by
  cases n with
  | leaf n => exact .leaf hp h
  | internal n =>
    have hkeys : n.header.numKeys.toNat = n.keys.length := h.length.symm
    have hstores := Page.Stores.internal hp h.type (hkeys ▸ h.pos) (hkeys ▸ h.le)
      (Nat.le_of_eq hkeys) (by rw [h.children, hkeys]; exact Nat.lt_succ_self _)
    rwa [h.stored_eq] at hstores

/-- **The bytes that are written** begin behind the page header and end before the page does. -/
theorem data_serializeToPage (h : n.Fits) (p : Page) {i : Nat} (hi : i < 20 ∨ pageSize ≤ i) :
    (n.serializeToPage p).data i = p.data i := by
  have hput : ∀ header, BTreeNodeHeader.put p.data header i = p.data i := by
    intro header
    unfold BTreeNodeHeader.put
    simp only [pageSize] at hi
    iterate 4 rw [Buf.put_apply_of_not_mem (by simp; omega)]
  cases n with
  | leaf n =>
    have hle : n.entries.length ≤ 406 := h.le
    change ((n.header.put p.data).putAll 31 (n.entries.take n.header.numKeys.toNat)) i = _
    rw [Buf.putAll_apply_of_not_mem, hput]
    simp only [List.length_take, size_prod, size_uint32, size_rid, pageSize] at hi ⊢
    omega
  | internal n =>
    have hle : n.keys.length ≤ 507 := h.le
    have hpos : 0 < n.keys.length := h.pos
    have hkeys : n.header.numKeys.toNat = n.keys.length := h.length.symm
    simp only [pageSize] at hi
    change (n.serializeToPage p).data i = _
    simp only [InternalNode.serializeToPage, hkeys, if_pos hpos]
    rw [Buf.put_apply_of_not_mem (by simp only [size_uint32]; omega),
      Buf.putAll_apply_of_not_mem, hput]
    simp only [List.length_take, List.length_zip, size_prod, size_uint32]
    omega

/-- **A node survives the page layer.**  The encoder of nodes writes the bytes from 20 on only,
where the directory of a page without slots is empty; so the encoder of pages and the disk give back
the node and the header of the page. -/
theorem survives_disk (hp : p.Bare) {d : DiskManager} {id : PageId}
    (hid : id < d.header.pageCount) (frame : Page) (h : n.Fits) :
    (∀ i, i < 20 ∨ pageSize ≤ i → (n.serializeToPage p).data i = p.data i) ∧
      ∃ q, (n.serializeToPage p).reread d id frame = some q ∧ ofPage q = n ∧
        q.header = p.header ∧ q.Bare := by
  have hstores := stores_serializeToPage hp h
  obtain ⟨q, hreread, hsame⟩ :=
    Page.exists_reread hstores.bare.directoryFits hid frame
  have hq := hstores.congr hsame
  exact ⟨fun _ => data_serializeToPage h p,
    q, hreread, hq.node, hsame.header.trans (header_serializeToPage n p), hq.bare⟩

/-- A full leaf is such a node, on the page that a new file has. -/
theorem survives_disk_full :
    let n : BTreeNode := .leaf ⟨⟨.leafNode, 3, 406, 9⟩, List.replicate 406 (5, ⟨2, 1⟩)⟩
    let d := DiskManager.initializeNewFile
    (∀ i, i < 20 ∨ pageSize ≤ i → (n.serializeToPage (Page.ofId 0)).data i = (Page.ofId 0).data i) ∧
      ∃ q, (n.serializeToPage (Page.ofId 0)).reread d 0 (Page.ofId 7) = some q ∧ ofPage q = n ∧
        q.header = (Page.ofId 0).header ∧ q.Bare :=
  survives_disk ⟨rfl, rfl⟩ (by decide) _ ⟨rfl, List.length_replicate, by rw [List.length_replicate]⟩

end BTreeNode

end CourtDB
