/-
# InsertIntoParent in the buffer pool

`Links` says what `InsertIntoParent` may do to the nodes of a tree, with no page and no frame in
sight.  Here the program itself is run on a view of the pool, and what it does there is what `Links`
says (`wpr_insertIntoParent`), under every pattern of refusals.

The program is recursive: a full parent is split, and the sibling that comes of it is handed to the
node above.  What each call may rely on is `Ready`:

* the two nodes below are halves of one node, and the parent does not point to the right one yet
  (`Pending`); apart from that the nodes form a tree (`Shape`, `Parents`);
* the left page is pinned, because the caller reads the parent pointer from it and gives it back
  only afterwards;
* no page is pinned twice, a page that was changed is still pinned, and nothing above the left node
  is pinned, so the fetch of the parent finds it as it is on the view.

After a split the parent and its new sibling are `Ready` again, one level higher (`Ready.split`). 
This is the step of the induction, and the level of the left node below that of the root is what
bounds it: no run of the recursion is longer than the way to the root.

Refusals are answered as the source answers them: it returns without a word.  A new root, a parent
and a sibling of the parent may be refused (`rootRefused`, `parentRefused`, `newParentRefused`), and
then nothing more is written; a child that cannot be fetched keeps its old parent pointer.  The
proofs follow the branches of the source: a node without a parent (§3), a parent with room, and a
parent that is full (§4), which has a lemma for the writing of the halves (`wpr_splitParent`) and
one for what comes after (`wpr_splitUp`).
-/
import CourtDB.Index.TreePages

namespace CourtDB

/-- The view at a call of `InsertIntoParent` for the nodes `left` and `right`: what the nodes are
(`shape`, `parents`, `pending`, `holds`), and what is pinned.  `above` says that the way to the root
is not in use, so that a node above can be fetched, changed and given back like any other page. -/
structure Ready (v : View) (nodes : NodeMap) (level : PageId → Nat) (root left right : PageId) :
    Prop where
  shape : Shape nodes level root
  parents : Parents nodes level root (level left) (some right)
  pending : Pending nodes level root left right
  holds : Holds v.pages nodes
  pinned : 0 < v.pins left
  pins_le : ∀ id, v.pins id ≤ 1
  changed : ∀ id, v.changed id = true → v.pins id = 1
  above : ∀ id, (nodes id).isSome → level left < level id → v.pins id = 0

/-! ## 1. Views

How a view changes while nodes are fetched, written and given back.  `Moves` is the frame condition
of the whole operation: pins are as before, and pages that held no node of the tree are
untouched. -/

section

variable {v v₁ v' : View} {nodes nodes' : NodeMap} {m : PageId → Option Page} {id parent : PageId}
  {p : Page}

/-- A page that did not exist holds no node. -/
theorem Holds.add (h : Holds m nodes) (hm : m id = none) (p : Page) :
    Holds (Function.update m id (some p)) nodes := by
  intro x n hx
  obtain ⟨q, hq, hstores⟩ := h x n hx
  have hne : x ≠ id := by
    rintro rfl
    rw [hm] at hq
    exact absurd hq (by simp)
  exact ⟨q, by rw [Function.update_of_ne hne, hq], hstores⟩

theorem Holds.none (h : Holds m nodes) (hm : m id = none) : nodes id = none := by
  cases hn : nodes id with
  | none => rfl
  | some n =>
    obtain ⟨q, hq, -⟩ := h id n hn
    rw [hm] at hq
    exact absurd hq (by simp)

/-- Giving back a page that was fetched or made in between. -/
theorem Moves.unpin (hframes : v₁.frames = v.frames)
    (hpins : v₁.pins = Function.update v.pins id (v.pins id + 1))
    (hchanged : ∀ x, v₁.changed x = true → x = id ∨ v.changed x = true)
    (hpages : PagesMove v.pages nodes v₁.pages nodes') :
    Moves v nodes (v₁.unpin id true) nodes' := by
  refine ⟨hframes, ?_, fun x hx => ?_, hpages⟩
  · simp [View.unpin, hpins]
  · by_cases hxid : x = id
    · rw [hxid] at hx
      simp [View.unpin] at hx
    · refine (hchanged x ?_).resolve_left hxid
      simpa [View.unpin, Function.update_of_ne hxid] using hx

/-- Giving back two such pages. -/
theorem Moves.unpin_two (hne : id ≠ parent) (hframes : v₁.frames = v.frames)
    (hpins : v₁.pins = Function.update (Function.update v.pins parent (v.pins parent + 1)) id
      (v.pins id + 1))
    (hchanged : ∀ x, v₁.changed x = true → x = parent ∨ x = id ∨ v.changed x = true)
    (hpages : PagesMove v.pages nodes v₁.pages nodes') :
    Moves v nodes ((v₁.unpin parent true).unpin id true) nodes' := by
  refine ⟨hframes, ?_, fun x hx => ?_, hpages⟩
  · simp only [View.unpin, hpins]
    funext x
    by_cases hxid : x = id
    · simp [hxid, hne]
    · by_cases hxp : x = parent
      · simp [hxp, hne.symm]
      · simp [hxid, hxp]
  · by_cases hxid : x = id
    · rw [hxid] at hx
      simp [View.unpin] at hx
    · by_cases hxp : x = parent
      · rw [hxp] at hx
        simp [View.unpin, Function.update_of_ne hne.symm] at hx
      · refine ((hchanged x ?_).resolve_left hxp).resolve_left hxid
        simpa [View.unpin, Function.update_of_ne hxid, Function.update_of_ne hxp] using hx

end

/-- **After a split** the parent and its new sibling are in the situation of the two nodes below. -/
theorem Ready.split {v v' : View} {nodes nodes₁ : NodeMap} {level : PageId → Nat}
    {root left right parent id nextPageId : PageId} {m : InternalNode} {key : KeyType}
    (h : Ready v nodes level root left right)
    (hstep : SplitStep nodes level root left right parent (level left) m nodes₁ id key)
    (hfull : m.keys.length = 507) (h0 : id ≠ 0) (hne : id ≠ invalidPageId) (hpin : v.pins id = 0)
    (hholds : Holds v'.pages (splitNodes nodes₁ parent id right nextPageId key m))
    (hpins : v'.pins = Function.update (Function.update v.pins parent (v.pins parent + 1)) id
      (v.pins id + 1))
    (hchanged : ∀ x, v'.changed x = true → x = parent ∨ x = id ∨ v.changed x = true) :
    Ready v' (splitNodes nodes₁ parent id right nextPageId key m)
      (Function.update level id (level parent)) root parent id := by
  have hidp := hstep.id_ne
  have hlevel := hstep.level_parent
  -- a node above the halves is not pinned
  have hpin0 : v.pins parent = 0 := h.above parent (by rw [hstep.node]; rfl) (by omega)
  have hlevp : Function.update level id (level parent) parent = level parent :=
    Function.update_of_ne hidp.symm _ _
  have hparent : v'.pins parent = 1 := by
    rw [hpins, Function.update_of_ne hidp.symm, Function.update_self, hpin0]
  have hid : v'.pins id = 1 := by rw [hpins, Function.update_self, hpin]
  have hother : ∀ x, x ≠ id → x ≠ parent → v'.pins x = v.pins x := by
    intro x hxid hxp
    rw [hpins, Function.update_of_ne hxid, Function.update_of_ne hxp]
  refine ⟨hstep.shape_split hfull h0 hne, ?_, hstep.pending_split, hholds, by omega, fun x => ?_,
    fun x hx => ?_, fun x hx hlx => ?_⟩
  · -- the pointers below the parent are not needed any more
    rw [hlevp]
    exact hstep.parents_split (by omega) (Or.inl (by omega))
  · -- the parent and its new sibling are pinned once, the others as before
    by_cases hxid : x = id
    · rw [hxid, hid]
    · by_cases hxp : x = parent
      · rw [hxp, hparent]
      · rw [hother x hxid hxp]
        exact h.pins_le x
  · -- what was written is what is pinned
    rcases hchanged x hx with rfl | rfl | hx'
    · exact hparent
    · exact hid
    · have hpx := h.changed x hx'
      have hxp : x ≠ parent := by
        rintro rfl
        omega
      have hxid : x ≠ id := by
        rintro rfl
        omega
      rw [hother x hxid hxp, hpx]
  · -- nodes above the parent are not touched
    rw [hlevp] at hlx
    have hxid : x ≠ id := by
      rintro rfl
      rw [Function.update_self] at hlx
      exact lt_irrefl _ hlx
    have hxp : x ≠ parent := by
      rintro rfl
      rw [hlevp] at hlx
      exact lt_irrefl _ hlx
    rw [Function.update_of_ne hxid] at hlx
    rw [hother x hxid hxp]
    exact h.above x (((hstep.isSome_split x).mp hx).resolve_left hxid) (by omega)

/-! ## 2. Nodes that can be stored

`SerializeToPage` writes the header's count, then that many keys and one child more.  A node is
stored faithfully if its lists have these lengths.  Both halves of a split do, although the left one
keeps the lists of the old node and only counts fewer. -/

section Storing

variable {n fresh : InternalNode} {keys : List KeyType} {children : List PageId}

/-- The node is internal, and has the keys and the children that its header says. -/
structure InternalNode.Storable (n : InternalNode) : Prop where
  type : n.header.nodeType = .internalNode
  pos : 0 < n.header.numKeys.toNat
  le : n.header.numKeys.toNat ≤ 507
  keys : n.header.numKeys.toNat ≤ n.keys.length
  children : n.header.numKeys.toNat < n.children.length

/-- A node that fits can be stored. -/
theorem InternalNode.Fits.storable (h : n.Fits) : n.Storable := by
  have hlen := h.length
  refine ⟨h.type, hlen ▸ h.pos, hlen ▸ h.le, hlen.ge, ?_⟩
  rw [h.children, hlen]
  exact Nat.lt_succ_self _

/-- The left half of a split can be stored. -/
theorem InternalNode.storable_splitLeft (htype : n.header.nodeType = .internalNode)
    (hk : keys.length = 508) (hc : children.length = 509) :
    (n.splitLeft keys children).Storable ∧
      (n.splitLeft keys children).stored = n.leftHalf keys children := by
  have hk' : (keys.take 254).length = 254 := by rw [List.length_take]; omega
  have hc' : (children.take 255).length = 255 := by rw [List.length_take]; omega
  rw [InternalNode.splitLeft_eq n hk hc]
  -- the header counts 254 keys, and the lists are at least that long
  refine ⟨⟨htype, Nat.succ_pos 253, Nat.le_add_right 254 253, ?_, ?_⟩, ?_⟩
  · rw [List.length_append, hk']
    exact Nat.le_add_right 254 _
  · rw [List.length_append, hc']
    exact Nat.lt_of_lt_of_le (by decide : 254 < 255) (Nat.le_add_right 255 _)
  · unfold InternalNode.stored
    simp only [UInt16.reduceToNat, Nat.reduceAdd, List.take_left' hk', List.take_left' hc']
    rfl

/-- The right half of a split can be stored. -/
theorem InternalNode.storable_splitRight (n fresh : InternalNode) (hk : keys.length = 508)
    (hc : children.length = 509) :
    (n.splitRight fresh keys children).Storable ∧
      (n.splitRight fresh keys children).stored
        = n.rightHalf keys children fresh.header.nextPageId := by
  have hk' : (keys.drop 255).length = 253 := by rw [List.length_drop]; omega
  have hc' : (children.drop 255).length = 254 := by rw [List.length_drop]; omega
  rw [InternalNode.splitRight_eq n fresh hk hc]
  -- the header counts 253 keys
  refine ⟨⟨rfl, Nat.succ_pos 252, Nat.le_add_right 253 254, ?_, ?_⟩, ?_⟩
  · rw [List.length_append, hk']
    exact Nat.le_add_right 253 _
  · rw [List.length_append, hc']
    exact Nat.lt_of_lt_of_le (by decide : 253 < 254) (Nat.le_add_right 254 _)
  · unfold InternalNode.stored
    simp only [UInt16.reduceToNat, Nat.reduceAdd, List.take_left' hk', List.take_left' hc']
    rfl

/-- The children whose parent pointers are patched. -/
theorem InternalNode.patched_splitRight (n fresh : InternalNode) (hk : keys.length = 508)
    (hc : children.length = 509) :
    (n.splitRight fresh keys children).children.take
        ((n.splitRight fresh keys children).header.numKeys.toNat + 1) = children.drop 255 := by
  rw [InternalNode.splitRight_eq n fresh hk hc]
  exact List.take_left' (by rw [List.length_drop, hc]; rfl)

end Storing

namespace PoolM

variable {mode : PoolMode} {level : PageId → Nat} {left right : PageId} {key : KeyType}
  {n p limit : Nat}

/-! ## 3. CreateNewRoot

The source asks for the page of the new root, and then for the two halves, to write their parent
pointers.  If there is no page, the tree stays as it is: both halves keep the invalid parent
pointer, and the root page id does not change. -/

/-- What the header counts of the node that is built for the root. -/
theorem stored_newRoot (fresh : InternalNode) (left right : PageId) (key : KeyType) :
    ((({ fresh with header := ⟨.internalNode, invalidPageId, 1, invalidPageId⟩ }
        : InternalNode).setKeyAt 0 key).setChildAt 0 left).setChildAt 1 right
      = { header := ⟨.internalNode, invalidPageId, 1, invalidPageId⟩
          keys := key :: fresh.keys.drop 1
          children := left :: right :: fresh.children.drop 2 } := by
  have hkeys := InternalNode.setKeys_eq
    { fresh with header := ⟨.internalNode, invalidPageId, 1, invalidPageId⟩ } [key]
  have hchildren := InternalNode.setChildren_eq (({ fresh with
    header := ⟨.internalNode, invalidPageId, 1, invalidPageId⟩ } : InternalNode).setKeys [key])
    [left, right]
  -- the lists of the fresh node are overwritten in front, and the header counts these entries only
  refine hchildren.trans ?_
  rw [hkeys]
  rfl

/-- **CreateNewRoot** does what `Links` says of a node without a parent. -/
theorem wpr_createNewRoot {s : LinkState} {v : View}
    {Q : BPlusTree → Refusals × View → Prop} (h : Ready v s.nodes level s.root left right)
    (hroot : s.nodes.par left = some invalidPageId) (hmode : mode.Allows n limit)
    (hv : v.frames = n) (hw : v.Within p) (hp : p + 1 ≤ limit)
    (hQ : ∀ s' linked v', Links s left key right s' linked → Moves v s.nodes v' s'.nodes →
      v'.Within (p + 1) → Q ⟨s'.root, defaultKeyComparator⟩ (s'.refusals, v')) :
    wpr mode (BPlusTree.createNewRoot ⟨s.root, defaultKeyComparator⟩ left key right) Q
      (s.refusals, v) := by
  unfold BPlusTree.createNewRoot
  rw [wpr, Program.wp_bind]
  have hmode' := hmode.mono (Nat.le_of_succ_le hp)
  refine wpr_newPage hmode' hv hw (fun hr => ?_) fun hr id h0 hne hfresh hpin => ?_
  · -- no page: nothing is changed
    exact hQ s.next false v (.rootRefused hroot hr) (.refl h.holds) (hw.mono (Nat.le_succ p))
  · have hnone := h.holds.none hfresh
    have hself : (v.add id).pages id = some (Page.ofId id) := Function.update_self _ _ _
    have hpos : 0 < (v.add id).pins id := by simp [View.add]
    simp only []
    unfold InternalNode.load
    rw [Program.wp_bind, Program.wp_bind]
    refine wpr_readPage hpos hself fun q hq => ?_
    rw [Program.wp_pure, stored_newRoot, Program.wp_bind]
    refine InternalNode.wpr_store hpos hself (bare_ofId id) rfl Nat.one_pos
      (Nat.le_add_left 1 506) (Nat.le_add_left _ _) (Nat.le_add_left _ _) fun p₁ hp₁ => ?_
    -- the root has been stored, its children still point elsewhere
    let t := s.next.setNode id (.internal (.newRoot left key right))
    have hadd : PagesMove v.pages s.nodes ((v.add id).write id p₁).pages t.nodes :=
      PagesMove.add (.refl (h.holds.add hfresh (Page.ofId id))) hfresh hp₁
    -- nothing is pinned twice
    have hpins : ∀ x, ((v.add id).write id p₁).pins x ≤ 1 := by
      intro x
      by_cases hx : x = id
      · simp [View.add, View.write, hx]
      · simpa [View.add, View.write, hx] using h.pins_le x
    have hwadd := hw.add.write (by rw [hself]; rfl) p₁
    -- both halves are nodes
    have hhalf : ∀ c ∈ [left, right], c ≠ 0 ∧ (t.nodes c).isSome := by
      intro c hc
      have hs : (s.nodes c).isSome := by
        rcases List.mem_cons.mp hc with rfl | hc
        · exact h.pending.left_mem
        · obtain rfl := List.mem_singleton.mp hc
          have hpar := h.pending.par_eq.trans hroot
          cases hn : s.nodes c with
          | some m => rfl
          | none => rw [NodeMap.par, hn] at hpar; exact absurd hpar (by simp)
      exact ⟨(h.shape.ids c hs).1, hadd.grows c hs⟩
    -- the two children get their parent pointer, each on its own page
    rw [Program.wp_bind]
    refine wpr_updateParentPointer (s := t) (hmode.mono hp) hv hwadd (hhalf left (by simp)).1
      (hhalf left (by simp)).2 hadd.holds (hpins left) fun v₂ hm₂ hw₂ => ?_
    rw [Program.wp_bind]
    have hgrow := hm₂.pages.grows right (hhalf right (by simp)).2
    refine wpr_updateParentPointer (s := t.patch id left) (hmode.mono hp) (hm₂.frames.trans hv) hw₂
      (hhalf right (by simp)).1 hgrow hm₂.pages.holds (hm₂.pins ▸ hpins right) fun v₃ hm₃ hw₃ => ?_
    have hall := hm₂.trans hm₃
    -- of the three pages only the new root is still pinned
    have hpins₃ : v₃.pins = Function.update v.pins id (v.pins id + 1) := by
      rw [hall.pins, hpin]
      rfl
    rw [Program.wp_bind]
    refine wpr_unpinPage (by rw [hpins₃, Function.update_self]; omega) (fun _ _ => rfl) ?_
    rw [Program.wp_pure]
    refine hQ { ((t.patch id left).patch id right) with root := id } true _
      (.newRoot hroot hr h0 hne hnone) (Moves.unpin hall.frames hpins₃ (fun x hx => ?_)
        -- what is written and still pinned is as before the call
        (hadd.trans hall.pages)) (hw₃.unpin true)
    have hx' := hall.changed x hx
    by_cases hxid : x = id
    · exact Or.inl hxid
    · exact Or.inr (by simpa [View.add, View.write, Function.update_of_ne hxid] using hx')

/-! ## 4. InsertIntoParent

The parent is full with 507 keys; with the new one there are 508, and key 254 goes up.  The source
moves the children from 255 on to the new page, patches their parent pointers while the parent still
has them, and stores the halves only then. -/

theorem InternalNode.overflowKeys_with {m : InternalNode} (h : m.Fits) (key : KeyType) :
    m.overflowKeys (m.findChild key defaultKeyComparator) key = m.keysWith key :=
  InternalNode.overflowKeys_eq h _ key

theorem InternalNode.overflowChildren_with {m : InternalNode} (h : m.Fits) (key : KeyType)
    (right : PageId) : m.overflowChildren (m.findChild key defaultKeyComparator) right
      = m.childrenWith key right := InternalNode.overflowChildren_eq h _ right

section Halves

variable {m fresh : InternalNode} {id : PageId} {ps : Refusals} {v : View} {q : Page}
  {Q : Unit → Refusals × View → Prop}

/-- The lengths of the lists of a full node with one key more. -/
theorem lengths_with (h : m.Fits) (hfull : m.keys.length = 507) :
    (m.keysWith key).length = 508 ∧ (m.childrenWith key right).length = 509 := by
  constructor
  · rw [length_keysWith h, hfull]
  · rw [length_childrenWith h, h.children, hfull]

/-- The left half is stored. -/
theorem wpr_storeLeft (h : m.Fits) (hfull : m.keys.length = 507) (hpin : 0 < v.pins id)
    (hq : v.pages id = some q) (hbare : q.Bare)
    (hQ : ∀ p : Page, p.Stores (.internal
    (m.leftHalf (m.keysWith key) (m.childrenWith key right))) →
      Q () (ps, v.write id p)) :
    wpr mode ((m.splitLeft (m.keysWith key) (m.childrenWith key right)).store id) Q (ps, v) := by
  obtain ⟨hk, hc⟩ := lengths_with h hfull
  obtain ⟨hs, hstored⟩ := InternalNode.storable_splitLeft h.type hk hc
  refine InternalNode.wpr_store hpin hq hbare hs.type hs.pos hs.le hs.keys hs.children
    fun p hp => hQ p ?_
  rwa [hstored] at hp

/-- The right half is stored. -/
theorem wpr_storeRight (h : m.Fits) (hfull : m.keys.length = 507) (hpin : 0 < v.pins id)
    (hq : v.pages id = some q) (hbare : q.Bare)
    (hQ : ∀ p : Page, p.Stores (.internal
        (m.rightHalf (m.keysWith key) (m.childrenWith key right) fresh.header.nextPageId)) →
      Q () (ps, v.write id p)) :
    wpr mode ((m.splitRight fresh (m.keysWith key) (m.childrenWith key right)).store id) Q
      (ps, v) := by
  obtain ⟨hk, hc⟩ := lengths_with h hfull
  obtain ⟨hs, hstored⟩ := InternalNode.storable_splitRight m fresh hk hc
  refine InternalNode.wpr_store hpin hq hbare hs.type hs.pos hs.le hs.keys hs.children
    fun p hp => hQ p ?_
  rwa [hstored] at hp

end Halves

/-- **A full parent is split.**  The children of its right half get their new parent, the halves are
stored, and the parent and its new sibling are where the two nodes below were. -/
theorem wpr_splitParent {α : Type} {rest : PoolM α} {s : LinkState} {v : View}
    {level : PageId → Nat} {left right parent id : PageId} {key : KeyType} {node : InternalNode}
    {p : Nat} {Q : α → Refusals × View → Prop} (h : Ready v s.nodes level s.root left right)
    (hsplit : Splitting s.nodes level s.root left right parent (level left) node)
    (hfull : node.keys.length = 507) (h0 : id ≠ 0) (hne : id ≠ invalidPageId)
    (hfresh : v.pages id = none) (hpin : v.pins id = 0) (hmode : mode.Allows n limit)
    (hv : v.frames = n) (hw : v.Within p) (hp : p + 1 ≤ limit)
    (hQ : ∀ nextPageId v',
      Ready v' (s.splitParent parent id right nextPageId key node).nodes
        (Function.update level id (level parent)) s.root parent id →
      v'.frames = v.frames →
      v'.pins = Function.update (Function.update v.pins parent (v.pins parent + 1)) id
        (v.pins id + 1) →
      (∀ x, v'.changed x = true → x = parent ∨ x = id ∨ v.changed x = true) →
      PagesMove v.pages s.nodes v'.pages (s.splitParent parent id right nextPageId key node).nodes →
      v'.Within (p + 1) →
      wpr mode rest Q ((s.splitParent parent id right nextPageId key node).refusals, v')) :
    wpr mode (do
      let fresh ← InternalNode.load id
      let newParent := node.splitRight fresh (node.keysWith key) (node.childrenWith key right)
      (newParent.children.take (newParent.header.numKeys.toNat + 1)).forM
        (updateParentPointer id)
      (node.splitLeft (node.keysWith key) (node.childrenWith key right)).store parent
      newParent.store id
      rest) Q (s.next.next.refusals, (v.pin parent).add id) := by
  have hlevel := hsplit.level_parent
  have hfits := hsplit.fits
  have hps : (s.nodes parent).isSome := by rw [hsplit.node]; rfl
  obtain ⟨page, hpage, -⟩ := h.holds parent _ hsplit.node
  have hps' : (v.pages parent).isSome := by rw [hpage]; rfl
  have hpin0 : v.pins parent = 0 := h.above parent hps (by omega)
  have hnone := h.holds.none hfresh
  have hidp : id ≠ parent := by
    rintro rfl
    exact absurd (hfresh.symm.trans hpage) (by simp)
  -- both pages are pinned once
  let v₁ := (v.pin parent).add id
  have hself : v₁.pages id = some (Page.ofId id) := Function.update_self _ _ _
  have hpins₁ : v₁.pins = Function.update (Function.update v.pins parent
      (v.pins parent + 1)) id (v.pins id + 1) := by
    rw [hpin]
    rfl
  have hle₁ : ∀ x, v₁.pins x ≤ 1 := by
    intro x
    rw [hpins₁, Function.update_apply, Function.update_apply]
    split
    · omega
    · split
      · omega
      · exact h.pins_le x
  have hposid : 0 < v₁.pins id := by
    rw [hpins₁, Function.update_self]
    omega
  have hpospar : 0 < v₁.pins parent := by
    rw [hpins₁, Function.update_of_ne hidp.symm, Function.update_self]
    omega
  unfold InternalNode.load
  rw [wpr, Program.wp_bind, Program.wp_bind]
  refine wpr_readPage hposid hself fun q' hq' => ?_
  obtain ⟨hk, hc⟩ := @lengths_with right key node hfits hfull
  rw [Program.wp_pure]
  dsimp only
  rw [InternalNode.patched_splitRight node _ hk hc, Program.wp_bind]
  -- the children of the right half get their new parent pointer
  refine wpr_updateParentPointers (s := s.next.next) (hmode.mono hp) _ hv (hw.pin hps').add
    (fun c hc => ?_) (h.holds.add hfresh (Page.ofId id)) fun v₂ hm₂ hw₂ => ?_
  · have hs := (hsplit.of_mem (List.mem_of_mem_drop hc)).1
    exact ⟨(h.shape.ids c hs).1, hs, hle₁ c⟩
  let nodes₁ := (((node.childrenWith key right).drop 255).foldl (LinkState.patch id)
    s.next.next).nodes
  have hstep : SplitStep s.nodes level s.root left right parent (level left) node nodes₁ id key :=
    ⟨hsplit, s.next.next.reparented_patches id _, hnone⟩
  have hn₁ : nodes₁ parent = some (.internal node) := by
    rw [hstep.patched.of_not_mem fun hmem =>
      hsplit.not_mem_parent key (List.mem_of_mem_drop hmem), hsplit.node]
  have hid₁ : nodes₁ id = none := by
    have hs := hstep.patched.isSome id
    rw [hnone] at hs
    exact Option.isNone_iff_eq_none.mp (by rw [← Option.not_isSome, hs]; rfl)
  -- the halves are stored
  obtain ⟨q₂, hq₂, hst₂⟩ := hm₂.pages.holds parent _ hn₁
  rw [Program.wp_bind]
  refine wpr_storeLeft hfits hfull (hm₂.pins ▸ hpospar) hq₂ hst₂.bare fun p₁ hp₁ => ?_
  rw [Program.wp_bind]
  have hq₃ : (v₂.write parent p₁).pages id = some (Page.ofId id) := by
    simp only [View.write]
    rw [Function.update_of_ne hidp, hm₂.pages.frame id hid₁, hself]
  refine wpr_storeRight hfits hfull (hm₂.pins ▸ hposid) hq₃ (bare_ofId id) fun p₂ hp₂ => ?_
  have hs₁ : (nodes₁ parent).isSome := by rw [hn₁]; rfl
  have hpages := PagesMove.add
    (hm₂.pages.trans (PagesMove.write hm₂.pages.holds hs₁ hp₁)) hfresh hp₂
  let v₄ := (v₂.write parent p₁).write id p₂
  have hchanged₄ : ∀ x, v₄.changed x = true → x = parent ∨ x = id ∨ v.changed x = true := by
    intro x hx
    by_cases hxid : x = id
    · exact Or.inr (Or.inl hxid)
    · by_cases hxp : x = parent
      · exact Or.inl hxp
      · refine Or.inr (Or.inr (hm₂.changed x ?_))
        simpa [v₄, View.write, Function.update_of_ne hxid, Function.update_of_ne hxp] using hx
  have hpins₄ : v₄.pins = _ := hm₂.pins.trans hpins₁
  exact hQ _ v₄ (h.split hstep hfull h0 hne hpin hpages.holds hpins₄ hchanged₄) hm₂.frames hpins₄
    hchanged₄ hpages ((hw₂.write (by rw [hq₂]; rfl) p₁).write (by rw [hq₃]; rfl) p₂)

/-- `InsertIntoParent` with this fuel does what `Links` says. -/
def LinksUp (mode : PoolMode) (n limit fuel : Nat) : Prop :=
  ∀ {s : LinkState} {v : View} {level : PageId → Nat} {left right : PageId}
    {key : KeyType} {p : Nat}
    {Q : Option BPlusTree → Refusals × View → Prop},
    Ready v s.nodes level s.root left right → level s.root < level left + fuel →
    mode.Allows n limit → v.frames = n → v.Within p → p + fuel ≤ limit →
    (∀ s' linked v', Links s left key right s' linked → Moves v s.nodes v' s'.nodes →
      v'.Within (p + fuel) → Q (some ⟨s'.root, defaultKeyComparator⟩) (s'.refusals, v')) →
    wpr mode (BPlusTree.insertIntoParent fuel ⟨s.root, defaultKeyComparator⟩ left key right) Q
      (s.refusals, v)

/-- **The split branch**: the parent is split, its sibling goes to the node above, and both are
given back. -/
theorem wpr_splitUp {fuel : Nat} (ih : LinksUp mode n limit fuel) {s : LinkState} {v : View}
    {level : PageId → Nat} {left right parent id : PageId} {key : KeyType} {node : InternalNode}
    {p : Nat} {Q : Option BPlusTree → Refusals × View → Prop}
    (h : Ready v s.nodes level s.root left right)
    (hsplit : Splitting s.nodes level s.root left right parent (level left) node)
    (hfull : node.keys.length = 507) (hfuel : level s.root < level left + (fuel + 1))
    (hr : s.refused = false) (hr' : s.next.refused = false) (h0 : id ≠ 0) (hne : id ≠ invalidPageId)
    (hfresh : v.pages id = none) (hpin : v.pins id = 0) (hmode : mode.Allows n limit)
    (hv : v.frames = n) (hw : v.Within p) (hp : p + (fuel + 1) ≤ limit)
    (hQ : ∀ s' linked v', Links s left key right s' linked → Moves v s.nodes v' s'.nodes →
      v'.Within (p + (fuel + 1)) → Q (some ⟨s'.root, defaultKeyComparator⟩) (s'.refusals, v')) :
    wpr mode (do
      let fresh ← InternalNode.load id
      let newParent := node.splitRight fresh (node.keysWith key) (node.childrenWith key right)
      (newParent.children.take (newParent.header.numKeys.toNat + 1)).forM (updateParentPointer id)
      (node.splitLeft (node.keysWith key) (node.childrenWith key right)).store parent
      newParent.store id
      match ← BPlusTree.insertIntoParent fuel ⟨s.root, defaultKeyComparator⟩ parent
        ((node.keysWith key).getD ((node.keysWith key).length / 2) 0) id with
      | none => return none
      | some t =>
        let _ ← unpinPage parent true
        let _ ← unpinPage id true
        return some t) Q (s.next.next.refusals, (v.pin parent).add id) := by
  have hlevel := hsplit.level_parent
  have hnone := h.holds.none hfresh
  have hidp : id ≠ parent := by
    rintro rfl
    exact absurd (hnone.symm.trans hsplit.node) (by simp)
  -- first the split itself
  refine wpr_splitParent h hsplit hfull h0 hne hfresh hpin hmode hv hw (by omega)
    fun nextPageId v₄ hready hframes₄ hpins₄ hchanged₄ hpages hw₄ => ?_
  let t := s.splitParent parent id right nextPageId key node
  have hroot' : t.root = s.root := LinkState.root_patches _
  -- the new page is not the root, whose level is the height
  have hlevr : Function.update level id (level parent) s.root = level s.root := by
    refine Function.update_of_ne ?_ _ _
    rintro heq
    have hs := h.shape.root_mem
    rw [heq, hnone] at hs
    exact absurd hs (by simp)
  have hlevp : Function.update level id (level parent) parent = level parent :=
    Function.update_of_ne hidp.symm _ _
  -- then the call for the halves, with one unit of fuel less and one level higher
  have hrun : ∀ Q', (∀ s' linked v',
      Links t parent ((node.keysWith key).getD 254 0) id s' linked →
      Moves v₄ t.nodes v' s'.nodes → v'.Within (p + 1 + fuel) →
      Q' (some ⟨s'.root, defaultKeyComparator⟩) (s'.refusals, v')) →
      wpr mode (BPlusTree.insertIntoParent fuel ⟨s.root, defaultKeyComparator⟩ parent
        ((node.keysWith key).getD 254 0) id) Q' (t.refusals, v₄) := by
    intro Q' hQ'
    rw [← hroot']
    exact ih (hroot' ▸ hready) (by rw [hroot', hlevr, hlevp]; omega) hmode (hframes₄.trans hv) hw₄
      (by omega) hQ'
  -- the source takes the middle key of the 508
  have hkey : (node.keysWith key).getD ((node.keysWith key).length / 2) 0
      = (node.keysWith key).getD 254 0 := by rw [length_keysWith hsplit.fits, hfull]
  rw [hkey, wpr, Program.wp_bind]
  refine hrun _ fun s' linked v₅ hlinks hm₅ hw₅ => ?_
  have hpins₅ := hm₅.pins.trans hpins₄
  simp only []
  rw [Program.wp_bind]
  -- the parent is given back, then its sibling
  refine wpr_unpinPage ?_ (fun _ _ => rfl) ?_
  · rw [hpins₅, Function.update_of_ne hidp.symm, Function.update_self]
    omega
  rw [Program.wp_bind]
  refine wpr_unpinPage ?_ (fun _ _ => rfl) ?_
  · simp only [View.unpin]
    rw [Function.update_of_ne hidp, hpins₅, Function.update_self]
    omega
  rw [Program.wp_pure]
  -- both steps together are the split case of `Links`
  refine hQ s' linked _
    (.split hsplit.par hsplit.ne hr hsplit.node hfull hr' h0 hne hnone hlinks)
    (Moves.unpin_two hidp (hm₅.frames.trans hframes₄) hpins₅
      (fun x hx => hchanged₄ x (hm₅.changed x hx)) (hpages.trans hm₅.pages))
    (((hw₅.mono (by omega)).unpin true).unpin true)

/-- **InsertIntoParent** does what `Links` says. -/
theorem wpr_insertIntoParent (fuel : Nat) : ∀ {s : LinkState} {v : View} {level : PageId → Nat}
    {left right : PageId} {key : KeyType} {p : Nat} {Q : Option BPlusTree → Refusals × View → Prop},
    Ready v s.nodes level s.root left right → level s.root < level left + fuel →
    mode.Allows n limit → v.frames = n → v.Within p → p + fuel ≤ limit →
    (∀ s' linked v', Links s left key right s' linked → Moves v s.nodes v' s'.nodes →
      v'.Within (p + fuel) → Q (some ⟨s'.root, defaultKeyComparator⟩) (s'.refusals, v')) →
    wpr mode (BPlusTree.insertIntoParent fuel ⟨s.root, defaultKeyComparator⟩ left key right) Q
      (s.refusals, v) := by
  induction fuel with
  | zero =>
    -- without fuel left the node would be above the root
    intro s v level left right key p Q h hfuel
    have htop := h.shape.top left h.pending.left_mem
    exact absurd htop (by omega)
  | succ fuel ih =>
    intro s v level left right key p Q h hfuel hmode hv hw hp hQ
    -- the left page is pinned by the caller, and is read for its parent pointer
    obtain ⟨m, hm⟩ := Option.isSome_iff_exists.mp h.pending.left_mem
    rw [BPlusTree.insertIntoParent, wpr, Program.wp_bind]
    refine wpr_readNode h.pinned h.holds hm fun q hq => ?_
    have hpar : s.nodes.par left = some q.getParentPageId := by
      rw [NodeMap.par_of_some hm, Page.getParentPageId_eq, hq.node]
    generalize q.getParentPageId = parent at hpar
    by_cases hroot : parent = invalidPageId
    · -- there is no parent: a new root is made
      rw [if_pos hroot, Program.wp_bind]
      rw [hroot] at hpar
      refine wpr_createNewRoot h hpar hmode hv hw (by omega) fun s' linked v' hl hm' hw' => ?_
      exact hQ s' linked v' hl hm' (hw'.mono (by omega))
    · rw [if_neg hroot, Program.wp_bind]
      -- the parent lists the left node, so it is an inner one, a level higher
      have hkid := h.parents.left_mem_kids h.pending (Nat.le_refl _) hpar hroot
      obtain ⟨node, hnode, -⟩ := NodeMap.internal_of_mem_kids hkid
      have hsplit : Splitting s.nodes level s.root left right parent (level left) node :=
        ⟨h.shape, h.parents, h.pending, Nat.le_refl _, hpar, hroot, hnode⟩
      have hlevel := hsplit.level_parent
      have hps : (s.nodes parent).isSome := by rw [hnode]; rfl
      obtain ⟨page, hpage, hstores⟩ := h.holds parent _ hnode
      have hps' : (v.pages parent).isSome := by rw [hpage]; rfl
      have hpin0 : v.pins parent = 0 := h.above parent hps (by omega)
      refine wpr_fetchPage (hmode.mono (by omega)) hv hw (h.shape.ids parent hps).1
        hps' (by omega) (fun hr => ?_) fun hr => ?_
      · -- the parent could not be fetched
        exact hQ s.next false v (.parentRefused hpar hroot hr) (.refl h.holds)
          (hw.mono (by omega))
      · simp only [if_true]
        rw [Program.wp_bind]
        have hpos : 0 < (v.pin parent).pins parent := by simp [View.pin]
        refine InternalNode.wpr_load hpos h.holds hnode ?_
        have hfits := hsplit.fits
        by_cases hfull : node.keys.length = 507
        · rw [if_pos ((InternalNode.isFull_iff hfits).mpr hfull), Program.wp_bind]
          rw [InternalNode.overflowKeys_with hfits, InternalNode.overflowChildren_with hfits]
          have hwp := hw.pin hps'
          refine wpr_newPage (hmode.mono (by omega)) hv hwp (fun hr' => ?_)
            fun hr' id h0 hne hfresh hpin => ?_
          · -- nothing was written: the parent is given back clean
            simp only []
            rw [Program.wp_bind]
            have hclean : v.changed parent = false := by
              cases hch : v.changed parent with
              | false => rfl
              | true => exact absurd (h.changed parent hch) (by omega)
            refine wpr_unpinPage (by simp [View.pin]) (fun _ hch => ?_) ?_
            · exact absurd (hclean.symm.trans hch) (by decide)
            · rw [View.pin_unpin, Program.wp_pure]
              exact hQ s.next.next false v (.newParentRefused hpar hroot hr hnode hfull hr')
                (.refl h.holds) (hw.mono (by omega))
          · have hidp : id ≠ parent := by
              rintro rfl
              exact absurd (hfresh.symm.trans hpage) (by simp)
            have hpin' : v.pins id = 0 := by
              simpa [View.pin, Function.update_of_ne hidp] using hpin
            exact wpr_splitUp ih h hsplit hfull hfuel hr hr' h0 hne hfresh hpin' hmode hv hw hp hQ
        · -- the parent has room for the key and the child
          have hroom : node.keys.length < 507 := lt_of_le_of_ne hfits.le hfull
          rw [if_neg fun hf => hfull ((InternalNode.isFull_iff hfits).mp hf), Program.wp_bind]
          have hins : (node.insertAfter (node.findChild key defaultKeyComparator) key right).Fits :=
            hfits.insertAfter hroom (hfits.length ▸ node.findChild_le key defaultKeyComparator)
          refine InternalNode.wpr_storeFits hpos hpage hstores.bare hins fun p₁ hp₁ => ?_
          rw [Program.wp_bind]
          refine wpr_unpinPage (by simp [View.pin, View.write]) (fun _ _ => rfl) ?_
          rw [Program.wp_pure]
          refine hQ _ true _ (.room hpar hroot hr hnode hroom)
            (Moves.unpin rfl rfl (fun x hx => ?_) (.write h.holds hps hp₁))
            ((((hw.mono (Nat.le_add_right p _)).pin hps').write hps' p₁).unpin true)
          by_cases hxp : x = parent
          · exact Or.inl hxp
          · exact Or.inr (by simpa [View.pin, View.write, Function.update_of_ne hxp] using hx)

end PoolM

end CourtDB
