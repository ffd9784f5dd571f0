/-
# The links of a tree survive InsertIntoParent

Each way in which `InsertIntoParent` changes the nodes keeps the downward links together, and what
it does to the upward ones depends on the patches that were refused.

* `Shape` is about the downward links: every node but the root is the child of one node, one level
  higher, and the leaves are chained.  It holds after every insertion, with or without refusals.
* `Parents` is about the upward links: a node's parent pointer names the node it is a child of.  A
  child that could not be fetched when it changed its parent keeps the old pointer, so after a
  refusal `Parents` is known only from a level on that lies above the patched children.
* `Pending` is what is wrong at the moment: the right half of a split is nobody's child yet, and its
  parent pointer is that of the left half.

Splitting a parent leaves the same situation one level higher: two halves of which the right one is
nobody's child.  So the argument is an induction on `Links`, with one lemma for each step
(`Shape.split`, `Shape.room`, `Shape.newRoot`), and `Links.preserves` collects what is true at the
end.

Children move when a parent is split: those of its right half get another parent, as far as they can
be fetched.  So the lemmas are about any nodes that differ from the old ones in the parent pointers
of these children only (`Reparented`); the old nodes are one case, and the nodes with every pointer
set another.
-/
import CourtDB.Index.TreeLinks

namespace CourtDB

open LinkState

variable {nodes : NodeMap} {level : PageId → Nat} {root left right parent id : PageId} {l : Nat}
  {key : KeyType} {n : InternalNode}

/-! ## 1. The parent of a split node

The node that the parent pointer names is the one that has the left half among its children, so the
right half will be a child of the same node.  `Splitting` holds this together, with the level. -/

/-- A node whose parent pointer names a page is a child of the node on it. -/
theorem Parents.left_mem_kids (h : Parents nodes level root l (some right))
    (hpend : Pending nodes level root left right) (hl : l ≤ level left)
    (hpar : nodes.par left = some parent) (hne : parent ≠ invalidPageId) :
    left ∈ nodes.kids parent := by
  refine h.up left parent hpar hl ?_ ?_
  · rintro rfl
    exact hne (Option.some.inj (hpar.symm.trans h.root_par))
  · exact fun he => hpend.ne (Option.some.inj he).symm

/-- A node without a parent is the root. -/
theorem Parents.eq_root (h : Parents nodes level root l (some right))
    (hshape : Shape nodes level root) (hpend : Pending nodes level root left right)
    (hl : l ≤ level left) (hpar : nodes.par left = some invalidPageId) : left = root := by
  by_contra hne
  have hmem := h.up left _ hpar hl hne fun he => hpend.ne (Option.some.inj he).symm
  obtain ⟨m, hm, -⟩ := NodeMap.internal_of_mem_kids hmem
  exact (hshape.ids _ (by rw [hm]; rfl)).2 rfl

/-- The root is nobody's child. -/
theorem Parents.root_not_mem (h : Parents nodes level root l (some right))
    (hshape : Shape nodes level root) {q : PageId} (hc : root ∈ nodes.kids q)
    (hl : l ≤ level root) : False := by
  have hq := h.down q root hc hl
  rw [h.root_par] at hq
  obtain rfl := Option.some.inj hq
  obtain ⟨m, hm, -⟩ := NodeMap.internal_of_mem_kids hc
  exact (hshape.ids _ (by rw [hm]; rfl)).2 rfl

/-- The children of the parent and the node that is to be added to them. -/
theorem mem_childrenWith (hfits : n.Fits) {x : PageId} :
    x ∈ n.childrenWith key right ↔ x = right ∨ x ∈ n.children := by
  refine List.mem_insertIdx ?_
  exact Nat.succ_le_of_lt (InternalNode.findChild_lt hfits key defaultKeyComparator)

theorem length_childrenWith (hfits : n.Fits) :
    (n.childrenWith key right).length = n.children.length + 1 :=
  List.length_insertIdx_of_le_length
    (Nat.succ_le_of_lt (InternalNode.findChild_lt hfits key defaultKeyComparator)) _

theorem length_keysWith (hfits : n.Fits) : (n.keysWith key).length = n.keys.length + 1 :=
  List.length_insertIdx_of_le_length
    (hfits.length ▸ n.findChild_le key defaultKeyComparator) _

theorem nodup_childrenWith (hfits : n.Fits) (hnd : n.children.Nodup) (hright : right ∉ n.children) :
    (n.childrenWith key right).Nodup := by
  refine (List.perm_insertIdx right n.children ?_).nodup_iff.mpr (List.nodup_cons.mpr ⟨hright, hnd⟩)
  exact Nat.succ_le_of_lt (InternalNode.findChild_lt hfits key defaultKeyComparator)

/-- What the two halves of a split and their situation have in common. -/
structure Splitting (nodes : NodeMap) (level : PageId → Nat) (root left right parent : PageId)
    (l : Nat) (n : InternalNode) : Prop where
  shape : Shape nodes level root
  parents : Parents nodes level root l (some right)
  pending : Pending nodes level root left right
  level_le : l ≤ level left
  par : nodes.par left = some parent
  ne : parent ≠ invalidPageId
  node : nodes parent = some (.internal n)

namespace Splitting

variable (h : Splitting nodes level root left right parent l n)

include h

theorem kids : nodes.kids parent = n.children := NodeMap.kids_of_some h.node

theorem fits : n.Fits := h.shape.fits parent _ h.node

theorem level_parent : level left + 1 = level parent :=
  (h.shape.kid parent left
    (h.parents.left_mem_kids h.pending h.level_le h.par h.ne)).2

/-- Children of the parent, old and new, are one level below it and point to it. -/
theorem of_mem {x : PageId} (hx : x ∈ n.childrenWith key right) :
    (nodes x).isSome ∧ level x = level left ∧ nodes.par x = some parent := by
  have hlevel := h.level_parent
  rcases (mem_childrenWith h.fits).mp hx with rfl | hx
  · refine ⟨?_, h.pending.level_eq, h.pending.par_eq.trans h.par⟩
    cases hn : nodes x with
    | some m => rfl
    | none =>
      have hpar := h.pending.par_eq.trans h.par
      rw [NodeMap.par, hn] at hpar
      exact absurd hpar (by simp)
  · have hk : x ∈ nodes.kids parent := h.kids ▸ hx
    obtain ⟨hs, hlx⟩ := h.shape.kid parent x hk
    have hlx' : level x = level left := by omega
    exact ⟨hs, hlx', h.parents.down parent x hk (hlx' ▸ h.level_le)⟩

theorem nodup (key : KeyType) : (n.childrenWith key right).Nodup :=
  nodup_childrenWith h.fits (h.kids ▸ h.shape.nodup parent) (h.kids ▸ h.pending.orphan parent)

theorem not_mem_parent (key : KeyType) : parent ∉ n.childrenWith key right := by
  intro hx
  have hlevel := h.level_parent
  have hlx := (h.of_mem hx).2.1
  omega

/-- Whoever is a child of another node is not affected. -/
theorem not_mem_of_kid {q c : PageId} (hq : q ≠ parent) (hc : c ∈ nodes.kids q)
    (hl : l ≤ level c) : c ∉ n.childrenWith key right := by
  intro hx
  have hdown := h.parents.down q c hc hl
  rw [(h.of_mem hx).2.2] at hdown
  exact hq (Option.some.inj hdown).symm

end Splitting

/-! ## 2. The parent is split

`id` is the page of the right half.  Which of its children were patched is left open: `SplitStep`
only asks that nothing but parent pointers was changed, and the upward links are stated from the
level on at which they are right. -/

section Split

variable {nodes₁ : NodeMap} {nextPageId : PageId}

/-- The nodes after a split: some children have their new parent pointer, the parent has the left
half, and the new node `id` the right half. -/
def splitNodes (nodes₁ : NodeMap) (parent id right nextPageId : PageId) (key : KeyType)
    (n : InternalNode) : NodeMap :=
  Function.update
    (Function.update nodes₁ parent
      (some (.internal (n.leftHalf (n.keysWith key) (n.childrenWith key right)))))
    id (some (.internal (n.rightHalf (n.keysWith key) (n.childrenWith key right) nextPageId)))

/-- The patched nodes, and the page of the right half. -/
structure SplitStep (nodes : NodeMap) (level : PageId → Nat) (root left right parent : PageId)
    (l : Nat) (n : InternalNode) (nodes₁ : NodeMap) (id : PageId) (key : KeyType) : Prop
    extends Splitting nodes level root left right parent l n where
  patched : NodeMap.Reparented nodes nodes₁ id ((n.childrenWith key right).drop 255)
  fresh : nodes id = none

namespace SplitStep

variable (h : SplitStep nodes level root left right parent l n nodes₁ id key)

include h

theorem id_ne : id ≠ parent := by
  rintro rfl
  have hfresh := h.fresh
  rw [h.node] at hfresh
  exact absurd hfresh (by simp)

/-- The children are shared out, 255 to the left half. -/
theorem kids_split (x : PageId) :
    (splitNodes nodes₁ parent id right nextPageId key n).kids x
      = if x = id then (n.childrenWith key right).drop 255
        else if x = parent then (n.childrenWith key right).take 255 else nodes.kids x := by
  rw [splitNodes, NodeMap.kids_update, NodeMap.kids_update, h.patched.kids]
  rfl

theorem par_split (x : PageId) :
    (splitNodes nodes₁ parent id right nextPageId key n).par x
      = if x = id then nodes.par parent else if x = parent then nodes.par parent
        else nodes₁.par x := by
  have hpar : nodes.par parent = some n.header.parentPageId := NodeMap.par_of_some h.node
  rw [splitNodes, NodeMap.par_update, NodeMap.par_update, hpar]
  rfl

/-- The nodes that are not among the right half's children keep their parent pointer. -/
theorem par_split_of_not_mem {x : PageId} (hx : x ≠ id)
    (hmem : x ∉ (n.childrenWith key right).drop 255) :
    (splitNodes nodes₁ parent id right nextPageId key n).par x = nodes.par x := by
  rw [h.par_split, if_neg hx]
  by_cases hxp : x = parent
  · rw [if_pos hxp, hxp]
  · rw [if_neg hxp, NodeMap.par, h.patched.of_not_mem hmem]
    rfl

/-- One node is added. -/
theorem isSome_split (x : PageId) :
    (splitNodes nodes₁ parent id right nextPageId key n x).isSome
      ↔ x = id ∨ (nodes x).isSome := by
  unfold splitNodes
  by_cases hx : x = id
  · simp [hx]
  · rw [Function.update_of_ne hx]
    by_cases hxp : x = parent
    · rw [hxp, Function.update_self, h.node]
      simp
    · rw [Function.update_of_ne hxp, h.patched.isSome]
      simp [hx]

/-- Leaves are not written. -/
theorem leafAt_split :
    (splitNodes nodes₁ parent id right nextPageId key n).leafAt = nodes.leafAt := by
  funext x
  have hid : NodeMap.leafAt (Function.update nodes₁ parent
      (some (.internal (n.leftHalf (n.keysWith key) (n.childrenWith key right))))) id = none := by
    rw [NodeMap.leafAt_update_internal, h.patched.leafAt, NodeMap.leafAt, h.fresh]
    rw [h.patched.leafAt, NodeMap.leafAt, h.node]
  rw [splitNodes, NodeMap.leafAt_update_internal _ _ _ hid, NodeMap.leafAt_update_internal,
    h.patched.leafAt]
  rw [h.patched.leafAt, NodeMap.leafAt, h.node]

/-- **The downward links after a split.** -/
theorem shape_split (hfull : n.keys.length = 507) (h0 : id ≠ 0)
    (hnew : id ≠ invalidPageId) :
    Shape (splitNodes nodes₁ parent id right nextPageId key n)
      (Function.update level id (level parent)) root := by
  have hidp := h.id_ne
  have hlevel := h.level_parent
  have hlen : (n.childrenWith key right).length = 509 := by
    rw [length_childrenWith h.fits, h.fits.children, hfull]
  have hlenk : (n.keysWith key).length = 508 := by rw [length_keysWith h.fits, hfull]
  -- the new page is the only one whose level is set
  have hlev : ∀ x, (nodes x).isSome → Function.update level id (level parent) x = level x := by
    intro x hx
    rw [Function.update_of_ne]
    rintro rfl
    rw [h.fresh] at hx
    exact absurd hx (by simp)
  have hleaf : (splitNodes nodes₁ parent id right nextPageId key n).leafAt = nodes.leafAt :=
    h.leafAt_split
  refine ⟨?_, ?_, ?_, ?_, ?_, ?_, ?_, ?_⟩
  · -- the root is still a node
    exact (h.isSome_split root).mpr (Or.inr h.shape.root_mem)
  · -- page ids: those of before, and the new one
    intro x hx
    rcases (h.isSome_split x).mp hx with rfl | hx
    · exact ⟨h0, hnew⟩
    · exact h.shape.ids x hx
  · -- sizes: 509 children and 508 keys are shared out, the middle key going up
    intro x m hm
    unfold splitNodes at hm
    by_cases hx : x = id
    · rw [hx, Function.update_self] at hm
      obtain rfl := Option.some.inj hm
      refine ⟨rfl, ?_, ?_, ?_, ?_⟩ <;>
        simp only [InternalNode.rightHalf, List.length_drop, hlen, hlenk] <;> decide
    · rw [Function.update_of_ne hx] at hm
      by_cases hxp : x = parent
      · rw [hxp, Function.update_self] at hm
        obtain rfl := Option.some.inj hm
        refine ⟨h.fits.type, ?_, ?_, ?_, ?_⟩ <;>
          simp only [InternalNode.leftHalf, List.length_take, hlen, hlenk] <;> decide
      · rw [Function.update_of_ne hxp] at hm
        exact h.patched.fits h.shape.fits hm
  · -- leaves are on level 0, and no leaf was touched
    intro x es hx
    rw [hleaf] at hx
    rw [hlev x]
    · exact h.shape.level_leaf x es hx
    · obtain ⟨nx, es⟩ := es
      cases hn : nodes x with
      | some m => rfl
      | none => rw [NodeMap.leafAt, hn] at hx; exact absurd hx (by simp)
  · -- inner nodes are above, the right half as high as its left one
    intro x cs hx
    by_cases hxid : x = id
    · rw [hxid, Function.update_self]
      omega
    · rw [Function.update_of_ne hxid]
      by_cases hxp : x = parent
      · rw [hxp]
        omega
      · refine h.shape.level_inner x cs ?_
        rw [splitNodes, NodeMap.innerAt_update_internal, if_neg hxid,
          NodeMap.innerAt_update_internal, if_neg hxp, h.patched.innerAt] at hx
        exact hx
  · -- children: below the halves they are those of the old parent, one level down
    intro x c hc
    rw [h.kids_split] at hc
    rw [h.isSome_split]
    by_cases hxid : x = id
    · rw [if_pos hxid] at hc
      obtain ⟨hs, hlc, -⟩ := h.of_mem (List.mem_of_mem_drop hc)
      rw [hlev c hs, hxid, Function.update_self]
      exact ⟨Or.inr hs, by omega⟩
    · rw [if_neg hxid] at hc
      rw [Function.update_of_ne hxid]
      by_cases hxp : x = parent
      · rw [if_pos hxp] at hc
        obtain ⟨hs, hlc, -⟩ := h.of_mem (List.mem_of_mem_take hc)
        rw [hlev c hs, hxp]
        exact ⟨Or.inr hs, by omega⟩
      · rw [if_neg hxp] at hc
        obtain ⟨hs, hlc⟩ := h.shape.kid x c hc
        rw [hlev c hs]
        exact ⟨Or.inr hs, hlc⟩
  · -- nothing is above the root
    intro x hx
    rw [hlev root h.shape.root_mem]
    rcases (h.isSome_split x).mp hx with rfl | hx
    · rw [Function.update_self]
      exact h.shape.top parent (by rw [h.node]; rfl)
    · rw [hlev x hx]
      exact h.shape.top x hx
  · -- no child is listed twice, in either part of a list without repetitions
    intro x
    rw [h.kids_split]
    split
    · exact (h.nodup key).sublist (List.drop_sublist _ _)
    · split
      · exact (h.nodup key).sublist (List.take_sublist _ _)
      · exact h.shape.nodup x

/-- The right half is nobody's child yet. -/
theorem pending_split :
    Pending (splitNodes nodes₁ parent id right nextPageId key n)
      (Function.update level id (level parent)) root parent id := by
  have hidp := h.id_ne
  refine ⟨?_, ?_, ?_, ?_, ?_, hidp⟩
  · -- both halves are on the level of the parent, and have its parent pointer
    rw [Function.update_self, Function.update_of_ne hidp.symm]
  · rw [h.par_split, if_pos rfl, h.par_split, if_neg hidp.symm, if_pos rfl]
  · exact (h.isSome_split parent).mpr (Or.inr (by rw [h.node]; rfl))
  · -- the new page was in no list of children
    intro x hx
    have hsome : (nodes id).isSome := by
      rw [h.kids_split] at hx
      split at hx
      · exact (h.of_mem (List.mem_of_mem_drop hx)).1
      · split at hx
        · exact (h.of_mem (List.mem_of_mem_take hx)).1
        · exact (h.shape.kid x id hx).1
    rw [h.fresh] at hsome
    exact absurd hsome (by simp)
  · rintro rfl
    have hroot := h.shape.root_mem
    rw [h.fresh] at hroot
    exact absurd hroot (by simp)

/-- **The upward links after a split**, from a level on at which every child of the right half has
its new pointer. -/
theorem parents_split {l₂ : Nat} (hl : l ≤ l₂)
    (hpatched : level left < l₂ ∨
      ∀ c ∈ (n.childrenWith key right).drop 255, nodes₁.par c = some id) :
    Parents (splitNodes nodes₁ parent id right nextPageId key n)
      (Function.update level id (level parent)) root l₂ (some id) := by
  have hidp := h.id_ne
  have hlev : ∀ x, x ≠ id → Function.update level id (level parent) x = level x :=
    fun x hx => Function.update_of_ne hx _ _
  have hsplit : (n.childrenWith key right).take 255 ++ (n.childrenWith key right).drop 255
      = n.childrenWith key right := List.take_append_drop _ _
  have hdisjoint : ∀ c ∈ (n.childrenWith key right).take 255,
      c ∉ (n.childrenWith key right).drop 255 := by
    have hnd := h.nodup key
    rw [← hsplit, List.nodup_append] at hnd
    exact fun c hc hd => hnd.2.2 c hc c hd rfl
  -- an old node is not on the new page
  have hnotid : ∀ c, (nodes c).isSome → c ≠ id := by
    rintro c hc rfl
    rw [h.fresh] at hc
    exact absurd hc (by simp)
  -- the pointers of the right half's children, where they matter
  have hright : ∀ c ∈ (n.childrenWith key right).drop 255, l₂ ≤ level c →
      (splitNodes nodes₁ parent id right nextPageId key n).par c = some id := by
    intro c hc hlc
    obtain ⟨hs, hlevel, -⟩ := h.of_mem (List.mem_of_mem_drop hc)
    have hcp : c ≠ parent := fun he => h.not_mem_parent key (he ▸ List.mem_of_mem_drop hc)
    rw [h.par_split, if_neg (hnotid c hs), if_neg hcp]
    exact hpatched.resolve_left (by omega) c hc
  refine ⟨?_, ?_, ?_⟩
  · -- the root has no parent, so it is not among the children that moved
    have hroot : root ∉ (n.childrenWith key right).drop 255 := by
      intro hmem
      obtain ⟨hs, hlevel, hpar⟩ := h.of_mem (List.mem_of_mem_drop hmem)
      rw [h.parents.root_par] at hpar
      exact h.ne (Option.some.inj hpar).symm
    rw [h.par_split_of_not_mem (hnotid root h.shape.root_mem) hroot]
    exact h.parents.root_par
  · -- up: a node is a child of the one it points to
    intro c q hq hlc hcroot hcid
    have hcid' : c ≠ id := fun he => hcid (by rw [he])
    rw [hlev c hcid'] at hlc
    rw [h.kids_split]
    by_cases hdrop : c ∈ (n.childrenWith key right).drop 255
    · rw [hright c hdrop hlc] at hq
      rw [if_pos (Option.some.inj hq).symm]
      exact hdrop
    · rw [h.par_split_of_not_mem hcid' hdrop] at hq
      by_cases hmem : c ∈ n.childrenWith key right
      · -- a child that stayed in the left half
        rw [(h.of_mem hmem).2.2] at hq
        obtain rfl := Option.some.inj hq
        rw [if_neg hidp.symm, if_pos rfl]
        rw [← hsplit] at hmem
        exact (List.mem_append.mp hmem).resolve_right hdrop
      · -- a child of another node: that one is neither half
        have hcr : some c ≠ some right := fun he =>
          hmem ((mem_childrenWith h.fits).mpr (Or.inl (Option.some.inj he)))
        have hk := h.parents.up c q hq (hl.trans hlc) hcroot hcr
        have hqp : q ≠ parent := by
          rintro rfl
          exact hmem ((mem_childrenWith h.fits).mpr (Or.inr (h.kids ▸ hk)))
        have hqid : q ≠ id := by
          obtain ⟨m, hm, -⟩ := NodeMap.internal_of_mem_kids hk
          exact hnotid q (by rw [hm]; rfl)
        rw [if_neg hqid, if_neg hqp]
        exact hk
  · -- down: a child points to the node that lists it
    intro q c hc hlc
    rw [h.kids_split] at hc
    by_cases hqid : q = id
    · rw [if_pos hqid] at hc
      have hs := (h.of_mem (List.mem_of_mem_drop hc)).1
      rw [hlev c (hnotid c hs)] at hlc
      rw [hqid]
      exact hright c hc hlc
    · rw [if_neg hqid] at hc
      -- a child that stayed in the left half points to the parent, as before
      by_cases hqp : q = parent
      · rw [if_pos hqp] at hc
        obtain ⟨hs, -, hpar⟩ := h.of_mem (List.mem_of_mem_take hc)
        rw [h.par_split_of_not_mem (hnotid c hs) (hdisjoint c hc), hqp]
        exact hpar
      · -- a child of another node is not among those that moved
        rw [if_neg hqp] at hc
        have hs := (h.shape.kid q c hc).1
        rw [hlev c (hnotid c hs)] at hlc
        have hnot : c ∉ n.childrenWith key right := h.not_mem_of_kid hqp hc (hl.trans hlc)
        rw [h.par_split_of_not_mem (hnotid c hs)
          fun hd => hnot (List.mem_of_mem_drop hd)]
        exact h.parents.down q c hc (hl.trans hlc)

end SplitStep

end Split

/-! ## 3. The parent has room

The end of the recursion in most insertions: the right half becomes a child of the parent, and the
tree is complete again. -/

/-- The children after the parent took the new one. -/
theorem kids_room (nodes : NodeMap) (parent right : PageId) (key : KeyType) (n : InternalNode)
    (x : PageId) :
    NodeMap.kids (Function.update nodes parent (some (.internal
        (n.insertAfter (n.findChild key defaultKeyComparator) key right)))) x
      = if x = parent then n.childrenWith key right else nodes.kids x := by
  rw [NodeMap.kids_update]
  rfl

namespace Splitting

variable (h : Splitting nodes level root left right parent l n)

include h

theorem par_room (x : PageId) :
    NodeMap.par (Function.update nodes parent (some (.internal
        (n.insertAfter (n.findChild key defaultKeyComparator) key right)))) x = nodes.par x := by
  rw [NodeMap.par_update]
  split
  · rename_i hx
    rw [hx, NodeMap.par_of_some h.node]
    rfl
  · rfl

/-- **The downward links** when the parent has room. -/
theorem shape_room (hroom : n.keys.length < 507) :
    Shape (Function.update nodes parent (some (.internal
      (n.insertAfter (n.findChild key defaultKeyComparator) key right)))) level root := by
  have hlevel := h.level_parent
  -- the parent is the only node written, and it stays an inner node
  have hsome : ∀ x, (Function.update nodes parent (some (.internal
      (n.insertAfter (n.findChild key defaultKeyComparator) key right))) x).isSome
        = (nodes x).isSome := by
    intro x
    by_cases hx : x = parent
    · rw [hx, Function.update_self, h.node]
      rfl
    · rw [Function.update_of_ne hx]
  have hnone : nodes.leafAt parent = none := by rw [NodeMap.leafAt, h.node]
  refine ⟨?_, ?_, ?_, ?_, ?_, ?_, ?_, ?_⟩
  · -- the root, and the page ids
    rw [hsome]
    exact h.shape.root_mem
  · intro x hx
    exact h.shape.ids x (hsome x ▸ hx)
  · -- sizes: there is room for one key more
    intro x m hm
    by_cases hx : x = parent
    · rw [hx, Function.update_self] at hm
      obtain rfl := Option.some.inj hm
      exact h.fits.insertAfter hroom (h.fits.length ▸ n.findChild_le key defaultKeyComparator)
    · rw [Function.update_of_ne hx] at hm
      exact h.shape.fits x m hm
  · -- the levels of leaves and inner nodes
    intro x es hx
    rw [NodeMap.leafAt_update_internal _ _ _ hnone] at hx
    exact h.shape.level_leaf x es hx
  · intro x cs hx
    rw [NodeMap.innerAt_update_internal] at hx
    split at hx
    · rename_i hxp
      rw [hxp]
      omega
    · exact h.shape.level_inner x cs hx
  · -- children: the parent has one more, on the level of the left node
    intro x c hc
    rw [kids_room] at hc
    rw [hsome]
    split at hc
    · rename_i hxp
      obtain ⟨hs, hlc, -⟩ := h.of_mem hc
      exact ⟨hs, by rw [hxp]; omega⟩
    · exact h.shape.kid x c hc
  · -- the top, and no child twice: the right node was nobody's child
    intro x hx
    exact h.shape.top x (hsome x ▸ hx)
  · intro x
    rw [kids_room]
    split
    · exact h.nodup key
    · exact h.shape.nodup x

/-- **The upward links** when the parent has room. -/
theorem parents_room :
    Parents (Function.update nodes parent (some (.internal
      (n.insertAfter (n.findChild key defaultKeyComparator) key right)))) level root l none := by
  refine ⟨?_, ?_, ?_⟩
  · -- the root
    rw [h.par_room]
    exact h.parents.root_par
  · -- up: the right node is now found where its pointer says
    intro c q hq hlc hroot _
    rw [h.par_room] at hq
    rw [kids_room]
    by_cases hcr : c = right
    · rw [hcr, h.pending.par_eq, h.par] at hq
      rw [if_pos (Option.some.inj hq).symm, hcr]
      exact (mem_childrenWith h.fits).mpr (Or.inl rfl)
    · have hk := h.parents.up c q hq hlc hroot fun he => hcr (Option.some.inj he)
      split
      · rename_i hqp
        rw [hqp, h.kids] at hk
        exact (mem_childrenWith h.fits).mpr (Or.inr hk)
      · exact hk
  · -- down: the children of the parent, old and new, point to it
    intro q c hc hlc
    rw [kids_room] at hc
    rw [h.par_room]
    split at hc
    · rename_i hqp
      rw [hqp]
      exact (h.of_mem hc).2.2
    · exact h.parents.down q c hc hlc

end Splitting

/-! ## 4. A new root

The other end.  The root rises by one level, which is the only way a tree grows in height. -/

/-- The root was split, and the nodes have the new one on page `id`; some of the two halves point
to it. -/
structure RootStep (nodes : NodeMap) (level : PageId → Nat) (root right : PageId) (l : Nat)
    (nodes' : NodeMap) (id : PageId) (key : KeyType) : Prop where
  shape : Shape nodes level root
  parents : Parents nodes level root l (some right)
  pending : Pending nodes level root root right
  level_le : l ≤ level root
  fresh : nodes id = none
  h0 : id ≠ 0
  hne : id ≠ invalidPageId
  patched : NodeMap.Reparented
    (Function.update nodes id (some (.internal (.newRoot root key right)))) nodes' id [root, right]

namespace RootStep

variable {nodes' : NodeMap} (h : RootStep nodes level root right l nodes' id key)

include h

theorem ne_id {x : PageId} (hx : (nodes x).isSome) : x ≠ id := by
  rintro rfl
  rw [h.fresh] at hx
  exact absurd hx (by simp)

theorem right_mem : (nodes right).isSome := by
  have hpar := h.pending.par_eq.trans h.parents.root_par
  cases hn : nodes right with
  | some m => rfl
  | none =>
    rw [NodeMap.par, hn] at hpar
    exact absurd hpar (by simp)

/-- The two halves are the children of the new root. -/
theorem kids_root (x : PageId) :
    nodes'.kids x = if x = id then [root, right] else nodes.kids x := by
  rw [h.patched.kids, NodeMap.kids_update]
  rfl

theorem isSome_root (x : PageId) : (nodes' x).isSome ↔ x = id ∨ (nodes x).isSome := by
  rw [h.patched.isSome]
  by_cases hx : x = id
  · simp [hx]
  · rw [Function.update_of_ne hx]
    simp [hx]

theorem par_root {x : PageId} (hroot : x ≠ root) (hright : x ≠ right) :
    nodes'.par x = if x = id then some invalidPageId else nodes.par x := by
  have hmem : x ∉ [root, right] := by simp [hroot, hright]
  rw [NodeMap.par, h.patched.of_not_mem hmem]
  exact NodeMap.par_update nodes id (.internal (.newRoot root key right)) x

theorem leafAt_root : nodes'.leafAt = nodes.leafAt := by
  funext x
  rw [h.patched.leafAt, NodeMap.leafAt_update_internal]
  rw [NodeMap.leafAt, h.fresh]

/-- **The downward links** under a new root. -/
theorem shape_root : Shape nodes' (Function.update level id (level root + 1)) id := by
  have hlev : ∀ x, (nodes x).isSome → Function.update level id (level root + 1) x = level x :=
    fun x hx => Function.update_of_ne (h.ne_id hx) _ _
  refine ⟨?_, ?_, ?_, ?_, ?_, ?_, ?_, ?_⟩
  · -- the new root is a node, on a page that may be one
    exact (h.isSome_root id).mpr (Or.inl rfl)
  · intro x hx
    rcases (h.isSome_root x).mp hx with rfl | hx
    · exact ⟨h.h0, h.hne⟩
    · exact h.shape.ids x hx
  · -- sizes: the new root has one key and two children, and new pointers change no size
    intro x m hm
    refine h.patched.fits (fun y k hk => ?_) hm
    by_cases hy : y = id
    · rw [hy, Function.update_self] at hk
      obtain rfl := Option.some.inj hk
      exact ⟨rfl, rfl, rfl, Nat.one_pos, Nat.le_add_left 1 506⟩
    · rw [Function.update_of_ne hy] at hk
      exact h.shape.fits y k hk
  · -- leaves are on level 0
    intro x es hx
    rw [h.leafAt_root] at hx
    rw [hlev x]
    · exact h.shape.level_leaf x es hx
    · cases hn : nodes x with
      | some m => rfl
      | none => rw [NodeMap.leafAt, hn] at hx; exact absurd hx (by simp)
  · -- the new root is above the old one
    intro x cs hx
    rw [h.patched.innerAt, NodeMap.innerAt_update_internal] at hx
    by_cases hxid : x = id
    · rw [hxid, Function.update_self]
      omega
    · rw [if_neg hxid] at hx
      rw [Function.update_of_ne hxid]
      exact h.shape.level_inner x cs hx
  · -- the children of the new root are on the level of the old one
    intro x c hc
    rw [h.kids_root] at hc
    rw [h.isSome_root]
    by_cases hxid : x = id
    · rw [if_pos hxid] at hc
      have hs : (nodes c).isSome ∧ level c = level root := by
        rcases List.mem_cons.mp hc with rfl | hc
        · exact ⟨h.shape.root_mem, rfl⟩
        · obtain rfl := List.mem_singleton.mp hc
          exact ⟨h.right_mem, h.pending.level_eq⟩
      rw [hlev c hs.1, hxid, Function.update_self, hs.2]
      exact ⟨Or.inr hs.1, rfl⟩
    · rw [if_neg hxid] at hc
      obtain ⟨hs, hlc⟩ := h.shape.kid x c hc
      rw [hlev c hs, Function.update_of_ne hxid]
      exact ⟨Or.inr hs, hlc⟩
  · -- the new root is the highest
    intro x hx
    rw [Function.update_self]
    rcases (h.isSome_root x).mp hx with rfl | hx
    · rw [Function.update_self]
    · rw [hlev x hx]
      exact (h.shape.top x hx).trans (Nat.le_succ _)
  · -- the two halves are not the same node
    intro x
    rw [h.kids_root]
    split
    · simp [h.pending.ne.symm]
    · exact h.shape.nodup x

/-- **The upward links** under a new root, from a level on at which both halves point to it. -/
theorem parents_root {l₂ : Nat} (hl : l ≤ l₂)
    (hpatched : level root < l₂ ∨ nodes'.par root = some id ∧ nodes'.par right = some id) :
    Parents nodes' (Function.update level id (level root + 1)) id l₂ none := by
  have hlev : ∀ x, x ≠ id → Function.update level id (level root + 1) x = level x :=
    fun x hx => Function.update_of_ne hx _ _
  -- the two halves point to the new root, where pointers matter
  have hhalf : ∀ c ∈ [root, right], l₂ ≤ level c → nodes'.par c = some id := by
    intro c hc hlc
    rcases List.mem_cons.mp hc with rfl | hc
    · exact (hpatched.resolve_left (by omega)).1
    · obtain rfl := List.mem_singleton.mp hc
      have hlevel := h.pending.level_eq
      exact (hpatched.resolve_left (by omega)).2
  refine ⟨?_, ?_, ?_⟩
  · -- the new root has no parent
    rw [h.par_root (h.ne_id h.shape.root_mem).symm (h.ne_id h.right_mem).symm, if_pos rfl]
  · -- up: a half points to the new root, any other node to the one it did
    intro c q hq hlc hcid _
    rw [hlev c hcid] at hlc
    rw [h.kids_root]
    by_cases hmem : c ∈ [root, right]
    · rw [hhalf c hmem hlc] at hq
      rw [if_pos (Option.some.inj hq).symm]
      exact hmem
    · have hroot : c ≠ root := fun he => hmem (by simp [he])
      have hright : c ≠ right := fun he => hmem (by simp [he])
      rw [h.par_root hroot hright, if_neg hcid] at hq
      have hk := h.parents.up c q hq (hl.trans hlc) hroot fun he => hright (Option.some.inj he)
      have hqid : q ≠ id := by
        obtain ⟨m, hm, -⟩ := NodeMap.internal_of_mem_kids hk
        exact h.ne_id (by rw [hm]; rfl)
      rw [if_neg hqid]
      exact hk
  · -- down: the children of the new root are the halves
    intro q c hc hlc
    rw [h.kids_root] at hc
    by_cases hqid : q = id
    · rw [if_pos hqid] at hc
      have hcid : c ≠ id := by
        rcases List.mem_cons.mp hc with rfl | hc
        · exact h.ne_id h.shape.root_mem
        · rw [List.mem_singleton.mp hc]
          exact h.ne_id h.right_mem
      rw [hlev c hcid] at hlc
      rw [hqid]
      exact hhalf c hc hlc
    · -- another node has neither half as a child: they were the root and an orphan
      rw [if_neg hqid] at hc
      have hcid := h.ne_id (h.shape.kid q c hc).1
      rw [hlev c hcid] at hlc
      have hroot : c ≠ root := by
        rintro rfl
        exact h.parents.root_not_mem h.shape hc h.level_le
      have hright : c ≠ right := by
        rintro rfl
        exact h.pending.orphan q hc
      rw [h.par_root hroot hright, if_neg hcid]
      exact h.parents.down q c hc (hl.trans hlc)

end RootStep

/-! ## 5. All of InsertIntoParent

The steps put together, by induction on `Links`. -/

/-- The nodes of a split. -/
theorem nodes_splitParent (s : LinkState) (parent id right nextPageId : PageId) (key : KeyType)
    (n : InternalNode) :
    (s.splitParent parent id right nextPageId key n).nodes
      = splitNodes (((n.childrenWith key right).drop 255).foldl (patch id) s.next.next).nodes
          parent id right nextPageId key n := rfl

theorem root_splitParent (s : LinkState) (parent id right nextPageId : PageId) (key : KeyType)
    (n : InternalNode) : (s.splitParent parent id right nextPageId key n).root = s.root :=
  root_patches _

/-- The situation in which `InsertIntoParent` is called. -/
structure Situation (s : LinkState) (level : PageId → Nat) (l : Nat) (left right : PageId) :
    Prop where
  shape : Shape s.nodes level s.root
  parents : Parents s.nodes level s.root l (some right)
  pending : Pending s.nodes level s.root left right
  level_le : l ≤ level left

namespace Situation

variable {s : LinkState} {nextPageId : PageId} (h : Situation s level l left right)

include h

/-- The parent is split, or has room. -/
theorem splitting (hpar : s.nodes.par left = some parent) (hne : parent ≠ invalidPageId)
    (hn : s.nodes parent = some (.internal n)) :
    Splitting s.nodes level s.root left right parent l n :=
  ⟨h.shape, h.parents, h.pending, h.level_le, hpar, hne, hn⟩

/-- The children of the right half are patched before the halves are written. -/
theorem splitStep (hpar : s.nodes.par left = some parent) (hne : parent ≠ invalidPageId)
    (hn : s.nodes parent = some (.internal n)) (hfresh : s.nodes id = none) (key : KeyType) :
    SplitStep s.nodes level s.root left right parent l n
      (((n.childrenWith key right).drop 255).foldl (patch id) s.next.next).nodes id key :=
  ⟨h.splitting hpar hne hn, s.next.next.reparented_patches id _, hfresh⟩

/-- **The same situation one level higher**, after the parent was split.  Without refusals the
pointers are right from the old level on, else from the parent's on. -/
theorem afterSplit (hpar : s.nodes.par left = some parent) (hne : parent ≠ invalidPageId)
    (hn : s.nodes parent = some (.internal n)) (hfull : n.keys.length = 507) (h0 : id ≠ 0)
    (hnew : id ≠ invalidPageId) (hfresh : s.nodes id = none) (key : KeyType) :
    ∃ l₂, (s.Clear → l₂ = l) ∧
      Situation (s.splitParent parent id right nextPageId key n)
        (Function.update level id (level parent)) l₂ parent id := by
  have hstep := h.splitStep hpar hne hn hfresh key
  have hlevel := hstep.level_parent
  have hlevel_le := h.level_le
  have hroot := root_splitParent s parent id right nextPageId key n
  have hidp : Function.update level id (level parent) parent = level parent :=
    Function.update_of_ne hstep.id_ne.symm _ _
  -- from which level on the pointers are right
  obtain ⟨l₂, hl₂, hsame, hle, hpatched⟩ : ∃ l₂, l₂ ≤ level parent ∧ (s.Clear → l₂ = l) ∧ l ≤ l₂ ∧
      (level left < l₂ ∨ ∀ c ∈ (n.childrenWith key right).drop 255,
        (((n.childrenWith key right).drop 255).foldl (patch id) s.next.next).nodes.par c
          = some id) := by
    -- without a refusal every child of the right half was patched
    by_cases hc : s.Clear
    · refine ⟨l, by omega, fun _ => rfl, Nat.le_refl l, Or.inr fun c hmem => ?_⟩
      exact hc.next.next.par_patches
        (fun x hx => (hstep.of_mem (List.mem_of_mem_drop hx)).1) hmem
    · -- else the children are on the level of the halves, which is no longer looked at
      exact ⟨level parent, Nat.le_refl _, fun h => absurd h hc, by omega, Or.inl (by omega)⟩
  refine ⟨l₂, hsame, ?_, ?_, ?_, hidp.symm ▸ hl₂⟩
  · rw [hroot]
    exact hstep.shape_split hfull h0 hnew
  · rw [hroot]
    exact hstep.parents_split hle hpatched
  · rw [hroot]
    exact hstep.pending_split

/-- A new root is made over two halves, one of which was the root. -/
theorem rootStep (hroot : s.nodes.par left = some invalidPageId) (h0 : id ≠ 0)
    (hne : id ≠ invalidPageId) (hfresh : s.nodes id = none) (key : KeyType) :
    left = s.root ∧ RootStep s.nodes level s.root right l
      (((s.next.setNode id (.internal (.newRoot left key right))).patch id left).patch id
        right).nodes id key := by
  obtain rfl := h.parents.eq_root h.shape h.pending h.level_le hroot
  have hre := (s.next.setNode id (.internal (.newRoot s.root key right))).reparented_patches id
    [s.root, right]
  exact ⟨rfl, h.shape, h.parents, h.pending, h.level_le, hfresh, h0, hne, hre⟩

/-- Without refusals the upward links under a new root agree. -/
theorem parents_newRoot (hroot : s.nodes.par left = some invalidPageId) (h0 : id ≠ 0)
    (hne : id ≠ invalidPageId) (hfresh : s.nodes id = none) (key : KeyType) (hc : s.Clear) :
    Parents (((s.next.setNode id (.internal (.newRoot left key right))).patch id left).patch id
      right).nodes (Function.update level id (level s.root + 1)) id l none := by
  obtain ⟨rfl, hstep⟩ := h.rootStep hroot h0 hne hfresh key
  have hclear : (s.next.setNode id (.internal (.newRoot s.root key right))).Clear := hc.next
  have hmem : ∀ c ∈ [s.root, right],
      ((s.next.setNode id (.internal (.newRoot s.root key right))).nodes c).isSome := by
    intro c hc
    have hs : (s.nodes c).isSome := by
      rcases List.mem_cons.mp hc with rfl | hc
      · exact h.shape.root_mem
      · exact List.mem_singleton.mp hc ▸ hstep.right_mem
    rw [nodes_setNode, Function.update_of_ne (hstep.ne_id hs)]
    exact hs
  refine hstep.parents_root (Nat.le_refl l) (Or.inr ⟨?_, ?_⟩)
  · exact hclear.par_patches hmem List.mem_cons_self
  · exact hclear.par_patches hmem (List.mem_cons_of_mem _ List.mem_cons_self)

end Situation

/-- **The links after InsertIntoParent.**  Levels of old nodes stay, and the root rises by at most
one.  The downward links fit together in any case; without refusals the right node is linked and
the upward links agree. -/
theorem Links.preserves {s s' : LinkState} {linked : Bool}
    (hlinks : Links s left key right s' linked) :
    ∀ {level : PageId → Nat} {l : Nat}, Situation s level l left right →
      ∃ level', (∀ id, (s.nodes id).isSome → level' id = level id) ∧
        level' s'.root ≤ level s.root + 1 ∧ Shape s'.nodes level' s'.root ∧
        (s.Clear → linked = true ∧ Parents s'.nodes level' s'.root l none) := by
  induction hlinks with
  -- nothing was written when a request was refused
  | rootRefused hroot hr =>
    intro level l h
    exact ⟨level, fun _ _ => rfl, Nat.le_succ _, h.shape,
      fun hc => absurd hr (by rw [hc.refused]; decide)⟩
  | parentRefused hpar hne hr =>
    intro level l h
    exact ⟨level, fun _ _ => rfl, Nat.le_succ _, h.shape,
      fun hc => absurd hr (by rw [hc.refused]; decide)⟩
  | newParentRefused hpar hne hr hn hfull hr' =>
    intro level l h
    exact ⟨level, fun _ _ => rfl, Nat.le_succ _, h.shape,
      fun hc => absurd hr' (by rw [hc.next.refused]; decide)⟩
  | @newRoot s left right id key hroot hr h0 hne hfresh =>
    intro level l h
    obtain ⟨-, hstep⟩ := h.rootStep hroot h0 hne hfresh key
    refine ⟨_, fun x hx => Function.update_of_ne (hstep.ne_id hx) _ _, ?_, hstep.shape_root,
      fun hc => ⟨rfl, h.parents_newRoot hroot h0 hne hfresh key hc⟩⟩
    exact le_of_eq (Function.update_self _ _ _)
  | @room s left right parent key n hpar hne hr hn hroom =>
    intro level l h
    have hstep := h.splitting hpar hne hn
    exact ⟨level, fun _ _ => rfl, Nat.le_succ _, hstep.shape_room hroom,
      fun _ => ⟨rfl, hstep.parents_room⟩⟩
  | @split s s' left right parent id nextPageId key n linked hpar hne hr hn hfull hr' h0 hnew
      hfresh hrest ih =>
    -- the parent is split, and the rest is the call for its halves
    intro level l h
    have hstep := h.splitStep hpar hne hn hfresh key
    have hold : ∀ x, (s.nodes x).isSome →
        Function.update level id (level parent) x = level x := by
      intro x hx
      refine Function.update_of_ne ?_ _ _
      rintro rfl
      rw [hfresh] at hx
      exact absurd hx (by simp)
    obtain ⟨l₂, hsame, hnext⟩ := h.afterSplit hpar hne hn hfull h0 hnew hfresh key
    obtain ⟨level', hagree, hrise, hshape, hclear⟩ := ih hnext
    rw [root_splitParent, hold _ h.shape.root_mem] at hrise
    refine ⟨level', fun x hx => ?_, hrise, hshape, fun hc => ?_⟩
    · rw [← hold x hx]
      refine hagree x ?_
      rw [nodes_splitParent]
      exact (hstep.isSome_split x).mpr (Or.inr hx)
    · -- without a refusal the rest runs without one too
      rw [← hsame hc]
      refine hclear ?_
      intro b hb
      exact hc.next.next.patches b hb

/-- **The first leaf stays the first.** -/
theorem Links.spine {s s' : LinkState} {linked : Bool} {first : PageId}
    (hlinks : Links s left key right s' linked) :
    ∀ {level : PageId → Nat} {l : Nat}, Situation s level l left right →
      NodeMap.Spine s.nodes s.root first → NodeMap.Spine s'.nodes s'.root first := by
  -- a new child is never put in front of the first one
  have hhead : ∀ (cs : List PageId) (i : Nat) (c : PageId),
      (cs.insertIdx (i + 1) c).head? = cs.head? := by
    intro cs i c
    cases cs with
    | nil => rfl
    | cons d cs => rfl
  induction hlinks with
  | rootRefused hroot hr => exact fun _ h => h
  | parentRefused hpar hne hr => exact fun _ h => h
  | newParentRefused hpar hne hr hn hfull hr' => exact fun _ h => h
  | @newRoot s left right id key hroot hr h0 hne hfresh =>
    -- under a new root the old one is the first child
    intro level l h hspine
    obtain ⟨rfl, hstep⟩ := h.rootStep hroot h0 hne hfresh key
    refine .kid (c := s.root) ?_ (hspine.mono (fun x c hc => ?_) fun x hx => ?_)
    · rw [hstep.kids_root, if_pos rfl]
      rfl
    · rw [hstep.kids_root]
      split
      · rename_i hx
        rw [hx, NodeMap.kids, hfresh] at hc
        exact absurd hc (by simp)
      · exact hc
    · rw [hstep.leafAt_root]
      exact hx
  | @room s left right parent key n hpar hne hr hn hroom =>
    -- the first child of the parent stays
    intro level l h hspine
    have hleaves : (s.next.setNode parent (.internal
        (n.insertAfter (n.findChild key defaultKeyComparator) key right))).nodes.leafAt
          = s.nodes.leafAt := Links.leafAt (.room hpar hne hr hn hroom)
    refine hspine.mono (fun x c hc => ?_) fun x hx => by rw [hleaves]; exact hx
    rw [nodes_setNode, nodes_next, kids_room]
    split
    · rename_i hx
      rw [hx, NodeMap.kids_of_some hn] at hc
      rw [InternalNode.childrenWith, hhead]
      exact hc
    · exact hc
  | @split s s' left right parent id nextPageId key n linked hpar hne hr hn hfull hr' h0 hnew
      hfresh hrest ih =>
    -- the first child of the parent is in the left half
    intro level l h hspine
    have hstep := h.splitStep hpar hne hn hfresh key
    obtain ⟨l₂, -, hnext⟩ := h.afterSplit hpar hne hn hfull h0 hnew hfresh key
    refine ih hnext ?_
    rw [root_splitParent, nodes_splitParent]
    refine hspine.mono (fun x c hc => ?_) fun x hx => by rw [hstep.leafAt_split]; exact hx
    rw [hstep.kids_split]
    split
    · rename_i hx
      rw [hx, NodeMap.kids, hfresh] at hc
      exact absurd hc (by simp)
    · split
      · rename_i hx
        rw [List.head?_take, if_neg (by decide), InternalNode.childrenWith, hhead]
        rw [hx, NodeMap.kids_of_some hn] at hc
        exact hc
      · exact hc

end CourtDB
