/-
# The leaves of a tree

Operations change a tree at one leaf: its entries become others (`Shape.setLeaf`), or it is split,
which first makes a new leaf that is nobody's child (`Shape.addLeaf`).  Neither concerns the
internal nodes, so the downward links stay as they are, and the upward ones too.  What has to be
done about the new leaf is `InsertIntoParent`'s part (`Pending.addLeaf`).

Next to the tree the leaves form a chain (`Chain`): it visits every leaf once and ends.  It depends
on the leaves only, so `InsertIntoParent` leaves it alone.  Even when a refusal leaves a leaf
without a parent, the chain has it.

The entries along the chain are the contents of the tree (`contents`).  A change of one leaf is a
change in the middle of that list (`contents_middle`), and a split with the new entry adds this one
entry and nothing else (`contents_split`).
-/
import CourtDB.Index.TreeShape

namespace CourtDB

variable {nodes nodes' : NodeMap} {level : PageId → Nat} {root id first : PageId}
  {n n' : LeafNode} {chain l₁ l₂ : List PageId}

/-! ## 1. One leaf

`Stocked` says that no leaf is empty.  Insertions keep it, and `Delete` does not; `Lookup` stops at
an empty leaf, so some results need it. -/

namespace NodeMap

/-- The leaf that follows the one on a page. -/
def next (nodes : NodeMap) (id : PageId) : Option PageId := (nodes.leafAt id).map Prod.fst

/-- The entries of the leaf on a page. -/
def entriesAt (nodes : NodeMap) (id : PageId) : List (KeyType × RID) :=
  ((nodes.leafAt id).map Prod.snd).getD []

theorem leafAt_update_leaf (nodes : NodeMap) (id : PageId) (n : LeafNode) (x : PageId) :
    leafAt (Function.update nodes id (some (.leaf n))) x
      = if x = id then some (n.header.nextPageId, n.entries) else nodes.leafAt x := by
  by_cases hx : x = id
  · rw [if_pos hx, hx, leafAt_of_some (Function.update_self _ _ _)]
  · rw [if_neg hx, leafAt, Function.update_of_ne hx]
    rfl

theorem innerAt_update_leaf (nodes : NodeMap) {id : PageId} (n : LeafNode)
    (h : nodes.innerAt id = none) (x : PageId) :
    innerAt (Function.update nodes id (some (.leaf n))) x = nodes.innerAt x := by
  by_cases hx : x = id
  · rw [hx, h, innerAt, Function.update_self]
  · rw [innerAt, Function.update_of_ne hx]
    rfl

/-- No leaf is empty. -/
def Stocked (nodes : NodeMap) : Prop :=
  ∀ id nx es, nodes.leafAt id = some (nx, es) → es ≠ []

/-- Another leaf with entries. -/
theorem Stocked.setLeaf {nodes : NodeMap} (h : Stocked nodes) (id : PageId) {n : LeafNode}
    (hn : n.entries ≠ []) : Stocked (Function.update nodes id (some (.leaf n))) := by
  intro x nx es hx
  rw [leafAt_update_leaf] at hx
  split at hx
  · obtain ⟨-, rfl⟩ := Prod.mk.inj (Option.some.inj hx)
    exact hn
  · exact h x nx es hx

theorem Stocked.congr {nodes nodes' : NodeMap} (h : Stocked nodes)
    (hleaves : nodes'.leafAt = nodes.leafAt) : Stocked nodes' := by
  intro x nx es hx
  rw [hleaves] at hx
  exact h x nx es hx

/-- Where there was no internal node the children stay. -/
theorem kids_update_leaf (nodes : NodeMap) {id : PageId} (n : LeafNode) (h : nodes.kids id = [])
    (x : PageId) : kids (Function.update nodes id (some (.leaf n))) x = nodes.kids x := by
  rw [kids_update]
  split
  · rename_i hx
    rw [hx, h]
    rfl
  · rfl

theorem isSome_update (nodes : NodeMap) (id : PageId) (n : BTreeNode) (x : PageId) :
    (Function.update nodes id (some n) x).isSome ↔ x = id ∨ (nodes x).isSome := by
  by_cases hx : x = id
  · simp [hx]
  · simp [hx]

end NodeMap

open NodeMap

/-- A leaf has no children. -/
theorem kids_of_leaf (hn : nodes id = some (.leaf n)) : nodes.kids id = [] := by
  rw [kids_of_some hn]
  rfl

theorem innerAt_of_leaf (hn : nodes id = some (.leaf n)) : nodes.innerAt id = none := by
  rw [innerAt, hn]

/-- **A leaf is written back**: the downward links stay. -/
theorem Shape.setLeaf (h : Shape nodes level root) (hn : nodes id = some (.leaf n))
    (hfits : n'.Fits) : Shape (Function.update nodes id (some (.leaf n'))) level root := by
  have hs : (nodes id).isSome := by rw [hn]; rfl
  have hsome : ∀ x, (Function.update nodes id (some (.leaf n')) x).isSome ↔ (nodes x).isSome := by
    intro x
    rw [isSome_update, or_iff_right_of_imp fun hx => hx ▸ hs]
  have hkids := kids_update_leaf nodes n' (kids_of_leaf hn)
  refine ⟨(hsome root).mpr h.root_mem, fun x hx => h.ids x ((hsome x).mp hx), ?_, ?_, ?_, ?_,
    fun x hx => h.top x ((hsome x).mp hx), fun x => hkids x ▸ h.nodup x⟩
  · intro x m hx
    by_cases hxid : x = id
    · rw [hxid, Function.update_self] at hx
      rw [← Option.some.inj hx]
      exact hfits
    · rw [Function.update_of_ne hxid] at hx
      exact h.fits x m hx
  · intro x es hx
    rw [leafAt_update_leaf] at hx
    split at hx
    · rename_i hxid
      rw [hxid]
      exact h.level_leaf id _ (leafAt_of_some hn)
    · exact h.level_leaf x es hx
  · intro x cs hx
    rw [innerAt_update_leaf nodes n' (innerAt_of_leaf hn)] at hx
    exact h.level_inner x cs hx
  · intro x c hc
    rw [hkids] at hc
    obtain ⟨hcs, hl⟩ := h.kid x c hc
    exact ⟨(hsome c).mpr hcs, hl⟩

/-- The upward links stay too. -/
theorem Parents.setLeaf {l : Nat} {pending : Option PageId} (h : Parents nodes level root l pending)
    (hn : nodes id = some (.leaf n)) (hparent : n'.header.parentPageId = n.header.parentPageId) :
    Parents (Function.update nodes id (some (.leaf n'))) level root l pending := by
  have hkids := kids_update_leaf nodes n' (kids_of_leaf hn)
  have hpar : ∀ x, par (Function.update nodes id (some (.leaf n'))) x = nodes.par x := by
    intro x
    rw [par_update]
    split
    · rename_i hx
      rw [hx, par_of_some hn]
      exact congrArg some hparent
    · rfl
  refine ⟨(hpar root).trans h.root_par, ?_, ?_⟩
  · intro c q hc hl hne hpend
    rw [hpar] at hc
    rw [hkids]
    exact h.up c q hc hl hne hpend
  · intro x c hc hl
    rw [hkids] at hc
    rw [hpar]
    exact h.down x c hc hl

section AddLeaf

variable (hfresh : nodes id = none)

include hfresh

theorem kids_of_fresh : nodes.kids id = [] := by
  rw [kids, hfresh]
  rfl

theorem innerAt_of_fresh : nodes.innerAt id = none := by
  rw [innerAt, hfresh]

/-- A new node is none of the old ones. -/
theorem ne_of_fresh {x : PageId} (hx : (nodes x).isSome) : x ≠ id := by
  rintro rfl
  rw [hfresh] at hx
  exact absurd hx (by simp)

/-- **A new leaf**, which is nobody's child. -/
theorem Shape.addLeaf (h : Shape nodes level root) (h0 : id ≠ 0) (hne : id ≠ invalidPageId)
    (hfits : n.Fits) :
    Shape (Function.update nodes id (some (.leaf n))) (Function.update level id 0) root := by
  have hkids := kids_update_leaf nodes n (kids_of_fresh hfresh)
  have hold : ∀ x, (nodes x).isSome → Function.update level id 0 x = level x :=
    fun x hx => Function.update_of_ne (ne_of_fresh hfresh hx) _ _
  have hroot := hold root h.root_mem
  refine ⟨(isSome_update _ _ _ _).mpr (Or.inr h.root_mem), ?_, ?_, ?_, ?_, ?_, ?_,
    fun x => hkids x ▸ h.nodup x⟩
  · -- page ids
    intro x hx
    rcases (isSome_update _ _ _ _).mp hx with rfl | hx
    · exact ⟨h0, hne⟩
    · exact h.ids x hx
  · -- sizes
    intro x m hx
    by_cases hxid : x = id
    · rw [hxid, Function.update_self] at hx
      rw [← Option.some.inj hx]
      exact hfits
    · rw [Function.update_of_ne hxid] at hx
      exact h.fits x m hx
  · -- the new leaf is on level 0, like the others
    intro x es hx
    rw [leafAt_update_leaf] at hx
    by_cases hxid : x = id
    · rw [hxid, Function.update_self]
    · rw [if_neg hxid] at hx
      rw [Function.update_of_ne hxid]
      exact h.level_leaf x es hx
  · -- inner nodes are the old ones
    intro x cs hx
    rw [innerAt_update_leaf nodes n (innerAt_of_fresh hfresh)] at hx
    have hxid : x ≠ id := by
      rintro rfl
      rw [innerAt_of_fresh hfresh] at hx
      exact absurd hx (by simp)
    rw [Function.update_of_ne hxid]
    exact h.level_inner x cs hx
  · -- children: nobody lists the new leaf
    intro x c hc
    rw [hkids] at hc
    obtain ⟨hcs, hl⟩ := h.kid x c hc
    obtain ⟨m, hm, -⟩ := internal_of_mem_kids hc
    rw [hold c hcs, hold x (by rw [hm]; rfl)]
    exact ⟨(isSome_update _ _ _ _).mpr (Or.inr hcs), hl⟩
  · -- the root is at least as high
    intro x hx
    rw [hroot]
    rcases (isSome_update _ _ _ _).mp hx with rfl | hx
    · rw [Function.update_self]
      exact Nat.zero_le _
    · rw [hold x hx]
      exact h.top x hx

theorem Parents.addLeaf {l : Nat} (h : Parents nodes level root l none)
    (hshape : Shape nodes level root) :
    Parents (Function.update nodes id (some (.leaf n))) (Function.update level id 0) root l
      (some id) := by
  have hkids := kids_update_leaf nodes n (kids_of_fresh hfresh)
  have hpar : ∀ x, x ≠ id → par (Function.update nodes id (some (.leaf n))) x = nodes.par x := by
    intro x hx
    rw [par_update, if_neg hx]
  refine ⟨(hpar root (ne_of_fresh hfresh hshape.root_mem)).trans h.root_par, ?_, ?_⟩
  · -- up: the pointer of the new leaf is not looked at, it is not linked yet
    intro c q hc hl hne hpend
    have hcid : c ≠ id := fun he => hpend (congrArg some he)
    rw [hpar c hcid] at hc
    rw [Function.update_of_ne hcid] at hl
    rw [hkids]
    exact h.up c q hc hl hne (by simp)
  · -- down: the children are the old nodes
    intro x c hc hl
    rw [hkids] at hc
    have hcid := ne_of_fresh hfresh (hshape.kid x c hc).1
    rw [Function.update_of_ne hcid] at hl
    rw [hpar c hcid]
    exact h.down x c hc hl

/-- The new leaf was split off `left`. -/
theorem Pending.addLeaf {left : PageId} {m : LeafNode} (hshape : Shape nodes level root)
    (hm : nodes left = some (.leaf m)) (hparent : n.header.parentPageId = m.header.parentPageId) :
    Pending (Function.update nodes id (some (.leaf n))) (Function.update level id 0) root left
      id := by
  have hs : (nodes left).isSome := by rw [hm]; rfl
  have hne := ne_of_fresh hfresh hs
  refine ⟨?_, ?_, ?_, ?_, (ne_of_fresh hfresh hshape.root_mem).symm, hne.symm⟩
  · -- a leaf is on level 0
    rw [Function.update_self, Function.update_of_ne hne]
    exact (hshape.level_leaf left _ (leafAt_of_some hm)).symm
  · -- both halves have one parent
    rw [par_update, par_update, if_pos rfl, if_neg hne, par_of_some hm]
    exact congrArg some hparent
  · exact (isSome_update _ _ _ _).mpr (Or.inr hs)
  · -- nobody lists the new leaf
    intro x hx
    rw [kids_update_leaf nodes n (kids_of_fresh hfresh)] at hx
    exact ne_of_fresh hfresh (hshape.kid x id hx).1 rfl

end AddLeaf

/-! ## 2. The chain

The first leaf of a chain stays the first: a new leaf always comes behind the one that was split. -/

/-- **The chain of leaves** from `first` visits every leaf once and ends. -/
structure Chain (nodes : NodeMap) (first : PageId) (chain : List PageId) : Prop where
  links : Segment nodes.next first chain invalidPageId
  nodup : chain.Nodup
  mem : ∀ id, id ∈ chain ↔ (nodes.leafAt id).isSome

/-- The entries on a chain. -/
def NodeMap.contents (nodes : NodeMap) (chain : List PageId) : List (KeyType × RID) :=
  chain.flatMap nodes.entriesAt

namespace Chain

theorem congr (h : Chain nodes first chain) (hleaves : nodes'.leafAt = nodes.leafAt) :
    Chain nodes' first chain := by
  have hnext : nodes'.next = nodes.next := by
    funext x
    rw [next, hleaves]
    rfl
  exact ⟨hnext ▸ h.links, h.nodup, fun x => hleaves ▸ h.mem x⟩

theorem leaf_mem (h : Chain nodes first chain) (hn : nodes id = some (.leaf n)) : id ∈ chain :=
  (h.mem id).mpr (by rw [leafAt_of_some hn]; rfl)

/-- Other entries in one leaf. -/
theorem setLeaf (h : Chain nodes first chain) (hn : nodes id = some (.leaf n))
    (hnext : n'.header.nextPageId = n.header.nextPageId) :
    Chain (Function.update nodes id (some (.leaf n'))) first chain := by
  refine ⟨h.links.congr fun x _ => ?_, h.nodup, fun x => ?_⟩
  · -- the link is the same
    rw [next, leafAt_update_leaf, next]
    split
    · rename_i hx
      rw [hx, leafAt_of_some hn]
      exact congrArg some hnext
    · rfl
  · -- and so is which pages hold leaves
    rw [h.mem, leafAt_update_leaf]
    split
    · rename_i hx
      rw [hx, leafAt_of_some hn]
      rfl
    · rfl

/-- **A leaf is split**: the new one follows it. -/
theorem split {left : PageId} {L R : LeafNode} (h : Chain nodes first (l₁ ++ left :: l₂))
    (hn : nodes left = some (.leaf n)) (hfresh : nodes id = none) (hL : L.header.nextPageId = id)
    (hR : R.header.nextPageId = n.header.nextPageId) :
    Chain (Function.update (Function.update nodes left (some (.leaf L))) id (some (.leaf R))) first
      (l₁ ++ left :: id :: l₂) := by
  have hleaf := leafAt_of_some hn
  have hne : left ≠ id := ne_of_fresh hfresh (by rw [hn]; rfl)
  have hid : id ∉ l₁ ++ left :: l₂ := by
    rw [h.mem, leafAt, hfresh]
    simp
  have hperm : (l₁ ++ left :: id :: l₂).Perm (id :: (l₁ ++ left :: l₂)) := by
    have hmid : (l₁ ++ [left] ++ id :: l₂).Perm (id :: (l₁ ++ [left] ++ l₂)) := List.perm_middle
    rwa [List.append_assoc, List.append_assoc] at hmid
  have hnd := h.nodup
  refine ⟨h.links.insert (fun z hz => ?_) ?_ ?_, ?_, fun x => ?_⟩
  · -- no leaf before the split one changes
    have hzl : z ≠ left := by
      rintro rfl
      rw [List.nodup_middle] at hnd
      exact (List.nodup_cons.mp hnd).1 hz
    have hzid : z ≠ id := by
      rintro rfl
      refine hid ?_
      rcases List.mem_append.mp hz with hz | hz
      · exact List.mem_append_left _ hz
      · exact List.mem_append_right _ (List.mem_cons_of_mem _ hz)
    rw [next, leafAt_update_leaf, if_neg hzid, leafAt_update_leaf, if_neg hzl]
    rfl
  · -- the left half links to the new leaf
    rw [next, leafAt_update_leaf, if_neg hne, leafAt_update_leaf, if_pos rfl, ← hL]
    rfl
  · -- which links to where the old one did
    rw [next, leafAt_update_leaf, if_pos rfl, next, hleaf]
    exact congrArg some hR
  · -- the new leaf is added to a chain without repetitions
    exact hperm.nodup_iff.mpr (List.nodup_cons.mpr ⟨hid, h.nodup⟩)
  · -- the leaves are the old ones and the new one
    rw [hperm.mem_iff, List.mem_cons, h.mem, leafAt_update_leaf, leafAt_update_leaf]
    by_cases hx : x = id
    · simp [hx]
    · by_cases hxl : x = left
      · simp [hne, hxl, hleaf]
      · simp [hx, hxl]

end Chain

/-! ## 3. The entries of a chain -/

section Contents

variable {left : PageId} {L R : LeafNode} {es : List (KeyType × RID)}

theorem entriesAt_of_leaf (hn : nodes id = some (.leaf n)) : nodes.entriesAt id = n.entries := by
  rw [entriesAt, leafAt_of_some hn]
  rfl

theorem contents_congr {ids : List PageId} (h : ∀ x ∈ ids, nodes'.leafAt x = nodes.leafAt x) :
    nodes'.contents ids = nodes.contents ids := by
  refine List.flatMap_congr fun x hx => ?_
  rw [entriesAt, h x hx]
  rfl

/-- The entries before, in and after one leaf. -/
theorem contents_middle (hn : nodes id = some (.leaf n)) :
    nodes.contents (l₁ ++ id :: l₂) = nodes.contents l₁ ++ n.entries ++ nodes.contents l₂ := by
  simp only [contents, List.flatMap_append, List.flatMap_cons, entriesAt_of_leaf hn,
    List.append_assoc]

/-- What the change of one leaf does to the entries of the chain. -/
theorem contents_setLeaf (hnd : (l₁ ++ id :: l₂).Nodup) :
    NodeMap.contents (Function.update nodes id (some (.leaf n'))) (l₁ ++ id :: l₂)
      = nodes.contents l₁ ++ n'.entries ++ nodes.contents l₂ := by
  have hid := (List.nodup_cons.mp (List.nodup_middle.mp hnd)).1
  have hother : ∀ x ∈ l₁ ++ l₂,
      leafAt (Function.update nodes id (some (.leaf n'))) x = nodes.leafAt x := by
    intro x hx
    rw [leafAt_update_leaf, if_neg]
    rintro rfl
    exact hid hx
  rw [contents_middle (Function.update_self _ _ _),
    contents_congr fun x hx => hother x (List.mem_append_left _ hx),
    contents_congr fun x hx => hother x (List.mem_append_right _ hx)]

/-- What the split of a leaf does to them. -/
theorem contents_split (hnd : (l₁ ++ left :: id :: l₂).Nodup) :
    NodeMap.contents
        (Function.update (Function.update nodes left (some (.leaf L))) id (some (.leaf R)))
        (l₁ ++ left :: id :: l₂)
      = nodes.contents l₁ ++ (L.entries ++ R.entries) ++ nodes.contents l₂ := by
  have hnd' : (l₁ ++ [left] ++ id :: l₂).Nodup := by
    rwa [List.append_assoc]
  have hright : NodeMap.contents
      (Function.update (Function.update nodes left (some (.leaf L))) id (some (.leaf R)))
      (l₁ ++ [left] ++ id :: l₂) = _ := contents_setLeaf hnd'
  have hlr : (l₁ ++ left :: l₂).Nodup := by
    refine hnd.sublist (List.Sublist.append_left ?_ _)
    exact List.Sublist.cons_cons _ (List.sublist_cons_self _ _)
  rw [List.append_assoc] at hright
  refine hright.trans ?_
  have hmem := (List.nodup_cons.mp (List.nodup_middle.mp hlr)).1
  have hother : ∀ x ∈ l₁ ++ l₂,
      leafAt (Function.update nodes left (some (.leaf L))) x = nodes.leafAt x := by
    intro x hx
    rw [leafAt_update_leaf, if_neg]
    rintro rfl
    exact hmem hx
  rw [contents_middle (Function.update_self _ _ _),
    contents_congr fun x hx => hother x (List.mem_append_left _ hx),
    contents_congr fun x hx => hother x (List.mem_append_right _ hx)]
  simp [contents]

end Contents

end CourtDB
