/-
# Insert and Delete in the buffer pool

What `Insert` and `Delete` do to the nodes and the pages of a tree, under every pattern of refusals.

* `Insert` into an empty tree makes a leaf, unless there is no page for it (`wpr_insertFirst`).
* Otherwise it goes down to a leaf.  It changes nothing when it cannot reach the leaf, and when the
  leaf is full and there is no page for a new one; in both cases it returns false.
* A leaf with room takes the entry.
* A full leaf is split: the 407 entries, the new one among them, are halved, the right half goes to
  the new page, which is linked into the chain behind the left one, and `InsertIntoParent` is called
  with the first key of the right half (`wpr_insertSplitting`).

The halves are written before the parent is told, so from here on `Insert` returns true, whatever
`InsertIntoParent` comes to: `Links` knows whether the right leaf was linked, `Insert` does not.

`LeafSplit` collects what is known of a leaf at its split, and `LeafSplit.ready` is the bridge to
`InsertIntoParent`: after the split the two leaves are `Ready` for it.
-/
import CourtDB.Index.TreeLinking
import CourtDB.Index.TreeSearch

namespace CourtDB

open NodeMap

/-! ## 1. Nodes and views

The source builds the halves in the arrays of the two leaves.  `leftHalf` and `rightHalf` are the
same as functions of the entries; nothing of what the new page held before is left in the right one
(`splitRight_eq`). -/

/-- A view with nothing pinned is so again. -/
theorem Moves.quiet {n : Nat} {m : PageId → Option Page} {nodes nodes' : NodeMap} {v' : View}
    (h : Moves (View.quiet n m) nodes v' nodes') :
    v' = View.quiet n v'.pages ∧ PagesMove m nodes v'.pages nodes' := by
  refine ⟨?_, h.pages⟩
  obtain ⟨frames, pages, pins, changed⟩ := v'
  obtain rfl : frames = n := h.frames
  obtain rfl : pins = fun _ => 0 := h.pins
  obtain rfl : changed = fun _ => false := by
    funext id
    cases hc : changed id with
    | false => rfl
    | true => exact absurd (h.changed id hc) (by simp [View.quiet])
  rfl

namespace LeafNode

/-- All entries of a full leaf and the new one. -/
def withEntry (n : LeafNode) (key : KeyType) (rid : RID) : List (KeyType × RID) :=
  n.overflow key rid defaultKeyComparator

/-- The halves of a full leaf. -/
def leftHalf (n : LeafNode) (key : KeyType) (rid : RID) (rightPageId : PageId) : LeafNode :=
  n.splitLeft (n.withEntry key rid) rightPageId

def rightHalf (n : LeafNode) (key : KeyType) (rid : RID) : LeafNode :=
  n.splitRight n (n.withEntry key rid)

/-- The key at which a full leaf is split. -/
def splitKey (n : LeafNode) (key : KeyType) (rid : RID) : KeyType :=
  (n.rightHalf key rid).getKeyAt 0

/-- Nothing of the node on the new page is kept. -/
theorem splitRight_eq (n fresh : LeafNode) (key : KeyType) (rid : RID) :
    n.splitRight fresh (n.withEntry key rid) = n.rightHalf key rid := rfl

end LeafNode

/-- The nodes after a leaf was split. -/
def NodeMap.splitLeaf (nodes : NodeMap) (leaf id : PageId) (n : LeafNode) (key : KeyType)
    (rid : RID) : NodeMap :=
  Function.update (Function.update nodes leaf (some (.leaf (n.leftHalf key rid id)))) id
    (some (.leaf (n.rightHalf key rid)))

/-- A leaf that is split, with the entry that made it overflow. -/
structure LeafSplit (nodes : NodeMap) (level : PageId → Nat) (root leaf id : PageId)
    (n : LeafNode) : Prop where
  shape : Shape nodes level root
  parents : Parents nodes level root 0 none
  node : nodes leaf = some (.leaf n)
  full : n.entries.length = 406
  sorted : SortedEntries n.entries
  fresh : nodes id = none
  ne_zero : id ≠ 0
  ne_invalid : id ≠ invalidPageId

namespace LeafSplit

variable {nodes : NodeMap} {level : PageId → Nat} {root leaf id : PageId} {n : LeafNode}
  {key : KeyType} {rid : RID}

section

variable (h : LeafSplit nodes level root leaf id n)

include h

theorem fits : n.Fits := h.shape.fits leaf _ h.node

theorem leaf_ne : leaf ≠ id := ne_of_fresh h.fresh (by rw [h.node]; rfl)

/-- A full leaf and the new entry: 407, one too many. -/
theorem length : (n.withEntry key rid).length = 407 := by
  rw [LeafNode.withEntry, LeafNode.length_overflow h.fits, h.full]

theorem fits_left : (n.leftHalf key rid id).Fits := LeafNode.fits_splitLeft h.fits h.length

theorem fits_right : (n.rightHalf key rid).Fits := LeafNode.fits_splitRight h.length

theorem fresh' : Function.update nodes leaf (some (.leaf (n.leftHalf key rid id))) id = none := by
  rw [Function.update_of_ne h.leaf_ne.symm, h.fresh]

/-- The downward links after a split. -/
theorem shape_split :
    Shape (nodes.splitLeaf leaf id n key rid) (Function.update level id 0) root :=
  (h.shape.setLeaf h.node h.fits_left).addLeaf h.fresh' h.ne_zero h.ne_invalid h.fits_right

/-- The right half is not linked yet. -/
theorem parents_split :
    Parents (nodes.splitLeaf leaf id n key rid) (Function.update level id 0) root 0 (some id) :=
  have hleft : Parents (Function.update nodes leaf (some (.leaf (n.leftHalf key rid id)))) level
      root 0 none := h.parents.setLeaf h.node rfl
  hleft.addLeaf h.fresh' (h.shape.setLeaf h.node h.fits_left)

theorem pending_split :
    Pending (nodes.splitLeaf leaf id n key rid) (Function.update level id 0) root leaf id :=
  Pending.addLeaf h.fresh' (h.shape.setLeaf h.node h.fits_left) (Function.update_self _ _ _) rfl

theorem level_leaf : Function.update level id 0 leaf = 0 := by
  rw [Function.update_of_ne h.leaf_ne]
  exact h.shape.level_leaf leaf _ (leafAt_of_some h.node)

/-- **After a split** `InsertIntoParent` can be called. -/
theorem ready {N : Nat} {m : PageId → Option Page} {v : View} (hm : m id = none)
    (hholds : Holds v.pages (nodes.splitLeaf leaf id n key rid))
    (hpins : v.pins = ((View.held N m leaf false).add id).pins)
    (hchanged : ∀ x, v.changed x = true → x = leaf ∨ x = id) :
    Ready v (nodes.splitLeaf leaf id n key rid) (Function.update level id 0) root leaf id := by
  have hne := h.leaf_ne
  have hpin : ∀ x, v.pins x = if x = leaf ∨ x = id then 1 else 0 := by
    intro x
    rw [hpins]
    by_cases hx : x = id
    · simp [View.add, hx]
    · by_cases hxl : x = leaf
      · simp [View.add, View.held, hxl, hne]
      · simp [View.add, View.held, hx, hxl]
  refine ⟨h.shape_split, ?_, h.pending_split, hholds, ?_, fun x => ?_, fun x hx => ?_, ?_⟩
  · -- the leaf is on level 0, where every pointer is looked at
    rw [h.level_leaf]
    exact h.parents_split
  · -- the leaf is pinned, and nothing twice
    simp [hpin]
  · rw [hpin]
    split <;> omega
  · -- what was written is what is pinned
    rw [hpin, if_pos (hchanged x hx)]
  · -- no node above is pinned
    intro x hx hlt
    rw [h.level_leaf] at hlt
    rw [hpin, if_neg]
    rintro (rfl | rfl)
    · rw [h.level_leaf] at hlt
      exact absurd hlt (lt_irrefl 0)
    · rw [Function.update_self] at hlt
      exact absurd hlt (lt_irrefl 0)

end

end LeafSplit

/-! ## 2. Insert

The view is that of the whole pool, so pages of others stand beside those of the tree: they are not
read and not changed, and only take frames. -/

namespace PoolM

variable {mode : PoolMode} {ps : Refusals} {nodes : NodeMap} {level : PageId → Nat}
  {leaf root : PageId} {n p limit fuel : Nat} {m : PageId → Option Page} {key : KeyType}
  {rid : RID} {inner : List PageId} {k : LeafNode}

/-- **A full leaf**: it is split, unless there is no page for the right half. -/
theorem wpr_insertSplitting {Q : Option (Bool × BPlusTree) → Refusals × View → Prop}
    (hshape : Shape nodes level root) (hparents : Parents nodes level root 0 none)
    (hholds : Holds m nodes) (hk : nodes leaf = some (.leaf k)) (hfull : k.entries.length = 406)
    (hsorted : SortedEntries k.entries) (hmode : mode.Allows n limit)
    (hw : (View.quiet n m).Within p) (hp : p + 1 + fuel ≤ limit) (hfuel : level root < fuel)
    (hrefused : ps.headD false = true →
      Q (some (false, ⟨root, defaultKeyComparator⟩)) (ps.tail, View.quiet n m))
    (hsplit : ps.headD false = false → ∀ id s' linked m',
      LeafSplit nodes level root leaf id k →
      Links ⟨ps.tail, nodes.splitLeaf leaf id k key rid, root⟩ leaf (k.splitKey key rid) id s'
        linked →
      PagesMove m nodes m' s'.nodes → (View.quiet n m').Within (p + 1 + fuel) →
      Q (some (true, ⟨s'.root, defaultKeyComparator⟩)) (s'.refusals, View.quiet n m')) :
    wpr mode (BPlusTree.insertSplitting fuel ⟨root, defaultKeyComparator⟩ leaf k key rid) Q
      (ps, View.held n m leaf false) := by
  obtain ⟨q, hq, hstores⟩ := hholds _ _ hk
  have hs : ((View.quiet n m).pages leaf).isSome := by
    change (m leaf).isSome
    rw [hq]
    rfl
  -- the frames that are needed: one for the leaf, one for the new page
  have hheld : (View.held n m leaf false).Within p := View.quiet_pin ▸ hw.pin hs
  rw [BPlusTree.insertSplitting, wpr, Program.wp_bind]
  refine wpr_newPage (hmode.mono (by omega)) rfl hheld (fun hr => ?_)
    fun hr id h0 hne hfresh hpin => ?_
  · -- the leaf was not changed
    simp only []
    rw [Program.wp_bind]
    exact wpr_unpin_held (fun h => absurd h Bool.false_ne_true) (hrefused hr)
  · have hm : m id = none := hfresh
    have hsplitting : LeafSplit nodes level root leaf id k :=
      ⟨hshape, hparents, hk, hfull, hsorted, hholds.none hm, h0, hne⟩
    have hlne := hsplitting.leaf_ne
    -- the pages after `NewPage`
    let v₁ := (View.held n m leaf false).add id
    have hself : v₁.pages id = some (Page.ofId id) := Function.update_self _ _ _
    have hposid : 0 < v₁.pins id := by simp [v₁, View.add]
    have hposleaf : 0 < v₁.pins leaf := by simp [v₁, View.add, View.held, hlne]
    have hleaf₁ : v₁.pages leaf = some q := by
      rw [← hq]
      exact Function.update_of_ne hlne _ _
    simp only []
    unfold LeafNode.load
    rw [Program.wp_bind, Program.wp_bind]
    -- the new page is read before it is filled, as the source does
    refine wpr_readPage hposid hself fun q' _ => ?_
    rw [Program.wp_pure, ← LeafNode.withEntry, LeafNode.splitRight_eq, Program.wp_bind]
    -- the halves are stored
    refine LeafNode.wpr_store hposleaf hleaf₁ hstores.bare hsplitting.fits_left fun p₁ hp₁ => ?_
    rw [Program.wp_bind]
    have hid₂ : (v₁.write leaf p₁).pages id = some (Page.ofId id) := by
      rw [← hself]
      exact Function.update_of_ne hlne.symm _ _
    refine LeafNode.wpr_store hposid hid₂ (bare_ofId id) hsplitting.fits_right fun p₂ hp₂ => ?_
    let v₃ := (v₁.write leaf p₁).write id p₂
    have hpages : PagesMove m nodes v₃.pages (nodes.splitLeaf leaf id k key rid) :=
      PagesMove.add (PagesMove.write (hholds.add hm (Page.ofId id)) (by rw [hk]; rfl) hp₁) hm hp₂
    -- only the two halves have been written
    have hchanged : ∀ x, v₃.changed x = true → x = leaf ∨ x = id := by
      intro x hx
      by_cases hxid : x = id
      · exact Or.inr hxid
      · by_cases hxl : x = leaf
        · exact Or.inl hxl
        · simp [v₃, v₁, View.write, View.add, View.held, hxid, hxl] at hx
    have hready := hsplitting.ready hm hpages.holds (v := v₃) rfl hchanged
    have hw₃ : v₃.Within (p + 1) :=
      (hheld.add.write (by rw [hleaf₁]; rfl) p₁).write (by rw [hid₂]; rfl) p₂
    -- the recursion starts at level 0 and has fuel for every level
    have hlev : Function.update level id 0 root < Function.update level id 0 leaf + fuel := by
      rw [hsplitting.level_leaf, Function.update_of_ne
        (ne_of_fresh hsplitting.fresh hshape.root_mem), Nat.zero_add]
      exact hfuel
    -- the parents are told
    rw [Program.wp_bind]
    refine wpr_insertIntoParent fuel (s := ⟨ps.tail, nodes.splitLeaf leaf id k key rid, root⟩)
      hready hlev hmode rfl hw₃ hp fun s' linked v' hlinks hmoves hw' => ?_
    have hpins' := hmoves.pins
    simp only []
    rw [Program.wp_bind]
    -- both halves are given back written
    refine wpr_unpinPage ?_ (fun _ _ => rfl) ?_
    · rw [hpins']
      exact Nat.ne_of_gt hposleaf
    rw [Program.wp_bind]
    refine wpr_unpinPage ?_ (fun _ _ => rfl) ?_
    · simp only [View.unpin]
      rw [Function.update_of_ne hlne.symm, hpins']
      exact Nat.ne_of_gt hposid
    rw [Program.wp_pure]
    have hfinal : Moves (View.quiet n m) nodes ((v'.unpin leaf true).unpin id true) s'.nodes :=
      -- every pin is gone, so the pool is quiet again
      Moves.unpin_two hlne.symm hmoves.frames hmoves.pins
        (fun x hx => (hchanged x (hmoves.changed x hx)).imp_right Or.inl)
        (hpages.trans hmoves.pages)
    obtain ⟨hquiet, hmove⟩ := hfinal.quiet
    have hwithin : ((v'.unpin leaf true).unpin id true).Within (p + 1 + fuel) :=
      (hw'.unpin true).unpin true
    rw [hquiet] at hwithin ⊢
    exact hsplit hr id s' linked _ hsplitting hlinks hmove hwithin

/-- **Insert** into a tree that is not empty. -/
theorem wpr_insert {Q : Option (Bool × BPlusTree) → Refusals × View → Prop}
    (hshape : Shape nodes level root) (hparents : Parents nodes level root 0 none)
    (hholds : Holds m nodes) (h : Descends nodes key root inner leaf)
    (hk : nodes leaf = some (.leaf k)) (hsorted : SortedEntries k.entries)
    (hmode : mode.Allows n limit) (hw : (View.quiet n m).Within p) (hp : p + 1 + fuel ≤ limit)
    (hfuel : inner.length < fuel ∧ level root < fuel)
    (hlost : ∀ ps', ¬ ps.Grants (inner.length + 1) →
      Q (some (false, ⟨root, defaultKeyComparator⟩)) (ps', View.quiet n m))
    (hroom : ps.Grants (inner.length + 1) → k.entries.length < 406 → ∀ m',
      PagesMove m nodes m' (Function.update nodes leaf (some (.leaf (k.inserted key rid)))) →
      (View.quiet n m').Within p →
      Q (some (true, ⟨root, defaultKeyComparator⟩)) (ps.drop (inner.length + 1), View.quiet n m'))
    (hrefused : ps.Grants (inner.length + 1) → k.entries.length = 406 →
      (ps.drop (inner.length + 1)).headD false = true →
      Q (some (false, ⟨root, defaultKeyComparator⟩))
        ((ps.drop (inner.length + 1)).tail, View.quiet n m))
    (hsplit : ps.Grants (inner.length + 1) → (ps.drop (inner.length + 1)).headD false = false →
      ∀ id s' linked m', LeafSplit nodes level root leaf id k →
      Links ⟨(ps.drop (inner.length + 1)).tail, nodes.splitLeaf leaf id k key rid, root⟩ leaf
        (k.splitKey key rid) id s' linked →
      PagesMove m nodes m' s'.nodes → (View.quiet n m').Within (p + 1 + fuel) →
      Q (some (true, ⟨s'.root, defaultKeyComparator⟩)) (s'.refusals, View.quiet n m')) :
    wpr mode (BPlusTree.insert fuel ⟨root, defaultKeyComparator⟩ key rid) Q
      (ps, View.quiet n m) := by
  obtain ⟨hcan, -, hfail⟩ := hmode (View.quiet n m) rfl (hw.mono (by omega))
  have hroot := (hshape.ids root hshape.root_mem).2
  have hfits : k.Fits := hshape.fits leaf _ hk
  rw [BPlusTree.insert, if_neg hroot, wpr, Program.wp_bind]
  -- one of the fetches on the path may be refused
  refine wpr_findLeafPage ⟨hcan, hfail⟩ hholds (fun id hs => (hshape.ids id hs).1) h hfuel.1
    (fun ps' hng => hlost ps' hng) fun hg => ?_
  simp only []
  rw [Program.wp_bind]
  refine LeafNode.wpr_load held_pos hholds hk ?_
  rcases Nat.lt_or_ge k.entries.length 406 with hlt | hge
  · -- the leaf has room: it is written and given back
    obtain ⟨q, hq, hstores⟩ := hholds _ _ hk
    simp only [LeafNode.insert_of_lt hfits hlt]
    rw [Program.wp_bind]
    refine LeafNode.wpr_store held_pos hq hstores.bare (hfits.inserted hlt key rid)
      fun p₁ hp₁ => ?_
    rw [Program.wp_bind, View.held_write]
    refine wpr_unpin_held (fun _ => rfl) ?_
    rw [Program.wp_pure]
    have hq' : ((View.quiet n m).pages leaf).isSome := by
      change (m leaf).isSome
      rw [hq]
      rfl
    exact hroom hg hlt _ (PagesMove.write hholds (by rw [hk]; rfl) hp₁) (hw.write hq' p₁)
  · -- the leaf is full
    have hfull : k.entries.length = 406 := Nat.le_antisymm hfits.le hge
    simp only [LeafNode.insert_of_full hfits hfull]
    exact wpr_insertSplitting hshape hparents hholds hk hfull hsorted hmode hw hp hfuel.2
      (hrefused hg hfull) (hsplit hg)

/-- The leaf root of a tree with one entry. -/
def firstLeaf (key : KeyType) (rid : RID) : LeafNode :=
  ⟨⟨.leafNode, invalidPageId, 1, invalidPageId⟩, [(key, rid)]⟩

/-- **Insert** into an empty tree. -/
theorem wpr_insertFirst {Q : Option (Bool × BPlusTree) → Refusals × View → Prop}
    (hmode : mode.Allows n limit) (hw : (View.quiet n m).Within p) (hp : p ≤ limit)
    (hrefused : ps.headD false = true →
      Q (some (false, ⟨invalidPageId, defaultKeyComparator⟩)) (ps.tail, View.quiet n m))
    (hQ : ps.headD false = false → ∀ id m', id ≠ 0 → id ≠ invalidPageId → m id = none →
      PagesMove m (fun _ => none) m'
        (Function.update (fun _ => none) id (some (.leaf (firstLeaf key rid)))) →
      (View.quiet n m').Within (p + 1) →
      Q (some (true, ⟨id, defaultKeyComparator⟩)) (ps.tail, View.quiet n m')) :
    wpr mode (BPlusTree.insert fuel ⟨invalidPageId, defaultKeyComparator⟩ key rid) Q
      (ps, View.quiet n m) := by
  rw [BPlusTree.insert, if_pos rfl, wpr, Program.wp_bind, BPlusTree.insertFirst, Program.wp_bind]
  -- the only request is that for the page of the root
  refine wpr_newPage (hmode.mono hp) rfl hw hrefused fun hr id h0 hne hfresh _ => ?_
  have hm : m id = none := hfresh
  simp only []
  have hempty : (⟨⟨.leafNode, invalidPageId, 0, invalidPageId⟩, []⟩ : LeafNode).Fits :=
    ⟨rfl, rfl, Nat.zero_le _⟩
  -- the leaf has the entry alone
  have hleaf : ((⟨⟨.leafNode, invalidPageId, 0, invalidPageId⟩, []⟩ : LeafNode).insert key rid
      defaultKeyComparator).2 = firstLeaf key rid := by
    rw [LeafNode.insert_of_lt hempty (Nat.zero_lt_succ 405), LeafNode.inserted,
      LeafNode.overflow_eq hempty List.Pairwise.nil]
    rfl
  have hself : ((View.quiet n m).add id).pages id = some (Page.ofId id) :=
    Function.update_self _ _ _
  rw [hleaf, View.quiet_add_held, Program.wp_bind]
  rw [View.quiet_add_held] at hself
  refine LeafNode.wpr_store held_pos hself (bare_ofId id)
    ⟨rfl, rfl, Nat.le_add_left 1 405⟩ fun p₁ hp₁ => ?_
  rw [Program.wp_bind, View.held_write]
  refine wpr_unpin_held (fun _ => rfl) ?_
  rw [Program.wp_pure]
  -- there was no node before
  have hholds : Holds m (fun _ => none) := fun x k hx => absurd hx (by simp)
  refine hQ hr id _ h0 hne hm (PagesMove.add (.refl (hholds.add hm (Page.ofId id))) hm hp₁) ?_
  have hadd : (((View.quiet n m).add id).unpin id true).Within (p + 1) := hw.add.unpin true
  rw [View.quiet_add_held, View.held_unpin fun _ => rfl] at hadd
  have hs : ((View.quiet n (Function.update m id (some (Page.ofId id)))).pages id).isSome := by
    simp [View.quiet]
  exact hadd.write hs p₁

/-! ## 3. Delete

`Delete` looks into one leaf only, the one that `FindLeafPage` returns.  It removes the first entry
with this key and record id, and never takes a node away, however empty it gets. -/

/-- **Delete** removes one occurrence of the entry from its leaf, if it is there. -/
theorem wpr_delete {Q : Option Bool → Refusals × View → Prop}
    (hshape : Shape nodes level root) (hholds : Holds m nodes)
    (h : Descends nodes key root inner leaf) (hk : nodes leaf = some (.leaf k))
    (hsorted : SortedEntries k.entries) (hserve : mode.Serves n 0) (hfuel : inner.length < fuel)
    (habsent : (key, rid) ∉ k.entries → Q (some false) ([], View.quiet n m))
    (herased : ∀ i m', i < k.entries.length →
      k.entries.Perm ((key, rid) :: (k.erased i).entries) →
      PagesMove m nodes m' (Function.update nodes leaf (some (.leaf (k.erased i)))) →
      Q (some true) ([], View.quiet n m')) :
    wpr mode (BPlusTree.delete fuel ⟨root, defaultKeyComparator⟩ key rid) Q
      ([], View.quiet n m) := by
  have hroot := (hshape.ids root hshape.root_mem).2
  have hfits : k.Fits := hshape.fits leaf _ hk
  rw [BPlusTree.delete, if_neg hroot, wpr, Program.wp_bind]
  refine wpr_findLeafPage (hserve _ rfl View.pinsAtMost_quiet) hholds
    (fun id hs => (hshape.ids id hs).1) h hfuel
    (fun ps' hng => absurd (Refusals.grants_nil _) hng) fun _ => ?_
  simp only [List.drop_nil]
  rw [Program.wp_bind]
  refine LeafNode.wpr_load held_pos hholds hk ?_
  rcases LeafNode.delete_cases hfits hsorted key rid with ⟨hno, hdel⟩ | ⟨i, hdel, hi, hperm⟩
  · -- the entry is not there: the leaf is given back as it was
    simp only [hdel]
    rw [Program.wp_bind]
    exact wpr_unpin_held (fun h => absurd h Bool.false_ne_true) (habsent hno)
  · obtain ⟨q, hq, hstores⟩ := hholds _ _ hk
    simp only [hdel]
    rw [Program.wp_bind]
    refine LeafNode.wpr_store held_pos hq hstores.bare (hfits.erased hi) fun p₁ hp₁ => ?_
    rw [Program.wp_bind, View.held_write]
    refine wpr_unpin_held (fun _ => rfl) ?_
    exact herased i _ hi hperm (PagesMove.write hholds (by rw [hk]; rfl) hp₁)

end PoolM

end CourtDB
