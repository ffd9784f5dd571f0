/-
# What a tree holds at a time

Like those of a heap file, the operations of a tree give back what they fetched whatever they are
answered.  `Delete`, `Lookup` and `RangeScan` hold one page at a time.  `Insert` holds a leaf with
its split sibling, and a parent with its own for every level that `InsertIntoParent` climbs, so the
bound grows with the fuel: two pages for each round of the recursion, and three besides.

A run without enough fuel ends in the middle with pages in hand; the statements are about runs with
a result (`Settles`).

Nothing is asked of the tree or of the pages.  The account is by page ids as they stand in the
program, the ids that were fetched; that a page knows its id is a matter of the pool
(`Index.PinNeutral` has the account for trees whose pages are as the source made them).
-/
import CourtDB.Buffer.OwnPins
import CourtDB.Index.BTree

namespace CourtDB

open PoolM

/-- From any pages held the program is tidy, never holds more than `d` besides, and has given them
back when it has a result.  A run that ends without one may hold what it likes. -/
def PoolM.Settles {α : Type} (d : Nat) (m : PoolM (Option α)) : Prop :=
  ∀ k held, held.length + d ≤ k → m.Tidy k (fun r held' => r.isSome = true → held' = held) held

/-- The first of two pages that were pinned is given back first. -/
theorem PoolM.tidy_unpinBelow {k : Nat} {held : List PageId} {id id' : PageId} {isDirty : Bool}
    {T : Bool → List PageId → Prop} (hT : ∀ r, T r (id' :: held)) :
    Tidy k (unpinPage id isDirty) T (id' :: id :: held) := by
  refine ⟨List.mem_cons_of_mem _ List.mem_cons_self, fun r => ?_⟩
  by_cases hid : id' = id
  · rw [hid, List.erase_cons_head, ← hid]
    exact hT r
  · rw [List.erase_cons_tail (by simpa using hid), List.erase_cons_head]
    exact hT r

namespace BPlusTree

/-! ## 1. Insert

`CreateNewRoot` and the patching of children hold one page besides those of their callers, and a
split parent is held with its sibling while the node above is changed. -/

theorem tidy_loadLeaf {k : Nat} {held : List PageId} {id : PageId}
    {T : LeafNode → List PageId → Prop} (hT : ∀ n, T n held) :
    Tidy k (LeafNode.load id) T held := by
  rw [LeafNode.load, Tidy, Program.wp_bind]
  exact tidy_readPage fun p => hT _

theorem tidy_storeLeaf {k : Nat} {held : List PageId} {n : LeafNode} {id : PageId}
    {T : Unit → List PageId → Prop} (hT : T () held) : Tidy k (n.store id) T held := by
  rw [LeafNode.store, Tidy, Program.wp_bind]
  exact tidy_readPage fun p => tidy_writePage hT

theorem tidy_loadInternal {k : Nat} {held : List PageId} {id : PageId}
    {T : InternalNode → List PageId → Prop} (hT : ∀ n, T n held) :
    Tidy k (InternalNode.load id) T held := by
  rw [InternalNode.load, Tidy, Program.wp_bind]
  exact tidy_readPage fun p => hT _

theorem tidy_storeInternal {k : Nat} {held : List PageId} {n : InternalNode} {id : PageId}
    {T : Unit → List PageId → Prop} (hT : T () held) : Tidy k (n.store id) T held := by
  rw [InternalNode.store, Tidy, Program.wp_bind]
  exact tidy_readPage fun p => tidy_writePage hT

/-- A child is held only while its parent pointer is written. -/
theorem balanced_updateParentPointer (parentId childId : PageId) :
    (updateParentPointer parentId childId).Balanced 1 := by
  -- the child is pinned, written and given back
  intro k held hroom
  rw [updateParentPointer, Tidy, Program.wp_bind]
  refine tidy_fetchPage (by omega) rfl ?_
  simp only [if_true]
  rw [Program.wp_bind]
  refine tidy_readPage fun p => ?_
  rw [Program.wp_bind]
  refine tidy_writePage ?_
  rw [Program.wp_bind]
  exact tidy_unpinPage fun _ => rfl

theorem balanced_updateParentPointers (parentId : PageId) (children : List PageId) :
    (children.forM (updateParentPointer parentId)).Balanced 1 := by
  induction children with
  | nil => exact fun _ _ _ => rfl
  | cons c children ih =>
    intro k held hroom
    -- each child gives its page back before the next is fetched
    change Program.wp _ (updateParentPointer parentId c >>= fun _ => children.forM _) _ _
    rw [Program.wp_bind]
    exact (balanced_updateParentPointer parentId c).tidy hroom fun _ => ih k held hroom

/-- The new root is held while its two children are. -/
theorem balanced_createNewRoot (t : BPlusTree) (leftId : PageId) (splitKey : KeyType)
    (rightId : PageId) : (t.createNewRoot leftId splitKey rightId).Balanced 2 := by
  intro k held hroom
  rw [createNewRoot, Tidy, Program.wp_bind]
  -- the page of the new root, and above it one child at a time
  refine tidy_newPage (by omega) rfl fun id => ?_
  have hroom' : (id :: held).length + 1 ≤ k := by
    rw [List.length_cons]
    omega
  simp only []
  rw [Program.wp_bind]
  refine tidy_loadInternal fun fresh => ?_
  rw [Program.wp_bind]
  refine tidy_storeInternal ?_
  rw [Program.wp_bind]
  refine (balanced_updateParentPointer id leftId).tidy hroom' fun _ => ?_
  rw [Program.wp_bind]
  refine (balanced_updateParentPointer id rightId).tidy hroom' fun _ => ?_
  rw [Program.wp_bind]
  exact tidy_unpinPage fun _ => rfl

/-- **InsertIntoParent**: two pages for every level. -/
theorem settles_insertIntoParent : ∀ (fuel : Nat) (t : BPlusTree) (leftId : PageId)
    (splitKey : KeyType) (rightId : PageId),
    (insertIntoParent fuel t leftId splitKey rightId).Settles (2 * fuel + 1)
  | 0, _, _, _, _ => fun _ _ _ hr => absurd hr (by simp)
  | fuel + 1, t, leftId, splitKey, rightId => fun k held hroom => by
    unfold insertIntoParent
    rw [Tidy, Program.wp_bind]
    refine tidy_readPage fun leftPage => ?_
    simp only []
    -- the root was split
    split
    · rw [Program.wp_bind]
      exact (balanced_createNewRoot t leftId splitKey rightId).tidy (by omega) fun _ _ => rfl
    rw [Program.wp_bind]
    -- one page for the parent
    refine tidy_fetchPage (by omega) (fun _ => rfl) ?_
    simp only [if_true]
    rw [Program.wp_bind]
    refine tidy_loadInternal fun parent => ?_
    split
    · -- a second one for its right half, if the parent is full
      rw [Program.wp_bind]
      refine tidy_newPage (by rw [List.length_cons]; omega) ?_ fun id => ?_
      · simp only []
        rw [Program.wp_bind]
        exact tidy_unpinPage fun _ _ => rfl
      -- both are held while the level above is changed
      have hroom' : ∀ parentId, (id :: parentId :: held).length + (2 * fuel + 1) ≤ k := by
        intro parentId
        rw [List.length_cons, List.length_cons]
        omega
      simp only []
      rw [Program.wp_bind]
      refine tidy_loadInternal fun fresh => ?_
      rw [Program.wp_bind]
      refine (balanced_updateParentPointers id _).tidy ?_ fun _ => ?_
      · exact (Nat.add_le_add_left (Nat.le_add_left 1 _) _).trans (hroom' _)
      rw [Program.wp_bind]
      refine tidy_storeInternal ?_
      rw [Program.wp_bind]
      refine tidy_storeInternal ?_
      rw [Program.wp_bind]
      -- the recursive call leaves what it found: this parent, its sibling, and the pages below
      refine Program.wp_mono (settles_insertIntoParent fuel t _ _ id k _ (hroom' _))
        fun r held' hheld => ?_
      cases r with
      | none => exact fun hr => absurd hr (by simp)
      | some t' =>
        obtain rfl := hheld rfl
        simp only []
        rw [Program.wp_bind]
        refine tidy_unpinBelow fun _ => ?_
        rw [Program.wp_bind]
        exact tidy_unpinPage fun _ _ => rfl
    · -- a parent with room is written and given back
      rw [Program.wp_bind]
      refine tidy_storeInternal ?_
      rw [Program.wp_bind]
      exact tidy_unpinPage fun _ _ => rfl

/-! ## 2. Descending

The page that `FindLeafPage` returns is pinned for its caller, who gives it back.  All callers have
the same shape, a search and then what is done with the leaf, so `settles_withLeaf` treats them at
once. -/

/-- **FindLeafPage** leaves the leaf that it finds with its caller, and no other page. -/
theorem tidy_descend (t : BPlusTree) (key : KeyType) : ∀ (fuel : Nat) (id : PageId) {k : Nat}
    {held : List PageId}, held.length < k →
    Tidy k (t.descend key fuel id)
      (fun r held' => ∀ leaf, r = some leaf → held' = leaf.toList ++ held) (id :: held)
  | 0, _, _, _, _ => fun _ hr => absurd hr (by simp)
  | fuel + 1, id, k, held, hroom => by
    unfold descend
    rw [Tidy, Program.wp_bind]
    refine tidy_readPage fun p => ?_
    split
    · -- a leaf is handed to the caller
      intro leaf hr
      obtain rfl := Option.some.inj hr
      rfl
    simp only []
    rw [Program.wp_bind]
    -- an inner node is given back before its child is fetched
    refine tidy_unpinPage fun _ => ?_
    rw [Program.wp_bind]
    refine tidy_fetchPage hroom (fun leaf hr => ?_) (tidy_descend t key fuel _ hroom)
    obtain rfl := Option.some.inj hr
    rfl

theorem tidy_findLeafPage (t : BPlusTree) (key : KeyType) (fuel : Nat) {k : Nat}
    {held : List PageId} (hroom : held.length < k) :
    Tidy k (t.findLeafPage fuel key)
      (fun r held' => ∀ leaf, r = some leaf → held' = leaf.toList ++ held) held := by
  rw [findLeafPage, Tidy, Program.wp_bind]
  refine tidy_fetchPage hroom (fun leaf hr => ?_) (tidy_descend t key fuel _ hroom)
  obtain rfl := Option.some.inj hr
  rfl

/-- What follows a search: nothing was found, or the leaf is held. -/
theorem settles_withLeaf {α : Type} {t : BPlusTree} {key : KeyType} {fuel d : Nat}
    {f : Option (Option PageId) → PoolM (Option α)} (hd : 1 ≤ d)
    (hnone : f none = pure none) (hnull : (f (some none)).Settles d)
    (hleaf : ∀ leaf k held, held.length + d ≤ k → Tidy k (f (some (some leaf)))
      (fun r held' => r.isSome = true → held' = held) (leaf :: held)) :
    (t.findLeafPage fuel key >>= f).Settles d := by
  intro k held hroom
  rw [Tidy, Program.wp_bind]
  refine Program.wp_mono (tidy_findLeafPage t key fuel (by omega)) fun r held' hheld => ?_
  -- nothing is said of a search that ran out of fuel
  rcases r with - | - | leaf
  · rw [hnone]
    exact fun hr => absurd hr (by simp)
  · obtain rfl := hheld none rfl
    exact hnull k _ hroom
  · obtain rfl := hheld (some leaf) rfl
    exact hleaf leaf k held hroom

/-- The first leaf is given back at once. -/
theorem balanced_insertFirst (t : BPlusTree) (key : KeyType) (rid : RID) :
    (t.insertFirst key rid).Balanced 1 := by
  intro k held hroom
  rw [insertFirst, Tidy, Program.wp_bind]
  refine tidy_newPage (by omega) rfl fun id => ?_
  simp only []
  rw [Program.wp_bind]
  refine tidy_storeLeaf ?_
  rw [Program.wp_bind]
  exact tidy_unpinPage fun _ => rfl

/-- A split holds the leaf and its sibling while the parents are changed. -/
theorem tidy_insertSplitting (fuel : Nat) (t : BPlusTree) (leafId : PageId) (leaf : LeafNode)
    (key : KeyType) (rid : RID) {k : Nat} {held : List PageId}
    (hroom : held.length + (2 * fuel + 3) ≤ k) :
    Tidy k (t.insertSplitting fuel leafId leaf key rid)
      (fun r held' => r.isSome = true → held' = held) (leafId :: held) := by
  rw [insertSplitting, Tidy, Program.wp_bind]
  refine tidy_newPage (by rw [List.length_cons]; omega) ?_ fun id => ?_
  · -- without a page for the right leaf, the left one is given back
    simp only []
    rw [Program.wp_bind]
    exact tidy_unpinPage fun _ _ => rfl
  simp only []
  rw [Program.wp_bind]
  refine tidy_loadLeaf fun fresh => ?_
  rw [Program.wp_bind]
  refine tidy_storeLeaf ?_
  rw [Program.wp_bind]
  refine tidy_storeLeaf ?_
  rw [Program.wp_bind]
  refine Program.wp_mono (settles_insertIntoParent fuel t _ _ id k (id :: leafId :: held) ?_)
    fun r held' hheld => ?_
  · -- the leaf and the new page are held by the call above
    rw [List.length_cons, List.length_cons]
    omega
  cases r with
  | none => exact fun hr => absurd hr (by simp)
  | some t' =>
    obtain rfl := hheld rfl
    simp only []
    rw [Program.wp_bind]
    refine tidy_unpinBelow fun _ => ?_
    rw [Program.wp_bind]
    exact tidy_unpinPage fun _ _ => rfl

/-- **Insert.** -/
theorem settles_insert (fuel : Nat) (t : BPlusTree) (key : KeyType) (rid : RID) :
    (t.insert fuel key rid).Settles (2 * fuel + 3) := by
  unfold BPlusTree.insert
  split
  · -- the first leaf of an empty tree
    intro k held hroom
    rw [Tidy, Program.wp_bind]
    exact (balanced_insertFirst t key rid).tidy (by omega) fun _ _ => rfl
  refine settles_withLeaf (by omega) rfl (fun _ _ _ _ => rfl) fun leafId k held hroom => ?_
  simp only []
  rw [Tidy, Program.wp_bind]
  refine tidy_loadLeaf fun leaf => ?_
  -- a leaf with room is written, a full one is split
  cases hins : leaf.insert key rid t.comparator with
  | mk inserted leaf' =>
    cases inserted with
    | true =>
      simp only []
      rw [Program.wp_bind]
      refine tidy_storeLeaf ?_
      rw [Program.wp_bind]
      exact tidy_unpinPage fun _ _ => rfl
    | false => exact tidy_insertSplitting fuel t leafId leaf key rid hroom

/-! ## 3. Delete, Lookup, RangeScan -/

/-- **Delete.** -/
theorem settles_delete (fuel : Nat) (t : BPlusTree) (key : KeyType) (rid : RID) :
    (t.delete fuel key rid).Settles 1 := by
  unfold BPlusTree.delete
  split
  · exact fun _ _ _ _ => rfl
  refine settles_withLeaf (Nat.le_refl 1) rfl (fun _ _ _ _ => rfl) fun leafId k held hroom => ?_
  simp only []
  rw [Tidy, Program.wp_bind]
  refine tidy_loadLeaf fun leaf => ?_
  -- the leaf is written if the pair was in it, and given back in any case
  cases hdel : leaf.delete key rid t.comparator with
  | mk deleted leaf' =>
    cases deleted with
    | true =>
      simp only []
      rw [Program.wp_bind]
      refine tidy_storeLeaf ?_
      rw [Program.wp_bind]
      exact tidy_unpinPage fun _ _ => rfl
    | false =>
      simp only []
      rw [Program.wp_bind]
      exact tidy_unpinPage fun _ _ => rfl

/-- The loop of `Lookup` holds one leaf at a time. -/
theorem settles_lookupNext (t : BPlusTree) (key : KeyType) : ∀ (fuel : Nat) (nextLeafId : PageId)
    (results : List RID), (t.lookupNext key fuel nextLeafId results).Settles 1
  | 0, _, _ => fun _ _ _ _ => rfl
  | fuel + 1, nextLeafId, results => fun k held hroom => by
    unfold lookupNext
    split
    · -- one leaf at a time
      rw [Tidy, Program.wp_bind]
      refine tidy_fetchPage (by omega) (fun _ => rfl) ?_
      simp only [if_true]
      rw [Program.wp_bind]
      refine tidy_loadLeaf fun leaf => ?_
      rw [Program.wp_bind]
      refine tidy_unpinPage fun _ => ?_
      split
      · exact fun _ => rfl
      · exact settles_lookupNext t key fuel _ _ k held hroom
    · exact fun _ => rfl

/-- **Lookup.** -/
theorem settles_lookup (fuel : Nat) (t : BPlusTree) (key : KeyType) :
    (t.lookup fuel key).Settles 1 := by
  unfold BPlusTree.lookup
  split
  · exact fun _ _ _ _ => rfl
  refine settles_withLeaf (Nat.le_refl 1) rfl (fun _ _ _ _ => rfl) fun leafId k held hroom => ?_
  simp only []
  rw [Tidy, Program.wp_bind]
  refine tidy_loadLeaf fun leaf => ?_
  rw [Program.wp_bind]
  exact tidy_unpinPage fun _ => settles_lookupNext t key fuel _ _ k held hroom

theorem tidy_scanLeaves (t : BPlusTree) (low high : KeyType) : ∀ (fuel : Nat) (id : PageId)
    (results : List (KeyType × RID)) {k : Nat} {held : List PageId}, held.length < k →
    Tidy k (t.scanLeaves low high fuel id results)
      (fun r held' => r.isSome = true → held' = held) (id :: held)
  | 0, _, _, _, _, _ => fun hr => absurd hr (by simp)
  | fuel + 1, id, results, k, held, hroom => by
    unfold scanLeaves
    rw [Tidy, Program.wp_bind]
    refine tidy_loadLeaf fun leaf => ?_
    simp only []
    rw [Program.wp_bind]
    refine tidy_unpinPage fun _ => ?_
    split
    · exact fun _ => rfl
    split
    · exact fun _ => rfl
    rw [Program.wp_bind]
    exact tidy_fetchPage hroom (fun _ => rfl) (tidy_scanLeaves t low high fuel _ _ hroom)

/-- **RangeScan.** -/
theorem settles_rangeScan (fuel : Nat) (t : BPlusTree) (low high : KeyType) :
    (t.rangeScan fuel low high).Settles 1 := by
  unfold BPlusTree.rangeScan
  split
  · exact fun _ _ _ _ => rfl
  refine settles_withLeaf (Nat.le_refl 1) rfl (fun _ _ _ _ => rfl) fun leafId k held hroom => ?_
  exact tidy_scanLeaves t low high fuel leafId [] (by omega)

end BPlusTree

end CourtDB
