/-
# A run of equal keys that is cut

Insertions of one key fill a single leaf.  When it overflows it is split in the middle, and both
halves have the key, as has the new root.  The path of the key then goes right, past the 203 entries
of the left half, so `Lookup` returns the 204 others.

The header of the source says that duplicate keys are found along the chain of leaves, and the loop
of `Lookup` does go on along it.  But it starts too far to the right: `FindChild` goes to the right
of an equal key, and there is no way back along the chain, which has no link to the leaf before.

The run is 407 insertions, reached by the lemma about trees of one leaf and one split; nothing of it
is evaluated.  `OneLeaf.cut` is the last step, for any leaf whose keys are equal, and `lookup_cut`
the run as a whole.
-/
import CourtDB.Index.SingleLeaf

namespace CourtDB

open BufferPoolManager NodeMap PoolM

/-- A key goes to the right of an equal one. -/
theorem InternalNode.findChild_newRoot (left right : PageId) (key : KeyType) :
    (InternalNode.newRoot left key right).getChildAt
      ((InternalNode.newRoot left key right).findChild key defaultKeyComparator) = right := by
  have hfits : (InternalNode.newRoot left key right).Fits :=
    ⟨rfl, rfl, rfl, Nat.one_pos, Nat.le_add_left 1 506⟩
  rw [InternalNode.findChild_eq hfits (List.pairwise_singleton _ _)]
  simp [InternalNode.newRoot, InternalNode.getChildAt]

/-- **The split of a leaf without a parent.**  The path of the key at which it was split ends at the
right half. -/
theorem LeafSplit.descends_newRoot {nodes : NodeMap} {level : PageId → Nat}
    {root leaf id : PageId} {n : LeafNode} {key : KeyType} {rid : RID} {s' : LinkState}
    {linked : Bool} (hs : LeafSplit nodes level root leaf id n)
    (hlinks : Links ⟨[], nodes.splitLeaf leaf id n key rid, root⟩ leaf (n.splitKey key rid) id s'
      linked) (hparent : n.header.parentPageId = invalidPageId) :
    Descends s'.nodes (n.splitKey key rid) s'.root [s'.root] id := by
  have hright : nodes.splitLeaf leaf id n key rid id = some (.leaf (n.rightHalf key rid)) :=
    Function.update_self _ _ _
  have hleft : nodes.splitLeaf leaf id n key rid leaf = some (.leaf (n.leftHalf key rid id)) := by
    rw [splitLeaf, Function.update_of_ne hs.leaf_ne, Function.update_self]
  -- the leaf has no parent, so it was the root
  have hpar : par (nodes.splitLeaf leaf id n key rid) leaf = some invalidPageId := by
    rw [par_of_some hleft]
    exact congrArg some hparent
  -- the right half is a leaf to the end
  have hleaf : (s'.nodes.leafAt id).isSome := by
    rw [hlinks.leafAt, leafAt_of_some hright]
    rfl
  obtain ⟨es, hes⟩ := Option.isSome_iff_exists.mp hleaf
  obtain ⟨node, hnode, -⟩ := leaf_of_leafAt hes
  -- of the cases of `Links` only the new root fits
  cases hlinks with
  | rootRefused _ hr => exact absurd hr Bool.false_ne_true
  | parentRefused hq hne => exact absurd (Option.some.inj (hq.symm.trans hpar)) hne
  | room hq hne => exact absurd (Option.some.inj (hq.symm.trans hpar)) hne
  | newParentRefused hq hne => exact absurd (Option.some.inj (hq.symm.trans hpar)) hne
  | split hq hne => exact absurd (Option.some.inj (hq.symm.trans hpar)) hne
  | @newRoot _ _ _ new _ _ hr h0 hne hfresh =>
    -- the page of the new root is neither half
    have hnl : new ∉ [leaf, id] := by
      rintro (_ | ⟨_, _ | ⟨_, h⟩⟩)
      · exact absurd (hfresh.symm.trans hleft) (by simp)
      · exact absurd (hfresh.symm.trans hright) (by simp)
      · exact absurd h List.not_mem_nil
    -- the patches of the two halves do not touch it
    have hroot := (LinkState.reparented_patches
      ((LinkState.next ⟨[], nodes.splitLeaf leaf id n key rid, root⟩).setNode new
        (.internal (.newRoot leaf (n.splitKey key rid) id))) new [leaf, id]).of_not_mem hnl
    rw [LinkState.nodes_setNode, Function.update_self] at hroot
    -- the search for the split key takes the last child, since equal keys go right
    refine .inner hroot ?_
    rw [InternalNode.findChild_newRoot]
    exact .leaf hnode

namespace TreeRun

variable {n fuel : Nat} {st : TreeRun} {id : PageId} {leaf : LeafNode} {m : PageId → Option Page}
  {live : List (KeyType × RID)} {key : KeyType} {rid : RID}

/-- **The cut.**  Where all keys are equal, the insertion that makes the leaf overflow leaves
`Lookup` the right half. -/
theorem OneLeaf.cut (h : OneLeaf n live st id leaf m) (hfull : live.length = 406)
    (hkeys : ∀ e ∈ live, e.1 = key) (hn : fuel + 2 < n) (hids : fuel + 4 < 2 ^ 32)
    (hfuel : 0 < fuel) :
    let st' := TreeRun.step fuel st (.insert key rid)
    ∀ fuel', 1 < fuel' → ∃ l, ((st'.tree.lookup fuel' key).exec st'.pool).1 = some l ∧
      l.length = 204 := by
  obtain ⟨hfits, hsorted⟩ := h.built.fits_leaf oneLeaf_self
  have hlen : leaf.entries.length = 406 := h.entries.length_eq.trans hfull
  -- the insertion splits the leaf, and a lookup afterwards meets the right half alone
  have hwp : (program fuel ⟨id, defaultKeyComparator⟩ (.insert key rid)).wp .safe (fun r v =>
      ∃ root m', r = some (true, ⟨root, defaultKeyComparator⟩) ∧ v = View.quiet n m' ∧
        ∀ fuel', 1 < fuel' → (BPlusTree.lookup fuel' ⟨root, defaultKeyComparator⟩ key).wp .safe
          (fun r _ => ∃ l, r = some l ∧ l.length = 204) v) (View.quiet n m) := by
    refine wp_of_refusing ?_
    refine wpr_insert h.built.shape h.built.parents h.holds (.leaf oneLeaf_self) oneLeaf_self
      hsorted (allows_frames hn hids) h.within (by omega) ⟨hfuel, hfuel⟩
      (fun _ hng => absurd (Refusals.grants_nil _) hng)
      -- the leaf is full, so it is not the branch with room
      (fun _ hlt _ _ _ => absurd hlen hlt.ne) (fun _ _ hr => absurd hr (by simp))
      fun _ _ id' s' linked m' hs hlinks hmove _ => ?_
    refine ⟨s'.root, m', rfl, rfl, fun fuel' hfuel' => wp_of_refusing ?_⟩
    -- all 407 entries have the key
    have hall : ∀ e ∈ leaf.withEntry key rid, e.1 = key := by
      intro e he
      rcases List.mem_cons.mp ((LeafNode.overflow_perm hfits hsorted key rid).mem_iff.mp he)
        with rfl | he
      · rfl
      · exact hkeys e (h.entries.mem_iff.mp he)
    have hkey : leaf.splitKey key rid = key := by
      rw [LeafNode.splitKey_eq hs.length]
      exact hall _ (List.get_mem _ _)
    -- so the split key is the key, and its path ends at the right half
    have hd := hs.descends_newRoot hlinks h.root
    rw [hkey] at hd
    have htree : IsTree (oneLeaf id leaf) (fun _ => 0) id id ([] ++ id :: []) := h.built
    obtain ⟨-, _, htree', -⟩ := hs.isTree hlinks htree fun b hb => absurd hb List.not_mem_nil
    have hright : (oneLeaf id leaf).splitLeaf id id' leaf key rid id'
        = some (.leaf (leaf.rightHalf key rid)) := Function.update_self _ _ _
    refine wpr_lookup (PoolMode.serves_safe (by omega)) hmove.holds htree'.shape.ids
      (fun _ _ hk => htree'.fits_leaf hk) hd (@Searchable.segment _ _ _ _ _ _ [id] []
        htree'.toSearchable rfl) ⟨hfuel', Nat.lt_of_succ_lt hfuel'⟩ ⟨_, rfl, ?_⟩
    -- behind the right half the chain ends, and the right half has the last 204 entries
    rw [lookupAlong, List.length_map, entriesAt, hlinks.leafAt, leafAt_of_some hright]
    simp only [Option.map_some, Option.getD_some]
    rw [LeafNode.rightHalf_entries hs.length, List.filter_eq_self.mpr fun e he =>
      decide_eq_true (hall e (List.mem_of_mem_drop he)), List.length_drop, hs.length]
  -- the same for the pool of the run
  obtain ⟨-, _, ⟨root, m', hres, rfl, hlookup⟩, hshows⟩ := h.shows.exec_safe hwp
  intro st' fuel' hfuel'
  have hstep : st' = ⟨((program fuel ⟨id, defaultKeyComparator⟩ (.insert key rid)).exec st.pool).2,
      ⟨root, defaultKeyComparator⟩, (key, rid) :: st.entries, st.results ++ [some true]⟩ := by
    change TreeRun.step fuel st (.insert key rid) = _
    rw [TreeRun.step, h.tree, hres]
    rfl
  obtain ⟨-, _, ⟨l, hl, hcount⟩, -⟩ := hshows.exec_safe (hlookup fuel' hfuel')
  rw [hstep]
  exact ⟨l, hl, hcount⟩

/-- **407 entries of one key**: `Lookup` returns 204 of them. -/
theorem lookup_cut {b : BufferPoolManager} (hb : b.Idle fun _ => none) (hn : fuel + 2 < b.poolSize)
    (hids : fuel + 4 < 2 ^ 32) (hfuel : 0 < fuel) {entries : List (KeyType × RID)}
    (hlen : entries.length = 407) (hkeys : ∀ e ∈ entries, e.1 = key) :
    let st := (TreeOp.inserts entries).foldl (TreeRun.step fuel) { pool := b }
    ∀ fuel', 1 < fuel' → ∃ l, ((st.tree.lookup fuel' key).exec st.pool).1 = some l ∧
      l.length = 204 := by
  -- the first 406 make one full leaf, the last one splits it
  obtain ⟨first, rest, rfl⟩ := List.exists_cons_of_length_eq_add_one hlen
  rcases List.eq_nil_or_concat' rest with rfl | ⟨mid, last, rfl⟩
  · exact absurd hlen (by simp)
  have hmid : mid.length = 405 := by
    rw [List.length_cons, List.length_append, List.length_singleton] at hlen
    omega
  have hfull : (first :: mid).length = 406 := by rw [List.length_cons, hmid]
  obtain ⟨-, id, leaf, m, hone⟩ := oneLeaf_run hb hn hids hfuel
    (List.cons_ne_nil first mid) hfull.le
  obtain ⟨lastKey, lastRid⟩ := last
  obtain rfl : lastKey = key := hkeys (lastKey, lastRid) (by simp)
  rw [← List.cons_append, TreeOp.inserts, List.map_append, List.foldl_append]
  refine hone.cut (List.length_reverse.trans hfull) (fun e he => hkeys e ?_) hn hids hfuel
  rw [← List.cons_append]
  exact List.mem_append_left _ (List.mem_reverse.mp he)

end TreeRun

end CourtDB
