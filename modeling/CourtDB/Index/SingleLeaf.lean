/-
# Trees of one leaf

A leaf has room for 406 entries, so up to 406 insertions into a new tree make one leaf, which is its
root, and no parent and no sibling ever comes into play.  The pool needs a few frames for that and
no more (`oneLeaf_run`).

Trees of this kind are where the interesting cases begin: one insertion more splits the leaf and
makes a root above the halves.  Runs up to that point are reached here by one lemma instead of by
evaluating 406 calls, and `OneLeaf.insert_refusing` says of the next call that it returns under
every pattern of refusals.
-/
import CourtDB.Index.TreeRun

namespace CourtDB

open BufferPoolManager NodeMap PoolM

namespace TreeRun

variable {n fuel : Nat} {st : TreeRun} {id : PageId} {leaf : LeafNode} {m : PageId → Option Page}
  {live : List (KeyType × RID)} {key : KeyType} {rid : RID}

/-- The tree is one leaf, with the entries `live`. -/
structure OneLeaf (n : Nat) (live : List (KeyType × RID)) (st : TreeRun) (id : PageId)
    (leaf : LeafNode) (m : PageId → Option Page) : Prop where
  tree : st.tree = ⟨id, defaultKeyComparator⟩
  built : IsTree (oneLeaf id leaf) (fun _ => 0) id id [id]
  holds : Holds m (oneLeaf id leaf)
  shows : st.pool.Shows (View.quiet n m)
  within : (View.quiet n m).Within 1
  root : leaf.header.parentPageId = invalidPageId
  last : leaf.header.nextPageId = invalidPageId
  entries : leaf.entries.Perm live

theorem oneLeaf_self : oneLeaf id leaf id = some (.leaf leaf) := Function.update_self _ _ _

/-- Calls succeed in a pool of many frames. -/
theorem allows_frames (hn : fuel + 2 < n) (hids : fuel + 4 < 2 ^ 32) :
    PoolMode.safe.Allows n (fuel + 2) := PoolMode.allows_safe hn (by omega)

/-- The first insertion. -/
theorem oneLeaf_start {b : BufferPoolManager} (hb : b.Idle fun _ => none)
    (hn : fuel + 2 < b.poolSize) (hids : fuel + 4 < 2 ^ 32) :
    Admits fuel { pool := b } (.insert key rid) ∧ ∃ id leaf m, OneLeaf b.poolSize [(key, rid)]
      (TreeRun.step fuel { pool := b } (.insert key rid)) id leaf m := by
  have hwp : (program fuel {} (.insert key rid)).wp .safe (fun r v => ∃ id m, id ≠ 0 ∧
      id ≠ invalidPageId ∧ r = some (true, ⟨id, defaultKeyComparator⟩) ∧
        v = View.quiet b.poolSize m ∧
      Holds m (oneLeaf id (firstLeaf key rid)) ∧ (View.quiet b.poolSize m).Within 1)
      (View.quiet b.poolSize fun _ => none) := by
    refine wp_of_refusing ?_
    exact wpr_insertFirst (allows_frames hn hids) ⟨[], Nat.le_refl 0, fun _ _ => ⟨rfl, rfl⟩⟩
      (Nat.zero_le _) (fun hr => absurd hr (by simp)) fun _ id m h0 hne _ hmove hw =>
        ⟨id, m, h0, hne, rfl, rfl, hmove.holds, hw⟩
  obtain ⟨hok, _, ⟨id, m, h0, hne, hres, rfl, hholds, hw⟩, hshows⟩ := hb.shows.exec_safe hwp
  have hstep : TreeRun.step fuel { pool := b } (.insert key rid)
      = ⟨((program fuel {} (.insert key rid)).exec b).2, ⟨id, defaultKeyComparator⟩, [(key, rid)],
        [some true]⟩ := by
    rw [TreeRun.step, hres]
    rfl
  refine ⟨hok, id, firstLeaf key rid, m, ?_⟩
  rw [hstep]
  exact ⟨rfl, isTree_oneLeaf ⟨rfl, rfl, Nat.le_add_left 1 405⟩ (List.pairwise_singleton _ _) rfl rfl
    h0 hne, hholds, hshows, hw, rfl, rfl, List.Perm.refl _⟩

/-- An insertion that finds room. -/
theorem OneLeaf.step (h : OneLeaf n live st id leaf m) (hlt : live.length < 406)
    (hn : fuel + 2 < n) (hids : fuel + 4 < 2 ^ 32) (hfuel : 0 < fuel) :
    Admits fuel st (.insert key rid) ∧ ∃ leaf' m',
      OneLeaf n ((key, rid) :: live) (TreeRun.step fuel st (.insert key rid)) id leaf' m' := by
  obtain ⟨hfits, hsorted⟩ := h.built.fits_leaf oneLeaf_self
  have hids' := h.built.shape.ids id h.built.shape.root_mem
  have hlt' : leaf.entries.length < 406 := h.entries.length_eq ▸ hlt
  have hperm : (leaf.inserted key rid).entries.Perm ((key, rid) :: leaf.entries) :=
    LeafNode.overflow_perm hfits hsorted key rid
  have hwp : (program fuel ⟨id, defaultKeyComparator⟩ (.insert key rid)).wp .safe (fun r v => ∃ m',
      r = some (true, ⟨id, defaultKeyComparator⟩) ∧ v = View.quiet n m' ∧
      Holds m' (oneLeaf id (leaf.inserted key rid)) ∧ (View.quiet n m').Within 1)
      (View.quiet n m) := by
    refine wp_of_refusing ?_
    refine wpr_insert h.built.shape h.built.parents h.holds (.leaf oneLeaf_self)
      oneLeaf_self hsorted
      (allows_frames hn hids) h.within (by omega) ⟨hfuel, hfuel⟩
      (fun _ hng => absurd (Refusals.grants_nil _) hng) (fun _ _ m' hmove hw => ?_)
      (fun _ _ hr => absurd hr (by simp))
      fun _ _ _ _ _ _ hs => absurd hs.full hlt'.ne
    refine ⟨m', rfl, rfl, ?_, hw⟩
    have hholds := hmove.holds
    rwa [oneLeaf, Function.update_idem] at hholds
  obtain ⟨hok, _, ⟨m', hres, rfl, hholds, hw⟩, hshows⟩ := h.shows.exec_safe hwp
  have hstep : TreeRun.step fuel st (.insert key rid)
      = ⟨((program fuel ⟨id, defaultKeyComparator⟩ (.insert key rid)).exec st.pool).2,
        ⟨id, defaultKeyComparator⟩, (key, rid) :: st.entries, st.results ++ [some true]⟩ := by
    rw [TreeRun.step, h.tree, hres]
    rfl
  refine ⟨by rw [Admits, h.tree]; exact hok, leaf.inserted key rid, m', ?_⟩
  rw [hstep]
  exact ⟨rfl, isTree_oneLeaf (hfits.inserted hlt' key rid)
    (LeafNode.overflow_sorted hfits hsorted key rid) h.root h.last hids'.1 hids'.2, hholds, hshows,
    hw, h.root, h.last, hperm.trans (h.entries.cons _)⟩

/-- A run of insertions into the leaf. -/
theorem OneLeaf.run (hn : fuel + 2 < n) (hids : fuel + 4 < 2 ^ 32) (hfuel : 0 < fuel)
    {entries : List (KeyType × RID)} : ∀ {live : List (KeyType × RID)} {st : TreeRun}
      {leaf : LeafNode} {m : PageId → Option Page}, OneLeaf n live st id leaf m →
      entries.length + live.length ≤ 406 →
      Run.StepsOk (TreeRun.step fuel) (Admits fuel) st (TreeOp.inserts entries) ∧
      ∃ leaf' m', OneLeaf n (entries.reverse ++ live)
        ((TreeOp.inserts entries).foldl (TreeRun.step fuel) st) id leaf' m' := by
  induction entries with
  | nil => exact fun h _ => ⟨trivial, _, _, h⟩
  | cons e entries ih =>
    intro live st leaf m h hle
    rw [List.length_cons] at hle
    obtain ⟨hadm, leaf', m', h'⟩ := @OneLeaf.step _ _ _ _ _ _ _ e.1 e.2 h (by omega) hn hids hfuel
    obtain ⟨hops, hrun⟩ := ih h' (by rw [List.length_cons]; omega)
    rw [List.reverse_cons, List.append_assoc]
    exact ⟨⟨hadm, hops⟩, hrun⟩

/-- **A new tree of up to 406 entries** is one leaf. -/
theorem oneLeaf_run {b : BufferPoolManager} (hb : b.Idle fun _ => none) (hn : fuel + 2 < b.poolSize)
    (hids : fuel + 4 < 2 ^ 32) (hfuel : 0 < fuel) {entries : List (KeyType × RID)}
    (hne : entries ≠ []) (hlen : entries.length ≤ 406) :
    Run.StepsOk (TreeRun.step fuel) (Admits fuel) { pool := b } (TreeOp.inserts entries) ∧
      ∃ id leaf m, OneLeaf b.poolSize entries.reverse
        ((TreeOp.inserts entries).foldl (TreeRun.step fuel) { pool := b }) id leaf m := by
  cases entries with
  | nil => exact absurd rfl hne
  | cons e entries =>
    obtain ⟨hadm, id, _, _, hstart⟩ := @oneLeaf_start _ e.1 e.2 b hb hn hids
    obtain ⟨hops, hrun⟩ := hstart.run hn hids hfuel hlen
    rw [List.reverse_cons]
    exact ⟨⟨hadm, hops⟩, id, hrun⟩

/-- Apart from refusals the calls of an insertion succeed, and it returns. -/
theorem OneLeaf.insert_refusing (h : OneLeaf n live st id leaf m) (key : KeyType) (rid : RID)
    (ps : Refusals) (hn : fuel + 2 < n) (hids : fuel + 4 < 2 ^ 32) (hfuel : 0 < fuel) :
    (st.tree.insert fuel key rid).CallsOk handleRefusing RefusedOrSucceeds (ps, st.pool) ∧
      ((st.tree.insert fuel key rid).run handleRefusing (ps, st.pool)).1.isSome := by
  obtain ⟨-, hsorted⟩ := h.built.fits_leaf oneLeaf_self
  have hwp : (st.tree.insert fuel key rid).wpr .safe (fun r _ => r.isSome)
    (ps, View.quiet n m) := by
    rw [h.tree]
    exact PoolM.wpr_insert h.built.shape h.built.parents h.holds (.leaf oneLeaf_self) oneLeaf_self
      hsorted (allows_frames hn hids) h.within (by omega) ⟨hfuel, hfuel⟩ (fun _ _ => rfl)
      (fun _ _ _ _ _ => rfl) (fun _ _ _ => rfl) fun _ _ _ _ _ _ _ _ _ _ => rfl
  obtain ⟨hok, -, hreturn, -⟩ := h.shows.exec_refusing_safe hwp
  exact ⟨hok, hreturn⟩

end TreeRun

end CourtDB
