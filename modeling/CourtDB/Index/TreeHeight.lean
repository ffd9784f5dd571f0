/-
# The height of a tree

A split leaves each half of an internal node at least 254 children, and nothing ever takes a child
from a node: `Delete` empties leaves, but leaves them where they are.  So whatever was inserted and
deleted, all internal nodes but the root have 254 children (`Fanned`), and the number of leaves
grows exponentially with the height (`leaves_ge`).  The root may have two.

There are two bounds on the number of leaves.  Each insertion makes at most one, so a run of fewer
than `2 * 254 ^ j` operations has a tree of height `j` at most.  And page ids have 32 bits, which is
fewer than `2 * 254 ^ 4` leaves can have, so no tree is higher than four levels above its leaves:
`FindLeafPage` ends after at most five pages (`search_path_short`).

The bound is about the fuel of the loops, so the theorem says that with `j + 1` rounds every call
has its result: the descent of `FindLeafPage`, and the way up of `InsertIntoParent`.  All of this is
for runs in which the requests to the pool succeed.  Where they are refused, nodes stay fanned too
(`Links.fanned`), but a level may be lost.
-/
import CourtDB.Index.TreeRun
import CourtDB.Index.TreeStructure

namespace CourtDB

open NodeMap

/-! ## 1. Children

What `InsertIntoParent` does to the numbers of children.  A full parent has 508, with the new one
509; 255 stay and 254 move. -/

/-- Internal nodes have many children, but for the root, which may have two. -/
def Fanned (nodes : NodeMap) (root : PageId) : Prop :=
  ∀ id, nodes.kids id ≠ [] →
    2 ≤ (nodes.kids id).length ∧ (id ≠ root → 254 ≤ (nodes.kids id).length)

variable {nodes nodes' : NodeMap} {level : PageId → Nat} {root left right id first : PageId}
  {chain : List PageId} {key : KeyType} {rid : RID}

theorem Fanned.congr (h : Fanned nodes root) (hkids : ∀ x, nodes'.kids x = nodes.kids x) :
    Fanned nodes' root := by
  intro x hx
  rw [hkids] at hx ⊢
  exact h x hx

/-- An internal node has children. -/
theorem NodeMap.kids_ne_nil {n : InternalNode} (hn : nodes id = some (.internal n))
    (hfits : n.Fits) : nodes.kids id ≠ [] := by
  have hpos := hfits.pos
  have hcount := hfits.children
  have hkids : nodes.kids id = n.children := kids_of_some hn
  rw [hkids]
  exact List.ne_nil_of_length_pos (by omega)

/-- **InsertIntoParent** keeps the nodes fanned, even where requests are refused, if the left node,
which may be the root, has been split. -/
theorem Links.fanned {s s' : LinkState} {linked : Bool}
    (hlinks : Links s left key right s' linked) :
    ∀ {level : PageId → Nat} {l : Nat}, Situation s level l left right → Fanned s.nodes s.root →
      (s.nodes.kids left ≠ [] → 254 ≤ (s.nodes.kids left).length) → Fanned s'.nodes s'.root := by
  induction hlinks with
  | rootRefused hroot hr => exact fun _ hf _ => hf
  | parentRefused hpar hne hr => exact fun _ hf _ => hf
  | newParentRefused hpar hne hr hn hfull hr' => exact fun _ hf _ => hf
  -- a new root has two children, and the old one becomes a node below it, as full as it was split
  | @newRoot s left right id key hroot hr h0 hne hfresh =>
    intro level l h hf hleft x hx
    obtain ⟨rfl, hstep⟩ := h.rootStep hroot h0 hne hfresh key
    rw [hstep.kids_root] at hx ⊢
    -- the new root
    by_cases hxid : x = id
    · rw [if_pos hxid]
      exact ⟨Nat.le_refl 2, fun hne' => absurd hxid hne'⟩
    · rw [if_neg hxid] at hx ⊢
      refine ⟨(hf x hx).1, fun _ => ?_⟩
      -- the old root: it is the left half of a split, or a leaf
      by_cases hxroot : x = s.root
      · rw [hxroot] at hx ⊢
        exact hleft hx
      · -- any other node
        exact (hf x hx).2 hxroot
  | @room s left right parent key n hpar hne hr hn hroom =>
    intro level l h hf hleft x hx
    have hstep := h.splitting hpar hne hn
    have hold := hf parent (kids_ne_nil hn hstep.fits)
    rw [hstep.kids] at hold
    obtain ⟨htwo, hmany⟩ := hold
    have hlen : (n.childrenWith key right).length = n.children.length + 1 :=
      length_childrenWith hstep.fits
    change _ ≤ (NodeMap.kids (Function.update _ _ _) x).length ∧
      (x ≠ s.root → _ ≤ (NodeMap.kids (Function.update _ _ _) x).length)
    change NodeMap.kids (Function.update _ _ _) x ≠ [] at hx
    rw [kids_room] at hx ⊢
    -- the parent has a child more
    by_cases hxp : x = parent
    · rw [if_pos hxp, hlen]
      refine ⟨by omega, fun hne' => ?_⟩
      have hmany' := hmany (hxp ▸ hne')
      omega
    · rw [if_neg hxp] at hx ⊢
      exact hf x hx
  | @split s s' left right parent id nextPageId key n linked hpar hne hr hn hfull hr' h0 hnew
      hfresh hrest ih =>
    intro level l h hf hleft
    have hstep := h.splitStep hpar hne hn hfresh key
    obtain ⟨l₂, -, hnext⟩ := h.afterSplit hpar hne hn hfull h0 hnew hfresh key
    have hlen : (n.childrenWith key right).length = 509 := by
      rw [length_childrenWith hstep.fits, hstep.fits.children, hfull]
    -- the split leaves 255 children in the left half and 254 in the right one
    refine ih hnext (fun x hx => ?_) fun _ => ?_
    · rw [root_splitParent]
      rw [nodes_splitParent, hstep.kids_split] at hx ⊢
      by_cases hxid : x = id
      · rw [if_pos hxid, List.length_drop, hlen]
        exact ⟨by decide, fun _ => by decide⟩
      · rw [if_neg hxid] at hx ⊢
        by_cases hxp : x = parent
        · rw [if_pos hxp, List.length_take, hlen]
          exact ⟨by decide, fun _ => by decide⟩
        · rw [if_neg hxp] at hx ⊢
          exact hf x hx
    · -- so the left half may be split under
      rw [nodes_splitParent, hstep.kids_split, if_neg hstep.id_ne.symm, if_pos rfl,
        List.length_take, hlen]
      decide

/-! ## 2. Leaves

Counting from the bottom: a node one level up has at least 254 times as many leaves below it. -/

/-- Every list that is concatenated has `m` elements or more. -/
theorem le_length_flatMap {α β : Type} {l : List α} {f : α → List β} {m : Nat}
    (h : ∀ x ∈ l, m ≤ (f x).length) : l.length * m ≤ (l.flatMap f).length := by
  induction l with
  | nil => exact Nat.le_of_eq (Nat.zero_mul m)
  | cons x l ih =>
    -- the first list, and the others by induction
    obtain ⟨hx, hl⟩ := List.forall_mem_cons.mp h
    have hrest := ih hl
    rw [List.length_cons, Nat.succ_mul, List.flatMap_cons, List.length_append]
    omega

namespace IsTree

variable (h : IsTree nodes level root first chain) (hf : Fanned nodes root)

include h hf

/-- **Under a node below the root** there are 254 times as many leaves with each level. -/
theorem length_under (k : Nat) : ∀ id, (nodes id).isSome → level id = k → k < level root →
    254 ^ k ≤ (leavesUnder nodes k id).length := by
  induction k with
  | zero => exact fun id _ _ _ => Nat.le_refl 1
  | succ k ih =>
    -- a node below the root has 254 children at least, each with its leaves
    intro id hid hl hlt
    obtain ⟨n, hn⟩ := h.node_succ hid hl
    have hne : id ≠ root := by
      rintro rfl
      omega
    have hmany := (hf id (kids_ne_nil hn (h.fits_inner hn))).2 hne
    have hbelow : ∀ c ∈ nodes.kids id, 254 ^ k ≤ (leavesUnder nodes k c).length := by
      intro c hc
      obtain ⟨hs, hlc⟩ := h.shape.kid id c hc
      exact ih c hs (by omega) (by omega)
    calc 254 ^ (k + 1) = 254 * 254 ^ k := by rw [Nat.pow_succ, Nat.mul_comm]
      _ ≤ (nodes.kids id).length * 254 ^ k := Nat.mul_le_mul_right _ hmany
      _ ≤ (leavesUnder nodes (k + 1) id).length := le_length_flatMap hbelow

/-- **A high tree has many leaves.** -/
theorem leaves_ge {k : Nat} (hl : level root = k + 1) : 2 * 254 ^ k ≤ chain.length := by
  -- the root has two
  obtain ⟨n, hn⟩ := h.node_succ h.shape.root_mem hl
  have htwo := (hf root (kids_ne_nil hn (h.fits_inner hn))).1
  have hbelow : ∀ c ∈ nodes.kids root, 254 ^ k ≤ (leavesUnder nodes k c).length := by
    intro c hc
    obtain ⟨hs, hlc⟩ := h.shape.kid root c hc
    exact h.length_under hf k c hs (by omega) (by omega)
  -- the leaves below the root are on the chain, none twice
  have hsub : leavesUnder nodes (k + 1) root ⊆ chain := fun x hx =>
    (h.chain.mem x).mpr (h.leaf_of_mem_under (k + 1) root h.shape.root_mem hl x hx)
  calc 2 * 254 ^ k ≤ (nodes.kids root).length * 254 ^ k := Nat.mul_le_mul_right _ htwo
    _ ≤ (leavesUnder nodes (k + 1) root).length := le_length_flatMap hbelow
    _ ≤ chain.length := (List.subperm_of_subset (h.nodup_under _ _) hsub).length_le

end IsTree

/-! ## 3. The operations

The specs of the operations say how the nodes evolve.  That the tree stays fanned is put beside
them, for the same nodes: they can be read off the pages. -/

/-- The nodes after an operation can be read off the pages. -/
theorem PagesMove.unique {m m' : PageId → Option Page} {nodes₁ nodes₂ : NodeMap}
    (h₁ : PagesMove m nodes m' nodes₁) (h₂ : PagesMove m nodes m' nodes₂) : nodes₁ = nodes₂ := by
  have hsub : ∀ {nodes₁ nodes₂ : NodeMap}, PagesMove m nodes m' nodes₁ →
      PagesMove m nodes m' nodes₂ → ∀ id n, nodes₁ id = some n → nodes₂ id = some n := by
    intro nodes₁ nodes₂ h₁ h₂ id n hn
    obtain ⟨p, hp, hstores⟩ := h₁.holds id n hn
    -- a node stands on a page, and a page stores one node
    cases hid : nodes₂ id with
    | some n₂ =>
      obtain ⟨p₂, hp₂, hstores₂⟩ := h₂.holds id n₂ hid
      obtain rfl := Option.some.inj (hp.symm.trans hp₂)
      rw [← hstores.node, ← hstores₂.node]
    | none =>
      -- the page would have been there before, and of nobody
      have hold : nodes id = none := by
        by_contra hne
        have hs := h₂.grows id (Option.isSome_iff_ne_none.mpr hne)
        rw [hid] at hs
        exact absurd hs (by simp)
      have hfresh := h₁.fresh id (Option.isSome_of_eq_some hn) hold
      rw [h₂.frame id hid, hfresh] at hp
      exact absurd hp (by simp)
  funext id
  cases hid : nodes₁ id with
  | some n => exact (hsub h₁ h₂ id n hid).symm
  | none =>
    cases hid₂ : nodes₂ id with
    | some n => exact absurd (hid.symm.trans (hsub h₂ h₁ id n hid₂)) (by simp)
    | none => rfl

namespace TreeState

variable {s : TreeState} {m : PageId → Option Page} {n fuel : Nat}

theorem setLeaf_fanned {k k' : LeafNode} (h : Fanned s.nodes s.root) {leaf : PageId}
    (hk : s.nodes leaf = some (.leaf k)) :
    Fanned (s.setLeaf leaf k').nodes (s.setLeaf leaf k').root :=
  h.congr fun x => kids_update_leaf _ _ (kids_of_leaf hk) x

/-- **Insert** keeps a tree fanned. -/
theorem Ok.insert_fanned (h : s.Ok) (hf : Fanned s.nodes s.root) (hholds : Holds m s.nodes)
    (hfuel : s.height < fuel) :
    (s.tree.insert fuel key rid).wp .succeeds (fun r v => ∃ t m', r = some (true, t.tree) ∧
      v = View.quiet n m' ∧ s.Evolves m t m' ∧ Fanned t.nodes t.root) (View.quiet n m) := by
  obtain ⟨p, hw⟩ := (View.quiet n m).exists_within
  have hmode : PoolMode.succeeds.Allows n (p + 1 + fuel) := PoolMode.allows_succeeds
  refine PoolM.wp_of_refusing ?_
  cases h with
  -- the first insertion makes a leaf, which has no children
  | empty =>
    refine PoolM.wpr_insertFirst hmode hw (by omega) (fun hr => absurd hr (by simp))
      fun _ id m' h0 hne _ hmove _ => ?_
    let k := PoolM.firstLeaf key rid
    have htree : IsTree (oneLeaf id k) (fun _ => 0) id id [id] :=
      isTree_oneLeaf ⟨rfl, rfl, Nat.le_add_left 1 405⟩ (List.pairwise_singleton _ _) rfl rfl h0 hne
    refine ⟨⟨id, oneLeaf id k, fun _ => 0, id, [id]⟩, m', rfl, rfl,
      ⟨.tree htree, hmove, Nat.le_refl 1, Nat.zero_le _⟩, fun x hx => absurd ?_ hx⟩
    rw [oneLeaf, kids_update_leaf _ _ rfl]
    rfl
  | tree htree =>
    obtain ⟨inner, leaf, k, l₁, l₂, hd, hlen, hk, hsplit⟩ := htree.path key
    obtain ⟨hfits, hsorted⟩ := htree.fits_leaf hk
    have hnil : ∀ j, ([] : Refusals).drop j = [] := fun j => List.drop_nil
    refine PoolM.wpr_insert htree.shape htree.parents hholds hd hk hsorted hmode hw le_rfl
      ⟨hlen ▸ hfuel, hfuel⟩ (fun _ hng => absurd (Refusals.grants_nil _) hng)
      (fun _ hlt m' hmove _ => ?_) (fun _ _ hr => absurd hr (by rw [hnil]; simp))
      fun _ _ id s' linked m' hs hlinks hmove _ => ?_
    · -- a leaf with room: only leaves are written
      have hins : IsTree (s.setLeaf leaf (k.inserted key rid)).nodes s.level s.root
        s.first s.chain :=
        htree.setLeaf hk ⟨rfl, rfl⟩ (hfits.inserted hlt key rid)
          (LeafNode.overflow_sorted hfits hsorted key rid)
      exact ⟨s.setLeaf leaf (k.inserted key rid), m', rfl, rfl,
        ⟨.tree hins, hmove, Nat.le_succ _, Nat.le_succ _⟩, setLeaf_fanned hf hk⟩
    · -- a split: first the leaf, whose parent is told by `InsertIntoParent`
      have hkids : ∀ x, (s.nodes.splitLeaf leaf id k key rid).kids x = s.nodes.kids x := by
        intro x
        rw [splitLeaf, kids_update_leaf _ _ (kids_of_fresh hs.fresh'),
          kids_update_leaf _ _ (kids_of_leaf hk)]
      have hfanned := hlinks.fanned (hs.situation _) (hf.congr hkids) fun hleft => by
        rw [hkids, kids_of_leaf hk] at hleft
        exact absurd rfl hleft
      rw [hsplit] at htree
      obtain ⟨-, level', htree', hrise⟩ := hs.isTree hlinks htree fun b hb => by simp at hb
      refine ⟨⟨s'.root, s'.nodes, level', s.first, l₁ ++ leaf :: id :: l₂⟩, m', rfl, rfl,
        ⟨.tree htree', hmove, ?_, hrise⟩, hfanned⟩
      simp only [hsplit, List.length_append, List.length_cons]
      omega

/-- **Delete** keeps a tree fanned: it takes no leaf away. -/
theorem Ok.delete_fanned (h : s.Ok) (hf : Fanned s.nodes s.root) (hholds : Holds m s.nodes)
    (hfuel : s.height < fuel) :
    (s.tree.delete fuel key rid).wp .succeeds (fun r v => ∃ deleted t m', r = some deleted ∧
      v = View.quiet n m' ∧ s.tree = t.tree ∧ s.Evolves m t m' ∧ Fanned t.nodes t.root)
        (View.quiet n m) := by
  refine PoolM.wp_of_refusing ?_
  have hsame : s.Evolves m s m := ⟨h, .refl hholds, Nat.le_succ _, Nat.le_succ _⟩
  cases h with
  -- nothing is there to delete
  | empty =>
    rw [BPlusTree.delete, tree_empty, if_pos rfl]
    exact ⟨false, TreeState.empty, m, rfl, rfl, rfl, hsame, hf⟩
  | tree htree =>
    obtain ⟨inner, leaf, k, l₁, l₂, hd, hlen, hk, hsplit⟩ := htree.path key
    obtain ⟨hfits, hsorted⟩ := htree.fits_leaf hk
    -- the leaf is left as it is, or loses an entry
    refine PoolM.wpr_delete htree.shape hholds hd hk hsorted PoolMode.serves_succeeds (hlen ▸ hfuel)
      (fun hno => ⟨false, s, m, rfl, rfl, rfl, hsame, hf⟩) fun i m' hi hperm hmove => ?_
    have hdel : IsTree (s.setLeaf leaf (k.erased i)).nodes s.level s.root s.first s.chain :=
      htree.setLeaf hk ⟨rfl, rfl⟩ (hfits.erased hi) (LeafNode.erased_sorted hsorted i)
    exact ⟨true, s.setLeaf leaf (k.erased i), m', rfl, rfl, rfl,
      ⟨.tree hdel, hmove, Nat.le_succ _, Nat.le_succ _⟩, setLeaf_fanned hf hk⟩

/-- **The height is logarithmic** in the number of leaves, and at most four. -/
theorem Ok.height_le (h : s.Ok) (hf : Fanned s.nodes s.root) {j : Nat}
    (hj : s.chain.length < 2 * 254 ^ j ∨ j = 4) : s.height ≤ j := by
  cases h with
  | empty => exact Nat.zero_le j
  | tree htree =>
    -- a higher tree would have more leaves
    by_contra hgt
    obtain ⟨i, hi⟩ := Nat.exists_eq_add_of_lt (Nat.lt_of_not_le hgt)
    have hleaves := htree.leaves_ge hf hi
    have hpow : 254 ^ j ≤ 254 ^ (j + i) := Nat.pow_le_pow_right (by decide) (Nat.le_add_right j i)
    rcases hj with hj | rfl
    · -- few leaves, by assumption
      omega
    · -- a chain has no page twice, and there are fewer than `2 ^ 32` page ids
      have hlt : s.chain.length < 2 ^ 32 := by
        refine pageIds_length_lt htree.chain.nodup fun id hid => (htree.shape.ids id ?_).2
        obtain ⟨es, hes⟩ := Option.isSome_iff_exists.mp ((htree.chain.mem id).mp hid)
        obtain ⟨k, hk, -⟩ := leaf_of_leafAt hes
        exact Option.isSome_of_eq_some hk
      omega

/-- The pages tell what the nodes have become, so a tree that is fanned in one account of an
operation is so in another. -/
theorem Evolves.fanned {t u : TreeState} {m' : PageId → Option Page} (h : s.Evolves m t m')
    (hu : s.Evolves m u m') (htree : t.tree = u.tree) (hf : Fanned u.nodes u.root) :
    Fanned t.nodes t.root := by
  have hroot : t.root = u.root := congrArg BPlusTree.rootPageId htree
  rw [h.pages.unique hu.pages, hroot]
  exact hf

/-- **Insert** into a tree in order that is fanned. -/
theorem Ok.insert_ordered (h : s.Ok) (hf : Fanned s.nodes s.root) (hholds : Holds m s.nodes)
    (hfuel : s.height < fuel) :
    (s.tree.insert fuel key rid).wp .succeeds (fun r v => ∃ t m', r = some (true, t.tree) ∧
      v = View.quiet n m' ∧ s.Evolves m t m' ∧ t.contents.Perm ((key, rid) :: s.contents) ∧
      (s.InOrder → s.Clean key rid → t.InOrder) ∧ Fanned t.nodes t.root) (View.quiet n m) := by
  obtain ⟨p, hw⟩ := (View.quiet n m).exists_within
  have hwp : (s.tree.insert fuel key rid).wp .succeeds (fun r v => ∃ t m', r = some (true, t.tree) ∧
      v = View.quiet n m' ∧ s.Evolves m t m' ∧ t.contents.Perm ((key, rid) :: s.contents) ∧
      (s.InOrder → s.Clean key rid → t.InOrder)) (View.quiet n m) :=
    h.insert hholds PoolMode.allows_succeeds hw le_rfl hfuel fun t m' hev hperm hord _ _ =>
      ⟨t, m', rfl, rfl, hev, hperm, hord⟩
  -- the two accounts of the call are about the same pages
  refine Program.wp_mono (PoolM.wp_and hwp (h.insert_fanned hf hholds hfuel)) fun r v hr => ?_
  obtain ⟨⟨t, m', rfl, rfl, hev, hperm, hord⟩, u, m₂, hres, hv, hevu, hfu⟩ := hr
  obtain rfl : m' = m₂ := congrArg View.pages hv
  have htree : t.tree = u.tree := congrArg Prod.snd (Option.some.inj hres)
  exact ⟨t, m', rfl, rfl, hev, hperm, hord, hev.fanned hevu htree hfu⟩

/-- **Delete** from a tree in order that is fanned. -/
theorem Ok.delete_ordered (h : s.Ok) (hord : s.InOrder) (hf : Fanned s.nodes s.root)
    (hholds : Holds m s.nodes) (hfuel : s.height < fuel) :
    (s.tree.delete fuel key rid).wp .succeeds (fun r v => ∃ deleted t m', r = some deleted ∧
      v = View.quiet n m' ∧ s.Evolves m t m' ∧ t.root = s.root ∧
      (if deleted then s.contents.Perm ((key, rid) :: t.contents) else t = s ∧ m' = m) ∧ t.InOrder ∧
      (deleted = true ↔ (key, rid) ∈ s.contents) ∧ Fanned t.nodes t.root) (View.quiet n m) := by
  have hwp : (s.tree.delete fuel key rid).wp .succeeds
    (fun r v => ∃ deleted t m', r = some deleted ∧
      v = View.quiet n m' ∧ s.Evolves m t m' ∧ t.root = s.root ∧
      (if deleted then s.contents.Perm ((key, rid) :: t.contents) else t = s ∧ m' = m) ∧ t.InOrder ∧
      (deleted = true ↔ (key, rid) ∈ s.contents)) (View.quiet n m) :=
    h.delete hholds PoolMode.serves_succeeds hfuel fun deleted t m' hev hroot _ hres hin =>
      ⟨deleted, t, m', rfl, rfl, hev, hroot, hres, hin hord⟩
  refine Program.wp_mono (PoolM.wp_and hwp (h.delete_fanned hf hholds hfuel)) fun r v hr => ?_
  obtain ⟨⟨deleted, t, m', rfl, rfl, hev, hroot, hres, hin, hiff⟩, d, u, m₂, -, hv, htree,
    hevu, hfu⟩ := hr
  obtain rfl : m' = m₂ := congrArg View.pages hv
  have htree' : t.tree = u.tree := by
    rw [← htree, TreeState.tree, TreeState.tree, hroot]
  exact ⟨deleted, t, m', rfl, rfl, hev, hroot, hres, hin, hiff, hev.fanned hevu htree' hfu⟩

end TreeState

namespace TreeRun

open BufferPoolManager

/-! ## 4. Runs

`Wide` is the invariant of a run.  Each call is made with the fuel of the height, and has its result
with it, because the height before the call is bounded by the operations before it. -/

/-- After at most `k` operations, all of which returned, the run stands on a fanned tree and an idle
pool. -/
structure Wide (n k : Nat) (st : TreeRun) (s : TreeState) (m : PageId → Option Page) : Prop where
  ok : s.Ok
  tree : st.tree = s.tree
  holds : Holds m s.nodes
  shows : st.pool.Shows (View.quiet n m)
  chain_le : s.chain.length ≤ k
  fanned : Fanned s.nodes s.root
  results : none ∉ st.results

variable {n k j fuel : Nat} {st : TreeRun} {s : TreeState} {m : PageId → Option Page} {op : TreeOp}

/-- Both operations keep the tree fanned. -/
theorem program_fanned (hs : s.Ok) (hf : Fanned s.nodes s.root) (hholds : Holds m s.nodes)
    (hfuel : s.height < fuel) :
    (program fuel s.tree op).wp .succeeds (fun r v => ∃ returned t m', r = some (returned, t.tree) ∧
      v = View.quiet n m' ∧ s.Evolves m t m' ∧ Fanned t.nodes t.root) (View.quiet n m) := by
  cases op with
  | insert key rid =>
    refine Program.wp_mono (hs.insert_fanned hf hholds hfuel) fun r v hr => ?_
    obtain ⟨t, m', hr, hv, hev, hft⟩ := hr
    exact ⟨true, t, m', hr, hv, hev, hft⟩
  | delete key rid =>
    rw [program, PoolM.wp, Program.wp_bind]
    refine Program.wp_mono (hs.delete_fanned hf hholds hfuel) fun r v hr => ?_
    obtain ⟨deleted, t, m', rfl, hv, htree, hev, hft⟩ := hr
    exact ⟨deleted, t, m', by rw [htree]; rfl, hv, hev, hft⟩

/-- **The height is logarithmic** in the number of operations. -/
theorem Wide.height_le (h : Wide n k st s m) (hj : k < 2 * 254 ^ j ∨ j = 4) : s.height ≤ j :=
  h.ok.height_le h.fanned (hj.imp_left (lt_of_le_of_lt h.chain_le))

/-- **The step lemma.** -/
theorem Wide.step (h : Wide n k st s m) (hj : k < 2 * 254 ^ j ∨ j = 4)
    (hadm : Admits (j + 1) st op) :
    ∃ t m', Wide n (k + 1) (step (j + 1) st op) t m' := by
  rw [Admits, h.tree] at hadm
  obtain ⟨_, ⟨returned, t, m', hres, rfl, hev, hf⟩, hshows⟩ := h.shows.exec_succeeds hadm
    -- the fuel is the bound of the height before the call, and one
    (program_fanned h.ok h.fanned h.holds (Nat.lt_succ_of_le (h.height_le hj)))
  rw [← h.tree] at hres hshows
  -- the call returned, as those before did
  have hresults : none ∉ (TreeRun.step (j + 1) st op).results := by
    rw [TreeRun.step, hres]
    intro hmem
    rcases List.mem_append.mp hmem with hmem | hmem
    · exact h.results hmem
    · exact Option.some_ne_none _ (List.mem_singleton.mp hmem).symm
  refine ⟨t, m', hev.ok, ?_, hev.pages.holds, hshows, ?_, hf, hresults⟩
  · rw [TreeRun.step, hres]
    rfl
  · exact hev.chain_le.trans (Nat.succ_le_succ h.chain_le)

/-- **The run lemma.** -/
theorem Wide.run {ops : List TreeOp} : ∀ {k : Nat} {st : TreeRun} {s : TreeState}
    {m : PageId → Option Page}, Wide n k st s m → (k + ops.length < 2 * 254 ^ j ∨ j = 4) →
      Run.StepsOk (TreeRun.step (j + 1)) (Admits (j + 1)) st ops →
      ∃ t m', Wide n (k + ops.length) (ops.foldl (TreeRun.step (j + 1)) st) t m' := by
  induction ops with
  | nil => exact fun h _ _ => ⟨_, _, h⟩
  | cons op ops ih =>
    -- the bound is used up by one operation
    intro k st s m h hj hok
    rw [List.length_cons, Nat.add_comm ops.length 1, ← Nat.add_assoc] at hj ⊢
    obtain ⟨t, m', h'⟩ := h.step (hj.imp_left fun hlt => by omega) hok.1
    exact ih h' hj hok.2

/-- With more frames than pages that may come to be, the calls succeed. -/
theorem Wide.step_of_frames {p : Nat} (h : Wide n k st s m) (hj : k < 2 * 254 ^ j ∨ j = 4)
    (hw : (View.quiet n m).Within p) (hn : p + (j + 2) < n) (hids : p + (j + 2) + 2 < 2 ^ 32) :
    Admits (j + 1) st op ∧ ∃ t m', Wide n (k + 1) (TreeRun.step (j + 1) st op) t m' ∧
      (View.quiet n m').Within (p + (j + 2)) := by
  have hlimit : p + 1 + (j + 1) = p + (j + 2) := by omega
  have hwp : (program (j + 1) s.tree op).wp .safe
      (fun _ v => ∃ m', v = View.quiet n m' ∧ (View.quiet n m').Within (p + (j + 2)))
      (View.quiet n m) :=
    program_spec h.ok h.holds (PoolMode.allows_safe hn hids) (PoolMode.serves_safe (by omega)) hw
      hlimit.le (Nat.lt_succ_of_le (h.height_le hj)) fun _ _ m' _ _ hw' =>
        ⟨m', rfl, hlimit ▸ hw'⟩
  -- each call takes up to a page for every level, and two more
  obtain ⟨hok, _, ⟨m₁, rfl, hw'⟩, hshows⟩ := h.shows.exec_safe hwp
  have hadm : Admits (j + 1) st op := by
    rw [Admits, h.tree]
    exact hok
  obtain ⟨t, m', h'⟩ := h.step hj hadm
  have hpool : (TreeRun.step (j + 1) st op).pool
    = ((program (j + 1) s.tree op).exec st.pool).2 := by
    rw [TreeRun.step, h.tree]
  -- the two accounts of the pool have the same pages
  have hdom : ∀ id, m₁ id = none → m' id = none := by
    intro id hnone
    have hiff : (m₁ id).isSome ↔ (m' id).isSome :=
      hshows.isSome_iff.trans (hpool ▸ h'.shows.isSome_iff).symm
    rw [← Option.not_isSome_iff_eq_none] at hnone ⊢
    exact fun hsome => hnone (hiff.mpr hsome)
  exact ⟨hadm, t, m', h', hw'.of_subset hdom fun _ _ => rfl⟩

/-- **With enough frames the calls of a run succeed.** -/
theorem Wide.stepsOk_of_frames {ops : List TreeOp} : ∀ {k : Nat} (p : Nat) {st : TreeRun}
    {s : TreeState} {m : PageId → Option Page}, Wide n k st s m →
      (k + ops.length < 2 * 254 ^ j ∨ j = 4) → (View.quiet n m).Within p →
      p + ops.length * (j + 2) < n → p + ops.length * (j + 2) + 2 < 2 ^ 32 →
      Run.StepsOk (TreeRun.step (j + 1)) (Admits (j + 1)) st ops := by
  induction ops with
  | nil => exact fun _ _ _ _ _ _ _ _ _ => trivial
  | cons op ops ih =>
    intro k p st s m h hj hw hn hids
    rw [List.length_cons, Nat.succ_mul] at hn hids
    rw [List.length_cons, Nat.add_comm ops.length 1, ← Nat.add_assoc] at hj
    obtain ⟨hadm, t, m', h', hw'⟩ := @Wide.step_of_frames _ _ _ _ _ _ op p h
      (hj.imp_left fun hlt => by omega) hw (by omega) (by omega)
    exact ⟨hadm, ih (p + (j + 2)) h' hj hw' (by omega) (by omega)⟩

/-- The empty tree. -/
theorem wide_start {b : BufferPoolManager} (hb : b.Idle m) :
    Wide b.poolSize 0 { pool := b } TreeState.empty m :=
  ⟨.empty, rfl, TreeState.holds_empty m, hb.shows, Nat.le_refl 0, fun _ hx => absurd rfl hx,
    List.not_mem_nil⟩

/-- **FindLeafPage** finds a leaf before its loop has run more often than the tree has levels. -/
theorem Wide.findLeafPage (h : Wide n k st s m) (hj : k < 2 * 254 ^ j ∨ j = 4)
    (hroot : st.tree.rootPageId ≠ invalidPageId) (key : KeyType)
    (hok : (st.tree.findLeafPage (j + 1) key).CallsOk BufferPoolManager.handle Succeeds st.pool) :
    ∃ leaf, ((st.tree.findLeafPage (j + 1) key).exec st.pool).1 = some (some leaf) := by
  have hle := h.height_le hj
  cases h.ok with
  -- an empty tree is ruled out
  | empty =>
    rw [h.tree] at hroot
    exact absurd rfl hroot
  | tree htree =>
    -- the path of the key is as long as the tree is high
    obtain ⟨inner, leaf, -, -, -, hd, hlen, -⟩ := htree.path key
    have hwp : (s.tree.findLeafPage (j + 1) key).wp .succeeds (fun r _ => r = some (some leaf))
        (View.quiet n m) :=
      PoolM.wp_of_refusing (PoolM.wpr_findLeafPage ⟨trivial, not_false⟩ h.holds
        (fun id hs => (htree.shape.ids id hs).1) hd (hlen ▸ Nat.lt_succ_of_le hle)
        (fun _ hng => absurd (Refusals.grants_nil _) hng) fun _ => rfl)
    rw [h.tree] at hok ⊢
    obtain ⟨-, hres, -⟩ := h.shows.exec_succeeds hok hwp
    exact ⟨leaf, hres⟩

/-! ## 5. The theorem -/

/-- **Searching is logarithmic.**  In a run of fewer than `2 * 254 ^ j` insertions and deletions,
and with `j = 4` in every run, no loop over the levels of the tree is run more than `j + 1` times:
the descent of `FindLeafPage`, and the way back up of `InsertIntoParent`.  Each operation returns,
and in the end each key has its leaf. -/
theorem search_path_short {b : BufferPoolManager} {m₀ : PageId → Option Page} (hb : b.Idle m₀)
    {ops : List TreeOp} (hj : ops.length < 2 * 254 ^ j ∨ j = 4)
    (hops : Run.StepsOk (step (j + 1)) (Admits (j + 1)) { pool := b } ops) :
    let st := ops.foldl (step (j + 1)) { pool := b }
    none ∉ st.results ∧ ∀ key, st.tree.rootPageId ≠ invalidPageId →
      (st.tree.findLeafPage (j + 1) key).CallsOk BufferPoolManager.handle Succeeds st.pool →
        ∃ leaf, ((st.tree.findLeafPage (j + 1) key).exec st.pool).1 = some (some leaf) := by
  intro st
  have hj' : 0 + ops.length < 2 * 254 ^ j ∨ j = 4 := by rwa [Nat.zero_add]
  obtain ⟨s, m, hs⟩ := (wide_start hb).run hj' hops
  exact ⟨hs.results, fun key hroot hok => hs.findLeafPage hj' hroot key hok⟩

/-- The last of 407 insertions splits the only leaf: two levels, and two rounds of each loop. -/
theorem search_path_short_split :
    let st := (TreeOp.inserts splitLeaf).foldl (step (1 + 1)) { pool := overNewFile 2000 }
    none ∉ st.results ∧ ∀ key, st.tree.rootPageId ≠ invalidPageId →
      (st.tree.findLeafPage (1 + 1) key).CallsOk BufferPoolManager.handle Succeeds st.pool →
        ∃ leaf, ((st.tree.findLeafPage (1 + 1) key).exec st.pool).1 = some (some leaf) := by
  have hidle := idle_overNewFile (n := 2000) (by decide)
  have hj : (TreeOp.inserts splitLeaf).length < 2 * 254 ^ 1 := by
    rw [inserts_splitLeaf_length]
    decide
  have hops : Run.StepsOk (step (1 + 1)) (Admits (1 + 1)) { pool := overNewFile 2000 }
      (TreeOp.inserts splitLeaf) := by
    have hsize : (overNewFile 2000).poolSize = 2000 := rfl
    refine (wide_start hidle).stepsOk_of_frames 0 (.inl (by omega))
      ⟨[], Nat.le_refl 0, fun _ _ => ⟨rfl, rfl⟩⟩ ?_ ?_
    · rw [inserts_splitLeaf_length, hsize]
      decide
    · rw [inserts_splitLeaf_length]
      decide
  exact search_path_short hidle (.inl hj) hops

end TreeRun

end CourtDB
