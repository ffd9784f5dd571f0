/-
# The operations of a tree

A B+ tree between two of its calls: no root yet, or a tree on pages that nobody has pinned
(`TreeState`).  Each operation has a rule that says what it returns and what state it leaves:
`Insert` adds an entry, `Delete` removes one if it finds it, `Lookup` and `RangeScan` change
nothing.

A state may be in order (`InOrder`).  Then `Delete`, `Lookup` and `RangeScan` find everything there
is, and an `Insert` that cuts no run of equal keys keeps the order.

The rules are about a pool that serves its requests; refusals are in `Index.InsertRefused` and
`Index.PinNeutral`.  They have no fuel of their own: any fuel above the height of the tree and the
number of its leaves will do, and the height is bounded by the number of nodes.

This is the interface of the index to the rest: the modules above use these four rules and the
contents of a state, and know nothing of nodes.
-/
import CourtDB.Index.TreeChanges

namespace CourtDB

open NodeMap

/-! ## 1. States

`Ok` is what every run keeps, and `InOrder` what a run keeps whose insertions are `Clean`. `Evolves`
is the frame condition: pages of others stay as they are. -/

/-- A tree with its nodes, their levels and the chain of its leaves. -/
structure TreeState where
  root : PageId
  nodes : NodeMap
  level : PageId → Nat
  first : PageId
  chain : List PageId

namespace TreeState

/-- No root yet. -/
def empty : TreeState := ⟨invalidPageId, fun _ => none, fun _ => 0, invalidPageId, []⟩

def tree (s : TreeState) : BPlusTree := ⟨s.root, defaultKeyComparator⟩

theorem tree_empty : empty.tree = ⟨invalidPageId, defaultKeyComparator⟩ := rfl

/-- The entries on the chain. -/
def contents (s : TreeState) : List (KeyType × RID) := s.nodes.contents s.chain

def height (s : TreeState) : Nat := s.level s.root

/-- **The invariant of a tree.** -/
inductive Ok : TreeState → Prop
  | empty : Ok empty
  | tree {s : TreeState} (h : IsTree s.nodes s.level s.root s.first s.chain) : Ok s

/-- The tree and its chain are in order. -/
inductive InOrder : TreeState → Prop
  | empty : InOrder empty
  | tree {s : TreeState} {lo hi : PageId → Nat} (h : Ranged s.nodes lo hi hi s.root s.chain) :
      InOrder s

/-- The full leaf into which `Insert` would put an entry is not cut within a run of equal keys. -/
def Clean (s : TreeState) (key : KeyType) (rid : RID) : Prop :=
  ∀ inner leaf n, Descends s.nodes key s.root inner leaf → s.nodes leaf = some (.leaf n) →
    n.entries.length = 406 → n.cutsRun key rid = false

/-- The state `s` on pages `m` became `t` on `m'`: the pages hold the nodes, and pages of others
are as they were. -/
structure Evolves (s : TreeState) (m : PageId → Option Page) (t : TreeState)
    (m' : PageId → Option Page) : Prop where
  ok : t.Ok
  pages : PagesMove m s.nodes m' t.nodes
  chain_le : t.chain.length ≤ s.chain.length + 1
  height_le : t.height ≤ s.height + 1

/-- Another leaf in the place of one. -/
def setLeaf (s : TreeState) (id : PageId) (n : LeafNode) : TreeState :=
  { s with nodes := Function.update s.nodes id (some (.leaf n)) }

variable {s t : TreeState} {m m' : PageId → Option Page} {mode : PoolMode} {n p limit fuel : Nat}
  {key low high : KeyType} {rid : RID}

theorem root_ne (h : IsTree s.nodes s.level s.root s.first s.chain) :
    s.root ≠ invalidPageId := (h.shape.ids _ h.shape.root_mem).2

theorem holds_empty (m : PageId → Option Page) : Holds m empty.nodes :=
  fun _ _ hx => absurd hx (by simp [empty])

/-- Nobody is in order but an empty state and a tree with ranges. -/
theorem InOrder.ranged (h : s.InOrder) (hs : IsTree s.nodes s.level s.root s.first s.chain) :
    ∃ lo hi, Ranged s.nodes lo hi hi s.root s.chain := by
  cases h with
  | empty => exact absurd rfl (root_ne hs)
  | tree h => exact ⟨_, _, h⟩

/-- Keys of the entries of a leaf lie in its range. -/
theorem leaf_entries {lo hi : PageId → Nat} {leaf : PageId} {k : LeafNode}
    (h : Ranged s.nodes lo hi hi s.root s.chain) (hk : s.nodes leaf = some (.leaf k)) :
    ∀ e ∈ k.entries, lo leaf ≤ e.1.toNat ∧ e.1.toNat < hi leaf :=
  h.ordered.leaf leaf _ _ (leafAt_of_some hk)

/-! ## 2. Insert

An insertion into an empty tree makes the root; otherwise the leaf on the path takes the entry or is
split. -/

/-- **Insert** adds the entry. -/
theorem Ok.insert {Q : Option (Bool × BPlusTree) → View → Prop} (h : s.Ok)
    (hholds : Holds m s.nodes) (hmode : mode.Allows n limit) (hw : (View.quiet n m).Within p)
    (hp : p + 1 + fuel ≤ limit) (hfuel : s.height < fuel)
    (hQ : ∀ t m', s.Evolves m t m' → t.contents.Perm ((key, rid) :: s.contents) →
      (s.InOrder → s.Clean key rid → t.InOrder) → (Stocked s.nodes → Stocked t.nodes) →
      (View.quiet n m').Within (p + 1 + fuel) →
      Q (some (true, t.tree)) (View.quiet n m')) :
    (s.tree.insert fuel key rid).wp mode Q (View.quiet n m) := by
  refine PoolM.wp_of_refusing ?_
  cases h with
  | empty =>
    -- the first entry makes a tree of one leaf
    refine PoolM.wpr_insertFirst hmode hw (by omega) (fun hr => absurd hr (by simp))
      fun _ id m' h0 hne _ hmove hw' => ?_
    let k := PoolM.firstLeaf key rid
    have htree : IsTree (oneLeaf id k) (fun _ => 0) id id [id] :=
      isTree_oneLeaf ⟨rfl, rfl, Nat.le_add_left 1 405⟩ (List.pairwise_singleton _ _) rfl rfl h0 hne
    refine hQ ⟨id, oneLeaf id k, fun _ => 0, id, [id]⟩ m' ⟨.tree htree, hmove, ?_, ?_⟩ ?_ ?_
      (fun hst => hst.setLeaf id (List.cons_ne_nil _ _)) (hw'.mono (by omega))
    · exact Nat.le_refl 1
    · exact Nat.zero_le _
    · rw [contents, contents_oneLeaf]
      exact List.Perm.refl _
    · exact fun _ _ => .tree ranged_oneLeaf
  -- the path of the key, and the leaf it ends in
  | tree htree =>
    obtain ⟨inner, leaf, k, l₁, l₂, hd, hlen, hk, hsplit⟩ := htree.path key
    obtain ⟨hfits, hsorted⟩ := htree.fits_leaf hk
    have hnil : ∀ j, ([] : Refusals).drop j = [] := fun j => List.drop_nil
    refine PoolM.wpr_insert htree.shape htree.parents hholds hd hk hsorted hmode hw hp
      ⟨hlen ▸ hfuel, hfuel⟩ (fun _ hng => absurd (Refusals.grants_nil _) hng)
      (fun _ hlt m' hmove hw' => ?_) (fun _ _ hr => absurd hr (by rw [hnil]; simp))
      fun _ _ id s' linked m' hs hlinks hmove hw' => ?_
    · -- the leaf takes the entry
      let t := s.setLeaf leaf (k.inserted key rid)
      have hperm : (k.inserted key rid).entries.Perm ((key, rid) :: k.entries) :=
        LeafNode.overflow_perm hfits hsorted key rid
      have hins : IsTree t.nodes t.level t.root t.first t.chain :=
        htree.setLeaf hk ⟨rfl, rfl⟩ (hfits.inserted hlt key rid)
          (LeafNode.overflow_sorted hfits hsorted key rid)
      refine hQ t m' ⟨.tree hins, hmove, Nat.le_succ _, Nat.le_succ _⟩ ?_ (fun hord _ => ?_)
        (fun hst => hst.setLeaf leaf (List.ne_nil_of_mem (hperm.mem_iff.mpr List.mem_cons_self)))
        (hw'.mono (by omega))
      · -- the entries of the other leaves stay
        obtain ⟨rest, hold, hnew⟩ := contents_setLeaf_rest hk htree.chain.nodup
          (htree.chain.leaf_mem hk) (k.inserted key rid)
        exact hnew.trans ((hperm.append_right rest).trans (hold.symm.cons _))
      · -- in order: the path was that of the key, so the leaf has it in its range
        obtain ⟨lo, hi, hr⟩ := hord.ranged htree
        have hkey := hr.ordered.descends_root (fun x n hx => htree.fits_inner hx) hd
        have hr' : Ranged t.nodes lo hi hi t.root t.chain := by
          refine hr.setLeaf hk fun e he => ?_
          rcases List.mem_cons.mp (hperm.mem_iff.mp he) with rfl | he
          · exact hkey
          · exact leaf_entries hr hk e he
        exact .tree hr'
    · -- the leaf is split, and without refusals its right half gets linked
      have htree' := htree
      rw [hsplit] at htree'
      obtain ⟨hlinked, level', htree'', hrise⟩ := hs.isTree hlinks htree' fun b hb => by simp at hb
      refine hQ ⟨s'.root, s'.nodes, level', s.first, l₁ ++ leaf :: id :: l₂⟩ m'
        ⟨.tree htree'', hmove, ?_, hrise⟩ ?_ (fun hord hclean => ?_)
        (fun hst => (hs.stocked_splitLeaf hst).congr hlinks.leafAt) hw'
      · -- one leaf more
        simp only [hsplit, List.length_append, List.length_cons]
        omega
      · -- the two halves have the entries of the leaf and the new one
        have hperm := hs.contents_perm hlinks htree'.toSearchable
        rwa [← hsplit] at hperm
      · -- in order, if the split cut no run: the ranges are divided at the split key
        obtain ⟨lo, hi, hr⟩ := hord.ranged htree
        have hkey := hr.ordered.descends_root (fun x n hx => htree.fits_inner hx) hd
        rw [hsplit] at hr
        have hid : id ∉ l₁ ++ leaf :: l₂ := by
          intro hmem
          obtain ⟨es, hes⟩ := Option.isSome_iff_exists.mp (htree'.leafAt_isSome id hmem)
          obtain ⟨k', hk', -⟩ := leaf_of_leafAt hes
          exact absurd (hs.fresh.symm.trans hk') (by simp)
        obtain ⟨lo', hi', stop', hr', hstop, -⟩ := hs.ranged hlinks htree'.chain.nodup hid
          htree'.leafAt_isSome hr (hclean _ _ _ hd hk hs.full) hkey
        obtain rfl := hstop hlinked
        exact .tree hr'

/-! ## 3. Delete -/

/-- **Delete** removes one occurrence of the entry if its leaf has one; in a tree in order, if there
is one. -/
theorem Ok.delete {Q : Option Bool → View → Prop} (h : s.Ok) (hholds : Holds m s.nodes)
    (hserve : mode.Serves n 0) (hfuel : s.height < fuel)
    (hQ : ∀ deleted t m', s.Evolves m t m' → t.root = s.root →
      (∀ id, m id = none → m' id = none) →
      (if deleted then s.contents.Perm ((key, rid) :: t.contents) else t = s ∧ m' = m) →
      (s.InOrder → t.InOrder ∧ (deleted = true ↔ (key, rid) ∈ s.contents)) →
      Q (some deleted) (View.quiet n m')) :
    (s.tree.delete fuel key rid).wp mode Q (View.quiet n m) := by
  refine PoolM.wp_of_refusing ?_
  have hsame : s.Evolves m s m := ⟨h, .refl hholds, Nat.le_succ _, Nat.le_succ _⟩
  cases h with
  | empty =>
    rw [BPlusTree.delete, tree_empty, if_pos rfl]
    refine hQ false TreeState.empty m hsame rfl (fun _ h => h) (by simp) fun _ => ⟨.empty, ?_⟩
    simp [contents, TreeState.empty, NodeMap.contents]
  | tree htree =>
    obtain ⟨inner, leaf, k, l₁, l₂, hd, hlen, hk, hsplit⟩ := htree.path key
    obtain ⟨hfits, hsorted⟩ := htree.fits_leaf hk
    refine PoolM.wpr_delete htree.shape hholds hd hk hsorted hserve (hlen ▸ hfuel)
      (fun hno => ?_) fun i m' hi hperm hmove => ?_
    · -- the entry is not in the leaf; in a tree in order it is then nowhere
      refine hQ false s m hsame rfl (fun _ h => h) (by simp) fun hord => ⟨hord, ?_⟩
      obtain ⟨lo, hi, hr⟩ := hord.ranged htree
      have hkey := hr.ordered.descends_root (fun x n hx => htree.fits_inner hx) hd
      have hfilter := (hr.filter_contents htree.leafAt_isSome hsplit hkey).2
      rw [entriesAt_of_leaf hk] at hfilter
      refine ⟨fun hf => absurd hf (by simp), fun hmem => absurd ?_ hno⟩
      have hmem' : (key, rid) ∈ (s.nodes.contents s.chain).filter fun e => e.1 = key :=
        List.mem_filter.mpr ⟨hmem, by simp⟩
      rw [hfilter] at hmem'
      exact List.mem_of_mem_filter hmem'
    · -- the leaf loses the entry
      let t := s.setLeaf leaf (k.erased i)
      have hdel : IsTree t.nodes t.level t.root t.first t.chain :=
        htree.setLeaf hk ⟨rfl, rfl⟩ (hfits.erased hi) (LeafNode.erased_sorted hsorted i)
      obtain ⟨rest, hold, hnew⟩ := contents_setLeaf_rest hk htree.chain.nodup
        (htree.chain.leaf_mem hk) (k.erased i)
      have hperm' : s.contents.Perm ((key, rid) :: t.contents) :=
        hold.trans ((hperm.append_right rest).trans (hnew.symm.cons _))
      -- no node is added
      have hdom : ∀ id, (t.nodes id).isSome → (s.nodes id).isSome := by
        intro id hid
        rcases (isSome_update _ _ _ _).mp hid with rfl | hid
        · rw [hk]
          rfl
        · exact hid
      refine hQ true t m' ⟨.tree hdel, hmove, Nat.le_succ _, Nat.le_succ _⟩ rfl
        (fun id => hmove.none_of_none hholds hdom) hperm' fun hord => ⟨?_, ?_⟩
      · -- in order: a leaf with fewer entries
        obtain ⟨lo, hi, hr⟩ := hord.ranged htree
        have hr' : Ranged t.nodes lo hi hi t.root t.chain := hr.setLeaf hk fun e he =>
          leaf_entries hr hk e (List.mem_of_mem_eraseIdx he)
        exact .tree hr'
      · exact ⟨fun _ => hperm'.mem_iff.mpr List.mem_cons_self, fun _ => rfl⟩

/-! ## 4. Lookup and RangeScan -/

/-- **Lookup** in a tree in order returns the record ids of all entries of its key. -/
theorem Ok.lookup {Q : Option (List RID) → View → Prop} (h : s.Ok) (hord : s.InOrder)
    (hholds : Holds m s.nodes) (hserve : mode.Serves n 0)
    (hfuel : s.height < fuel ∧ s.chain.length ≤ fuel)
    (hQ : Q (some ((s.contents.filter fun e => e.1 = key).map Prod.snd)) (View.quiet n m)) :
    (s.tree.lookup fuel key).wp mode Q (View.quiet n m) := by
  refine PoolM.wp_of_refusing ?_
  cases h with
  | empty =>
    rw [BPlusTree.lookup, tree_empty, if_pos rfl]
    exact hQ
  | tree htree =>
    obtain ⟨inner, leaf, k, l₁, l₂, hd, hlen, hk, hsplit⟩ := htree.path key
    obtain ⟨lo, hi, hr⟩ := hord.ranged htree
    have hl₂ : l₂.length < fuel := by
      have hle := hfuel.2
      rw [hsplit, List.length_append, List.length_cons] at hle
      omega
    refine PoolM.wpr_lookup hserve hholds htree.shape.ids (fun id k hk => htree.fits_leaf hk) hd
      (htree.segment hsplit) ⟨hlen ▸ hfuel.1, hl₂⟩ ?_
    rw [hr.lookup htree.toSearchable hd hsplit]
    exact hQ

/-- **RangeScan** in a tree in order returns all entries of its range in the order of their keys. -/
theorem Ok.rangeScan {Q : Option (List (KeyType × RID)) → View → Prop} (h : s.Ok)
    (hord : s.InOrder) (hholds : Holds m s.nodes) (hserve : mode.Serves n 0)
    (hfuel : s.height < fuel ∧ s.chain.length ≤ fuel)
    (hQ : SortedEntries s.contents → Q (some (s.contents.filter (inRange low high)))
      (View.quiet n m)) :
    (s.tree.rangeScan fuel low high).wp mode Q (View.quiet n m) := by
  refine PoolM.wp_of_refusing ?_
  cases h with
  | empty =>
    rw [BPlusTree.rangeScan, tree_empty, if_pos rfl]
    exact hQ List.Pairwise.nil
  | tree htree =>
    obtain ⟨inner, leaf, k, l₁, l₂, hd, hlen, hk, hsplit⟩ := htree.path low
    obtain ⟨lo, hi, hr⟩ := hord.ranged htree
    have hl₂ : l₂.length < fuel := by
      have hle := hfuel.2
      rw [hsplit, List.length_append, List.length_cons] at hle
      omega
    refine PoolM.wpr_rangeScan hserve hholds htree.shape.ids (fun id k hk => htree.fits_leaf hk)
      hd (htree.segment hsplit) ⟨hlen ▸ hfuel.1, hl₂⟩ ?_
    rw [hr.scan htree.toSearchable hd hsplit]
    exact hQ (hr.contents_sorted htree.toSearchable)

end TreeState

end CourtDB
