/-
# The structure of a tree, from the root down

`Shape` and `Parents` say of each node how it fits with its neighbours.  Read from the root down
they are one structure: every path to a leaf has the same length, every node has its bounds and
names its parent, and the leaves, from left to right, are those of the chain (`IsTree.subtree`).

The other modules use the local form, because an operation changes few nodes and the local form
names them.  The structure here is for readers: `Subtree` is an inductive definition of what a B+
tree is, with one constructor for a leaf and one for an internal node, and nothing in it refers to
levels or to functions of pages.

The two agree because levels go down by one along every child, so the induction is on the level.
-/
import CourtDB.Index.TreeOps

namespace CourtDB

open NodeMap

/-- **The subtree at a page**: `height` levels above its leaves, whose pages are listed from left to
right, and with `parentId` as the parent pointer of its top. -/
inductive Subtree (nodes : NodeMap) : PageId → Nat → PageId → List PageId → Prop
  | leaf {parentId id : PageId} {n : LeafNode} (hn : nodes id = some (.leaf n))
      (hparent : n.header.parentPageId = parentId) (hle : n.entries.length ≤ 406)
      (hsorted : SortedEntries n.entries) : Subtree nodes parentId 0 id [id]
  | inner {parentId id : PageId} {height : Nat} {n : InternalNode}
      {below : PageId → List PageId} (hn : nodes id = some (.internal n))
      (hparent : n.header.parentPageId = parentId) (hpos : 1 ≤ n.keys.length)
      (hle : n.keys.length ≤ 507) (hchildren : n.children.length = n.keys.length + 1)
      (hkids : ∀ c ∈ n.children, Subtree nodes id height c (below c)) :
      Subtree nodes parentId (height + 1) id (n.children.flatMap below)

/-- The leaves `k` levels below a page, from left to right. -/
def leavesUnder (nodes : NodeMap) : Nat → PageId → List PageId
  | 0, id => [id]
  | k + 1, id => (nodes.kids id).flatMap (leavesUnder nodes k)

namespace IsTree

variable {nodes : NodeMap} {level : PageId → Nat} {root first id : PageId} {chain : List PageId}
  (h : IsTree nodes level root first chain)

include h

/-- A page on level 0 holds a leaf, one on a higher level an internal node. -/
theorem node_zero (hid : (nodes id).isSome) (hl : level id = 0) :
    ∃ n, nodes id = some (.leaf n) := by
  obtain ⟨n, hn⟩ := Option.isSome_iff_exists.mp hid
  cases n with
  | leaf n => exact ⟨n, hn⟩
  | internal n => exact absurd (h.shape.level_inner id _ (innerAt_of_some hn)) (by omega)

theorem node_succ (hid : (nodes id).isSome) {k : Nat} (hl : level id = k + 1) :
    ∃ n, nodes id = some (.internal n) := by
  obtain ⟨n, hn⟩ := Option.isSome_iff_exists.mp hid
  cases n with
  | leaf n => exact absurd (h.shape.level_leaf id _ (leafAt_of_some hn)) (by omega)
  | internal n => exact ⟨n, hn⟩

/-- **Every page is the top of a subtree.** -/
theorem subtree_at (k : Nat) : ∀ id parentId, level id = k → nodes.par id = some parentId →
    Subtree nodes parentId k id (leavesUnder nodes k id) := by
  induction k with
  | zero =>
    intro id parentId hl hpar
    obtain ⟨n, hn⟩ := h.node_zero (by
      cases hn : nodes id with
      | some n => rfl
      | none => rw [par, hn] at hpar; exact absurd hpar (by simp)) hl
    obtain ⟨hfits, hsorted⟩ := h.fits_leaf hn
    rw [par_of_some hn] at hpar
    exact .leaf hn (Option.some.inj hpar) hfits.le hsorted
  | succ k ih =>
    intro id parentId hl hpar
    obtain ⟨n, hn⟩ := h.node_succ (by
      cases hn : nodes id with
      | some n => rfl
      | none => rw [par, hn] at hpar; exact absurd hpar (by simp)) hl
    have hfits := h.fits_inner hn
    rw [par_of_some hn] at hpar
    have hkids : nodes.kids id = n.children := kids_of_some hn
    rw [leavesUnder, hkids]
    refine .inner hn (Option.some.inj hpar) hfits.pos hfits.le hfits.children fun c hc => ?_
    have hlevel := (h.shape.kid id c (hkids ▸ hc)).2
    exact ih c id (by omega) (h.parents.down id c (hkids ▸ hc) (Nat.zero_le _))

/-- What is listed below a page are leaves. -/
theorem leaf_of_mem_under (k : Nat) : ∀ id, (nodes id).isSome → level id = k →
    ∀ x ∈ leavesUnder nodes k id, (nodes.leafAt x).isSome := by
  induction k with
  | zero =>
    intro id hid hl x hx
    obtain rfl := List.mem_singleton.mp hx
    obtain ⟨n, hn⟩ := h.node_zero hid hl
    rw [leafAt_of_some hn]
    rfl
  | succ k ih =>
    intro id hid hl x hx
    obtain ⟨c, hc, hxc⟩ := List.mem_flatMap.mp hx
    obtain ⟨hcs, hlc⟩ := h.shape.kid id c hc
    exact ih c hcs (by omega) x hxc

/-- What is below any page is below the root. -/
theorem under_subset (j : Nat) : ∀ k id, (nodes id).isSome → level id = k → k + j = level root →
    leavesUnder nodes k id ⊆ leavesUnder nodes (level root) root := by
  induction j with
  | zero =>
    intro k id hid hl hk
    by_cases hroot : id = root
    · rw [hroot, ← hk, Nat.add_zero]
      exact fun _ hx => hx
    · -- a parent of it would be above the root
      obtain ⟨n, hn⟩ := Option.isSome_iff_exists.mp hid
      have hmem := h.parents.up id _ (par_of_some hn) (Nat.zero_le _) hroot (by simp)
      obtain ⟨m, hm, -⟩ := internal_of_mem_kids hmem
      have htop := h.shape.top n.header.parentPageId (by rw [hm]; rfl)
      have hkid := (h.shape.kid _ id hmem).2
      omega
  | succ j ih =>
    intro k id hid hl hk
    have hroot : id ≠ root := by
      rintro rfl
      omega
    obtain ⟨n, hn⟩ := Option.isSome_iff_exists.mp hid
    have hmem := h.parents.up id _ (par_of_some hn) (Nat.zero_le _) hroot (by simp)
    obtain ⟨m, hm, -⟩ := internal_of_mem_kids hmem
    have hkid := (h.shape.kid _ id hmem).2
    intro x hx
    exact ih (k + 1) n.header.parentPageId (by rw [hm]; rfl) (by omega) (by omega)
      (List.mem_flatMap.mpr ⟨id, hmem, hx⟩)

/-- A leaf is below one page of each level. -/
theorem under_unique (k : Nat) : ∀ c d x, x ∈ leavesUnder nodes k c → x ∈ leavesUnder nodes k d →
    c = d := by
  induction k with
  | zero =>
    intro c d x hc hd
    exact (List.mem_singleton.mp hc).symm.trans (List.mem_singleton.mp hd)
  | succ k ih =>
    intro c d x hc hd
    obtain ⟨c', hc', hxc⟩ := List.mem_flatMap.mp hc
    obtain ⟨d', hd', hxd⟩ := List.mem_flatMap.mp hd
    obtain rfl := ih c' d' x hxc hxd
    have hpc := h.parents.down c c' hc' (Nat.zero_le _)
    have hpd := h.parents.down d c' hd' (Nat.zero_le _)
    exact Option.some.inj (hpc.symm.trans hpd)

theorem nodup_under (k : Nat) : ∀ id, (leavesUnder nodes k id).Nodup := by
  induction k with
  | zero => exact fun id => List.nodup_singleton id
  | succ k ih =>
    intro id
    refine List.nodup_flatMap.mpr ⟨fun c _ => ih c, ?_⟩
    refine (h.shape.nodup id).imp fun {c d} hne => ?_
    intro x hc hd
    exact hne (h.under_unique k c d x hc hd)

/-- The first leaf below a page is where its first children lead. -/
theorem head_under (hspine : Spine nodes id first) :
    (leavesUnder nodes (level id) id).head? = some first := by
  have hshape := h.shape
  clear h
  induction hspine with
  | @leaf id hleaf =>
    obtain ⟨es, hes⟩ := Option.isSome_iff_exists.mp hleaf
    rw [hshape.level_leaf id es hes]
    rfl
  | @kid id c first hc _ ih =>
    have hmem : c ∈ nodes.kids id := List.mem_of_head? hc
    rw [← (hshape.kid id c hmem).2, leavesUnder]
    obtain ⟨cs, hcs⟩ : ∃ cs, nodes.kids id = c :: cs := by
      cases hk : nodes.kids id with
      | nil => rw [hk] at hc; exact absurd hc (by simp)
      | cons d cs => rw [hk] at hc; exact ⟨cs, by rw [Option.some.inj hc]⟩
    rw [hcs, List.flatMap_cons, List.head?_append, ih]
    rfl

/-- **The whole tree**: a subtree at the root whose leaves are those of the chain. -/
theorem subtree : ∃ leaves, Subtree nodes invalidPageId (level root) root leaves ∧
    leaves.head? = some first ∧ chain.Perm leaves ∧ leaves.Nodup := by
  refine ⟨_, h.subtree_at (level root) root _ rfl h.parents.root_par, h.head_under h.spine, ?_,
    h.nodup_under _ _⟩
  refine (List.perm_ext_iff_of_nodup h.chain.nodup (h.nodup_under _ _)).mpr fun x => ?_
  rw [h.chain.mem]
  constructor
  · intro hx
    obtain ⟨es, hes⟩ := Option.isSome_iff_exists.mp hx
    obtain ⟨k, hk, -⟩ := leaf_of_leafAt hes
    have hl := h.shape.level_leaf x es hes
    exact h.under_subset (level root) 0 x (by rw [hk]; rfl) hl (Nat.zero_add _)
      (List.mem_singleton.mpr rfl)
  · exact h.leaf_of_mem_under _ root h.shape.root_mem rfl x

end IsTree

end CourtDB
