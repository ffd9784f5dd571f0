/-
# The state of a tree

What the pages of a B+ tree hold is a `NodeMap`.  The tree is in it twice: downwards as the lists of
children (`kids`), and upwards as the stored parent pointers (`par`).  `Shape` says that the
downward links fit together, level by level, and `Parents` that the upward ones agree with them.

All conditions are about one node and its neighbours, so that a change to a few nodes is checked at
those nodes.  A split leaves, for a while, a node that is nobody's child (`Pending`).  When pages
cannot be fetched, some nodes keep an old parent pointer; `Parents` is therefore about the nodes
from some level on.
-/
import CourtDB.Lib.Segment
import CourtDB.Index.InternalSpecs

namespace CourtDB

/-- The nodes of a tree, by page. -/
abbrev NodeMap := PageId → Option BTreeNode

/-- The pages hold the nodes. -/
def Holds (pages : PageId → Option Page) (nodes : NodeMap) : Prop :=
  ∀ id n, nodes id = some n → ∃ p, pages id = some p ∧ p.Stores n

@[simp] theorem BTreeNode.children_setParent (parentId : PageId) (n : BTreeNode) :
    (n.setParent parentId).children = n.children := by cases n <;> rfl

@[simp] theorem BTreeNode.parent_setParent (parentId : PageId) (n : BTreeNode) :
    (n.setParent parentId).header.parentPageId = parentId := by cases n <;> rfl

namespace NodeMap

variable {nodes nodes' : NodeMap} {id c x parentId : PageId} {n : BTreeNode} {cs : List PageId}

/-! ## 1. Links -/

/-- The children of the node on a page. -/
def kids (nodes : NodeMap) (id : PageId) : List PageId :=
  ((nodes id).map BTreeNode.children).getD []

/-- The parent pointer of the node on a page. -/
def par (nodes : NodeMap) (id : PageId) : Option PageId :=
  (nodes id).map fun n => n.header.parentPageId

/-- The link and the entries of the leaf on a page. -/
def leafAt (nodes : NodeMap) (id : PageId) : Option (PageId × List (KeyType × RID)) :=
  match nodes id with
  | some (.leaf n) => some (n.header.nextPageId, n.entries)
  | some (.internal _) => none
  | none => none

/-- The children and the keys of the internal node on a page. -/
def innerAt (nodes : NodeMap) (id : PageId) : Option (List PageId × List KeyType) :=
  match nodes id with
  | some (.leaf _) => none
  | some (.internal n) => some (n.children, n.keys)
  | none => none

theorem kids_of_some (h : nodes id = some n) : nodes.kids id = n.children := by
  rw [kids, h]
  rfl

theorem par_of_some (h : nodes id = some n) : nodes.par id = some n.header.parentPageId := by
  rw [par, h]
  rfl

theorem leafAt_of_some {n : LeafNode} (h : nodes id = some (.leaf n)) :
    nodes.leafAt id = some (n.header.nextPageId, n.entries) := by
  rw [leafAt, h]

theorem innerAt_of_some {n : InternalNode} (h : nodes id = some (.internal n)) :
    nodes.innerAt id = some (n.children, n.keys) := by
  rw [innerAt, h]

/-- Only internal nodes have children. -/
theorem internal_of_mem_kids (h : c ∈ nodes.kids id) :
    ∃ n, nodes id = some (.internal n) ∧ c ∈ n.children := by
  cases hn : nodes id with
  | none =>
    rw [kids, hn] at h
    exact absurd h List.not_mem_nil
  | some n =>
    rw [kids_of_some hn] at h
    cases n with
    | leaf n => exact absurd h List.not_mem_nil
    | internal n => exact ⟨n, rfl, h⟩

theorem kids_of_innerAt {ks : List KeyType} (h : nodes.innerAt id = some (cs, ks)) :
    nodes.kids id = cs := by
  unfold innerAt at h
  split at h
  · exact absurd h (by simp)
  · rename_i n hn
    rw [kids_of_some hn]
    exact (Prod.mk.inj (Option.some.inj h)).1
  · exact absurd h (by simp)

/-! ## 2. Changes -/

section Update

variable (nodes id n)

theorem kids_update (x : PageId) : kids (Function.update nodes id (some n)) x
    = if x = id then n.children else nodes.kids x := by
  by_cases hx : x = id
  · rw [if_pos hx, hx, kids_of_some (Function.update_self _ _ _)]
  · rw [if_neg hx, kids, Function.update_of_ne hx]
    rfl

theorem par_update (x : PageId) : par (Function.update nodes id (some n)) x
    = if x = id then some n.header.parentPageId else nodes.par x := by
  by_cases hx : x = id
  · rw [if_pos hx, hx, par_of_some (Function.update_self _ _ _)]
  · rw [if_neg hx, par, Function.update_of_ne hx]
    rfl

theorem leafAt_update_internal (n : InternalNode) (h : nodes.leafAt id = none) (x : PageId) :
    leafAt (Function.update nodes id (some (.internal n))) x = nodes.leafAt x := by
  by_cases hx : x = id
  · rw [hx, h, leafAt, Function.update_self]
  · rw [leafAt, Function.update_of_ne hx]
    rfl

theorem innerAt_update_internal (n : InternalNode) (x : PageId) :
    innerAt (Function.update nodes id (some (.internal n))) x
      = if x = id then some (n.children, n.keys) else nodes.innerAt x := by
  by_cases hx : x = id
  · rw [if_pos hx, hx, innerAt_of_some (Function.update_self _ _ _)]
  · rw [if_neg hx, innerAt, Function.update_of_ne hx]
    rfl

end Update

/-- `nodes'` are `nodes` where some of the nodes `cs` got the parent pointer `parentId`. -/
def Reparented (nodes nodes' : NodeMap) (parentId : PageId) (cs : List PageId) : Prop :=
  ∀ x, nodes' x = nodes x ∨ x ∈ cs ∧ nodes' x = (nodes x).map (BTreeNode.setParent parentId)

namespace Reparented

theorem refl (nodes : NodeMap) (parentId : PageId) (cs : List PageId) :
    Reparented nodes nodes parentId cs := fun _ => Or.inl rfl

/-- One more node gets the pointer. -/
theorem update (h : Reparented nodes nodes' parentId cs) (hc : c ∈ cs) :
    Reparented nodes
      (Function.update nodes' c ((nodes' c).map (BTreeNode.setParent parentId))) parentId cs := by
  intro x
  by_cases hx : x = c
  · rw [hx, Function.update_self]
    refine Or.inr ⟨hc, ?_⟩
    rcases h c with heq | ⟨-, heq⟩
    · rw [heq]
    · rw [heq, Option.map_map]
      congr 1
      funext n
      cases n <;> rfl
  · rw [Function.update_of_ne hx]
    exact h x

variable (h : Reparented nodes nodes' parentId cs)

include h

theorem of_not_mem (hx : x ∉ cs) : nodes' x = nodes x :=
  (h x).resolve_right fun hc => hx hc.1

theorem kids (x : PageId) : nodes'.kids x = nodes.kids x := by
  rcases h x with heq | ⟨-, heq⟩
  · rw [NodeMap.kids, heq]
    rfl
  · rw [NodeMap.kids, heq, NodeMap.kids]
    cases nodes x with
    | none => rfl
    | some n => exact BTreeNode.children_setParent parentId n

theorem leafAt (x : PageId) : nodes'.leafAt x = nodes.leafAt x := by
  rcases h x with heq | ⟨-, heq⟩
  · rw [NodeMap.leafAt, heq]
    rfl
  · rw [NodeMap.leafAt, heq, NodeMap.leafAt]
    cases nodes x with
    | none => rfl
    | some n => cases n <;> rfl

theorem innerAt (x : PageId) : nodes'.innerAt x = nodes.innerAt x := by
  rcases h x with heq | ⟨-, heq⟩
  · rw [NodeMap.innerAt, heq]
    rfl
  · rw [NodeMap.innerAt, heq, NodeMap.innerAt]
    cases nodes x with
    | none => rfl
    | some n => cases n <;> rfl

theorem isSome (x : PageId) : (nodes' x).isSome = (nodes x).isSome := by
  rcases h x with heq | ⟨-, heq⟩
  · rw [heq]
  · rw [heq, Option.isSome_map]

theorem fits (hfits : ∀ x n, nodes x = some n → n.Fits) {m : BTreeNode} (hx : nodes' x = some m) :
    m.Fits := by
  rcases h x with heq | ⟨-, heq⟩
  · exact hfits x m (heq ▸ hx)
  · rw [heq] at hx
    obtain ⟨n, hn, rfl⟩ := Option.map_eq_some_iff.mp hx
    exact (hfits x n hn).setParent parentId

end Reparented

/-- Following the first children from a page leads to a leaf. -/
inductive Spine (nodes : NodeMap) : PageId → PageId → Prop
  | leaf {id : PageId} (h : (nodes.leafAt id).isSome) : Spine nodes id id
  | kid {id c first : PageId} (hc : (nodes.kids id).head? = some c) (h : Spine nodes c first) :
      Spine nodes id first

/-- Where first children and leaves stay, so does the way to the first leaf. -/
theorem Spine.mono {first : PageId} (h : Spine nodes id first)
    (hkids : ∀ x c, (nodes.kids x).head? = some c → (nodes'.kids x).head? = some c)
    (hleaves : ∀ x, (nodes.leafAt x).isSome → (nodes'.leafAt x).isSome) :
    Spine nodes' id first := by
  induction h with
  | leaf h => exact .leaf (hleaves _ h)
  | kid hc _ ih => exact .kid (hkids _ _ hc) ih

end NodeMap

/-! ## 3. The shape of a tree -/

/-- **The downward links**: the nodes fit their pages, children are one level below their parent,
leaves are at level 0, and nothing is above the root. -/
structure Shape (nodes : NodeMap) (level : PageId → Nat) (root : PageId) : Prop where
  root_mem : (nodes root).isSome
  ids : ∀ id, (nodes id).isSome → id ≠ 0 ∧ id ≠ invalidPageId
  fits : ∀ id n, nodes id = some n → n.Fits
  level_leaf : ∀ id es, nodes.leafAt id = some es → level id = 0
  level_inner : ∀ id cs, nodes.innerAt id = some cs → 0 < level id
  kid : ∀ id, ∀ c ∈ nodes.kids id, (nodes c).isSome ∧ level c + 1 = level id
  top : ∀ id, (nodes id).isSome → level id ≤ level root
  nodup : ∀ id, (nodes.kids id).Nodup

/-- **The upward links** of the nodes from level `l` on, but for a node that is nobody's child. -/
structure Parents (nodes : NodeMap) (level : PageId → Nat) (root : PageId) (l : Nat)
    (pending : Option PageId) : Prop where
  root_par : nodes.par root = some invalidPageId
  up : ∀ c q, nodes.par c = some q → l ≤ level c → c ≠ root → some c ≠ pending →
    c ∈ nodes.kids q
  down : ∀ id, ∀ c ∈ nodes.kids id, l ≤ level c → nodes.par c = some id

/-- The node `right` was split off `left`, and is not yet a child of their parent. -/
structure Pending (nodes : NodeMap) (level : PageId → Nat) (root left right : PageId) : Prop where
  level_eq : level right = level left
  par_eq : nodes.par right = nodes.par left
  left_mem : (nodes left).isSome
  orphan : ∀ id, right ∉ nodes.kids id
  ne_root : right ≠ root
  ne : right ≠ left

end CourtDB
