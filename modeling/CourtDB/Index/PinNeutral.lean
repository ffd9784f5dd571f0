/-
# The pins of a tree

A call of the tree pins pages and gives them back, and whether it gives back all of them must not
depend on the state of the tree.  Trees can be in a bad state: when a page cannot be had, `Insert`
stops halfway, and a leaf stays that no parent points to, or children keep the parent pointer of the
node they were moved from.  So the order of the keys and the shape of the tree cannot be used here.

What is left is little, and no refusal destroys it.  It is about one node and its pointers each
(`Linked`):

* a page of the tree holds a node that fits into it, and has no slots;
* the children of a node are nodes, and are below it (`level`); a parent pointer leads to an inner
  node above, also where it is an old one;
* a leaf is followed by a leaf that is nearer to the end of the chain (`rank`).

Levels and ranks are not in the source.  They say that no pointer leads in a circle: the descent of
`FindLeafPage` goes down the levels, `InsertIntoParent` goes up, and `Lookup` and `RangeScan` go
along the ranks, so with enough fuel all of them return.  A new root gets a level above all others,
and a new leaf a rank between its neighbours, for which all others are doubled (`Grows` asks only
for their order).

On such a tree the account of the pins is kept by `Holding`: `base` is what others have pinned, and
`held` what the operation has in its hands.  No page is in its hands more than twice, each is given
back by the id that stands in its own header (`View.Home`), and `held` is empty at the end.  The
recursion of `InsertIntoParent` needs to know that it does not meet a page again that is in the
hands of the calls below it: they hold nodes of their own level and lower ones (`Halved`).

Every call thus keeps a tree standing on the pages and leaves the pins as they were, and by
induction on the calls so does every sequence of them (`Reaches.stands`); `TreeCall.pin_neutral` is
the account of one call after such a sequence.
-/
import CourtDB.Buffer.HeldPins
import CourtDB.Buffer.PoolAccess
import CourtDB.Index.SingleLeaf
import CourtDB.Index.TreeLinking
import Mathlib.Data.Set.Finite.Lattice

namespace CourtDB

open NodeMap

/-! ## 1. What every tree keeps

`Linked` is asked of each node on its own, so a change of one node is checked at that node, and at
the others only as far as the tree has grown (`Linked.grow`). -/

/-- Is the node a leaf? -/
def BTreeNode.isLeaf : BTreeNode → Bool
  | leaf _ => true
  | internal _ => false

@[simp] theorem BTreeNode.isLeaf_setParent (parentId : PageId) (n : BTreeNode) :
    (n.setParent parentId).isLeaf = n.isLeaf := by cases n <;> rfl

/-- The record id stands in a leaf. -/
def NodeMap.Lists (nodes : NodeMap) (rid : RID) : Prop :=
  ∃ id k, nodes id = some (.leaf k) ∧ ∃ e ∈ k.entries, e.2 = rid

/-- The kind of the node on a page, if there is one. -/
def NodeMap.kind (nodes : NodeMap) (id : PageId) : Option Bool := (nodes id).map BTreeNode.isLeaf

/-- The pointers of the node `n` on page `id` are good: they lead to nodes of the right kind,
children one way and the parent the other way along `level`, and the next leaf along `rank`.  The
invalid page id is a pointer that leads nowhere. -/
structure Linked (nodes : NodeMap) (level rank : PageId → Nat) (id : PageId) (n : BTreeNode) :
    Prop where
  ids : id ≠ 0 ∧ id ≠ invalidPageId
  fits : n.Fits
  kid : ∀ c ∈ n.children, (nodes c).isSome ∧ level c < level id
  up : n.header.parentPageId ≠ invalidPageId →
    nodes.kind n.header.parentPageId = some false ∧ level id < level n.header.parentPageId
  next : n.isLeaf = true → n.header.nextPageId ≠ invalidPageId →
    nodes.kind n.header.nextPageId = some true ∧ rank n.header.nextPageId < rank id

/-- All pointers of a tree are good. -/
def Ranked (nodes : NodeMap) (level rank : PageId → Nat) : Prop :=
  ∀ id n, nodes id = some n → Linked nodes level rank id n

/-- No node goes or changes its kind, and the nodes stay in their order.  Levels of old nodes are
kept; ranks may be moved, as when a leaf comes between two others. -/
structure Grows (nodes : NodeMap) (level rank : PageId → Nat) (nodes' : NodeMap)
    (level' rank' : PageId → Nat) : Prop where
  kind : ∀ id b, nodes.kind id = some b → nodes'.kind id = some b
  level : ∀ id, (nodes id).isSome → level' id = level id
  rank : ∀ x y, (nodes x).isSome → (nodes y).isSome → rank x < rank y → rank' x < rank' y

namespace NodeMap

variable {nodes nodes' : NodeMap} {id : PageId} {n : BTreeNode} {b : Bool}

theorem kind_of_some (h : nodes id = some n) : nodes.kind id = some n.isLeaf := by
  rw [kind, h]
  rfl

theorem isSome_of_kind (h : nodes.kind id = some b) : (nodes id).isSome := by
  rw [kind] at h
  rw [← Option.isSome_map, h]
  rfl

theorem leaf_of_kind (h : nodes.kind id = some true) : ∃ k, nodes id = some (.leaf k) := by
  obtain ⟨n, hn, hkind⟩ := Option.map_eq_some_iff.mp h
  cases n with
  | leaf k => exact ⟨k, hn⟩
  | internal k => exact absurd hkind Bool.false_ne_true

theorem internal_of_kind (h : nodes.kind id = some false) :
    ∃ k, nodes id = some (.internal k) := by
  obtain ⟨n, hn, hkind⟩ := Option.map_eq_some_iff.mp h
  cases n with
  | leaf k => exact absurd hkind.symm Bool.false_ne_true
  | internal k => exact ⟨k, hn⟩

/-- A write decides the kind of its node only. -/
theorem kind_update (nodes : NodeMap) (id : PageId) (n : BTreeNode) (x : PageId) :
    kind (Function.update nodes id (some n)) x =
      if x = id then some n.isLeaf else nodes.kind x := by
  by_cases hx : x = id
  · rw [if_pos hx, hx, kind_of_some (Function.update_self _ _ _)]
  · rw [if_neg hx, kind, Function.update_of_ne hx]
    rfl

/-- A new parent pointer leaves the kind. -/
theorem Reparented.kind {parentId : PageId} {cs : List PageId}
    (h : Reparented nodes nodes' parentId cs) (x : PageId) : nodes'.kind x = nodes.kind x := by
  rcases h x with heq | ⟨-, heq⟩
  · rw [NodeMap.kind, heq]
    rfl
  · rw [NodeMap.kind, heq, NodeMap.kind, Option.map_map]
    congr 1
    funext n
    exact BTreeNode.isLeaf_setParent parentId n

end NodeMap

section Growing

variable {nodes nodes' : NodeMap} {level level' rank rank' : PageId → Nat} {id parentId : PageId}
  {n : BTreeNode}

theorem Grows.isSome (h : Grows nodes level rank nodes' level' rank') (hid : (nodes id).isSome) :
    (nodes' id).isSome := by
  obtain ⟨n, hn⟩ := Option.isSome_iff_exists.mp hid
  exact isSome_of_kind (h.kind id _ (kind_of_some hn))

/-- What is asked of a leaf. -/
theorem Linked.leaf {k : LeafNode} (hids : id ≠ 0 ∧ id ≠ invalidPageId) (hfits : k.Fits)
    (hup : k.header.parentPageId ≠ invalidPageId →
      nodes.kind k.header.parentPageId = some false ∧ level id < level k.header.parentPageId)
    (hnext : k.header.nextPageId ≠ invalidPageId →
      nodes.kind k.header.nextPageId = some true ∧ rank k.header.nextPageId < rank id) :
    Linked nodes level rank id (.leaf k) :=
  ⟨hids, hfits, fun _ hc => absurd hc List.not_mem_nil, hup, fun _ => hnext⟩

/-- The parent of a leaf is an inner node on a higher level. -/
theorem Linked.leaf_up {k : LeafNode} (h : Linked nodes level rank id (.leaf k))
    (hq : k.header.parentPageId ≠ invalidPageId) :
    nodes.kind k.header.parentPageId = some false ∧
      level id < level k.header.parentPageId := h.up hq

/-- The leaf that follows has a smaller rank. -/
theorem Linked.leaf_next {k : LeafNode} (h : Linked nodes level rank id (.leaf k))
    (hq : k.header.nextPageId ≠ invalidPageId) :
    nodes.kind k.header.nextPageId = some true ∧ rank k.header.nextPageId < rank id := h.next rfl hq

/-- A node stays good as the tree grows. -/
theorem Linked.grow (h : Linked nodes level rank id n) (hid : (nodes id).isSome)
    (hgrow : Grows nodes level rank nodes' level' rank') : Linked nodes' level' rank' id n := by
  refine ⟨h.ids, h.fits, fun c hc => ?_, fun hne => ?_, fun hleaf hne => ?_⟩
  · obtain ⟨hs, hlt⟩ := h.kid c hc
    rw [hgrow.level c hs, hgrow.level id hid]
    exact ⟨hgrow.isSome hs, hlt⟩
  · obtain ⟨hkind, hlt⟩ := h.up hne
    rw [hgrow.level id hid, hgrow.level _ (isSome_of_kind hkind)]
    exact ⟨hgrow.kind _ _ hkind, hlt⟩
  · obtain ⟨hkind, hlt⟩ := h.next hleaf hne
    exact ⟨hgrow.kind _ _ hkind, hgrow.rank _ _ (isSome_of_kind hkind) hid hlt⟩

/-- A node gets another good parent pointer. -/
theorem Linked.setParent (h : Linked nodes level rank id n)
    (hparent : nodes.kind parentId = some false) (hlt : level id < level parentId) :
    Linked nodes level rank id (n.setParent parentId) := by
  refine ⟨h.ids, h.fits.setParent parentId, ?_, fun _ => ?_, fun hleaf hne => ?_⟩
  · rw [BTreeNode.children_setParent]
    exact h.kid
  · rw [BTreeNode.parent_setParent]
    exact ⟨hparent, hlt⟩
  · cases n with
    | leaf k => exact h.next rfl hne
    | internal k => exact absurd hleaf Bool.false_ne_true

/-- The tree is the old one, with parent pointers changed, and some new nodes. -/
theorem Ranked.change {cs : List PageId} (h : Ranked nodes level rank)
    (hgrow : Grows nodes level rank nodes' level' rank')
    (hparent : nodes'.kind parentId = some false)
    (hcs : ∀ c ∈ cs, (nodes c).isSome → level c < level' parentId)
    (hnew : ∀ x n, nodes' x = some n → nodes x = some n ∨
      (x ∈ cs ∧ ∃ m, nodes x = some m ∧ n = m.setParent parentId) ∨
        Linked nodes' level' rank' x n) :
    Ranked nodes' level' rank' := by
  intro x n hx
  rcases hnew x n hx with hold | ⟨hmem, m, hm, rfl⟩ | hlinked
  · exact (h x n hold).grow (by rw [hold]; rfl) hgrow
  · have hs : (nodes x).isSome := by rw [hm]; rfl
    refine ((h x m hm).grow hs hgrow).setParent hparent ?_
    rw [hgrow.level x hs]
    exact hcs x hmem hs
  · exact hlinked

end Growing

/-! ## 2. How trees change

The changes that `Insert` and `Delete` make, one lemma for each: a node is replaced by one of its
kind, a new root stands above two nodes, a full parent or a full leaf is split.  Where pages are
refused, a change is made only in part, and each part is one of these lemmas too: `addLeaf` is a
split whose right leaf no parent has heard of. -/

section Changes

variable {nodes nodes₁ nodes' : NodeMap} {level rank : PageId → Nat} {id parent left right : PageId}
  {key : KeyType}

theorem ne_of_unused {x : PageId} (hx : (nodes x).isSome) (hid : nodes id = none) : x ≠ id := by
  rintro rfl
  rw [hid] at hx
  exact absurd hx Bool.false_ne_true

/-- A node is replaced by one of its kind. -/
theorem Ranked.set {n n' : BTreeNode} (h : Ranked nodes level rank) (hn : nodes id = some n)
    (hkind : n'.isLeaf = n.isLeaf) (hlinked : Linked nodes level rank id n') :
    Ranked (Function.update nodes id (some n')) level rank := by
  have hgrow : Grows nodes level rank (Function.update nodes id (some n')) level rank := by
    refine ⟨fun x b hx => ?_, fun _ _ => rfl, fun _ _ _ _ hlt => hlt⟩
    rw [kind_update]
    by_cases hxid : x = id
    · rw [if_pos hxid, hkind, ← hx, hxid, kind_of_some hn]
    · rw [if_neg hxid, hx]
  intro x k hx
  by_cases hxid : x = id
  · rw [hxid, Function.update_self] at hx
    obtain rfl := Option.some.inj hx
    rw [hxid]
    exact hlinked.grow (by rw [hn]; rfl) hgrow
  · rw [Function.update_of_ne hxid] at hx
    exact (h x k hx).grow (by rw [hx]; rfl) hgrow

/-- A node on a new page. -/
theorem Grows.add (hid : nodes id = none) (n : BTreeNode) (l : Nat) :
    Grows nodes level rank (Function.update nodes id (some n))
      (Function.update level id l) rank := by
  refine ⟨fun x b hx => ?_, fun x hx => ?_, fun _ _ _ _ hlt => hlt⟩
  · rw [kind_update, if_neg (ne_of_unused (isSome_of_kind hx) hid), hx]
  · exact Function.update_of_ne (ne_of_unused hx hid) _ _

/-- Changed parent pointers. -/
theorem Grows.reparent {level' rank' : PageId → Nat} {cs : List PageId}
    (h : Grows nodes level rank nodes₁ level' rank') (hre : Reparented nodes₁ nodes' parent cs) :
    Grows nodes level rank nodes' level' rank' :=
  ⟨fun x b hx => (hre.kind x).trans (h.kind x b hx), h.level, h.rank⟩

/-- **A new root** above two nodes. -/
theorem Ranked.newRoot (h : Ranked nodes level rank) (hid : nodes id = none)
    (hne : id ≠ 0 ∧ id ≠ invalidPageId) (hleft : (nodes left).isSome)
    (hright : (nodes right).isSome) (hlevel : level right = level left)
    (hre : Reparented (Function.update nodes id (some (.internal (.newRoot left key right)))) nodes'
      id [left, right]) :
    Ranked nodes' (Function.update level id (level left + 1)) rank := by
  -- the old nodes keep kind, level and rank; the two children only get another parent
  have hgrow : Grows nodes level rank nodes' (Function.update level id (level left + 1)) rank :=
    (Grows.add hid (.internal (.newRoot left key right)) (level left + 1)).reparent hre
  have hself : Function.update level id (level left + 1) id = level left + 1 :=
    Function.update_self _ _ _
  have hkids : ∀ c ∈ [left, right], (nodes c).isSome ∧ level c = level left := by
    intro c hc
    rcases List.mem_pair.mp hc with rfl | rfl
    · exact ⟨hleft, rfl⟩
    · exact ⟨hright, hlevel⟩
  refine @Ranked.change _ _ _ _ _ _ id [left, right] h hgrow
    ((hre.kind id).trans (kind_of_some (Function.update_self _ _ _))) (fun c hc _ => ?_)
    fun x n hx => ?_
  · rw [hself, (hkids c hc).2]
    exact Nat.lt_succ_self _
  · -- which nodes differ from the tree before: the new root, and the two nodes below it
    by_cases hxid : x = id
    · have hroot : nodes' x = some (.internal (.newRoot left key right)) := by
        rw [hre.of_not_mem fun hmem => ?_, hxid, Function.update_self]
        exact ne_of_unused (hkids x hmem).1 hid hxid
      obtain rfl := Option.some.inj (hx.symm.trans hroot)
      rw [hxid]
      refine Or.inr (Or.inr ⟨hne, ⟨rfl, rfl, rfl, Nat.one_pos, ?_⟩, fun c hc => ?_, ?_, ?_⟩)
      · exact Nat.le_add_left 1 506
      · obtain ⟨hs, heq⟩ := hkids c hc
        rw [hself, hgrow.level c hs, heq]
        exact ⟨hgrow.isSome hs, Nat.lt_succ_self _⟩
      · exact fun hup => absurd rfl hup
      · exact fun hleaf => absurd hleaf Bool.false_ne_true
    · have hold : Function.update nodes id (some (.internal (.newRoot left key right))) x
          = nodes x := Function.update_of_ne hxid _ _
      rcases hre x with heq | ⟨hmem, heq⟩
      · exact Or.inl (by rw [← hold, ← heq, hx])
      · -- a child: the node it was, with the new parent in its header
        rw [heq, hold] at hx
        obtain ⟨m, hm, rfl⟩ := Option.map_eq_some_iff.mp hx
        exact Or.inr (Or.inl ⟨hmem, m, hm, rfl⟩)

/-- **A parent is split.** -/
theorem Ranked.splitParent {n : InternalNode} {keys : List KeyType} {cs : List PageId}
    {nextPageId : PageId} (h : Ranked nodes level rank) (hn : nodes parent = some (.internal n))
    (hid : nodes id = none) (hne : id ≠ 0 ∧ id ≠ invalidPageId)
    (hcs : ∀ c ∈ cs, (nodes c).isSome ∧ level c < level parent)
    (hre : Reparented nodes nodes₁ id (cs.drop 255))
    (hleft : (n.leftHalf keys cs).Fits) (hright : (n.rightHalf keys cs nextPageId).Fits) :
    Ranked (Function.update (Function.update nodes₁ parent (some (.internal (n.leftHalf keys cs))))
        id (some (.internal (n.rightHalf keys cs nextPageId))))
      (Function.update level id (level parent)) rank := by
  have hidp : parent ≠ id := ne_of_unused (by rw [hn]; rfl) hid
  have hold := h parent _ hn
  have hlevp : Function.update level id (level parent) parent = level parent :=
    Function.update_of_ne hidp _ _
  have hlevid : Function.update level id (level parent) id = level parent :=
    Function.update_self _ _ _
  set nodes' : NodeMap := Function.update (Function.update nodes₁ parent
    (some (.internal (n.leftHalf keys cs)))) id (some (.internal (n.rightHalf keys cs nextPageId)))
    with hnodes'
  have hgrow : Grows nodes level rank nodes' (Function.update level id (level parent)) rank := by
    -- no update changes a kind: the new page was unused, and the left half is an inner node
    refine ⟨fun x b hx => ?_, fun x hx => ?_, fun _ _ _ _ hlt => hlt⟩
    · rw [hnodes', kind_update, if_neg (ne_of_unused (isSome_of_kind hx) hid), kind_update]
      by_cases hxp : x = parent
      · rw [if_pos hxp, ← hx, hxp, kind_of_some hn]
        rfl
      · rw [if_neg hxp, hre.kind, hx]
    · exact Function.update_of_ne (ne_of_unused hx hid) _ _
  have hkid : ∀ c ∈ cs, (nodes' c).isSome ∧
      Function.update level id (level parent) c < level parent := by
    intro c hc
    obtain ⟨hs, hlt⟩ := hcs c hc
    rw [hgrow.level c hs]
    exact ⟨hgrow.isSome hs, hlt⟩
  -- both halves keep the parent pointer of the node that was split
  have hup : n.header.parentPageId ≠ invalidPageId →
      nodes'.kind n.header.parentPageId = some false ∧
        level parent < Function.update level id (level parent) n.header.parentPageId := by
    intro hq
    obtain ⟨hkind, hlt⟩ := hold.up hq
    exact ⟨hgrow.kind _ _ hkind, (hgrow.level _ (isSome_of_kind hkind)).symm ▸ hlt⟩
  refine @Ranked.change _ _ _ _ _ _ id (cs.drop 255) h hgrow ?_ (fun c hc _ => ?_) fun x m hx => ?_
  · exact kind_of_some (Function.update_self _ _ _)
  · rw [hlevid]
    exact (hcs c (List.mem_of_mem_drop hc)).2
  · by_cases hxid : x = id
    · -- the right half, on the new page
      rw [hxid, hnodes', Function.update_self] at hx
      obtain rfl := Option.some.inj hx
      rw [hxid]
      refine Or.inr (Or.inr ⟨hne, hright, fun c hc => ?_, fun hq => ?_, fun hleaf => ?_⟩)
      · rw [hlevid]
        exact hkid c (List.mem_of_mem_drop hc)
      · rw [hlevid]
        exact hup hq
      · exact absurd hleaf Bool.false_ne_true
    · rw [hnodes', Function.update_of_ne hxid] at hx
      by_cases hxp : x = parent
      · -- the left half, in the place of the node
        rw [hxp, Function.update_self] at hx
        obtain rfl := Option.some.inj hx
        rw [hxp]
        refine Or.inr (Or.inr ⟨hold.ids, hleft, fun c hc => ?_, fun hq => ?_, fun hleaf => ?_⟩)
        · rw [hlevp]
          exact hkid c (List.mem_of_mem_take hc)
        · rw [hlevp]
          exact hup hq
        · exact absurd hleaf Bool.false_ne_true
      · rw [Function.update_of_ne hxp] at hx
        -- a child of the right half, or a node that is as it was
        rcases hre x with heq | ⟨hmem, heq⟩
        · exact Or.inl (heq ▸ hx)
        · rw [heq] at hx
          obtain ⟨k, hk, rfl⟩ := Option.map_eq_some_iff.mp hx
          exact Or.inr (Or.inl ⟨hmem, k, hk, rfl⟩)

/-- Only the entries of a leaf change. -/
theorem Ranked.setLeaf {k k' : LeafNode} (h : Ranked nodes level rank)
    (hk : nodes id = some (.leaf k)) (hfits : k'.Fits)
    (hparent : k'.header.parentPageId = k.header.parentPageId)
    (hnext : k'.header.nextPageId = k.header.nextPageId) :
    Ranked (Function.update nodes id (some (.leaf k'))) level rank := by
  have hold := h id _ hk
  refine h.set hk rfl (.leaf hold.ids hfits (fun hq => ?_) fun hq => ?_)
  · rw [hparent] at hq ⊢
    exact hold.leaf_up hq
  · rw [hnext] at hq ⊢
    exact hold.leaf_next hq

/-- A leaf that nobody points to. -/
theorem Ranked.addLeaf {k : LeafNode} (h : Ranked nodes level rank) (hid : nodes id = none)
    (hne : id ≠ 0 ∧ id ≠ invalidPageId) (hfits : k.Fits)
    (hparent : k.header.parentPageId = invalidPageId)
    (hnext : k.header.nextPageId = invalidPageId) :
    Ranked (Function.update nodes id (some (.leaf k))) (Function.update level id 0) rank := by
  intro x n hx
  by_cases hxid : x = id
  · rw [hxid, Function.update_self] at hx
    obtain rfl := Option.some.inj hx
    rw [hxid]
    exact .leaf hne hfits (fun hq => absurd hparent hq) fun hq => absurd hnext hq
  · rw [Function.update_of_ne hxid] at hx
    exact (h x n hx).grow (by rw [hx]; rfl) (Grows.add hid _ 0)

/-- **A leaf is split**: the right leaf comes between the left one and the one that followed. -/
theorem Ranked.splitLeaf {leaf : PageId} {k l r : LeafNode} (h : Ranked nodes level rank)
    (hk : nodes leaf = some (.leaf k)) (hid : nodes id = none) (hne : id ≠ 0 ∧ id ≠ invalidPageId)
    (hl : l.Fits ∧ l.header.parentPageId = k.header.parentPageId ∧ l.header.nextPageId = id)
    (hr : r.Fits ∧ r.header.parentPageId = k.header.parentPageId ∧
      r.header.nextPageId = k.header.nextPageId) :
    ∃ rank', Ranked (Function.update (Function.update nodes leaf (some (.leaf l))) id
      (some (.leaf r))) (Function.update level id (level leaf)) rank' := by
  have hidl : leaf ≠ id := ne_of_unused (by rw [hk]; rfl) hid
  have hold := h leaf _ hk
  have hlevl : Function.update level id (level leaf) leaf = level leaf :=
    Function.update_of_ne hidl _ _
  have hlevid : Function.update level id (level leaf) id = level leaf := Function.update_self _ _ _
  set nodes' : NodeMap := Function.update (Function.update nodes leaf (some (.leaf l))) id
    (some (.leaf r)) with hnodes'
  -- the ranks are spread, to make room for one between two of them
  let rank' : PageId → Nat := fun x => if x = id then 2 * rank leaf else 2 * rank x + 1
  have hrank : ∀ x, (nodes x).isSome → rank' x = 2 * rank x + 1 :=
    fun x hx => if_neg (ne_of_unused hx hid)
  have hrankid : rank' id = 2 * rank leaf := if_pos rfl
  have hgrow : Grows nodes level rank nodes' (Function.update level id (level leaf)) rank' := by
    refine ⟨fun x b hx => ?_, fun x hx => ?_, fun x y hx hy hlt => ?_⟩
    · rw [hnodes', kind_update, if_neg (ne_of_unused (isSome_of_kind hx) hid), kind_update]
      by_cases hxl : x = leaf
      · rw [if_pos hxl, ← hx, hxl, kind_of_some hk]
        rfl
      · rw [if_neg hxl, hx]
    · exact Function.update_of_ne (ne_of_unused hx hid) _ _
    · rw [hrank x hx, hrank y hy]
      omega
  -- both leaves have the parent of the leaf that was split
  have hup : k.header.parentPageId ≠ invalidPageId →
      nodes'.kind k.header.parentPageId = some false ∧
        level leaf < Function.update level id (level leaf) k.header.parentPageId := by
    intro hq
    obtain ⟨hkind, hlt⟩ := hold.leaf_up hq
    exact ⟨hgrow.kind _ _ hkind, (hgrow.level _ (isSome_of_kind hkind)).symm ▸ hlt⟩
  refine ⟨rank', fun x n hx => ?_⟩
  by_cases hxid : x = id
  · -- the right leaf: its rank is below that of the left leaf and above that of the next
    rw [hxid, hnodes', Function.update_self] at hx
    obtain rfl := Option.some.inj hx
    rw [hxid]
    refine .leaf hne hr.1 (fun hq => ?_) fun hq => ?_
    · rw [hr.2.1] at hq ⊢
      rw [hlevid]
      exact hup hq
    · rw [hr.2.2] at hq ⊢
      obtain ⟨hkind, hlt⟩ := hold.leaf_next hq
      refine ⟨hgrow.kind _ _ hkind, ?_⟩
      rw [hrank _ (isSome_of_kind hkind), hrankid]
      omega
  · rw [hnodes', Function.update_of_ne hxid] at hx
    by_cases hxl : x = leaf
    · -- the left leaf now points to the right one
      rw [hxl, Function.update_self] at hx
      obtain rfl := Option.some.inj hx
      rw [hxl]
      refine .leaf hold.ids hl.1 (fun hq => ?_) fun _ => ?_
      · rw [hl.2.1] at hq ⊢
        rw [hlevl]
        exact hup hq
      · rw [hl.2.2, hrankid, hrank leaf (by rw [hk]; rfl)]
        exact ⟨kind_of_some (Function.update_self _ _ _), Nat.lt_succ_self _⟩
    · rw [Function.update_of_ne hxl] at hx
      exact (h x n hx).grow (by rw [hx]; rfl) hgrow

end Changes

/-! ## 3. On pages

The nodes of §1 are what the pages hold.  `GetPageId` of a fetched page is what the source gives to
`UnpinPage`, so each page must have its own id in its header; writing a node does not change it. -/

/-- Page `id` has no slots, and its own id in its header. -/
def View.Home (v : View) (id : PageId) : Prop :=
  ∃ q, v.pages id = some q ∧ q.Bare ∧ q.getPageId = id

/-- The pages hold the nodes and know their ids. -/
def Placed (pages : PageId → Option Page) (nodes : NodeMap) : Prop :=
  ∀ id n, nodes id = some n → ∃ p, pages id = some p ∧ p.Stores n ∧ p.getPageId = id

namespace Placed

variable {m : PageId → Option Page} {v : View} {nodes : NodeMap} {id : PageId} {n : BTreeNode}
  {p : Page}

/-- A node stands on a page of its id. -/
theorem home (h : Placed v.pages nodes) (hid : (nodes id).isSome) : v.Home id := by
  obtain ⟨n, hn⟩ := Option.isSome_iff_exists.mp hid
  obtain ⟨q, hq, hstores, hown⟩ := h id n hn
  exact ⟨q, hq, hstores.bare, hown⟩

/-- A node is written on a page. -/
theorem update (h : Placed m nodes) (hp : p.Stores n) (hown : p.getPageId = id) :
    Placed (Function.update m id (some p)) (Function.update nodes id (some n)) := by
  intro x k hx
  by_cases hxid : x = id
  · subst hxid
    rw [Function.update_self] at hx
    exact ⟨p, Function.update_self _ _ _, Option.some.inj hx ▸ hp, hown⟩
  · rw [Function.update_of_ne hxid] at hx
    rw [Function.update_of_ne hxid]
    exact h x k hx

/-- A page that did not exist holds no node. -/
theorem none (h : Placed m nodes) (hm : m id = none) : nodes id = none := by
  cases hn : nodes id with
  | none => rfl
  | some n =>
    obtain ⟨q, hq, -⟩ := h id n hn
    exact absurd (hm.symm.trans hq) (by simp)

/-- An unused page may be added. -/
theorem add (h : Placed m nodes) (hm : m id = Option.none) (p : Page) :
    Placed (Function.update m id (some p)) nodes := by
  intro x k hx
  have hne : x ≠ id := by
    rintro rfl
    exact absurd (hx.symm.trans (h.none hm)) (by simp)
  rw [Function.update_of_ne hne]
  exact h x k hx

end Placed

theorem View.Home.named {v : View} {id : PageId} (h : v.Home id) : v.Named id := by
  obtain ⟨q, hq, -, hown⟩ := h
  exact ⟨q, hq, hown⟩

/-- A write of a page with its own id leaves every page at home. -/
theorem View.Home.write {v : View} {id x : PageId} {p : Page} (h : v.Home x) (hp : p.Bare)
    (hown : p.getPageId = id) : (v.write id p).Home x := by
  obtain ⟨q, hq, hbare, hq'⟩ := h
  by_cases hx : x = id
  · exact ⟨p, by rw [hx]; exact Function.update_self _ _ _, hp, hx ▸ hown⟩
  · exact ⟨q, (Function.update_of_ne hx _ _).trans hq, hbare, hq'⟩

section Standing

variable {base : PageId → Nat} {held dirt : List PageId} {v : View} {nodes : NodeMap}
  {level rank : PageId → Nat} {top : Nat} {id left right : PageId}

/-- A node was split, and its parent is to be told: the client holds the two halves, once each, and
nothing above them.  `held` are all pages that the calls below have pinned, and `dirt` those of them
that they have written to.  `top` bounds the levels, so that the recursion ends. -/
structure Halved (base : PageId → Nat) (held dirt : List PageId) (nodes : NodeMap)
    (level rank : PageId → Nat) (top : Nat) (left right : PageId) (v : View) : Prop where
  ranked : Ranked nodes level rank
  placed : Placed v.pages nodes
  holding : Holding base held dirt v
  nodup : held.Nodup
  below : ∀ x ∈ held, (nodes x).isSome ∧ level x ≤ level left
  left_held : left ∈ held
  dirt_held : dirt ⊆ held
  right_mem : (nodes right).isSome
  level_eq : level right = level left
  level_le : ∀ id, (nodes id).isSome → level id ≤ top

/-- The pages hold a tree that has grown from `nodes`, and its root: the old one, or a new one above
it.  Which nodes are new and where their pointers lead is not said. -/
def Kept (nodes : NodeMap) (root root' : PageId) (pages : PageId → Option Page) : Prop :=
  ∃ nodes' level' rank', Ranked nodes' level' rank' ∧ Placed pages nodes' ∧
    (∀ id, (nodes id).isSome → (nodes' id).isSome) ∧ (root' = root ∨ (nodes' root').isSome)

theorem Kept.named {root root' : PageId} (h : Kept nodes root root' v.pages)
    (hid : (nodes id).isSome) : v.Named id := by
  obtain ⟨nodes', -, -, -, hplaced, hmono, -⟩ := h
  exact (hplaced.home (hmono id hid)).named

/-- Nodes that are kept by a later step were kept by both. -/
theorem Kept.mono {nodes₁ : NodeMap} {root root' : PageId} (h : Kept nodes₁ root root' v.pages)
    (hmono : ∀ id, (nodes id).isSome → (nodes₁ id).isSome) : Kept nodes root root' v.pages := by
  obtain ⟨nodes', level', rank', hranked, hplaced, hmono', hroot⟩ := h
  exact ⟨nodes', level', rank', hranked, hplaced, fun id hid => hmono' id (hmono id hid), hroot⟩

/-- Right after a split the tree of before is kept. -/
theorem Halved.kept {root : PageId} (h : Halved base held dirt nodes level rank top left right v) :
    Kept nodes root root v.pages :=
  ⟨nodes, level, rank, h.ranked, h.placed, fun _ hid => hid, Or.inl rfl⟩

/-- The pages hold a tree with this root, or there is no root. -/
def Standing (root : PageId) (nodes : NodeMap) (level rank : PageId → Nat)
    (pages : PageId → Option Page) : Prop :=
  Ranked nodes level rank ∧ Placed pages nodes ∧ (root = invalidPageId ∨ (nodes root).isSome)

/-- Some tree stands on the pages. -/
def Stands (root : PageId) (pages : PageId → Option Page) : Prop :=
  ∃ nodes level rank, Standing root nodes level rank pages

/-- A tree whose root is kept stands. -/
theorem Kept.stands {root root' : PageId} {pages : PageId → Option Page}
    (h : Kept nodes root root' pages) (hroot : (nodes root).isSome) : Stands root' pages := by
  obtain ⟨nodes', level', rank', hranked, hplaced, hmono, heq⟩ := h
  refine ⟨nodes', level', rank', hranked, hplaced, Or.inr ?_⟩
  rcases heq with rfl | hs
  · exact hmono _ hroot
  · exact hs

/-- **After the parent was split** it and its new sibling are in the situation of the two nodes
below. -/
theorem Halved.split {v' : View} {nodes₁ : NodeMap} {parent : PageId} {n : InternalNode}
    {keys : List KeyType} {cs : List PageId} {nextPageId : PageId}
    (h : Halved base held dirt nodes level rank top left right v)
    (hn : nodes parent = some (.internal n)) (hlt : level left < level parent)
    (hid : nodes id = none) (hne : id ≠ 0 ∧ id ≠ invalidPageId) (hnot : id ∉ parent :: held)
    (hcs : ∀ c ∈ cs, (nodes c).isSome ∧ level c < level parent)
    (hre : Reparented nodes nodes₁ id (cs.drop 255))
    (hleft : (n.leftHalf keys cs).Fits) (hright : (n.rightHalf keys cs nextPageId).Fits)
    (hplaced : Placed v'.pages (Function.update (Function.update nodes₁ parent
      (some (.internal (n.leftHalf keys cs)))) id
      (some (.internal (n.rightHalf keys cs nextPageId)))))
    (hholding : Holding base (id :: parent :: held) (id :: parent :: dirt) v') :
    Halved base (id :: parent :: held) (id :: parent :: dirt)
      (Function.update (Function.update nodes₁ parent (some (.internal (n.leftHalf keys cs)))) id
        (some (.internal (n.rightHalf keys cs nextPageId))))
      (Function.update level id (level parent)) rank top parent id v' := by
  have hps : (nodes parent).isSome := by rw [hn]; rfl
  have hidp : parent ≠ id := ne_of_unused hps hid
  have hlevp : Function.update level id (level parent) parent = level parent :=
    Function.update_of_ne hidp _ _
  have hlevid : Function.update level id (level parent) id = level parent :=
    Function.update_self _ _ _
  -- the nodes are the ones before and the new page
  have hsome : ∀ x, (Function.update (Function.update nodes₁ parent
      (some (BTreeNode.internal (n.leftHalf keys cs)))) id
        (some (.internal (n.rightHalf keys cs nextPageId))) x).isSome ↔ x = id ∨
          (nodes x).isSome := by
    intro x
    by_cases hxid : x = id
    · rw [hxid, Function.update_self]
      exact iff_of_true rfl (Or.inl rfl)
    · rw [Function.update_of_ne hxid, or_iff_right hxid]
      by_cases hxp : x = parent
      · rw [hxp, Function.update_self]
        exact iff_of_true rfl hps
      · rw [Function.update_of_ne hxp, hre.isSome]
  have hparent : parent ∉ held := fun hmem => absurd hlt (Nat.not_lt.mpr (h.below parent hmem).2)
  refine ⟨h.ranked.splitParent hn hid hne hcs hre hleft hright, hplaced, hholding,
    List.nodup_cons.mpr ⟨hnot, List.nodup_cons.mpr ⟨hparent, h.nodup⟩⟩, fun x hx => ?_,
    List.mem_cons_of_mem _ List.mem_cons_self,
    List.cons_subset_cons _ (List.cons_subset_cons _ h.dirt_held), (hsome id).mpr (Or.inl rfl),
    by rw [hlevid, hlevp], fun x hx => ?_⟩
  · -- the pages held below lie on lower levels, so they are neither half
    rw [hlevp, hsome]
    rcases List.mem_cons.mp hx with rfl | hx
    · exact ⟨Or.inl rfl, hlevid.le⟩
    rcases List.mem_cons.mp hx with rfl | hx
    · exact ⟨Or.inr hps, hlevp.le⟩
    · obtain ⟨hs, hle⟩ := h.below x hx
      refine ⟨Or.inr hs, ?_⟩
      rw [Function.update_of_ne (ne_of_unused hs hid)]
      omega
  · -- no level rises
    rcases (hsome x).mp hx with rfl | hs
    · rw [hlevid]
      exact h.level_le parent hps
    · rw [Function.update_of_ne (ne_of_unused hs hid)]
      exact h.level_le x hs

end Standing

namespace PoolM

variable {base : PageId → Nat} {held dirt : List PageId} {v : View} {nodes : NodeMap} {id : PageId}

/-- The page of a node that is held stores the node. -/
theorem wpe_readNode {n : BTreeNode} {Q : Page → View → Prop} (h : Holding base held dirt v)
    (hid : id ∈ held) (hp : Placed v.pages nodes) (hn : nodes id = some n)
    (hQ : ∀ q : Page, q.Stores n → Q q v) : wpe (readPage id) Q v := by
  obtain ⟨q, hq, hstores, -⟩ := hp id n hn
  exact wpe_readPage h hid hq fun p hp => hQ p (hstores.congr hp)

theorem wpe_loadLeaf {k : LeafNode} {Q : LeafNode → View → Prop} (h : Holding base held dirt v)
    (hid : id ∈ held) (hp : Placed v.pages nodes) (hn : nodes id = some (.leaf k))
    (hQ : Q k v) : wpe (LeafNode.load id) Q v := by
  unfold LeafNode.load
  rw [wpe, Program.wp_bind]
  refine wpe_readNode h hid hp hn fun q hq => ?_
  rw [Program.wp_pure, hq.ofPage_leaf]
  exact hQ

theorem wpe_loadInternal {k : InternalNode} {Q : InternalNode → View → Prop}
    (h : Holding base held dirt v) (hid : id ∈ held) (hp : Placed v.pages nodes)
    (hn : nodes id = some (.internal k)) (hQ : Q k v) : wpe (InternalNode.load id) Q v := by
  unfold InternalNode.load
  rw [wpe, Program.wp_bind]
  refine wpe_readNode h hid hp hn fun q hq => ?_
  rw [Program.wp_pure, hq.ofPage_internal.2]
  exact hQ

/-- A leaf that is held may be written, and is dirty afterwards. -/
theorem wpe_storeLeaf {k : LeafNode} {Q : Unit → View → Prop} (h : Holding base held dirt v)
    (hid : id ∈ held) (hd : id ∈ dirt) (hhome : v.Home id) (hfits : k.Fits)
    (hQ : ∀ p : Page, p.Stores (.leaf k) → p.getPageId = id →
      Holding base held dirt (v.write id p) → Q () (v.write id p)) :
    wpe (k.store id) Q v := by
  obtain ⟨q, hq, hbare, hown⟩ := hhome
  unfold LeafNode.store
  rw [wpe, Program.wp_bind]
  refine wpe_readPage h hid hq fun p hp => ?_
  have hstores := Page.Stores.leaf (hbare.congr hp) hfits
  have hheader : p.getPageId = id := (congrArg PageHeader.pageId hp.header).trans hown
  exact wpe_writePage h hid (by rw [hq]; rfl) hstores.bare.directoryFits hd (hQ _ hstores hheader)

/-- An inner node that is held may be written; its page stores the part that its header counts. -/
theorem wpe_storeInternal {k : InternalNode} {Q : Unit → View → Prop}
    (h : Holding base held dirt v) (hid : id ∈ held) (hd : id ∈ dirt) (hhome : v.Home id)
    (hk : k.Storable)
    (hQ : ∀ p : Page, p.Stores (.internal k.stored) → p.getPageId = id →
      Holding base held dirt (v.write id p) → Q () (v.write id p)) :
    wpe (k.store id) Q v := by
  obtain ⟨q, hq, hbare, hown⟩ := hhome
  unfold InternalNode.store
  rw [wpe, Program.wp_bind]
  refine wpe_readPage h hid hq fun p hp => ?_
  have hstores := Page.Stores.internal (hbare.congr hp) hk.type hk.pos hk.le hk.keys hk.children
  have hheader : (k.serializeToPage p).getPageId = id :=
    (congrArg PageHeader.pageId ((BTreeNode.internal k).header_serializeToPage p)).trans
      ((congrArg PageHeader.pageId hp.header).trans hown)
  exact wpe_writePage h hid (by rw [hq]; rfl) hstores.bare.directoryFits hd (hQ _ hstores hheader)

/-! ## 4. Patching

After a split the children of the right half are fetched one by one, to write their parent pointers.
A child that cannot be fetched keeps the old one, which still leads to a node above it. -/

/-- **One patch**, or none if the child could not be fetched. -/
theorem wpe_updateParentPointer {c : PageId} {Q : Unit → View → Prop}
    (hbase : ∀ x, base x + 2 < 2 ^ 32) (h : Holding base held dirt v) (hp : Placed v.pages nodes)
    (h0 : c ≠ 0) (hc : (nodes c).isSome) (hcount : held.count c ≤ 1) (hskip : Q () v)
    (hQ : ∀ v', Holding base held dirt v' → (∀ x, v.Home x → v'.Home x) →
      Placed v'.pages (Function.update nodes c ((nodes c).map (BTreeNode.setParent id))) →
        Q () v') :
    wpe (updateParentPointer id c) Q v := by
  obtain ⟨n, hn⟩ := Option.isSome_iff_exists.mp hc
  obtain ⟨q, hq, -⟩ := hp c n hn
  have hhome := hp.home hc
  have hroom := hbase c
  unfold updateParentPointer
  rw [wpe, Program.wp_bind]
  refine wpe_fetchPage h h0 (by rw [hq]; rfl) (by omega) hskip fun h₁ => ?_
  simp only [if_true]
  rw [Program.wp_bind]
  refine wpe_readPage h₁ List.mem_cons_self hq fun p hpq => ?_
  obtain ⟨q', hq', hstores, hown⟩ := hp c n hn
  obtain rfl := Option.some.inj (hq.symm.trans hq')
  have hset := (hstores.congr hpq).setParentPageId id
  have hpown : (p.setParentPageId id).getPageId = c :=
    (congrArg PageHeader.pageId hpq.header).trans hown
  rw [Program.wp_bind]
  refine wpe_writePage (h₁.mono (List.subset_cons_self c dirt)) List.mem_cons_self
    (by rw [View.pin, hq]; rfl) hset.bare.directoryFits List.mem_cons_self fun h₂ => ?_
  rw [Program.wp_bind]
  have hafter : ∀ x, v.Home x → ((v.pin c).write c (p.setParentPageId id)).Home x :=
    fun x (hx : (v.pin c).Home x) => hx.write hset.bare hpown
  refine wpe_unpinDirty h₂ (hafter c hhome).named fun h₃ => ?_
  rw [Program.wp_pure]
  refine hQ _ h₃ hafter ?_
  rw [hn]
  exact hp.update hset hpown

/-- **The loop of patches.** -/
theorem wpe_updateParentPointers {nodes₀ : NodeMap} {all : List PageId} {Q : Unit → View → Prop}
    (hbase : ∀ x, base x + 2 < 2 ^ 32) (cs : List PageId) : ∀ {nodes : NodeMap} {v : View},
      Holding base held dirt v → Placed v.pages nodes → Reparented nodes₀ nodes id all →
      cs ⊆ all → (∀ c ∈ cs, c ≠ 0 ∧ (nodes₀ c).isSome ∧ held.count c ≤ 1) →
      (∀ nodes' v', Holding base held dirt v' → (∀ x, v.Home x → v'.Home x) →
        Placed v'.pages nodes' → Reparented nodes₀ nodes' id all → Q () v') →
      wpe (cs.forM (updateParentPointer id)) Q v := by
  induction cs with
  | nil => exact fun h hp hre _ _ hQ => hQ _ _ h (fun _ hx => hx) hp hre
  | cons c cs ih =>
    intro nodes v h hp hre hsub hcs hQ
    obtain ⟨⟨h0, hc, hcount⟩, hrest⟩ := List.forall_mem_cons.mp hcs
    obtain ⟨hall, hsub'⟩ := List.cons_subset.mp hsub
    change Program.wp _ (updateParentPointer id c >>= fun _ => cs.forM _) _ _
    rw [Program.wp_bind]
    refine wpe_updateParentPointer hbase h hp h0 ((hre.isSome c).symm ▸ hc) hcount ?_
      fun v' h' hhome hp' => ?_
    · exact ih h hp hre hsub' hrest hQ
    · exact ih h' hp' (hre.update hall) hsub' hrest fun nodes'' v'' h'' hhome' =>
        hQ nodes'' v'' h'' fun x hx => hhome' x (hhome x hx)

/-! ## 5. InsertIntoParent

The induction is on the fuel.  The recursive call is made with the halves of the parent in hand,
beside all that the calls below still hold. -/

section Inserting

variable {level rank : PageId → Nat} {left right : PageId} {key : KeyType} {top : Nat}

/-- **CreateNewRoot.** -/
theorem wpe_createNewRoot {t : BPlusTree} {Q : BPlusTree → View → Prop}
    (hbase : ∀ x, base x + 2 < 2 ^ 32)
    (h : Halved base held dirt nodes level rank top left right v)
    (hQ : ∀ t' v', Kept nodes t.rootPageId t'.rootPageId v'.pages → Holding base held dirt v' →
      Q t' v') : wpe (t.createNewRoot left key right) Q v := by
  obtain ⟨hleft, -⟩ := h.below left h.left_held
  unfold BPlusTree.createNewRoot
  rw [wpe, Program.wp_bind]
  -- without a page the tree stays as it is, and nothing was pinned
  refine wpe_newPage h.holding (hQ t v h.kept h.holding) fun id h0 hne hfresh hnot h₁ => ?_
  have hself : (v.add id).pages id = some (Page.ofId id) := Function.update_self _ _ _
  have hnone := h.placed.none hfresh
  simp only []
  unfold InternalNode.load
  rw [Program.wp_bind, Program.wp_bind]
  refine wpe_readPage h₁ List.mem_cons_self hself fun q hq => ?_
  rw [Program.wp_pure, stored_newRoot, Program.wp_bind]
  refine wpe_storeInternal (h₁.mono (List.subset_cons_self id dirt)) List.mem_cons_self
    List.mem_cons_self ⟨_, hself, bare_ofId id, rfl⟩ ⟨rfl, Nat.one_pos, Nat.le_add_left 1 506,
      Nat.le_add_left _ _, Nat.le_add_left _ _⟩ fun p hp hown h₂ => ?_
  -- the page holds the root with its two children
  have hp' : p.Stores (.internal (.newRoot left key right)) := hp
  have hplaced : Placed ((v.add id).write id p).pages
      (Function.update nodes id (some (.internal (.newRoot left key right)))) :=
    (h.placed.add hfresh (Page.ofId id)).update hp' hown
  have hnd : (id :: held).Nodup := List.nodup_cons.mpr ⟨hnot, h.nodup⟩
  have hkid : ∀ c ∈ [left, right], c ≠ 0 ∧ (Function.update nodes id
      (some (.internal (.newRoot left key right))) c).isSome ∧ (id :: held).count c ≤ 1 := by
    intro c hc
    have hs : (nodes c).isSome := by
      rcases List.mem_pair.mp hc with rfl | rfl
      · exact hleft
      · exact h.right_mem
    obtain ⟨n, hn⟩ := Option.isSome_iff_exists.mp hs
    refine ⟨(h.ranked c n hn).ids.1, ?_, List.nodup_iff_count_le_one.mp hnd c⟩
    rw [Function.update_of_ne (ne_of_unused hs hnone), hn]
    rfl
  -- the loop over the two children, as two calls
  have hloop : ∀ Q' : Unit → View → Prop, wpe ([left, right].forM (updateParentPointer id)) Q'
      ((v.add id).write id p) → wpe (updateParentPointer id left) (fun _ => wpe
        (updateParentPointer id right) Q') ((v.add id).write id p) := by
    intro Q' hloop
    change Program.wp _ (updateParentPointer id left >>= fun _ =>
      updateParentPointer id right >>= fun _ => pure ()) _ _ at hloop
    rw [Program.wp_bind] at hloop
    refine Program.wp_mono hloop fun _ v' hv' => ?_
    rw [Program.wp_bind] at hv'
    exact hv'
  rw [Program.wp_bind]
  simp only [Program.wp_bind]
  refine hloop _ (wpe_updateParentPointers hbase [left, right] h₂ hplaced (.refl _ _ _)
    (List.Subset.refl _) hkid fun nodes' v' h₃ hhome hplaced' hre => ?_)
  -- the tree has one more level, and the new root is given back written
  have hranked := h.ranked.newRoot hnone ⟨h0, hne⟩ hleft h.right_mem h.level_eq hre
  have hidhome : ((v.add id).write id p).Home id := hplaced.home (by rw [Function.update_self]; rfl)
  refine wpe_unpinDirty h₃ (hhome id hidhome).named fun h₄ => ?_
  rw [Program.wp_pure]
  refine hQ _ _ ⟨nodes', _, rank, hranked, hplaced', fun x hx => ?_, Or.inr ?_⟩ h₄
  · rw [hre.isSome, Function.update_of_ne (ne_of_unused hx hnone)]
    exact hx
  · change (nodes' id).isSome
    rw [hre.isSome, Function.update_self]
    rfl

/-- **A full parent is split**: the children of its right half get their new parent, and the halves
are stored. -/
theorem wpe_splitParent {α : Type} {rest : PoolM α} {Q : α → View → Prop} {parent : PageId}
    {n : InternalNode} {keys : List KeyType} {cs : List PageId} (hbase : ∀ x, base x + 2 < 2 ^ 32)
    (h : Halved base held dirt nodes level rank top left right v)
    (hn : nodes parent = some (.internal n)) (hlt : level left < level parent)
    (hkeys : keys.length = 508) (hchildren : cs.length = 509)
    (hkid : ∀ c ∈ cs, (nodes c).isSome ∧ level c < level parent) (h0 : id ≠ 0)
    (hne : id ≠ invalidPageId) (hfresh : (v.pin parent).pages id = none)
    (hnot : id ∉ parent :: held)
    (h₂ : Holding base (id :: parent :: held) dirt ((v.pin parent).add id))
    (hQ : ∀ nodes' v', Halved base (id :: parent :: held) (id :: parent :: dirt) nodes'
        (Function.update level id (level parent)) rank top parent id v' →
      (∀ x, (nodes x).isSome → (nodes' x).isSome) → wpe rest Q v') :
    wpe (do
      let fresh ← InternalNode.load id
      let newParent := n.splitRight fresh keys cs
      (newParent.children.take (newParent.header.numKeys.toNat + 1)).forM (updateParentPointer id)
      (n.splitLeft keys cs).store parent
      newParent.store id
      rest) Q ((v.pin parent).add id) := by
  have hold := h.ranked parent _ hn
  have hps : (nodes parent).isSome := by rw [hn]; rfl
  have hparent : parent ∉ held := fun hmem => absurd hlt (Nat.not_lt.mpr (h.below parent hmem).2)
  have hnone' := h.placed.none hfresh
  have hself : ((v.pin parent).add id).pages id = some (Page.ofId id) := Function.update_self _ _ _
  have hnd : (id :: parent :: held).Nodup :=
    List.nodup_cons.mpr ⟨hnot, List.nodup_cons.mpr ⟨hparent, h.nodup⟩⟩
  unfold InternalNode.load
  rw [wpe, Program.wp_bind, Program.wp_bind]
  refine wpe_readPage h₂ List.mem_cons_self hself fun q' _ => ?_
  rw [Program.wp_pure]
  dsimp only
  rw [n.patched_splitRight _ hkeys hchildren, Program.wp_bind]
  -- the children of the right half get their new parent pointer
  refine wpe_updateParentPointers hbase (cs.drop 255) h₂ (h.placed.add hfresh _) (.refl _ _ _)
    (List.Subset.refl _) (fun c hc => ?_) fun nodes₁ v₁ h₃ hhome hplaced hre => ?_
  · obtain ⟨hs, -⟩ := hkid c (List.mem_of_mem_drop hc)
    obtain ⟨k, hk⟩ := Option.isSome_iff_exists.mp hs
    exact ⟨(h.ranked c k hk).ids.1, hs, List.nodup_iff_count_le_one.mp hnd c⟩
  have hdirt : dirt ⊆ id :: parent :: dirt := fun x hx =>
    List.mem_cons_of_mem _ (List.mem_cons_of_mem _ hx)
  have hp₁ : (nodes₁ parent).isSome := by rw [hre.isSome]; exact hps
  have hid₁ : v₁.Home id := hhome id ⟨_, hself, bare_ofId id, rfl⟩
  -- the halves are stored
  obtain ⟨hstorel, hstoredl⟩ := n.storable_splitLeft hold.fits.type hkeys hchildren
  rw [Program.wp_bind]
  refine wpe_storeInternal (h₃.mono hdirt) (List.mem_cons_of_mem _ List.mem_cons_self)
    (List.mem_cons_of_mem _ List.mem_cons_self) (hplaced.home hp₁) hstorel
    fun p₁ hp₁ hown₁ h₄ => ?_
  rw [hstoredl] at hp₁
  obtain ⟨hstorer, hstoredr⟩ := n.storable_splitRight (InternalNode.ofPage q') hkeys hchildren
  rw [Program.wp_bind]
  refine wpe_storeInternal h₄ List.mem_cons_self List.mem_cons_self
    (hid₁.write hp₁.bare hown₁) hstorer fun p₂ hp₂ hown₂ h₅ => ?_
  rw [hstoredr] at hp₂
  refine hQ _ _ (h.split hn hlt hnone' ⟨h0, hne⟩ hnot hkid hre hp₁.fits hp₂.fits
    ((hplaced.update hp₁ hown₁).update hp₂ hown₂) h₅) fun x hx => ?_
  rw [Function.update_of_ne (ne_of_unused hx hnone')]
  by_cases hxp : x = parent
  · rw [hxp, Function.update_self]
    rfl
  · rw [Function.update_of_ne hxp, hre.isSome]
    exact hx

/-- `InsertIntoParent` with this fuel gives back what it pins. -/
def GivesBack (base : PageId → Nat) (rank : PageId → Nat) (top : Nat) (t : BPlusTree) (fuel : Nat) :
    Prop :=
  ∀ {nodes : NodeMap} {level : PageId → Nat} {held dirt : List PageId} {left right : PageId}
    {key : KeyType} {v : View} {Q : Option BPlusTree → View → Prop},
    Halved base held dirt nodes level rank top left right v →
    (level left + fuel ≤ top → ∀ v', Q none v') →
    (∀ t' v', Kept nodes t.rootPageId t'.rootPageId v'.pages → Holding base held dirt v' →
      Q (some t') v') →
    wpe (BPlusTree.insertIntoParent fuel t left key right) Q v

/-- **The split branch**: the parent is split, its sibling goes to the node above, and both are
given back. -/
theorem wpe_splitUp {t : BPlusTree} {fuel : Nat} (hbase : ∀ x, base x + 2 < 2 ^ 32)
    (ih : GivesBack base rank top t fuel) {Q : Option BPlusTree → View → Prop} {parent : PageId}
    {n : InternalNode} {keys : List KeyType} {cs : List PageId}
    (h : Halved base held dirt nodes level rank top left right v)
    (hn : nodes parent = some (.internal n)) (hlt : level left < level parent)
    (hkeys : keys.length = 508) (hchildren : cs.length = 509)
    (hkid : ∀ c ∈ cs, (nodes c).isSome ∧ level c < level parent) (h0 : id ≠ 0)
    (hne : id ≠ invalidPageId) (hfresh : (v.pin parent).pages id = none)
    (hnot : id ∉ parent :: held)
    (h₂ : Holding base (id :: parent :: held) dirt ((v.pin parent).add id))
    (hnone : level left + (fuel + 1) ≤ top → ∀ v', Q none v')
    (hQ : ∀ t' v', Kept nodes t.rootPageId t'.rootPageId v'.pages → Holding base held dirt v' →
      Q (some t') v') :
    wpe (do
      let fresh ← InternalNode.load id
      let newParent := n.splitRight fresh keys cs
      (newParent.children.take (newParent.header.numKeys.toNat + 1)).forM (updateParentPointer id)
      (n.splitLeft keys cs).store parent
      newParent.store id
      match ← BPlusTree.insertIntoParent fuel t parent (keys.getD (keys.length / 2) 0) id with
      | none => return none
      | some t =>
        let _ ← unpinPage parent true
        let _ ← unpinPage id true
        return some t) Q ((v.pin parent).add id) := by
  have hps : (nodes parent).isSome := by rw [hn]; rfl
  have hnone' := h.placed.none hfresh
  refine wpe_splitParent hbase h hn hlt hkeys hchildren hkid h0 hne hfresh hnot h₂
    fun nodes' v₁ hhalved hmono => ?_
  rw [wpe, Program.wp_bind]
  -- the call above the parent has one unit of fuel less and starts one level higher
  refine ih hhalved (fun hle v' => ?_) fun t' v' hkept h₆ => ?_
  · refine hnone ?_ v'
    rw [Function.update_of_ne (ne_of_unused hps hnone')] at hle
    omega
  · simp only []
    rw [Program.wp_bind]
    -- the source gives the parent back first and the new page second
    have hswap : id :: parent :: dirt ⊆ parent :: id :: dirt :=
      (List.Perm.swap parent id dirt).subset
    refine wpe_unpinDirty ((h₆.perm (.swap _ _ _)).mono hswap) (hkept.named (hmono parent hps))
      fun h₇ => ?_
    rw [Program.wp_bind]
    refine wpe_unpinDirty h₇ (hkept.named hhalved.right_mem) fun h₈ => ?_
    exact hQ t' _ (hkept.mono hmono) h₈

/-- **InsertIntoParent** gives back what it pins. -/
theorem wpe_insertIntoParent {t : BPlusTree} (hbase : ∀ x, base x + 2 < 2 ^ 32) (fuel : Nat) :
    ∀ {nodes : NodeMap} {level : PageId → Nat} {held dirt : List PageId} {left right : PageId}
      {key : KeyType} {v : View} {Q : Option BPlusTree → View → Prop},
      Halved base held dirt nodes level rank top left right v →
      (level left + fuel ≤ top → ∀ v', Q none v') →
      (∀ t' v', Kept nodes t.rootPageId t'.rootPageId v'.pages → Holding base held dirt v' →
        Q (some t') v') →
      wpe (BPlusTree.insertIntoParent fuel t left key right) Q v := by
  induction fuel with
  | zero =>
    intro nodes level held dirt left right key v Q h hnone _
    exact hnone (h.level_le left (h.below left h.left_held).1) v
  | succ fuel ih =>
    intro nodes level held dirt left right key v Q h hnone hQ
    obtain ⟨m, hm⟩ := Option.isSome_iff_exists.mp (h.below left h.left_held).1
    rw [BPlusTree.insertIntoParent, wpe, Program.wp_bind]
    refine wpe_readNode h.holding h.left_held h.placed hm fun q hq => ?_
    have hpar : m.header.parentPageId = q.getParentPageId := by
      rw [Page.getParentPageId_eq, hq.node]
    generalize q.getParentPageId = parent at hpar
    -- no parent: the node that was split is the root
    by_cases hroot : parent = invalidPageId
    · rw [if_pos hroot, Program.wp_bind]
      exact wpe_createNewRoot hbase h fun t' v' hk hh => hQ t' v' hk hh
    rw [if_neg hroot, Program.wp_bind]
    -- the parent lies one level higher, so it is none of the pages held
    have hup := (h.ranked left m hm).up
    rw [hpar] at hup
    obtain ⟨hkind, hlt⟩ := hup hroot
    obtain ⟨n, hn⟩ := internal_of_kind hkind
    have hold := h.ranked parent _ hn
    have hfits : n.Fits := hold.fits
    have hps : (nodes parent).isSome := by rw [hn]; rfl
    have hparent : parent ∉ held := fun hmem => absurd hlt (Nat.not_lt.mpr (h.below parent hmem).2)
    obtain ⟨page, hpage, -⟩ := h.placed parent _ hn
    have hroom := hbase parent
    -- without the parent page the node is left as it is
    refine wpe_fetchPage h.holding hold.ids.1 (by rw [hpage]; rfl)
      (by rw [List.count_eq_zero.mpr hparent]; omega) (hQ t v h.kept h.holding) fun h₁ => ?_
    simp only [if_true]
    rw [Program.wp_bind]
    refine wpe_loadInternal h₁ List.mem_cons_self h.placed hn ?_
    have hpos : n.findChild key t.comparator ≤ n.keys.length := by
      rw [hfits.length]
      exact n.findChild_le key t.comparator
    -- the children after the new one is put in
    have hkid : ∀ c ∈ n.children.insertIdx (n.findChild key t.comparator + 1) right,
        (nodes c).isSome ∧ level c < level parent := by
      intro c hc
      rcases List.eq_or_mem_of_mem_insertIdx hc with rfl | hc
      · exact ⟨h.right_mem, by rw [h.level_eq]; exact hlt⟩
      · exact hold.kid c hc
    -- a full parent is split on
    by_cases hfull : n.keys.length = 507
    · rw [if_pos ((InternalNode.isFull_iff hfits).mpr hfull), Program.wp_bind,
        InternalNode.overflowKeys_eq hfits, InternalNode.overflowChildren_eq hfits]
      refine wpe_newPage h₁ ?_ fun id h0 hne hfresh hnot h₂ => ?_
      · -- nothing was written: the parent is given back clean
        simp only []
        rw [Program.wp_bind]
        refine wpe_unpinClean h₁ (h.placed.home hps).named (fun hd => hparent (h.dirt_held hd))
          fun h₂ => ?_
        exact hQ t _ h.kept h₂
      have hkeys : (n.keys.insertIdx (n.findChild key t.comparator) key).length = 508 := by
        rw [List.length_insertIdx_of_le_length hpos, hfull]
      have hchildren : (n.children.insertIdx (n.findChild key t.comparator + 1) right).length
          = 509 := by
        rw [List.length_insertIdx_of_le_length (by rw [hfits.children]; omega),
          hfits.children, hfull]
      exact wpe_splitUp hbase ih h hn hlt hkeys hchildren hkid h0 hne hfresh hnot h₂ hnone hQ
    · -- the parent has room
      have hlt' : n.keys.length < 507 := lt_of_le_of_ne hfits.le hfull
      have hfits' : (n.insertAfter (n.findChild key t.comparator) key right).Fits :=
        hfits.insertAfter hlt' hpos
      rw [if_neg fun hf => hfull ((InternalNode.isFull_iff hfits).mp hf), Program.wp_bind]
      refine wpe_storeInternal (h₁.mono (List.subset_cons_self parent dirt)) List.mem_cons_self
        List.mem_cons_self (h.placed.home hps) hfits'.storable fun p hp hown h₂ => ?_
      rw [hfits'.stored_eq] at hp
      rw [Program.wp_bind]
      have hplaced := h.placed.update hp hown
      have hlinked : Linked nodes level rank parent
          (.internal (n.insertAfter (n.findChild key t.comparator) key right)) :=
        ⟨hold.ids, hfits', hkid, hold.up, fun hleaf => absurd hleaf Bool.false_ne_true⟩
      refine wpe_unpinDirty h₂ (hplaced.home (by rw [Function.update_self]; rfl)).named fun h₃ => ?_
      refine hQ t _ ⟨_, level, rank, h.ranked.set hn (by rfl) hlinked, hplaced, fun x hx => ?_,
        Or.inl rfl⟩ h₃
      -- no node is lost by the write
      by_cases hxp : x = parent
      · rw [hxp, Function.update_self]
        rfl
      · rw [Function.update_of_ne hxp]
        exact hx

end Inserting

/-! ## 6. FindLeafPage

The loop gives back a node before it fetches the child, so it holds one page at a time.  If the
child cannot be fetched, no leaf is found and nothing is held. -/

section Searching

variable {level rank : PageId → Nat} {t : BPlusTree} {key : KeyType}

/-- **The loop of FindLeafPage** holds one page at a time. -/
theorem wpe_descend (hbase : ∀ x, base x + 2 < 2 ^ 32) (hranked : Ranked nodes level rank)
    (fuel : Nat) : ∀ {id : PageId} {v : View} {Q : Option (Option PageId) → View → Prop},
      Placed v.pages nodes → (nodes id).isSome → Holding base [id] [] v →
      (fuel ≤ level id → ∀ v', Q none v') →
      (∀ v', Placed v'.pages nodes → Holding base [] [] v' → Q (some none) v') →
      (∀ leaf k v', nodes leaf = some (.leaf k) → Placed v'.pages nodes →
        Holding base [leaf] [] v' → Q (some (some leaf)) v') →
      wpe (t.descend key fuel id) Q v := by
  induction fuel with
  | zero => exact fun _ _ _ hnone _ _ => hnone (Nat.zero_le _) _
  | succ fuel ih =>
    intro id v Q hp hid h hnone hnull hQ
    obtain ⟨n, hn⟩ := Option.isSome_iff_exists.mp hid
    rw [BPlusTree.descend, wpe, Program.wp_bind]
    refine wpe_readNode h List.mem_cons_self hp hn fun q hq => ?_
    cases n with
    | leaf k =>
      rw [if_pos hq.nodeType_leaf]
      -- a leaf stays pinned: it is what FindLeafPage returns
      exact hQ id k v hn hp h
    | internal k =>
      obtain ⟨hleaf, hnode⟩ := hq.ofPage_internal
      -- an inner node is given back before its child is fetched
      rw [if_neg hleaf, Program.wp_bind]
      refine wpe_unpinClean h (hp.home hid).named List.not_mem_nil fun h₁ => ?_
      simp only [hnode]
      rw [Program.wp_bind]
      have hlinked := hranked id _ hn
      obtain ⟨hc, hlt⟩ := hlinked.kid _ (InternalNode.getChildAt_mem hlinked.fits key t.comparator)
      generalize k.getChildAt (k.findChild key t.comparator) = c at hc hlt
      obtain ⟨m, hm⟩ := Option.isSome_iff_exists.mp hc
      obtain ⟨page, hpage, -⟩ := hp c m hm
      have hroom := hbase c
      refine wpe_fetchPage h₁ (hranked c m hm).ids.1 (by rw [View.unpin, hpage]; rfl)
        (by rw [List.count_nil]; omega) ?_ fun h₂ => ?_
      · -- the child page is refused: no leaf is found
        rw [if_neg Bool.false_ne_true]
        exact hnull _ hp h₁
      · rw [if_pos rfl]
        exact ih hp hc h₂ (fun hle => hnone (by omega)) hnull hQ

/-- **FindLeafPage** leaves one pin, or none. -/
theorem wpe_findLeafPage {Q : Option (Option PageId) → View → Prop} {fuel : Nat}
    (hbase : ∀ x, base x + 2 < 2 ^ 32) (hranked : Ranked nodes level rank)
    (hp : Placed v.pages nodes) (hroot : (nodes t.rootPageId).isSome) (h : Holding base [] [] v)
    (hnone : fuel ≤ level t.rootPageId → ∀ v', Q none v')
    (hnull : ∀ v', Placed v'.pages nodes → Holding base [] [] v' → Q (some none) v')
    (hQ : ∀ leaf k v', nodes leaf = some (.leaf k) → Placed v'.pages nodes →
      Holding base [leaf] [] v' → Q (some (some leaf)) v') :
    wpe (t.findLeafPage fuel key) Q v := by
  obtain ⟨n, hn⟩ := Option.isSome_iff_exists.mp hroot
  obtain ⟨page, hpage, -⟩ := hp _ n hn
  have hroom := hbase t.rootPageId
  rw [BPlusTree.findLeafPage, wpe, Program.wp_bind]
  refine wpe_fetchPage h (hranked _ n hn).ids.1 (by rw [hpage]; rfl)
    (by rw [List.count_nil]; omega) ?_ fun h₁ => ?_
  · rw [if_neg Bool.false_ne_true]
    exact hnull v hp h
  · rw [if_pos rfl]
    exact wpe_descend hbase hranked fuel hp hroot h₁ hnone hnull hQ

/-! ## 7. Lookup and RangeScan

Both walk along the chain of leaves.  All record ids they find stand in leaves, and there are no
more of them than the leaves passed can have entries; a caller that counts through the result, like
the index scan, needs the bound. -/

/-- At most `bound` record ids, all of them in leaves. -/
structure Found (nodes : NodeMap) (bound : Nat) (rids : List RID) : Prop where
  listed : ∀ rid ∈ rids, nodes.Lists rid
  length_le : rids.length ≤ bound

theorem Found.mono {m n : Nat} {rids : List RID} (h : Found nodes m rids) (hle : m ≤ n) :
    Found nodes n rids := ⟨h.listed, h.length_le.trans hle⟩

theorem found_nil (nodes : NodeMap) (n : Nat) : Found nodes n [] :=
  ⟨fun _ hrid => absurd hrid List.not_mem_nil, Nat.zero_le n⟩

/-- The results of two leaves, one after the other. -/
theorem Found.append {m n : Nat} {rids rids' : List RID} (h : Found nodes m rids)
    (h' : Found nodes n rids') : Found nodes (m + n) (rids ++ rids') := by
  refine ⟨fun rid hrid => ?_, ?_⟩
  · exact (List.mem_append.mp hrid).elim (h.listed rid) (h'.listed rid)
  · rw [List.length_append]
    exact Nat.add_le_add h.length_le h'.length_le

/-- The loops look at the entries that the header counts. -/
theorem found_leaf {id : PageId} {k : LeafNode} (hk : nodes id = some (.leaf k))
    {l : List (KeyType × RID)} (hl : l.Sublist (k.entries.take k.header.numKeys.toNat)) :
    Found nodes (2 ^ 16) (l.map Prod.snd) := by
  refine ⟨fun rid hrid => ?_, ?_⟩
  · obtain ⟨e, he, rfl⟩ := List.mem_map.mp hrid
    exact ⟨id, k, hk, e, List.mem_of_mem_take (hl.mem he), rfl⟩
  · rw [List.length_map]
    exact hl.length_le.trans ((List.length_take_le _ _).trans k.header.numKeys.toNat_lt.le)

/-- What `FindAll` returns stands in its leaf. -/
theorem found_findAll {id : PageId} {k : LeafNode} (hk : nodes id = some (.leaf k))
    (key : KeyType) (cmp : KeyComparator) : Found nodes (2 ^ 16) (k.findAll key cmp) :=
  found_leaf hk ((List.takeWhile_sublist _).trans (List.drop_sublist _ _))

/-- **The loop of Lookup** over the leaves that follow. -/
theorem wpe_lookupNext (hbase : ∀ x, base x + 2 < 2 ^ 32) (hranked : Ranked nodes level rank)
    (fuel : Nat) : ∀ {id : PageId} {results : List RID} {bound : Nat} {v : View}
      {Q : Option (List RID) → View → Prop},
      Placed v.pages nodes → (id ≠ invalidPageId → nodes.kind id = some true) →
      Holding base [] [] v → Found nodes bound results →
      (fuel = 0 ∨ id ≠ invalidPageId ∧ fuel ≤ rank id + 1 → ∀ v', Q none v') →
      (∀ r v', Found nodes (bound + fuel * 2 ^ 16) r → Placed v'.pages nodes →
        Holding base [] [] v' → Q (some r) v') →
      wpe (t.lookupNext key fuel id results) Q v := by
  induction fuel with
  | zero => exact fun _ _ _ _ hnone _ => hnone (Or.inl rfl) _
  | succ fuel ih =>
    intro id results bound v Q hp hid h hfound hnone hQ
    have hdone : Found nodes (bound + (fuel + 1) * 2 ^ 16) results :=
      hfound.mono (Nat.le_add_right _ _)
    rw [BPlusTree.lookupNext]
    -- the loop goes on while there is a next leaf and the last one had the key
    by_cases hgo : id ≠ invalidPageId ∧ results ≠ []
    · rw [if_pos hgo, wpe, Program.wp_bind]
      obtain ⟨k, hk⟩ := leaf_of_kind (hid hgo.1)
      have hlinked := hranked id _ hk
      obtain ⟨page, hpage, -⟩ := hp id _ hk
      have hroom := hbase id
      refine wpe_fetchPage h hlinked.ids.1 (by rw [hpage]; rfl) (by rw [List.count_nil]; omega) ?_
        fun h₁ => ?_
      · rw [if_neg Bool.false_ne_true]
        -- the next leaf is refused: the results so far are returned
        exact hQ _ v hdone hp h
      · rw [if_pos rfl, Program.wp_bind]
        refine wpe_loadLeaf h₁ List.mem_cons_self hp hk ?_
        rw [Program.wp_bind]
        refine wpe_unpinClean h₁ (hp.home (by rw [hk]; rfl) : v.Home id).named List.not_mem_nil
          fun h₂ => ?_
        -- one step further the rank is smaller, which is what bounds the loop
        split
        · exact hQ _ _ hdone hp h₂
        · refine ih hp (fun hne => (hlinked.leaf_next hne).1) h₂
            (hfound.append (found_findAll hk key t.comparator)) (fun hle => ?_) fun r v' hr =>
              hQ r v' (hr.mono (by omega))
          refine hnone (Or.inr ⟨hgo.1, ?_⟩)
          rcases hle with h0 | ⟨hne, hle⟩
          · omega
          · have hlt := (hlinked.leaf_next hne).2
            omega
    · rw [if_neg hgo]
      exact hQ _ v hdone hp h

/-- **The loop of RangeScan**, from a leaf that is held. -/
theorem wpe_scanLeaves {low high : KeyType} (hbase : ∀ x, base x + 2 < 2 ^ 32)
    (hranked : Ranked nodes level rank) (fuel : Nat) : ∀ {id : PageId} {k : LeafNode}
      {results : List (KeyType × RID)} {bound : Nat} {v : View}
      {Q : Option (List (KeyType × RID)) → View → Prop},
      Placed v.pages nodes → nodes id = some (.leaf k) → Holding base [id] [] v →
      Found nodes bound (results.map Prod.snd) → (fuel ≤ rank id → ∀ v', Q none v') →
      (∀ r v', Found nodes (bound + fuel * 2 ^ 16) (r.map Prod.snd) → Placed v'.pages nodes →
        Holding base [] [] v' → Q (some r) v') →
      wpe (t.scanLeaves low high fuel id results) Q v := by
  induction fuel with
  | zero => exact fun _ _ _ _ hnone _ => hnone (Nat.zero_le _) _
  | succ fuel ih =>
    intro id k results bound v Q hp hk h hfound hnone hQ
    have hleaf : Found nodes (bound + 2 ^ 16)
      ((results ++ (k.entriesFrom low t.comparator).takeWhile
        fun e => t.comparator e.1 high ≤ 0).map Prod.snd) := by
      rw [List.map_append]
      exact hfound.append
        (found_leaf hk ((List.takeWhile_sublist _).trans (List.drop_sublist _ _)))
    have hdone := hleaf.mono (by omega : bound + 2 ^ 16 ≤ bound + (fuel + 1) * 2 ^ 16)
    rw [BPlusTree.scanLeaves, wpe, Program.wp_bind]
    refine wpe_loadLeaf h List.mem_cons_self hp hk ?_
    rw [Program.wp_bind]
    refine wpe_unpinClean h (hp.home (by rw [hk]; rfl)).named List.not_mem_nil fun h₁ => ?_
    split
    · -- the leaf has an entry above the range, or it is the last
      exact hQ _ _ hdone hp h₁
    · split
      · exact hQ _ _ hdone hp h₁
      · rename_i hne
        obtain ⟨hkind, hlt⟩ := (hranked id _ hk).leaf_next hne
        obtain ⟨k', hk'⟩ := leaf_of_kind hkind
        obtain ⟨page, hpage, -⟩ := hp _ _ hk'
        have hroom := hbase k.header.nextPageId
        rw [Program.wp_bind]
        refine wpe_fetchPage h₁ (hranked _ _ hk').ids.1 (by rw [View.unpin, hpage]; rfl)
          (by rw [List.count_nil]; omega) ?_ fun h₂ => ?_
        · -- the next leaf is refused: the results so far are returned
          rw [if_neg Bool.false_ne_true]
          exact hQ _ _ hdone hp h₁
        · rw [if_pos rfl]
          -- the next leaf has a smaller rank
          exact ih hp hk' h₂ hleaf (fun hle => hnone (by omega)) fun r v' hr =>
            hQ r v' (hr.mono (by omega))

end Searching

/-! ## 8. The operations

Each operation is one of the loops above, between a descent and an `UnpinPage`.  In `Insert` the
right leaf is made and written before the parent is told of it. -/

section Operations

variable {level rank : PageId → Nat} {t : BPlusTree} {key low high : KeyType} {rid : RID}
  {fuel top : Nat}

/-- **Insert** into an empty tree. -/
theorem wpe_insertFirst {Q : Bool × BPlusTree → View → Prop}
    (hs : Standing t.rootPageId nodes level rank v.pages) (h : Holding base [] [] v)
    (hQ : ∀ r t' v', Stands t'.rootPageId v'.pages → Holding base [] [] v' → Q (r, t') v') :
    wpe (t.insertFirst key rid) Q v := by
  unfold BPlusTree.insertFirst
  rw [wpe, Program.wp_bind]
  refine wpe_newPage h (hQ _ t v ⟨nodes, level, rank, hs⟩ h) fun id h0 hne hfresh _ h₁ => ?_
  have hself : (v.add id).pages id = some (Page.ofId id) := Function.update_self _ _ _
  have hempty : LeafNode.Fits ⟨⟨.leafNode, invalidPageId, 0, invalidPageId⟩, []⟩ :=
    ⟨rfl, rfl, Nat.zero_le 406⟩
  have hfits := hempty.overflow (Nat.succ_pos 405) key rid t.comparator
  simp only []
  rw [Program.wp_bind]
  refine wpe_storeLeaf (h₁.mono (List.nil_subset [id])) List.mem_cons_self List.mem_cons_self
    ⟨_, hself, bare_ofId id, rfl⟩ hfits fun p hp hown h₂ => ?_
  have hplaced := (hs.2.1.add hfresh (Page.ofId id)).update hp hown
  rw [Program.wp_bind]
  refine wpe_unpinDirty h₂ (hplaced.home (by rw [Function.update_self]; rfl)).named fun h₃ => ?_
  refine hQ _ _ _ ⟨_, _, rank, hs.1.addLeaf (hs.2.1.none hfresh) ⟨h0, hne⟩ hfits rfl rfl, hplaced,
    Or.inr ?_⟩ h₃
  change (Function.update nodes id _ id).isSome
  rw [Function.update_self]
  rfl

/-- **Insert** into a full leaf. -/
theorem wpe_insertSplitting {leaf : PageId} {k : LeafNode}
    {Q : Option (Bool × BPlusTree) → View → Prop} (hbase : ∀ x, base x + 2 < 2 ^ 32)
    (hs : Standing t.rootPageId nodes level rank v.pages) (hroot : (nodes t.rootPageId).isSome)
    (hk : nodes leaf = some (.leaf k)) (hfull : k.entries.length = 406)
    (h : Holding base [leaf] [] v) (htop : ∀ id, level id ≤ top)
    (hnone : fuel ≤ top → ∀ v', Q none v')
    (hQ : ∀ r t' v', Stands t'.rootPageId v'.pages → Holding base [] [] v' →
      Q (some (r, t')) v') : wpe (t.insertSplitting fuel leaf k key rid) Q v := by
  obtain ⟨hranked, hplaced, -⟩ := hs
  have hls : (nodes leaf).isSome := by rw [hk]; rfl
  have hfits : k.Fits := (hranked leaf _ hk).fits
  unfold BPlusTree.insertSplitting
  simp only []
  have hall : (k.overflow key rid t.comparator).length = 407 := by
    rw [LeafNode.length_overflow hfits, hfull]
  generalize k.overflow key rid t.comparator = all at hall
  rw [wpe, Program.wp_bind]
  refine wpe_newPage h ?_ fun id h0 hne hfresh hnot h₁ => ?_
  · -- no page for the right leaf: the leaf is given back as it was
    simp only []
    rw [Program.wp_bind]
    refine wpe_unpinClean h (hplaced.home hls).named List.not_mem_nil fun h₁ => ?_
    exact hQ _ t _ ⟨nodes, level, rank, hranked, hplaced, Or.inr hroot⟩ h₁
  have hnone' := hplaced.none hfresh
  have hlne : leaf ≠ id := ne_of_unused hls hnone'
  have hself : (v.add id).pages id = some (Page.ofId id) := Function.update_self _ _ _
  have hfitsl : (k.splitLeft all id).Fits := LeafNode.fits_splitLeft hfits hall
  simp only []
  unfold LeafNode.load
  rw [Program.wp_bind, Program.wp_bind]
  refine wpe_readPage h₁ List.mem_cons_self hself fun q _ => ?_
  have hfitsr : (k.splitRight (LeafNode.ofPage q) all).Fits := LeafNode.fits_splitRight hall
  rw [Program.wp_pure, Program.wp_bind]
  -- the left half is written before the right one, both before the parent is told
  refine wpe_storeLeaf (h₁.mono (List.nil_subset [id, leaf])) (by simp) (by simp)
    ((hplaced.add hfresh _).home hls) hfitsl fun p₁ hp₁ hown₁ h₂ => ?_
  have hidhome : (v.add id).Home id := ⟨_, hself, bare_ofId id, rfl⟩
  rw [Program.wp_bind]
  refine wpe_storeLeaf h₂ List.mem_cons_self List.mem_cons_self (hidhome.write hp₁.bare hown₁)
    hfitsr fun p₂ hp₂ hown₂ h₃ => ?_
  obtain ⟨rank', hranked'⟩ := hranked.splitLeaf hk hnone' ⟨h0, hne⟩ ⟨hfitsl, rfl, rfl⟩
    ⟨hfitsr, rfl, rfl⟩
  have hlevl : Function.update level id (level leaf) leaf = level leaf :=
    Function.update_of_ne hlne _ _
  have hlevid : Function.update level id (level leaf) id = level leaf := Function.update_self _ _ _
  set nodes' : NodeMap := Function.update (Function.update nodes leaf
    (some (.leaf (k.splitLeft all id)))) id (some (.leaf (k.splitRight (LeafNode.ofPage q) all)))
    with hnodes'
  have hids : (nodes' id).isSome := by rw [hnodes', Function.update_self]; rfl
  -- no node is lost by the split
  have hmono : ∀ x, (nodes x).isSome → (nodes' x).isSome := by
    intro x hx
    rw [hnodes', Function.update_of_ne (ne_of_unused hx hnone')]
    by_cases hxl : x = leaf
    · rw [hxl, Function.update_self]
      rfl
    · rw [Function.update_of_ne hxl]
      exact hx
  -- the two leaves are the lowest pair of halves
  have hhalved : Halved base [id, leaf] [id, leaf] nodes' (Function.update level id (level leaf))
      rank' top leaf id (((v.add id).write leaf p₁).write id p₂) := by
    refine ⟨hranked', (((hplaced.add hfresh _).update hp₁ hown₁).update hp₂ hown₂), h₃, ?_,
      fun x hx => ?_, by simp, List.Subset.refl _, hids, by rw [hlevid, hlevl], fun x _ => ?_⟩
    · exact List.nodup_cons.mpr ⟨hnot, List.nodup_singleton leaf⟩
    · rw [hlevl]
      rcases List.mem_pair.mp hx with rfl | rfl
      · exact ⟨hids, hlevid.le⟩
      · exact ⟨hmono _ hls, hlevl.le⟩
    · by_cases hxid : x = id
      · rw [hxid, hlevid]
        exact htop leaf
      · rw [Function.update_of_ne hxid]
        exact htop x
  rw [Program.wp_bind]
  refine wpe_insertIntoParent hbase fuel hhalved (fun hle v' => ?_) fun t' v' hkept h₄ => ?_
  · exact hnone (by omega) v'
  · -- the leaf is given back first, then the new page
    simp only []
    rw [Program.wp_bind]
    have hswap : [id, leaf] ⊆ [leaf, id] := (List.Perm.swap leaf id []).subset
    refine wpe_unpinDirty ((h₄.perm (.swap leaf id [])).mono hswap) (hkept.named (hmono leaf hls))
      fun h₅ => ?_
    rw [Program.wp_bind]
    refine wpe_unpinDirty h₅ (hkept.named hids) fun h₆ => ?_
    exact hQ _ t' _ (hkept.stands (hmono _ hroot)) h₆

/-- **Insert** gives back what it pins. -/
theorem wpe_insert {Q : Option (Bool × BPlusTree) → View → Prop}
    (hbase : ∀ x, base x + 2 < 2 ^ 32) (hs : Standing t.rootPageId nodes level rank v.pages)
    (h : Holding base [] [] v) (htop : ∀ id, level id ≤ top)
    (hnone : fuel ≤ top → ∀ v', Q none v')
    (hQ : ∀ r t' v', Stands t'.rootPageId v'.pages → Holding base [] [] v' →
      Q (some (r, t')) v') : wpe (t.insert fuel key rid) Q v := by
  unfold BPlusTree.insert
  by_cases hempty : t.rootPageId = invalidPageId
  · rw [if_pos hempty, wpe, Program.wp_bind]
    -- the first key makes the first leaf
    exact wpe_insertFirst hs h fun r t' v' => hQ r t' v'
  obtain ⟨hranked, hplaced, hroot⟩ := hs
  replace hroot := hroot.resolve_left hempty
  rw [if_neg hempty, wpe, Program.wp_bind]
  refine wpe_findLeafPage hbase hranked hplaced hroot h (fun hle v' => ?_) (fun v' hp' h' => ?_)
    fun leaf k v' hk hp' h' => ?_
  · -- the descent ran out of fuel, was refused a page, or reached a leaf
    exact hnone (hle.trans (htop _)) v'
  · exact hQ _ t v' ⟨nodes, level, rank, hranked, hp', Or.inr hroot⟩ h'
  · simp only []
    have hfits : k.Fits := (hranked leaf _ hk).fits
    have hls : (nodes leaf).isSome := by rw [hk]; rfl
    rw [Program.wp_bind]
    refine wpe_loadLeaf h' List.mem_cons_self hp' hk ?_
    by_cases hfull : k.isFull = true
    · -- a full leaf splits
      rw [LeafNode.insert, if_pos hfull]
      exact wpe_insertSplitting hbase ⟨hranked, hp', Or.inr hroot⟩ hroot hk
        ((LeafNode.isFull_iff hfits).mp hfull) h' htop hnone hQ
    · -- a leaf with room takes the entry in its place
      rw [LeafNode.insert, if_neg hfull]
      have hlt : k.entries.length < 406 :=
        lt_of_le_of_ne hfits.le fun he => hfull ((LeafNode.isFull_iff hfits).mpr he)
      have hfits' := hfits.overflow hlt key rid t.comparator
      simp only []
      rw [Program.wp_bind]
      refine wpe_storeLeaf (h'.mono (List.nil_subset [leaf])) List.mem_cons_self List.mem_cons_self
        (hp'.home hls) hfits' fun p hp hown h₁ => ?_
      rw [Program.wp_bind]
      have hplaced' := hp'.update hp hown
      refine wpe_unpinDirty h₁ (hplaced'.home (by rw [Function.update_self]; rfl)).named
        fun h₂ => ?_
      refine hQ _ t _ ⟨_, level, rank, hranked.setLeaf hk hfits' rfl rfl, hplaced', Or.inr ?_⟩ h₂
      by_cases hx : t.rootPageId = leaf
      · rw [hx, Function.update_self]
        rfl
      · rw [Function.update_of_ne hx]
        exact hroot

/-- **Delete** gives back what it pins. -/
theorem wpe_delete {Q : Option Bool → View → Prop} (hbase : ∀ x, base x + 2 < 2 ^ 32)
    (hs : Standing t.rootPageId nodes level rank v.pages) (h : Holding base [] [] v)
    (htop : ∀ id, level id ≤ top) (hnone : fuel ≤ top → ∀ v', Q none v')
    (hQ : ∀ r v', Stands t.rootPageId v'.pages → Holding base [] [] v' → Q (some r) v') :
    wpe (t.delete fuel key rid) Q v := by
  unfold BPlusTree.delete
  by_cases hempty : t.rootPageId = invalidPageId
  · -- an empty tree has no key
    rw [if_pos hempty]
    exact hQ _ v ⟨nodes, level, rank, hs⟩ h
  obtain ⟨hranked, hplaced, hroot⟩ := hs
  replace hroot := hroot.resolve_left hempty
  rw [if_neg hempty, wpe, Program.wp_bind]
  refine wpe_findLeafPage hbase hranked hplaced hroot h (fun hle v' => ?_) (fun v' hp' h' => ?_)
    fun leaf k v' hk hp' h' => ?_
  · -- the descent ran out of fuel, was refused a page, or reached a leaf
    exact hnone (hle.trans (htop _)) v'
  · exact hQ _ v' ⟨nodes, level, rank, hranked, hp', Or.inr hroot⟩ h'
  · simp only []
    have hfits : k.Fits := (hranked leaf _ hk).fits
    have hls : (nodes leaf).isSome := by rw [hk]; rfl
    rw [Program.wp_bind]
    refine wpe_loadLeaf h' List.mem_cons_self hp' hk ?_
    rcases LeafNode.delete_any hfits key rid t.comparator with hdel | ⟨i, hi, hdel⟩
    · -- the pair is not in the leaf, which is given back clean
      rw [hdel]
      simp only []
      rw [Program.wp_bind]
      refine wpe_unpinClean h' (hp'.home hls).named List.not_mem_nil fun h₁ => ?_
      exact hQ _ _ ⟨nodes, level, rank, hranked, hp', Or.inr hroot⟩ h₁
    · -- the pair is taken out and the leaf written
      rw [hdel]
      simp only []
      rw [Program.wp_bind]
      refine wpe_storeLeaf (h'.mono (List.nil_subset [leaf])) List.mem_cons_self List.mem_cons_self
        (hp'.home hls) (hfits.erased hi) fun p hp hown h₁ => ?_
      rw [Program.wp_bind]
      have hplaced' := hp'.update hp hown
      refine wpe_unpinDirty h₁ (hplaced'.home (by rw [Function.update_self]; rfl)).named
        fun h₂ => ?_
      refine hQ _ _ ⟨_, level, rank, hranked.setLeaf hk (hfits.erased hi) rfl rfl, hplaced',
        Or.inr ?_⟩ h₂
      by_cases hx : t.rootPageId = leaf
      · rw [hx, Function.update_self]
        rfl
      · rw [Function.update_of_ne hx]
        exact hroot

/-- **Lookup** gives back what it pins. -/
theorem wpe_lookup {Q : Option (List RID) → View → Prop} (hbase : ∀ x, base x + 2 < 2 ^ 32)
    (hs : Standing t.rootPageId nodes level rank v.pages) (h : Holding base [] [] v)
    (htop : ∀ id, level id ≤ top ∧ rank id < top) (hnone : fuel ≤ top → ∀ v', Q none v')
    (hQ : ∀ r v', Found nodes ((fuel + 1) * 2 ^ 16) r → Stands t.rootPageId v'.pages →
      Holding base [] [] v' → Q (some r) v') :
    wpe (t.lookup fuel key) Q v := by
  unfold BPlusTree.lookup
  by_cases hempty : t.rootPageId = invalidPageId
  · rw [if_pos hempty]
    exact hQ _ v (found_nil nodes _) ⟨nodes, level, rank, hs⟩ h
  obtain ⟨hranked, hplaced, hroot⟩ := hs
  replace hroot := hroot.resolve_left hempty
  have hstands : ∀ v' : View, Placed v'.pages nodes → Stands t.rootPageId v'.pages := fun v' hp =>
    ⟨nodes, level, rank, hranked, hp, Or.inr hroot⟩
  rw [if_neg hempty, wpe, Program.wp_bind]
  refine wpe_findLeafPage hbase hranked hplaced hroot h (fun hle v' => ?_) (fun v' hp' h' => ?_)
    fun leaf k v' hk hp' h' => ?_
  · exact hnone (hle.trans (htop _).1) v'
  · exact hQ _ v' (found_nil nodes _) (hstands v' hp') h'
  · simp only []
    have hlinked := hranked leaf _ hk
    rw [Program.wp_bind]
    refine wpe_loadLeaf h' List.mem_cons_self hp' hk ?_
    rw [Program.wp_bind]
    refine wpe_unpinClean h' (hp'.home (by rw [hk]; rfl)).named List.not_mem_nil fun h₁ => ?_
    refine wpe_lookupNext hbase hranked fuel hp' (fun hne => (hlinked.leaf_next hne).1) h₁
      (found_findAll hk key t.comparator) (fun hle => hnone ?_) fun r v'' hr hp'' h'' =>
        hQ r v'' (hr.mono (by omega)) (hstands v'' hp'') h''
    rcases hle with rfl | ⟨-, hle⟩
    · exact Nat.zero_le top
    · exact hle.trans (htop _).2

/-- **RangeScan** gives back what it pins. -/
theorem wpe_rangeScan {Q : Option (List (KeyType × RID)) → View → Prop}
    (hbase : ∀ x, base x + 2 < 2 ^ 32) (hs : Standing t.rootPageId nodes level rank v.pages)
    (h : Holding base [] [] v) (htop : ∀ id, level id ≤ top ∧ rank id < top)
    (hnone : fuel ≤ top → ∀ v', Q none v')
    (hQ : ∀ r v', Found nodes (fuel * 2 ^ 16) (r.map Prod.snd) → Stands t.rootPageId v'.pages →
      Holding base [] [] v' → Q (some r) v') :
    wpe (t.rangeScan fuel low high) Q v := by
  unfold BPlusTree.rangeScan
  by_cases hempty : t.rootPageId = invalidPageId
  · rw [if_pos hempty]
    exact hQ _ v (found_nil nodes _) ⟨nodes, level, rank, hs⟩ h
  obtain ⟨hranked, hplaced, hroot⟩ := hs
  replace hroot := hroot.resolve_left hempty
  have hstands : ∀ v' : View, Placed v'.pages nodes → Stands t.rootPageId v'.pages := fun v' hp =>
    ⟨nodes, level, rank, hranked, hp, Or.inr hroot⟩
  rw [if_neg hempty, wpe, Program.wp_bind]
  refine wpe_findLeafPage hbase hranked hplaced hroot h (fun hle v' => ?_) (fun v' hp' h' => ?_)
    fun leaf k v' hk hp' h' => ?_
  · exact hnone (hle.trans (htop _).1) v'
  · exact hQ _ v' (found_nil nodes _) (hstands v' hp') h'
  · refine wpe_scanLeaves hbase hranked fuel hp' hk h' (found_nil nodes 0) (fun hle => hnone ?_)
      fun r v'' hr hp'' h'' => hQ r v'' (hr.mono (by omega)) (hstands v'' hp'') h''
    exact hle.trans (htop _).2.le

end Operations

end PoolM

/-! ## 9. Runs

`Reaches` is any sequence of calls, each with a pattern of refusals of its own.  The start is a pool
in which others may hold pages, and an empty tree. -/

/-- The calls of the tree. -/
inductive TreeCall
  | insert (key : KeyType) (rid : RID)
  | delete (key : KeyType) (rid : RID)
  | lookup (key : KeyType)
  | rangeScan (low high : KeyType)

namespace TreeCall

open BufferPoolManager

/-- The program behind a call.  Of what it returns only the tree is kept. -/
def program (fuel : Nat) (t : BPlusTree) : TreeCall → PoolM (Option BPlusTree)
  | .insert key rid => do return (← t.insert fuel key rid).map Prod.snd
  | .delete key rid => do return (← t.delete fuel key rid).map fun _ => t
  | .lookup key => do return (← t.lookup fuel key).map fun _ => t
  | .rangeScan low high => do return (← t.rangeScan fuel low high).map fun _ => t

/-- The pools and trees that calls lead to, from an empty tree.  Each call returned, under a pattern
of refusals of its own. -/
inductive Reaches (b₀ : BufferPoolManager) (cmp : KeyComparator) :
    BufferPoolManager → BPlusTree → Prop
  | start : Reaches b₀ cmp b₀ { comparator := cmp }
  | call {b : BufferPoolManager} {t t' : BPlusTree} {fuel : Nat} {ps : Refusals} {c : TreeCall}
      (h : Reaches b₀ cmp b t)
      (hids : (c.program fuel t).CallsOk handleRefusing RefusedOrIdsLeft (ps, b))
      (hreturn : ((c.program fuel t).run handleRefusing (ps, b)).1 = some t') :
      Reaches b₀ cmp ((c.program fuel t).run handleRefusing (ps, b)).2.2 t'

/-- The call behind an operation of a run. -/
def ofOp : TreeOp → TreeCall
  | .insert key rid => .insert key rid
  | .delete key rid => .delete key rid

/-- The program of an operation of a run, without its answer. -/
theorem program_ofOp (fuel : Nat) (t : BPlusTree) (op : TreeOp) :
    (ofOp op).program fuel t = do return (← TreeRun.program fuel t op).map Prod.snd := by
  cases op with
  | insert key rid => rfl
  | delete key rid =>
    simp only [ofOp, program, TreeRun.program, bind_assoc, pure_bind, Option.map_map,
      Function.comp_def]

/-- The pool and the tree of a run are reached, without a refusal. -/
theorem Reaches.run {b₀ : BufferPoolManager} {cmp : KeyComparator} {n fuel : Nat}
    {ops : List TreeOp} : ∀ {k : Nat} {st : TreeRun} {s : TreeState} {m : PageId → Option Page},
      Reaches b₀ cmp st.pool st.tree → TreeRun.Sound n k st s m → k + ops.length ≤ fuel →
      Run.StepsOk (TreeRun.step fuel) (TreeRun.Admits fuel) st ops →
      Reaches b₀ cmp (ops.foldl (TreeRun.step fuel) st).pool
        (ops.foldl (TreeRun.step fuel) st).tree := by
  induction ops with
  | nil => exact fun h _ _ _ => h
  | cons op ops ih =>
    intro k st s m h hs hk hok
    rw [List.length_cons] at hk
    obtain ⟨t, m', returned, hnext, -, -, hresults, -⟩ := hs.step (by omega) hok.1
    refine ih ?_ hnext (by omega) hok.2
    -- the operation returned, and so did the call
    obtain ⟨⟨_, t'⟩, hres, -⟩ : ∃ r, ((TreeRun.program fuel st.tree op).exec st.pool).1 = some r ∧
        r.1 = returned := by
      refine Option.map_eq_some_iff.mp ?_
      exact List.singleton_inj.mp (List.append_cancel_left hresults)
    have hcall : ((ofOp op).program fuel st.tree).CallsOk BufferPoolManager.handle Succeeds
        st.pool := by
      rw [program_ofOp, Program.callsOk_bind]
      exact ⟨hok.1, trivial⟩
    have hexec : ((ofOp op).program fuel st.tree).run BufferPoolManager.handle st.pool
        = (some t', (TreeRun.step fuel st op).pool) := by
      rw [program_ofOp, Program.run_bind]
      exact Prod.ext (congrArg (Option.map Prod.snd) hres) rfl
    have htree : (TreeRun.step fuel st op).tree = t' := by
      rw [TreeRun.step, hres]
      rfl
    have hrun := Program.run_embed handleRefusing_nil ((ofOp op).program fuel st.tree) st.pool
    rw [hexec] at hrun
    have hids : ((ofOp op).program fuel st.tree).CallsOk handleRefusing RefusedOrIdsLeft
        ([], st.pool) :=
      hcall.embed handleRefusing_nil fun _ _ ho => .inr ho.1
    have hreach := Reaches.call h hids (congrArg Prod.fst hrun)
    rwa [hrun, ← htree] at hreach

/-- **A call**, with any answers: without a result it ran out of fuel; otherwise a tree stands, and
every pin was given back. -/
theorem wpe_program {base : PageId → Nat} {v : View} {nodes : NodeMap} {level rank : PageId → Nat}
    {t : BPlusTree} {fuel top : Nat} (hbase : ∀ x, base x + 2 < 2 ^ 32)
    (hs : Standing t.rootPageId nodes level rank v.pages) (h : Holding base [] [] v)
    (htop : ∀ id, level id ≤ top ∧ rank id < top) (c : TreeCall) :
    (c.program fuel t).wpe (fun r v' => (r = none → fuel ≤ top) ∧
      ∀ t', r = some t' → Stands t'.rootPageId v'.pages ∧ Holding base [] [] v') v := by
  have hnone : ∀ v' : View, fuel ≤ top → ((none : Option BPlusTree) = none → fuel ≤ top) ∧
      ∀ t' : BPlusTree, none = some t' → Stands t'.rootPageId v'.pages ∧ Holding base [] [] v' :=
    fun v' hle => ⟨fun _ => hle, fun t' ht => absurd ht (by simp)⟩
  have hsome : ∀ (t' : BPlusTree) (v' : View), Stands t'.rootPageId v'.pages →
      Holding base [] [] v' → (some t' = none → fuel ≤ top) ∧
        ∀ t'', some t' = some t'' → Stands t''.rootPageId v'.pages ∧ Holding base [] [] v' :=
    fun t' v' hstands h' => ⟨fun ht => absurd ht (by simp), fun t'' ht =>
      Option.some.inj ht ▸ ⟨hstands, h'⟩⟩
  cases c with
  | insert key rid =>
    rw [program, PoolM.wpe, Program.wp_bind]
    exact PoolM.wpe_insert hbase hs h (fun id => (htop id).1) (fun hle v' => hnone v' hle)
      fun r t' v' => hsome t' v'
  | delete key rid =>
    rw [program, PoolM.wpe, Program.wp_bind]
    exact PoolM.wpe_delete hbase hs h (fun id => (htop id).1) (fun hle v' => hnone v' hle)
      fun r v' => hsome t v'
  | lookup key =>
    rw [program, PoolM.wpe, Program.wp_bind]
    exact PoolM.wpe_lookup hbase hs h htop (fun hle v' => hnone v' hle) fun r v' _ => hsome t v'
  | rangeScan low high =>
    rw [program, PoolM.wpe, Program.wp_bind]
    exact PoolM.wpe_rangeScan hbase hs h htop (fun hle v' => hnone v' hle) fun r v' _ => hsome t v'

/-- There are finitely many pages, so levels and ranks have a bound. -/
theorem exists_top (level rank : PageId → Nat) : ∃ top, ∀ id, level id ≤ top ∧ rank id < top := by
  have hfinite : Finite PageId :=
    Finite.of_injective UInt32.toFin fun _ _ h => UInt32.toFin_inj.mp h
  obtain ⟨l, hl⟩ := (Set.finite_range level).bddAbove
  obtain ⟨r, hr⟩ := (Set.finite_range rank).bddAbove
  refine ⟨max l (r + 1), fun id => ⟨?_, ?_⟩⟩
  · exact (hl (Set.mem_range_self id)).trans (le_max_left _ _)
  · exact lt_of_lt_of_le (Nat.lt_succ_of_le (hr (Set.mem_range_self id))) (le_max_right _ _)

variable {b₀ b : BufferPoolManager} {v₀ v : View} {cmp : KeyComparator} {t : BPlusTree}

/-- **One call** on the pool. -/
theorem run_spec (hb : b.Shows v) (hbase : ∀ x, v.pins x + 2 < 2 ^ 32)
    (hs : Stands t.rootPageId v.pages) (c : TreeCall) :
    ∃ top, ∀ (fuel : Nat) (ps : Refusals),
      (c.program fuel t).CallsOk handleRefusing RefusedOrIdsLeft (ps, b) →
        (c.program fuel t).CallsOk handleRefusing UnpinSucceeds (ps, b) ∧
        (((c.program fuel t).run handleRefusing (ps, b)).1 = none → fuel ≤ top) ∧
        ∀ t', ((c.program fuel t).run handleRefusing (ps, b)).1 = some t' →
          ∃ v', ((c.program fuel t).run handleRefusing (ps, b)).2.2.Shows v' ∧
            Stands t'.rootPageId v'.pages ∧ ∀ id, v'.pins id = v.pins id := by
  obtain ⟨nodes, level, rank, hs⟩ := hs
  obtain ⟨top, htop⟩ := exists_top level rank
  refine ⟨top, fun fuel ps hids => ?_⟩
  obtain ⟨hunpins, v', ⟨hnone, hsome⟩, hshows⟩ :=
    hb.exec_erratic hids (wpe_program hbase hs (.start hb) htop c)
  refine ⟨hunpins, hnone, fun t' ht => ?_⟩
  obtain ⟨hstands, hheld⟩ := hsome t' ht
  exact ⟨v', hshows, hstands, fun id => hheld.pins id⟩

/-- **The run lemma**: a tree stands, and the pins are those of the start. -/
theorem Reaches.stands (hb : b₀.Shows v₀) (hbase : ∀ x, v₀.pins x + 2 < 2 ^ 32)
    (h : Reaches b₀ cmp b t) :
    ∃ v, b.Shows v ∧ Stands t.rootPageId v.pages ∧ ∀ id, v.pins id = v₀.pins id := by
  induction h with
  | start =>
    refine ⟨v₀, hb, ⟨fun _ => none, fun _ => 0, fun _ => 0, fun _ _ hn => ?_, fun _ _ hn => ?_,
      Or.inl rfl⟩, fun _ => rfl⟩
    · exact absurd hn (by simp)
    · exact absurd hn (by simp)
  | @call b t t' fuel ps c h hids hreturn ih =>
    obtain ⟨v, hshows, hstands, hpins⟩ := ih
    obtain ⟨top, hrun⟩ := run_spec hshows (fun x => hpins x ▸ hbase x) hstands c
    obtain ⟨-, -, hsome⟩ := hrun fuel ps hids
    obtain ⟨v', hshows', hstands', hpins'⟩ := hsome t' hreturn
    exact ⟨v', hshows', hstands', fun id => (hpins' id).trans (hpins id)⟩

/-- A tree of one full leaf is reached, and an insertion into it returns, whatever is refused. -/
theorem reaches_full {b : BufferPoolManager} (hb : b.Idle fun _ => none)
    {entries : List (KeyType × RID)} (hlen : entries.length = 406) (hframes : 409 < b.poolSize)
    {st : TreeRun} (hst : (TreeOp.inserts entries).foldl (TreeRun.step 407) { pool := b } = st)
    (key : KeyType) (rid : RID) (ps : Refusals) :
    Reaches b defaultKeyComparator st.pool st.tree ∧
      ((insert key rid).program 407 st.tree).CallsOk handleRefusing RefusedOrIdsLeft (ps, st.pool) ∧
      (((insert key rid).program 407 st.tree).run handleRefusing (ps, st.pool)).1.isSome := by
  have hne : entries ≠ [] := by
    rintro rfl
    exact absurd hlen (by decide)
  obtain ⟨hops, id, leaf, m, hone⟩ :=
    TreeRun.oneLeaf_run hb hframes (by decide) (Nat.zero_lt_succ 406) hne hlen.le
  have hlength : 0 + (TreeOp.inserts entries).length ≤ 407 := by
    rw [TreeOp.inserts, List.length_map, hlen]
    decide
  have hreach := Reaches.run .start (TreeRun.sound_start hb) hlength hops
  rw [hst] at hone hreach
  obtain ⟨hok, hreturn⟩ := hone.insert_refusing key rid ps hframes (by decide)
    (Nat.zero_lt_succ 406)
  refine ⟨hreach, ?_, ?_⟩
  · exact (Program.callsOk_bind _ _ _).mpr ⟨hok.mono fun _ _ ho => ho.imp_right And.left, trivial⟩
  · have hresult : (((insert key rid).program 407 st.tree).run handleRefusing (ps, st.pool)).1
        = ((st.tree.insert 407 key rid).run handleRefusing (ps, st.pool)).1.map Prod.snd :=
      congrArg Prod.fst (Program.run_bind _ _ _)
    rw [hresult, Option.isSome_map]
    exact hreturn

/-- **The calls of a tree are pin-neutral**, whatever calls led to it and whichever requests are
refused.  Every `UnpinPage` that a call makes succeeds; with enough fuel the call returns; and when
it returns every page is pinned as often as before. -/
theorem pin_neutral (hb : b₀.Shows v₀) (hpins : ∀ id, b₀.pinsOf id + 2 < 2 ^ 32)
    (h : Reaches b₀ cmp b t) (c : TreeCall) :
    ∃ enough, ∀ (fuel : Nat) (ps : Refusals),
      (c.program fuel t).CallsOk handleRefusing RefusedOrIdsLeft (ps, b) →
        let r := (c.program fuel t).run handleRefusing (ps, b)
        (c.program fuel t).CallsOk handleRefusing UnpinSucceeds (ps, b) ∧
        (enough < fuel → r.1.isSome) ∧
        (r.1.isSome → ∀ id, r.2.2.pinsOf id = b.pinsOf id) := by
  obtain ⟨v, hshows, hstands, hsame⟩ := h.stands hb fun x => hb.pins x ▸ hpins x
  obtain ⟨top, hrun⟩ := run_spec hshows (fun x => hsame x ▸ hb.pins x ▸ hpins x) hstands c
  refine ⟨top, fun fuel ps hids => ?_⟩
  obtain ⟨hunpins, hnone, hsome⟩ := hrun fuel ps hids
  refine ⟨hunpins, fun hlt => ?_, fun hreturn id => ?_⟩
  · refine Option.isSome_iff_ne_none.mpr fun he => ?_
    exact absurd (hnone he) (Nat.not_le.mpr hlt)
  · obtain ⟨t', ht⟩ := Option.isSome_iff_exists.mp hreturn
    obtain ⟨v', hshows', -, hpins'⟩ := hsome t' ht
    rw [hshows'.pins id, hpins' id, hshows.pins id]

/-- A tree with one leaf, which is full. -/
def fullTree : TreeRun :=
  (TreeOp.inserts TreeRun.fullLeaf).foldl (TreeRun.step 407) { pool := overNewFile 500 }

/-- The only leaf is full, and there is no page for the root above its halves. -/
theorem pin_neutral_refused :
    let c := (insert 406 ⟨2, 0⟩).program 407 fullTree.tree
    let r := c.run handleRefusing ([false, false, true], fullTree.pool)
    c.CallsOk handleRefusing UnpinSucceeds ([false, false, true], fullTree.pool) ∧ r.1.isSome ∧
      ∀ id, r.2.2.pinsOf id = fullTree.pool.pinsOf id := by
  have hidle := idle_overNewFile (n := 500) (by decide)
  have hpins : ∀ id, (overNewFile 500).pinsOf id + 2 < 2 ^ 32 := fun id =>
    (hidle.shows.pins id).symm ▸ (by decide : 0 + 2 < 2 ^ 32)
  have hframes : 409 < (overNewFile 500).poolSize := by
    have hsize : (overNewFile 500).poolSize = 500 := rfl
    rw [hsize]
    decide
  have hfull := reaches_full hidle TreeRun.fullLeaf_length hframes (rfl : _ = fullTree) 406 ⟨2, 0⟩
    [false, false, true]
  -- how the leaf came to be does not matter any more
  generalize fullTree = st at hfull ⊢
  obtain ⟨hreach, hids, hreturn⟩ := hfull
  obtain ⟨enough, hneutral⟩ := pin_neutral hidle.shows hpins hreach (insert 406 ⟨2, 0⟩)
  obtain ⟨hunpins, -, hsame⟩ := hneutral 407 [false, false, true] hids
  exact ⟨hunpins, hreturn, hsame hreturn⟩

end TreeCall

end CourtDB
