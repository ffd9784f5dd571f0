/-
# What InsertIntoParent does to the nodes

`Links` lists the ways in which a call of `InsertIntoParent` can go, as steps on the nodes: it makes
a new root, or puts the right node into a parent with room, or splits the parent and goes on with
the two halves; and at three places a null pointer makes it give up.  The last index says whether
the right node became part of the tree.

Whatever happens, the downward links fit together (`Links.shape`).  Without refusals the right node
is linked and the upward links agree again (`Links.parents`).
-/
import CourtDB.Buffer.Refusal
import CourtDB.Index.TreeState

namespace CourtDB

/-! ## 1. The steps -/

/-- The refusals to come, the nodes and the root. -/
structure LinkState where
  refusals : Refusals
  nodes : NodeMap
  root : PageId

namespace LinkState

/-- The next request is refused. -/
def refused (s : LinkState) : Bool := s.refusals.headD false

/-- After the next request. -/
def next (s : LinkState) : LinkState := { s with refusals := s.refusals.tail }

/-- A node is written. -/
def setNode (s : LinkState) (id : PageId) (n : BTreeNode) : LinkState :=
  { s with nodes := Function.update s.nodes id (some n) }

/-- The patch of one parent pointer, if the node can be fetched. -/
def patch (parentId : PageId) (s : LinkState) (c : PageId) : LinkState :=
  if s.refused then s.next
  else { s.next with
    nodes := Function.update s.nodes c ((s.nodes c).map (BTreeNode.setParent parentId)) }

/-- Nothing is refused. -/
def Clear (s : LinkState) : Prop := ∀ b ∈ s.refusals, b = false

end LinkState

/-- The node of a new root. -/
def InternalNode.newRoot (leftId : PageId) (splitKey : KeyType) (rightId : PageId) :
    InternalNode where
  header := ⟨.internalNode, invalidPageId, 1, invalidPageId⟩
  children := [leftId, rightId]
  keys := [splitKey]

/-- A full node that keeps the first half of its keys and children. -/
def InternalNode.leftHalf (n : InternalNode) (keys : List KeyType) (children : List PageId) :
    InternalNode where
  header := { n.header with numKeys := 254 }
  children := children.take 255
  keys := keys.take 254

/-- The node with the second half. -/
def InternalNode.rightHalf (n : InternalNode) (keys : List KeyType) (children : List PageId)
    (nextPageId : PageId) : InternalNode where
  header := ⟨.internalNode, n.header.parentPageId, 253, nextPageId⟩
  children := children.drop 255
  keys := keys.drop 255

/-- The keys of a node with the new one at the place that `FindChild` gives. -/
def InternalNode.keysWith (n : InternalNode) (key : KeyType) : List KeyType :=
  n.keys.insertIdx (n.findChild key defaultKeyComparator) key

/-- The children of a node with the new one after that place. -/
def InternalNode.childrenWith (n : InternalNode) (key : KeyType) (rightId : PageId) :
    List PageId :=
  n.children.insertIdx (n.findChild key defaultKeyComparator + 1) rightId

/-- A full parent is split, once the pages are there: the children of the right half are patched,
and the halves are written. -/
def LinkState.splitParent (s : LinkState) (parent id right nextPageId : PageId) (key : KeyType)
    (n : InternalNode) : LinkState :=
  ((((n.childrenWith key right).drop 255).foldl (LinkState.patch id) s.next.next).setNode parent
      (.internal (n.leftHalf (n.keysWith key) (n.childrenWith key right)))).setNode id
    (.internal (n.rightHalf (n.keysWith key) (n.childrenWith key right) nextPageId))

/-- What `InsertIntoParent` may do. -/
inductive Links : LinkState → PageId → KeyType → PageId → LinkState → Bool → Prop
  | rootRefused {s : LinkState} {left right : PageId} {key : KeyType}
      (hroot : s.nodes.par left = some invalidPageId) (hr : s.refused = true) :
      Links s left key right s.next false
  | newRoot {s : LinkState} {left right id : PageId} {key : KeyType}
      (hroot : s.nodes.par left = some invalidPageId) (hr : s.refused = false)
      (h0 : id ≠ 0) (hne : id ≠ invalidPageId) (hfresh : s.nodes id = none) :
      Links s left key right
        { (((s.next.setNode id (.internal (.newRoot left key right))).patch id left).patch id
            right) with root := id } true
  | parentRefused {s : LinkState} {left right parent : PageId} {key : KeyType}
      (hpar : s.nodes.par left = some parent) (hne : parent ≠ invalidPageId)
      (hr : s.refused = true) :
      Links s left key right s.next false
  | room {s : LinkState} {left right parent : PageId} {key : KeyType} {n : InternalNode}
      (hpar : s.nodes.par left = some parent) (hne : parent ≠ invalidPageId)
      (hr : s.refused = false) (hn : s.nodes parent = some (.internal n))
      (hroom : n.keys.length < 507) :
      Links s left key right (s.next.setNode parent (.internal
        (n.insertAfter (n.findChild key defaultKeyComparator) key right))) true
  | newParentRefused {s : LinkState} {left right parent : PageId} {key : KeyType}
      {n : InternalNode} (hpar : s.nodes.par left = some parent) (hne : parent ≠ invalidPageId)
      (hr : s.refused = false) (hn : s.nodes parent = some (.internal n))
      (hfull : n.keys.length = 507) (hr' : s.next.refused = true) :
      Links s left key right s.next.next false
  | split {s s' : LinkState} {left right parent id nextPageId : PageId} {key : KeyType}
      {n : InternalNode} {linked : Bool} (hpar : s.nodes.par left = some parent)
      (hne : parent ≠ invalidPageId) (hr : s.refused = false)
      (hn : s.nodes parent = some (.internal n)) (hfull : n.keys.length = 507)
      (hr' : s.next.refused = false) (h0 : id ≠ 0) (hnew : id ≠ invalidPageId)
      (hfresh : s.nodes id = none)
      (hrest : Links (s.splitParent parent id right nextPageId key n) parent
        ((n.keysWith key).getD 254 0) id s' linked) :
      Links s left key right s' linked

namespace LinkState

variable {s : LinkState} {id c : PageId} {cs : List PageId}

@[simp] theorem nodes_next (s : LinkState) : s.next.nodes = s.nodes := rfl
@[simp] theorem root_next (s : LinkState) : s.next.root = s.root := rfl
@[simp] theorem nodes_setNode (s : LinkState) (id : PageId) (n : BTreeNode) :
    (s.setNode id n).nodes = Function.update s.nodes id (some n) := rfl
@[simp] theorem root_setNode (s : LinkState) (id : PageId) (n : BTreeNode) :
    (s.setNode id n).root = s.root := rfl
@[simp] theorem refusals_setNode (s : LinkState) (id : PageId) (n : BTreeNode) :
    (s.setNode id n).refusals = s.refusals := rfl

@[simp] theorem root_patch (s : LinkState) (id c : PageId) : (s.patch id c).root = s.root := by
  unfold patch
  split <;> rfl

@[simp] theorem refusals_patch (s : LinkState) (id c : PageId) :
    (s.patch id c).refusals = s.refusals.tail := by
  unfold patch
  split <;> rfl

/-- Where all requests are granted, the next one is. -/
theorem Clear.refused (h : s.Clear) : s.refused = false := by
  unfold LinkState.refused
  cases hr : s.refusals with
  | nil => rfl
  | cons b rest => exact h b (hr ▸ List.mem_cons_self)

theorem Clear.next (h : s.Clear) : s.next.Clear :=
  fun b hb => h b (List.mem_of_mem_tail hb)

theorem Clear.patch (h : s.Clear) : (s.patch id c).Clear := by
  intro b hb
  rw [refusals_patch] at hb
  exact h b (List.mem_of_mem_tail hb)

/-- A patch does not move the root. -/
theorem root_patches (s : LinkState) : (cs.foldl (patch id) s).root = s.root := by
  induction cs generalizing s with
  | nil => rfl
  | cons c cs ih => rw [List.foldl_cons, ih, root_patch]

/-- Patches only use requests up, so what follows them is granted too. -/
theorem Clear.patches (h : s.Clear) : (cs.foldl (LinkState.patch id) s).Clear := by
  induction cs generalizing s with
  | nil => exact h
  | cons c cs ih => exact ih h.patch

/-- One patch changes at most the parent pointer of one node. -/
theorem reparented_patch (s : LinkState) (id c : PageId) (hc : c ∈ cs) :
    NodeMap.Reparented s.nodes (s.patch id c).nodes id cs := by
  unfold patch
  split
  · exact .refl _ _ _
  · exact (NodeMap.Reparented.refl s.nodes id cs).update hc

/-- The patches change at most the parent pointers of their nodes. -/
theorem reparented_patches (s : LinkState) (id : PageId) (cs : List PageId) :
    NodeMap.Reparented s.nodes (cs.foldl (patch id) s).nodes id cs := by
  have hall : ∀ (l : List PageId) (t : LinkState), l ⊆ cs →
      NodeMap.Reparented s.nodes t.nodes id cs →
        NodeMap.Reparented s.nodes (l.foldl (patch id) t).nodes id cs := by
    intro l
    induction l with
    | nil => exact fun _ _ h => h
    | cons c l ih =>
      intro t hsub h
      refine ih _ (fun x hx => hsub (List.mem_cons_of_mem _ hx)) ?_
      unfold patch
      split
      · exact h
      · exact h.update (hsub List.mem_cons_self)
  exact hall cs s (fun _ hx => hx) (.refl _ _ _)

/-- Without refusals every node gets its new parent pointer. -/
theorem Clear.par_patches (h : s.Clear) (hmem : ∀ c ∈ cs, (s.nodes c).isSome) {c : PageId}
    (hc : c ∈ cs) : (cs.foldl (LinkState.patch id) s).nodes.par c = some id := by
  induction cs generalizing s with
  | nil => exact absurd hc List.not_mem_nil
  | cons d cs ih =>
    have hpatch : NodeMap.Reparented s.nodes (s.patch id d).nodes id (d :: cs) :=
      s.reparented_patch id d List.mem_cons_self
    rw [List.foldl_cons]
    by_cases hcs : c ∈ cs
    · refine ih h.patch (fun x hx => ?_) hcs
      rw [hpatch.isSome]
      exact hmem x (List.mem_cons_of_mem _ hx)
    · obtain rfl : c = d := (List.mem_cons.mp hc).resolve_right hcs
      rw [NodeMap.par, (reparented_patches _ id cs).of_not_mem hcs]
      unfold LinkState.patch
      rw [h.refused, if_neg Bool.false_ne_true]
      obtain ⟨n, hn⟩ := Option.isSome_iff_exists.mp (hmem c List.mem_cons_self)
      simp [hn]

end LinkState

/-! ## 2. What stays -/

variable {s s' : LinkState} {left right : PageId} {key : KeyType} {linked : Bool}

/-- **The leaves stay as they are**, their parent pointers apart. -/
theorem Links.leafAt (h : Links s left key right s' linked) : s'.nodes.leafAt = s.nodes.leafAt := by
  induction h with
  | rootRefused hroot hr => rfl
  | parentRefused hpar hne hr => rfl
  | newParentRefused hpar hne hr hn hfull hr' => rfl
  | @newRoot s left right id key hroot hr h0 hne hfresh =>
    funext x
    have hre := (s.next.setNode id (.internal (.newRoot left key right))).reparented_patches id
      [left, right]
    refine (hre.leafAt x).trans (NodeMap.leafAt_update_internal s.nodes id _ ?_ x)
    rw [NodeMap.leafAt, hfresh]
  | @room s left right parent key n hpar hne hr hn hroom =>
    funext x
    refine NodeMap.leafAt_update_internal s.nodes parent _ ?_ x
    rw [NodeMap.leafAt, hn]
  | @split s s' left right parent id nextPageId key n linked hpar hne hr hn hfull hr' h0 hnew
      hfresh hrest ih =>
    rw [ih]
    funext x
    have hre := s.next.next.reparented_patches id ((n.childrenWith key right).drop 255)
    have hparent : NodeMap.leafAt
        (((n.childrenWith key right).drop 255).foldl (LinkState.patch id) s.next.next).nodes parent
          = none := by
      rw [hre.leafAt]
      exact (by rw [NodeMap.leafAt, hn] : s.nodes.leafAt parent = none)
    have hid : NodeMap.leafAt
        (((n.childrenWith key right).drop 255).foldl (LinkState.patch id) s.next.next).nodes id
          = none := by
      rw [hre.leafAt]
      exact (by rw [NodeMap.leafAt, hfresh] : s.nodes.leafAt id = none)
    refine (NodeMap.leafAt_update_internal _ id _ ?_ x).trans
      ((NodeMap.leafAt_update_internal _ parent _ hparent x).trans (hre.leafAt x))
    exact (NodeMap.leafAt_update_internal _ parent _ hparent id).trans hid

end CourtDB
