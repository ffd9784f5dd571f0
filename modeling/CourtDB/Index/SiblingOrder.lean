/-
# Where InsertIntoParent puts the right node

The position of the new child is not taken from the child that was split but searched for with the
key: it is behind all keys of the parent that are not greater (`FindChild`).  So the right node
follows the left one exactly if the key in front of the left node is not greater than the new one,
and the key behind it is greater.  A key equal to the one behind it sends the right node past the
next child.

When the parent is full and the new key is the middle one, the new key moves up, and the right node
is the first child of the parent's new sibling.  Then the same must hold one level higher, and so on
(`Between`).  If another key moves up, the right node stays beside the left one in one half, or is
where the position says in the other.

The tree is read as its levels here: for each level the nodes on it from left to right, with the
keys that separate them (`Layered`, from the library of level orders).  Two nodes are neighbours on
their level, also when they have different parents, and the key between them is then the one of the
lowest node above both.  The proof goes along `Links`:

* below the parent nothing changes (`Links.innerAt_low`);
* in the parent, the right node is put behind the left one or somewhere else, and `Between` says
  which (`Splitting.between_iff`);
* above it, the levels are as before, and the case of the middle key is the induction hypothesis
  (`SplitStep.beside_across`).

`insertIntoParent_beside_iff` carries the result to the pool, and the tree of three leaves at the
end shows that the condition can fail.
-/
import CourtDB.Lib.LevelOrder
import CourtDB.Index.TreeLinking
import CourtDB.Index.TreeOrder

namespace CourtDB

open NodeMap LevelOrder LinkState

/-! ## 1. Positions

`FindChild` counts the keys that are not greater.  On sorted keys this is where an insertion keeps
the order, and among equal keys it is behind all of them. -/

namespace InternalNode

variable {n : InternalNode} {key k : KeyType} {i : Nat}

/-- The keys before the position are not greater, those from it on are. -/
theorem findChild_spec (h : n.Fits) (hs : n.keys.Pairwise (· ≤ ·)) (hk : n.keys[i]? = some k) :
    i < n.findChild key defaultKeyComparator ↔ k ≤ key := by
  -- the keys that are not greater come first, so the search counts them
  have hmono : n.keys.Pairwise fun a b => decide (b ≤ key) = true → decide (a ≤ key) = true := by
    refine hs.imp fun hle hb => ?_
    rw [decide_eq_true_eq] at hb ⊢
    exact UInt32.le_trans hle hb
  have hpos : n.findChild key defaultKeyComparator
      = (n.keys.takeWhile fun c => c ≤ key).length := by
    -- `FindChild` compares numbers, `Pairwise` the keys
    have hs' : (n.keys.map UInt32.toNat).Pairwise (· ≤ ·) :=
      List.pairwise_map.mpr (hs.imp UInt32.le_iff_toNat_le.mp)
    rw [findChild_eq h hs', List.takeWhile_map, List.length_map]
    rfl
  rw [hpos]
  rw [← List.takeWhile_append_dropWhile (p := fun c => decide (c ≤ key)) (l := n.keys)] at hk
  constructor
  · intro hi
    rw [List.getElem?_append_left hi] at hk
    have hall := List.all_eq_true.mp List.all_takeWhile _ (List.mem_of_getElem? hk)
    exact of_decide_eq_true hall
  · intro hle
    by_contra hi
    rw [List.getElem?_append_right (Nat.not_lt.mp hi)] at hk
    have hnot := not_of_mem_dropWhile hmono (List.mem_of_getElem? hk)
    exact absurd hle (of_decide_eq_false hnot)

/-- **The position is `i`** when the key before it is not greater and the key at it is. -/
theorem findChild_eq_iff (h : n.Fits) (hs : n.keys.Pairwise (· ≤ ·)) (hi : i ≤ n.keys.length) :
    n.findChild key defaultKeyComparator = i ↔
      (∀ k, 0 < i → n.keys[i - 1]? = some k → k ≤ key) ∧ (∀ k, n.keys[i]? = some k → key < k) := by
  constructor
  · rintro rfl
    -- the keys around the position compare as the search found them
    refine ⟨fun k hpos hk => (findChild_spec h hs hk).mp (by omega), fun k hk => ?_⟩
    exact UInt32.not_le.mp fun hle => lt_irrefl _ ((findChild_spec h hs hk).mpr hle)
  · rintro ⟨hlow, hhigh⟩
    have hle := h.length ▸ n.findChild_le key defaultKeyComparator
    -- a position with such keys around it is neither before nor behind the one found
    refine le_antisymm (Nat.not_lt.mp fun hlt => ?_) (Nat.not_lt.mp fun hlt => ?_)
    · obtain ⟨k, hk⟩ : ∃ k, n.keys[i]? = some k := ⟨_, List.getElem?_eq_getElem (by omega)⟩
      exact UInt32.not_le.mpr (hhigh k hk) ((findChild_spec h hs hk).mp hlt)
    · obtain ⟨k, hk⟩ : ∃ k, n.keys[i - 1]? = some k := ⟨_, List.getElem?_eq_getElem (by omega)⟩
      have hbefore := (findChild_spec h hs hk).mpr (hlow k (by omega) hk)
      omega

end InternalNode

/-! ## 2. The levels of a tree of nodes

`Between` looks only at the nodes above the two halves.  It does not mention refusals: the claim is
about calls that are served. -/

section Levels

variable {nodes nodes' : NodeMap} {level : PageId → Nat} {root id : PageId} {l : Nat}

/-- A row comes from an inner node. -/
theorem NodeMap.internal_of_innerAt {cs : List PageId} {ks : List KeyType}
    (h : nodes.innerAt id = some (cs, ks)) :
    ∃ n, nodes id = some (.internal n) ∧ n.children = cs ∧ n.keys = ks := by
  unfold NodeMap.innerAt at h
  split at h
  · exact absurd h (by simp)
  · rename_i n hn
    obtain ⟨hcs, hks⟩ := Prod.mk.inj (Option.some.inj h)
    exact ⟨n, hn, hcs, hks⟩
  · exact absurd h (by simp)

/-- The children of the general development are those of the nodes. -/
theorem NodeMap.kids_innerAt (nodes : NodeMap) (id : PageId) :
    LevelOrder.kids nodes.innerAt id = nodes.kids id := by
  unfold LevelOrder.kids NodeMap.kids NodeMap.innerAt
  cases nodes id with
  | none => rfl
  | some n =>
    cases n with
    | leaf n => rfl
    | internal n => rfl

/-- The links fit together, so the tree is one in layers. -/
theorem Shape.layered (hshape : Shape nodes level root)
    (hparents : Parents nodes level root l none) : Layered nodes.innerAt level l where
  length p cs ks hp := by
    obtain ⟨n, hn, rfl, rfl⟩ := NodeMap.internal_of_innerAt hp
    exact (hshape.fits p _ hn : n.Fits).children
  nodup p := nodes.kids_innerAt p ▸ hshape.nodup p
  descends p c hc := (hshape.kid p c (nodes.kids_innerAt p ▸ hc)).2
  unique p q c hp hq hl := by
    rw [NodeMap.kids_innerAt] at hp hq
    exact Option.some.inj ((hparents.down p c hp hl).symm.trans (hparents.down q c hq hl))

theorem Pending.right_mem {left right : PageId} (h : Pending nodes level root left right) :
    (nodes right).isSome := by
  obtain ⟨n, hn⟩ := Option.isSome_iff_exists.mp h.left_mem
  have hpar := h.par_eq.trans (par_of_some hn)
  cases hr : nodes right with
  | some m => rfl
  | none =>
    rw [par, hr] at hpar
    exact absurd hpar (by simp)

/-- Every node but the root is somebody's child. -/
theorem Parents.mem_kids (h : Parents nodes level root l none) (hid : (nodes id).isSome)
    (hl : l ≤ level id) (hne : id ≠ root) : ∃ q, id ∈ nodes.kids q := by
  obtain ⟨n, hn⟩ := Option.isSome_iff_exists.mp hid
  exact ⟨_, h.up id _ (NodeMap.par_of_some hn) hl hne (by simp)⟩

/-- Every node is on the level that its rank says. -/
theorem Shape.mem_order (hshape : Shape nodes level root)
    (hparents : Parents nodes level root l none) (hid : (nodes id).isSome) (hl : l ≤ level id) :
    .node id ∈ order nodes.innerAt root (level root - level id) := by
  generalize hd : level root - level id = d
  induction d generalizing id with
  | zero =>
    -- the root is the only node on its level
    have hroot : id = root := by
      by_contra hne
      obtain ⟨q, hq⟩ := hparents.mem_kids hid hl hne
      obtain ⟨n, hn, -⟩ := NodeMap.internal_of_mem_kids hq
      have htop := hshape.top q (by rw [hn]; rfl)
      have hlevel := (hshape.kid q id hq).2
      omega
    exact hroot ▸ List.mem_singleton_self _
  | succ d ih =>
    -- one level further down: the parent is on the level above and lists the node
    obtain ⟨q, hq⟩ := hparents.mem_kids hid hl (by rintro rfl; omega)
    obtain ⟨n, hn, -⟩ := NodeMap.internal_of_mem_kids hq
    have hlevel := (hshape.kid q id hq).2
    have hin := ih (by rw [hn]; rfl) (by omega) (by omega)
    rw [← mem_nodes, (hshape.layered hparents).nodes_succ, List.mem_flatMap]
    exact ⟨q, mem_nodes.mpr hin, nodes.kids_innerAt q ▸ hq⟩

/-- The levels list nodes. -/
theorem Shape.isSome_of_mem {d : Nat} (hshape : Shape nodes level root)
    (hparents : Parents nodes level root l none) (hid : .node id ∈ order nodes.innerAt root d) :
    (nodes id).isSome := by
  rw [← mem_nodes] at hid
  cases d with
  | zero => exact List.mem_singleton.mp hid ▸ hshape.root_mem
  | succ d =>
    rw [(hshape.layered hparents).nodes_succ] at hid
    obtain ⟨q, -, hq⟩ := List.mem_flatMap.mp hid
    exact (hshape.kid q id (nodes.kids_innerAt q ▸ hq)).1

/-- The key moves between the keys of the parent; where that is full and the key is its middle one,
it moves up, and moves between the keys above. -/
inductive Between (nodes : NodeMap) (key : KeyType) : PageId → Prop
  | root {id : PageId} (hpar : nodes.par id = some invalidPageId) : Between nodes key id
  | inner {id parent : PageId} {cs : List PageId} {ks : List KeyType} {i : Nat}
      (hpar : nodes.par id = some parent) (hparent : nodes.innerAt parent = some (cs, ks))
      (hi : cs[i]? = some id) (hlow : ∀ k, 0 < i → ks[i - 1]? = some k → k ≤ key)
      (hhigh : ∀ k, ks[i]? = some k → key < k)
      (hup : ks.length = 507 → i = 254 → Between nodes key parent) : Between nodes key id

/-- Only what is above a node matters. -/
theorem Between.congr {key : KeyType} (h : Between nodes key id) (hshape : Shape nodes level root)
    (hid : nodes'.par id = nodes.par id)
    (hpar : ∀ x, (nodes x).isSome → level id < level x → nodes'.par x = nodes.par x)
    (hinner : ∀ x, (nodes x).isSome → level id < level x → nodes'.innerAt x = nodes.innerAt x) :
    Between nodes' key id := by
  induction h with
  | root h => exact .root (hid.trans h)
  | @inner id parent cs ks i hp hparent hi hlow hhigh _ ih =>
    obtain ⟨n, hn, rfl, rfl⟩ := NodeMap.internal_of_innerAt hparent
    have hs : (nodes parent).isSome := by rw [hn]; rfl
    have hmem : id ∈ nodes.kids parent := by
      rw [NodeMap.kids_of_some hn]
      exact List.mem_of_getElem? hi
    have hlevel := (hshape.kid parent id hmem).2
    -- all that `Between` looks at is above the node, and is the same there
    refine .inner (hid.trans hp) ((hinner parent hs (by omega)).trans hparent) hi hlow hhigh
      fun hfull h254 => ih hfull h254 (hpar parent hs (by omega)) (fun x hx hlx => ?_)
        fun x hx hlx => ?_
    · exact hpar x hx (by omega)
    · exact hinner x hx (by omega)

end Levels

/-! ## 3. The steps of InsertIntoParent

The levels after the call are described by `Settled`.  The induction is on `Links`; its cases with a
refusal do not arise here. -/

section Steps

variable {s s' : LinkState} {level : PageId → Nat} {left right : PageId} {key : KeyType}
  {linked : Bool} {l : Nat}

/-- **The children and keys of the nodes up to the level of the halves stay.** -/
theorem Links.innerAt_low (hlinks : Links s left key right s' linked) :
    ∀ {level : PageId → Nat} {l : Nat}, Situation s level l left right →
      ∀ x, (s.nodes x).isSome → level x ≤ level left →
        s'.nodes.innerAt x = s.nodes.innerAt x := by
  induction hlinks with
  | rootRefused hroot hr => exact fun _ _ _ _ => rfl
  | parentRefused hpar hne hr => exact fun _ _ _ _ => rfl
  | newParentRefused hpar hne hr hn hfull hr' => exact fun _ _ _ _ => rfl
  | @newRoot s left right id key hroot hr h0 hne hfresh =>
    intro level l h x hx _
    -- only the new root is written, which lies above every node
    obtain ⟨-, hstep⟩ := h.rootStep hroot h0 hne hfresh key
    refine (hstep.patched.innerAt x).trans ?_
    rw [innerAt_update_internal, if_neg (hstep.ne_id hx)]
  | @room s left right parent key n hpar hne hr hn hroom =>
    intro level l h x _ hlx
    -- only the parent is written, one level above the halves
    have hlevel := (h.splitting hpar hne hn).level_parent
    rw [nodes_setNode, innerAt_update_internal, if_neg (by rintro rfl; omega)]
    rfl
  | @split s s' left right parent id nextPageId key n linked hpar hne hr hn hfull hr' h0 hnew
      hfresh hrest ih =>
    intro level l h x hx hlx
    -- the parent and the new page are written now, the nodes above by the recursive call
    have hstep := h.splitStep hpar hne hn hfresh key
    have hlevel := hstep.level_parent
    have hxid := hstep.ne_of_isSome hx
    obtain ⟨l₂, -, hafter⟩ := h.afterSplit hpar hne hn hfull h0 hnew
      hfresh key
    rw [ih hafter x ?_ ?_, nodes_splitParent, hstep.innerAt_split, if_neg hxid,
      if_neg (by rintro rfl; omega)]
    · rw [nodes_splitParent]
      exact (hstep.isSome_split x).mpr (Or.inr hx)
    · rw [Function.update_of_ne hxid, Function.update_of_ne hstep.id_ne.symm]
      omega

/-- The split of the parent leaves what is above it. -/
theorem SplitStep.between_iff {nodes nodes₁ : NodeMap} {root parent id nextPageId : PageId}
    {n : InternalNode} (h : SplitStep nodes level root left right parent l n nodes₁ id key)
    (hfull : n.keys.length = 507) (h0 : id ≠ 0) (hne : id ≠ invalidPageId) (key' : KeyType) :
    Between (splitNodes nodes₁ parent id right nextPageId key n) key' parent ↔
      Between nodes key' parent := by
  have hlevel := h.level_parent
  have hparent : (splitNodes nodes₁ parent id right nextPageId key n).par parent
      = nodes.par parent := by
    rw [h.par_split, if_neg h.id_ne.symm, if_pos rfl]
  have hparL : Function.update level id (level parent) parent = level parent :=
    Function.update_of_ne h.id_ne.symm _ _
  -- a node above the parent is neither half, nor a child of one
  have hsame : ∀ x, x ≠ id → level parent < level x →
      (splitNodes nodes₁ parent id right nextPageId key n).par x = nodes.par x ∧
        (splitNodes nodes₁ parent id right nextPageId key n).innerAt x = nodes.innerAt x := by
    intro x hxid hlx
    constructor
    · refine h.par_split_of_not_mem hxid fun hmem => ?_
      have hx := (h.of_mem (List.mem_of_mem_drop hmem)).2.1
      omega
    · rw [h.innerAt_split, if_neg hxid, if_neg (by rintro rfl; omega)]
  constructor
  · intro hb
    refine hb.congr (h.shape_split hfull h0 hne) hparent.symm (fun x _ hlx => ?_) fun x _ hlx => ?_
    all_goals
      rw [hparL] at hlx
      have hxid : x ≠ id := by
        rintro rfl
        rw [Function.update_self] at hlx
        exact lt_irrefl _ hlx
      rw [Function.update_of_ne hxid] at hlx
    · exact (hsame x hxid hlx).1.symm
    · exact (hsame x hxid hlx).2.symm
  · intro hb
    refine hb.congr h.shape hparent (fun x hx hlx => ?_) fun x hx hlx => ?_
    · exact (hsame x (h.ne_of_isSome hx) hlx).1
    · exact (hsame x (h.ne_of_isSome hx) hlx).2

/-- **A node moves between the keys of its parent** exactly if the position that is searched for is
its own. -/
theorem Splitting.between_iff {nodes : NodeMap} {root parent : PageId} {n : InternalNode}
    (h : Splitting nodes level root left right parent l n) (hs : n.keys.Pairwise (· ≤ ·)) {i : Nat}
    (hi : n.children[i]? = some left) :
    Between nodes key left ↔ n.findChild key defaultKeyComparator = i ∧
      (n.keys.length = 507 → i = 254 → Between nodes key parent) := by
  have hinner : nodes.innerAt parent = some (n.children, n.keys) := innerAt_of_some h.node
  have hlt := (List.getElem?_eq_some_iff.mp hi).1
  have hle : i ≤ n.keys.length := by
    rw [h.fits.children] at hlt
    omega
  rw [InternalNode.findChild_eq_iff h.fits hs hle]
  constructor
  · intro hb
    cases hb with
    | root hroot => exact absurd (Option.some.inj (h.par.symm.trans hroot)) h.ne
    -- the parent is one, and so is the position: a child is listed once
    | @inner _ _ _ _ j hpar hparent hj hlow hhigh hup =>
      obtain rfl := Option.some.inj (h.par.symm.trans hpar)
      obtain ⟨rfl, rfl⟩ := Prod.mk.inj (Option.some.inj (hinner.symm.trans hparent))
      obtain rfl : i = j :=
        (List.getElem?_inj hlt (h.kids ▸ h.shape.nodup parent)).mp (hi.trans hj.symm)
      exact ⟨⟨hlow, hhigh⟩, hup⟩
  · rintro ⟨⟨hlow, hhigh⟩, hup⟩
    exact .inner h.par hinner hi hlow hhigh hup

/-- The left node has a position in its parent. -/
theorem Splitting.exists_index {nodes : NodeMap} {root parent : PageId} {n : InternalNode}
    (h : Splitting nodes level root left right parent l n) :
    ∃ i : Nat, n.children[i]? = some left := by
  have hmem := h.parents.left_mem_kids h.pending h.level_le h.par h.ne
  rw [h.kids] at hmem
  exact List.getElem?_of_mem hmem

/-- No child is listed twice. -/
theorem Splitting.eq_left_iff {nodes : NodeMap} {root parent x : PageId} {n : InternalNode}
    (h : Splitting nodes level root left right parent l n) {i j : Nat}
    (hi : n.children[i]? = some left) (hj : n.children[j]? = some x) : x = left ↔ j = i := by
  constructor
  · rintro rfl
    have hlt := (List.getElem?_eq_some_iff.mp hj).1
    exact (List.getElem?_inj hlt (h.kids ▸ h.shape.nodup parent)).mp (hj.trans hi.symm)
  · rintro rfl
    exact Option.some.inj (hj.symm.trans hi)

/-- The new child and key, at the position of the parent that is searched for. -/
theorem Splitting.getElem_with {nodes : NodeMap} {root parent : PageId} {n : InternalNode}
    (h : Splitting nodes level root left right parent l n) (key : KeyType) :
    ∃ x, n.children[n.findChild key defaultKeyComparator]? = some x ∧
      (n.childrenWith key right)[n.findChild key defaultKeyComparator]? = some x ∧
      (n.keysWith key)[n.findChild key defaultKeyComparator]? = some key ∧
      (n.childrenWith key right)[n.findChild key defaultKeyComparator + 1]? = some right := by
  have hfits := h.fits
  have hlt := InternalNode.findChild_lt hfits key defaultKeyComparator
  have hkeys := hfits.length ▸ n.findChild_le key defaultKeyComparator
  -- the child before the position stays where it was, the new ones come behind it
  refine ⟨_, List.getElem?_eq_getElem hlt, ?_, ?_, ?_⟩
  · rw [InternalNode.childrenWith, List.getElem?_insertIdx_of_lt (Nat.lt_succ_self _),
      List.getElem?_eq_getElem hlt]
  · rw [InternalNode.keysWith, List.getElem?_insertIdx_self, if_pos hkeys]
  · rw [InternalNode.childrenWith, List.getElem?_insertIdx_self, if_pos (Nat.succ_le_of_lt hlt)]

/-- The levels of the tree after `InsertIntoParent`. -/
structure Settled (s' : LinkState) (level' : PageId → Nat) (s : LinkState) (level : PageId → Nat)
    (l : Nat) : Prop where
  shape : Shape s'.nodes level' s'.root
  parents : Parents s'.nodes level' s'.root l none
  level_eq : ∀ x, (s.nodes x).isSome → level' x = level x

namespace Settled

variable {level' : PageId → Nat} {x q : PageId} {cs : List PageId} {ks : List KeyType}
  (h : Settled s' level' s level l)

include h

theorem layered : Layered s'.nodes.innerAt level' l := h.shape.layered h.parents

/-- Neighbours below one node. -/
theorem beside (i : Nat) (hq : s'.nodes.innerAt q = some (cs, ks)) (hl : l ≤ level' q)
    (hx : cs[i]? = some x) (hk : ks[i]? = some key) (hright : cs[i + 1]? = some right) :
    Beside s'.nodes.innerAt s'.root x key right := by
  obtain ⟨n, hn, -⟩ := internal_of_innerAt hq
  have hmem := h.shape.mem_order h.parents (show (s'.nodes q).isSome by rw [hn]; rfl) hl
  exact Beside.within hmem hq (h.layered.length q cs ks hq) hx hk hright

/-- A node beside an inner one is an inner one. -/
theorem exists_row {c : PageId} {k : KeyType} (hc : Beside s'.nodes.innerAt s'.root c k q)
    (hq : 0 < level' q) :
    ∃ cs ks y, s'.nodes.innerAt c = some (cs, ks) ∧ cs.getLast? = some y := by
  have hrank := h.layered.rank_eq_of_beside hc
  obtain ⟨d, hd⟩ := hc
  have hs := h.shape.isSome_of_mem h.parents (hd.subset List.mem_cons_self)
  -- the neighbour is on the same level, so it is not a leaf
  obtain ⟨n, hn⟩ := Option.isSome_iff_exists.mp hs
  cases n with
  | leaf n =>
    have hzero := h.shape.level_leaf c _ (leafAt_of_some hn)
    omega
  | internal n =>
    have hfits : n.Fits := h.shape.fits c _ hn
    have hne : n.children ≠ [] := List.ne_nil_of_length_eq_add_one hfits.children
    exact ⟨n.children, n.keys, _, innerAt_of_some hn, List.getLast?_eq_some_getLast hne⟩

end Settled

/-- The right half is on the level of the parent. -/
theorem SplitStep.level_half {nodes nodes₁ : NodeMap} {root parent id : PageId} {n : InternalNode}
    (h : SplitStep nodes level root left right parent l n nodes₁ id key)
    (hfull : n.keys.length = 507) {level' : PageId → Nat} {refusals : Refusals} {l' : Nat}
    (hend : Settled s' level' ⟨refusals, nodes, root⟩ level l')
    (hid : s'.nodes.innerAt id = some ((n.childrenWith key right).drop 255,
      (n.keysWith key).drop 255)) : level' id = level parent := by
  have hlen : (n.childrenWith key right).length = 509 := by
    rw [length_childrenWith h.fits, h.fits.children, hfull]
  -- the right half has a child from before the split, whose level is known
  obtain ⟨c, hc⟩ : ∃ c, c ∈ (n.childrenWith key right).drop 255 :=
    List.exists_mem_of_length_pos (by rw [List.length_drop]; omega)
  have hkid : c ∈ s'.nodes.kids id := by
    rw [kids_of_innerAt hid]
    exact hc
  obtain ⟨hs, hlc, -⟩ := h.of_mem (List.mem_of_mem_drop hc)
  have hlevel := (hend.shape.kid id c hkid).2
  have hold := hend.level_eq c hs
  have hparent := h.level_parent
  omega

section Halves

variable {nodes nodes₁ : NodeMap} {level' : PageId → Nat} {root parent id nextPageId : PageId}
  {n : InternalNode} {refusals : Refusals} {l' i : Nat}
  (h : SplitStep nodes level root left right parent l n nodes₁ id key)

include h

/-- The halves of a split parent keep their children and keys, if what follows leaves the nodes up
to their level alone. -/
theorem SplitStep.rows_of_low
    (hlow : ∀ x, (splitNodes nodes₁ parent id right nextPageId key n x).isSome →
      Function.update level id (level parent) x ≤ Function.update level id (level parent) parent →
      s'.nodes.innerAt x = (splitNodes nodes₁ parent id right nextPageId key n).innerAt x) :
    s'.nodes.innerAt parent
        = some ((n.childrenWith key right).take 255, (n.keysWith key).take 254) ∧
      s'.nodes.innerAt id
        = some ((n.childrenWith key right).drop 255, (n.keysWith key).drop 255) := by
  constructor
  · rw [hlow parent ((h.isSome_split parent).mpr (Or.inr (by rw [h.node]; rfl))) le_rfl,
      h.innerAt_split, if_neg h.id_ne.symm, if_pos rfl]
  · rw [hlow id ((h.isSome_split id).mpr (Or.inl rfl)) ?_, h.innerAt_split, if_pos rfl]
    rw [Function.update_self, Function.update_of_ne h.id_ne.symm]

/-- The keys above the halves are as before. -/
theorem SplitStep.sorted_above
    (hsorted : ∀ x cs ks, level left < level x → nodes.innerAt x = some (cs, ks) →
      ks.Pairwise (· ≤ ·)) (x : PageId) (cs : List PageId) (ks : List KeyType)
    (hlx : Function.update level id (level parent) parent
      < Function.update level id (level parent) x)
    (hx : (splitNodes nodes₁ parent id right nextPageId key n).innerAt x = some (cs, ks)) :
    ks.Pairwise (· ≤ ·) := by
  have hlevel := h.level_parent
  have hle := h.level_le
  rw [Function.update_of_ne h.id_ne.symm] at hlx
  have hxid : x ≠ id := by
    rintro rfl
    rw [Function.update_self] at hlx
    exact lt_irrefl _ hlx
  rw [Function.update_of_ne hxid] at hlx
  rw [h.innerAt_split, if_neg hxid, if_neg (by rintro rfl; exact lt_irrefl _ hlx)] at hx
  exact hsorted x cs ks (by omega) hx

/-- **The key moves up, between the halves.**  The node before the right one is then the last child
of the node before the right half.  It is the left node exactly if that is the left half, and the
left node was its last child. -/
theorem SplitStep.beside_across (hfull : n.keys.length = 507)
    (hend : Settled s' level' ⟨refusals, nodes, root⟩ level l') (hl : l' ≤ level left)
    (hparent : s'.nodes.innerAt parent
      = some ((n.childrenWith key right).take 255, (n.keysWith key).take 254))
    (hid : s'.nodes.innerAt id
      = some ((n.childrenWith key right).drop 255, (n.keysWith key).drop 255))
    (hi : n.children[i]? = some left) (hpos : n.findChild key defaultKeyComparator = 254)
    {c : PageId} (hc : Beside s'.nodes.innerAt s'.root c key id) :
    ∃ y, Beside s'.nodes.innerAt s'.root y key right ∧ (y = left ↔ 254 = i ∧ c = parent) := by
  have hlevel := h.level_parent
  have hlen : (n.childrenWith key right).length = 509 := by
    rw [length_childrenWith h.fits, h.fits.children, hfull]
  have hlevelid : level' id = level parent := h.level_half hfull hend hid
  obtain ⟨x, hx, hxw, -, hrw⟩ := h.getElem_with key
  rw [hpos] at hx hxw hrw
  obtain ⟨cs, ks, y, hcs, hlast⟩ := hend.exists_row hc (by omega)
  have hhead : ((n.childrenWith key right).drop 255).head? = some right := by
    rw [List.head?_drop, hrw]
  have hbeside := hc.across hcs hid (hend.layered.length c cs ks hcs) hlast hhead
  have hmiddle : cs = (n.childrenWith key right).take 255 → y = x := by
    rintro rfl
    rw [List.getLast?_eq_getElem?, List.length_take, hlen,
      List.getElem?_take_of_lt (by decide)] at hlast
    exact Option.some.inj (hlast.symm.trans hxw)
  have hx254 : x = left ↔ 254 = i := h.eq_left_iff hi hx
  refine ⟨y, hbeside, ?_⟩
  constructor
  · -- the left node is the last child of `c`, which is none but the left half
    rintro rfl
    have hyc : y ∈ LevelOrder.kids s'.nodes.innerAt c := by
      rw [kids_innerAt, kids_of_innerAt hcs]
      exact List.mem_of_getLast? hlast
    have hyw : y ∈ n.childrenWith key right :=
      (mem_childrenWith h.fits).mpr (Or.inr (List.mem_of_getElem? hi))
    have hly : l' ≤ level' y := by
      rw [hend.level_eq y h.pending.left_mem]
      exact hl
    rw [← List.take_append_drop 255 (n.childrenWith key right), List.mem_append] at hyw
    rcases hyw with hyw | hyw
    · have hyp : y ∈ LevelOrder.kids s'.nodes.innerAt parent := by
        rw [kids_innerAt, kids_of_innerAt hparent]
        exact hyw
      obtain rfl := hend.layered.unique c parent y hyc hyp hly
      obtain ⟨rfl, -⟩ := Prod.mk.inj (Option.some.inj (hcs.symm.trans hparent))
      exact ⟨hx254.mp (hmiddle rfl).symm, rfl⟩
    · have hyid : y ∈ LevelOrder.kids s'.nodes.innerAt id := by
        rw [kids_innerAt, kids_of_innerAt hid]
        exact hyw
      exact absurd (hend.layered.unique c id y hyc hyid hly)
        (hend.layered.ne_of_beside hc (by omega))
  · rintro ⟨hi254, rfl⟩
    obtain ⟨rfl, -⟩ := Prod.mk.inj (Option.some.inj (hcs.symm.trans hparent))
    exact (hmiddle rfl).trans (hx254.mpr hi254)

end Halves

/-- **The right node's neighbour** after `InsertIntoParent`.  It is the left node exactly if the key
moves between those of the parent. -/
theorem Links.beside (hlinks : Links s left key right s' linked) :
    ∀ {level level' : PageId → Nat} {l : Nat}, Situation s level l left right → s.Clear →
      (∀ x cs ks, level left < level x → s.nodes.innerAt x = some (cs, ks) →
        ks.Pairwise (· ≤ ·)) →
      Settled s' level' s level l →
      ∃ x, Beside s'.nodes.innerAt s'.root x key right ∧
        (x = left ↔ Between s.nodes key left) := by
  induction hlinks with
  | rootRefused hroot hr =>
    -- a refusal does not arise here
    intro level level' l h hc
    exact absurd hr (by rw [hc.refused]; decide)
  | parentRefused hpar hne hr =>
    intro level level' l h hc
    exact absurd hr (by rw [hc.refused]; decide)
  | newParentRefused hpar hne hr hn hfull hr' =>
    intro level level' l h hc
    exact absurd hr' (by rw [hc.next.refused]; decide)
  | @newRoot s left right id key hroot hr h0 hne hfresh =>
    intro level level' l h hc hsorted hend
    obtain ⟨rfl, hstep⟩ := h.rootStep hroot h0 hne hfresh key
    have hinner : NodeMap.innerAt (((s.next.setNode id
        (.internal (.newRoot s.root key right))).patch id s.root).patch id right).nodes id
          = some ([s.root, right], [key]) := by
      refine (hstep.patched.innerAt id).trans ?_
      rw [innerAt_update_internal, if_pos rfl]
      rfl
    -- the two nodes are the only children of the new root
    refine ⟨s.root, ?_, iff_of_true rfl (.root hroot)⟩
    exact Beside.within (i := 0) (d := 0) (List.mem_singleton_self _) hinner rfl rfl rfl rfl
  | @room s left right parent key n hpar hne hr hn hroom =>
    intro level level' l h hc hsorted hend
    have hstep := h.splitting hpar hne hn
    have hlevel := hstep.level_parent
    have hlevel_le := h.level_le
    have hs : (s.nodes parent).isSome := by rw [hn]; rfl
    -- the new child comes behind the child at the position that is searched for
    obtain ⟨x, hx, hxw, hkw, hrw⟩ := hstep.getElem_with key
    have hinner : NodeMap.innerAt (s.next.setNode parent (.internal
        (n.insertAfter (n.findChild key defaultKeyComparator) key right))).nodes parent
          = some (n.childrenWith key right, n.keysWith key) := by
      rw [nodes_setNode, innerAt_update_internal, if_pos rfl]
      rfl
    obtain ⟨i, hi⟩ := hstep.exists_index
    refine ⟨x, hend.beside _ hinner (by rw [hend.level_eq parent hs]; omega) hxw hkw hrw, ?_⟩
    rw [hstep.between_iff (hsorted parent _ _ (by omega) (innerAt_of_some hn)) hi,
      hstep.eq_left_iff hi hx]
    exact ⟨fun hpos => ⟨hpos, fun hfull => absurd hfull hroom.ne⟩, fun hpos => hpos.1⟩
  | @split s s' left right parent id nextPageId key n linked hpar hne hr hn hfull hr' h0 hnew
      hfresh hrest ih =>
    intro level level' l h hc hsorted hend
    have hstep := h.splitStep hpar hne hn hfresh key
    have hlevel := hstep.level_parent
    have hlevel_le := h.level_le
    obtain ⟨l₂, hl₂, hafter⟩ := h.afterSplit hpar hne hn hfull h0 hnew hfresh key
    obtain rfl := hl₂ hc
    -- the halves keep their children and keys to the end
    obtain ⟨hparent, hid⟩ := hstep.rows_of_low (hrest.innerAt_low hafter)
    have hend₁ : Settled s' level' (s.splitParent parent id right nextPageId key n)
        (Function.update level id (level parent)) l₂ := by
      refine ⟨hend.shape, hend.parents, fun x hx => ?_⟩
      rcases (hstep.isSome_split x).mp hx with rfl | hx
      · rw [Function.update_self]
        exact hstep.level_half hfull hend hid
      · rw [Function.update_of_ne (hstep.ne_of_isSome hx)]
        exact hend.level_eq x hx
    have hlevelp : level' parent = level parent := hend.level_eq parent (by rw [hn]; rfl)
    have hlevelid : level' id = level parent := hstep.level_half hfull hend hid
    obtain ⟨i, hi⟩ := hstep.exists_index
    obtain ⟨x, hx, hxw, hkw, hrw⟩ := hstep.getElem_with key
    have hiff : Between s.nodes key left ↔ _ :=
      hstep.toSplitting.between_iff (hsorted parent _ _ (by omega) (innerAt_of_some hn)) hi
    rcases lt_trichotomy (n.findChild key defaultKeyComparator) 254 with hpos | hpos | hpos
    · -- both are in the left half
      refine ⟨x, hend.beside (n.findChild key defaultKeyComparator) hparent (by omega) ?_ ?_ ?_,
        ?_⟩
      · rw [List.getElem?_take_of_lt (by omega), hxw]
      · rw [List.getElem?_take_of_lt hpos, hkw]
      · rw [List.getElem?_take_of_lt (by omega), hrw]
      · rw [hiff, hstep.eq_left_iff hi hx]
        exact ⟨fun he => ⟨he, fun _ h254 => by omega⟩, fun he => he.1⟩
    · -- the key moves up, between the halves
      have hkey : (n.keysWith key).getD 254 0 = key := by
        rw [List.getD_eq_getElem?_getD, ← hpos, hkw]
        rfl
      rw [hkey] at ih
      obtain ⟨c, hc', hiff₁⟩ := ih hafter (fun b hb => hc.next.next.patches b hb)
        (hstep.sorted_above hsorted) hend₁
      rw [nodes_splitParent, hstep.between_iff hfull h0 hnew] at hiff₁
      obtain ⟨y, hbeside, hleft⟩ := hstep.beside_across hfull hend hlevel_le hparent hid hi hpos hc'
      refine ⟨y, hbeside, hleft.trans ?_⟩
      rw [hiff, hpos]
      constructor
      · rintro ⟨hi254, hcp⟩
        exact ⟨hi254, fun _ _ => hiff₁.mp hcp⟩
      · rintro ⟨hi254, hup⟩
        exact ⟨hi254, hiff₁.mpr (hup hfull hi254.symm)⟩
    · -- both are in the right half
      obtain ⟨j, hj⟩ : ∃ j, n.findChild key defaultKeyComparator = 255 + j :=
        Nat.exists_eq_add_of_le hpos
      refine ⟨x, hend.beside j hid (by omega) ?_ ?_ ?_, ?_⟩
      · rw [List.getElem?_drop, ← hj, hxw]
      · rw [List.getElem?_drop, ← hj, hkw]
      · rw [List.getElem?_drop, ← Nat.add_assoc, ← hj, hrw]
      · rw [hiff, hstep.eq_left_iff hi hx]
        exact ⟨fun he => ⟨he, fun _ h254 => by omega⟩, fun he => he.1⟩

end Steps

/-! ## 4. In the buffer pool

The nodes are now those on the pages (`nodesOn`), before the call and after it. -/

/-- The nodes on pages. -/
def nodesOn (pages : PageId → Option Page) : NodeMap := fun id => (pages id).map BTreeNode.ofPage

section Pool

variable {nodes : NodeMap} {level : PageId → Nat} {root left right parent : PageId} {l i : Nat}
  {key : KeyType} {cs : List PageId} {ks : List KeyType} {fuel : Nat}

/-- The levels can be read off the pages. -/
theorem order_nodesOn {m : PageId → Option Page} (h : Holds m nodes)
    (hshape : Shape nodes level root) (hparents : Parents nodes level root l none) :
    order (nodesOn m).innerAt root = order nodes.innerAt root := by
  refine order_congr fun d id hid => ?_
  obtain ⟨n, hn⟩ := Option.isSome_iff_exists.mp (hshape.isSome_of_mem hparents hid)
  obtain ⟨p, hp, hstores⟩ := h id n hn
  have hon : nodesOn m id = nodes id := by
    rw [nodesOn, hp, Option.map_some, hstores.node, hn]
  rw [innerAt, innerAt, hon]

/-- **Where the right node is put**, when no request is refused. -/
theorem PoolM.wpr_insertIntoParent_beside {mode : PoolMode} {v : View} {n p limit : Nat}
    (h : Ready v nodes level root left right)
    (hsorted : ∀ x cs ks, level left < level x → nodes.innerAt x = some (cs, ks) →
      ks.Pairwise (· ≤ ·))
    (hfuel : level root < level left + fuel) (hmode : mode.Allows n limit) (hv : v.frames = n)
    (hw : v.Within p) (hp : p + fuel ≤ limit) :
    wpr mode (BPlusTree.insertIntoParent fuel ⟨root, defaultKeyComparator⟩ left key right)
      (fun r s => ∃ t, r = some t ∧
        (Beside (nodesOn s.2.pages).innerAt t.rootPageId left key right ↔ Between nodes key left))
      ([], v) := by
  refine @wpr_insertIntoParent mode n limit fuel ⟨[], nodes, root⟩ v level left right key p _ h
    hfuel hmode hv hw hp fun s' linked v' hlinks hmoves _ => ?_
  have hsit : Situation ⟨[], nodes, root⟩ level (level left) left right :=
    ⟨h.shape, h.parents, h.pending, Nat.le_refl _⟩
  have hclear : LinkState.Clear ⟨[], nodes, root⟩ := fun b hb => absurd hb List.not_mem_nil
  obtain ⟨level', hlevel', -, hshape', hparents'⟩ := hlinks.preserves hsit
  have hend : Settled s' level' ⟨[], nodes, root⟩ level (level left) :=
    ⟨hshape', (hparents' hclear).2, hlevel'⟩
  -- the neighbour the induction found is the only one, as neighbours on a level are unique
  obtain ⟨x, hx, hiff⟩ := hlinks.beside hsit hclear hsorted hend
  have hlr : level left ≤ level' right := by
    rw [hlevel' right h.pending.right_mem, h.pending.level_eq]
  refine ⟨_, rfl, ?_⟩
  rw [← hiff, Beside, order_nodesOn hmoves.pages.holds hend.shape hend.parents]
  constructor
  · exact fun hbeside => hend.layered.left_unique hx hbeside hlr
  · rintro rfl
    exact hx

/-- **Where the right node is put.**  Child `i` of the parent was split.  Afterwards the right node
follows it on its level, with the split key between them, exactly if the key behind child `i` is
greater than the split key, and, where the parent is full and the split key moves up, that holds of
the parent too. -/
theorem insertIntoParent_beside_iff {b : BufferPoolManager} {v : View} (hb : b.Shows v)
    (h : Ready v nodes level root left right)
    (hsorted : ∀ x cs ks, level left < level x → nodes.innerAt x = some (cs, ks) →
      ks.Pairwise (· ≤ ·))
    (hpar : nodes.par left = some parent) (hparent : nodes.innerAt parent = some (cs, ks))
    (hi : cs[i]? = some left) (hlow : ∀ k, 0 < i → ks[i - 1]? = some k → k ≤ key)
    (hfuel : level root < level left + fuel)
    (hok : (BPlusTree.insertIntoParent fuel ⟨root, defaultKeyComparator⟩ left key right).CallsOk
      BufferPoolManager.handle BufferPoolManager.Succeeds b) :
    let r := (BPlusTree.insertIntoParent fuel ⟨root, defaultKeyComparator⟩ left key right).exec b
    ∃ t v', r.1 = some t ∧ r.2.Shows v' ∧
      (Beside (nodesOn v'.pages).innerAt t.rootPageId left key right ↔
        (∀ k, ks[i]? = some k → key < k) ∧
          (ks.length = 507 → i = 254 → Between nodes key parent)) := by
  intro r
  obtain ⟨p, hw⟩ := v.exists_within
  have hwp : PoolM.wp .succeeds _ (fun r v' => ∃ t : BPlusTree, r = some t ∧
      (Beside (nodesOn v'.pages).innerAt t.rootPageId left key right ↔ Between nodes key left)) v :=
    PoolM.wp_of_refusing (PoolM.wpr_insertIntoParent_beside h hsorted hfuel
      PoolMode.allows_succeeds rfl hw le_rfl)
  obtain ⟨v', ⟨t, hres, hiff⟩, hshows⟩ := hb.exec_succeeds hok hwp
  refine ⟨t, v', hres, hshows, hiff.trans ⟨fun hbetween => ?_, fun hcond => ?_⟩⟩
  · -- the page of the parent and the position of the child are those of the statement
    cases hbetween with
    | root hroot =>
      obtain ⟨n, hn, -⟩ := internal_of_innerAt hparent
      have hne := (h.shape.ids parent (by rw [hn]; rfl)).2
      exact absurd (Option.some.inj (hpar.symm.trans hroot)) hne
    | @inner _ _ _ _ j hpar' hparent' hj _ hhigh hup =>
      obtain rfl := Option.some.inj (hpar.symm.trans hpar')
      obtain ⟨rfl, rfl⟩ := Prod.mk.inj (Option.some.inj (hparent.symm.trans hparent'))
      have hlt := (List.getElem?_eq_some_iff.mp hi).1
      have hnodup := kids_of_innerAt hparent ▸ h.shape.nodup parent
      obtain rfl : i = j := (List.getElem?_inj hlt hnodup).mp (hi.trans hj.symm)
      exact ⟨hhigh, hup⟩
  · exact .inner hpar hparent hi hlow hcond.1 hcond.2

end Pool

/-! ### A parent with one key -/

/-- The pages of a file that holds the nodes. -/
def pagesOf (nodes : NodeMap) : PageId → Option Page := fun id =>
  (nodes id).map fun n => n.serializeToPage (Page.ofId id)

theorem holds_pagesOf {nodes : NodeMap} (hfits : ∀ id n, nodes id = some n → n.Fits) :
    Holds (pagesOf nodes) nodes := by
  intro id n hn
  refine ⟨_, by rw [pagesOf, hn, Option.map_some], ?_⟩
  exact BTreeNode.stores_serializeToPage ⟨rfl, rfl⟩ (hfits id n hn)

/-- A file with `pageCount` pages that hold the nodes. -/
def fileOf (nodes : NodeMap) (pageCount : UInt32) : DiskManager where
  header := { pageCount := pageCount }
  file id := DiskManager.zeroImage.fill pageSize
    (((pagesOf nodes id).getD (Page.ofId id)).serializeToBuffer.data)

theorem idle_fileOf {nodes : NodeMap} {pageCount : UInt32} {n : Nat} (hn : 0 < n)
    (hcount : 0 < pageCount) (hfits : ∀ id n, nodes id = some n → n.Fits)
    (hdom : ∀ id, (nodes id).isSome ↔ id ≠ 0 ∧ id < pageCount) :
    (BufferPoolManager.create n (fileOf nodes pageCount)).Idle (pagesOf nodes) := by
  -- a page of the file is in use exactly if it holds a node
  have hsome : ∀ id, (pagesOf nodes id).isSome = (nodes id).isSome := fun id => by
    rw [pagesOf, Option.isSome_map]
  refine BufferPoolManager.idle_create hn ⟨rfl, hcount⟩ (fun id q hq => ?_) fun id h0 hlt => ?_
  · have hid := (hdom id).mp (by rw [← hsome, hq]; rfl)
    obtain ⟨m, hm⟩ := Option.isSome_iff_exists.mp ((hdom id).mpr hid)
    obtain ⟨q', hq', hstores⟩ := holds_pagesOf hfits id m hm
    obtain rfl := Option.some.inj (hq.symm.trans hq')
    refine ⟨hstores.bare.directoryFits, hid.1, hid.2, ?_⟩
    simp only [fileOf, hq, Option.getD_some]
    exact storedIn_fill_serialize _ (.refl q) hstores.bare.directoryFits
  · rw [hsome]
    exact (hdom id).mpr ⟨h0, hlt⟩

/-- A root with two leaves, the first of which was split at `key`. -/
def threeLeaves (key : KeyType) : NodeMap := fun id =>
  if id = 1 then some (.internal (.newRoot 2 5 3))
  else if id = 2 then some (.leaf ⟨⟨.leafNode, 1, 1, 4⟩, [(3, ⟨1, 0⟩)]⟩)
  else if id = 3 then some (.leaf ⟨⟨.leafNode, 1, 1, invalidPageId⟩, [(5, ⟨1, 1⟩)]⟩)
  else if id = 4 then some (.leaf ⟨⟨.leafNode, 1, 1, 3⟩, [(key, ⟨1, 2⟩)]⟩)
  else none

section ThreeLeaves

variable (key : KeyType)

theorem kids_threeLeaves (id : PageId) :
    (threeLeaves key).kids id = if id = 1 then [2, 3] else [] := by
  unfold NodeMap.kids threeLeaves
  split_ifs <;> rfl

theorem par_threeLeaves (id : PageId) : (threeLeaves key).par id =
    if id = 1 then some invalidPageId else if id = 2 ∨ id = 3 ∨ id = 4 then some 1 else none := by
  unfold par threeLeaves
  split_ifs <;> simp_all [BTreeNode.header, InternalNode.newRoot]

theorem innerAt_threeLeaves (id : PageId) :
    (threeLeaves key).innerAt id = if id = 1 then some ([2, 3], [5]) else none := by
  unfold innerAt threeLeaves
  split_ifs <;> rfl

theorem isSome_threeLeaves (id : PageId) :
    (threeLeaves key id).isSome ↔ id ≠ 0 ∧ id < 5 := by
  unfold threeLeaves
  split_ifs with h1 h2 h3 h4
  · exact iff_of_true rfl (h1 ▸ by decide)
  · exact iff_of_true rfl (h2 ▸ by decide)
  · exact iff_of_true rfl (h3 ▸ by decide)
  · exact iff_of_true rfl (h4 ▸ by decide)
  · refine iff_of_false Bool.false_ne_true ?_
    rintro ⟨h0, hlt⟩
    have hne : ∀ k : UInt32, id ≠ k → id.toNat ≠ k.toNat := fun k h he => h (UInt32.toNat_inj.mp he)
    have hlt' : id.toNat < 5 := UInt32.lt_iff_toNat_lt.mp hlt
    have h0' : id.toNat ≠ 0 := hne 0 h0
    have h1' : id.toNat ≠ 1 := hne 1 h1
    have h2' : id.toNat ≠ 2 := hne 2 h2
    have h3' : id.toNat ≠ 3 := hne 3 h3
    have h4' : id.toNat ≠ 4 := hne 4 h4
    omega

theorem fits_threeLeaves (id : PageId) (n : BTreeNode) (hn : threeLeaves key id = some n) :
    n.Fits := by
  unfold threeLeaves at hn
  split_ifs at hn <;> cases hn
  · exact ⟨rfl, rfl, rfl, by decide, by decide⟩
  all_goals exact ⟨rfl, rfl, Nat.le_add_right 1 405⟩

/-- The root is above the leaves. -/
def threeLevels : PageId → Nat := fun id => if id = 1 then 1 else 0

theorem ready_threeLeaves : Ready ((View.quiet 8 (pagesOf (threeLeaves key))).pin 2)
    (threeLeaves key) threeLevels 1 2 4 := by
  refine ⟨?_, ?_, ?_, holds_pagesOf (fits_threeLeaves key), Nat.one_pos, ?_, ?_, ?_⟩
  · -- the shape: one root over leaves
    refine ⟨rfl, fun id hid => ?_, fits_threeLeaves key, ?_, ?_, ?_, ?_, ?_⟩
    · obtain ⟨h0, hlt⟩ := (isSome_threeLeaves key id).mp hid
      exact ⟨h0, by rintro rfl; exact absurd hlt (by decide)⟩
    · intro id es h
      by_cases h1 : id = 1
      · rw [h1] at h
        exact absurd h (by simp [leafAt, threeLeaves])
      · exact if_neg h1
    · intro id cs h
      rw [innerAt_threeLeaves] at h
      split_ifs at h with h1
      exact h1 ▸ Nat.one_pos
    · intro id c hc
      rw [kids_threeLeaves] at hc
      split_ifs at hc with h1
      · rcases List.mem_pair.mp hc with rfl | rfl
        · exact ⟨rfl, h1 ▸ rfl⟩
        · exact ⟨rfl, h1 ▸ rfl⟩
      · exact absurd hc List.not_mem_nil
    · intro id _
      change (if id = 1 then 1 else 0) ≤ 1
      split_ifs
      · exact le_rfl
      · exact Nat.zero_le 1
    · intro id
      rw [kids_threeLeaves]
      split_ifs <;> decide
  · -- the parent pointers, but that of the right leaf, which is not linked yet
    refine ⟨rfl, ?_, ?_⟩
    · intro c q hc _ hroot hright
      rw [par_threeLeaves, if_neg hroot] at hc
      split_ifs at hc with h
      obtain rfl := Option.some.inj hc
      rw [kids_threeLeaves, if_pos rfl]
      rcases h with rfl | rfl | rfl
      · decide
      · decide
      · exact absurd rfl hright
    · intro id c hc _
      rw [kids_threeLeaves] at hc
      split_ifs at hc with h1
      · rcases List.mem_pair.mp hc with rfl | rfl
        · exact h1 ▸ rfl
        · exact h1 ▸ rfl
      · exact absurd hc List.not_mem_nil
  · -- the two leaves that are to be linked
    refine ⟨rfl, rfl, rfl, fun id hid => ?_, by decide, by decide⟩
    rw [kids_threeLeaves] at hid
    split_ifs at hid
    · exact absurd hid (by decide)
    · exact absurd hid List.not_mem_nil
  · intro id
    simp only [View.pin, View.quiet, Function.update_apply]
    split_ifs
    · exact le_rfl
    · exact Nat.zero_le 1
  · intro id h
    exact absurd h Bool.false_ne_true
  · intro id _ hlevel
    refine Function.update_of_ne ?_ _ _
    rintro rfl
    exact lt_irrefl _ hlevel

theorem shows_threeLeaves : ((BufferPoolManager.create 8 (fileOf (threeLeaves key) 5)).fetchPage
    2).2.Shows ((View.quiet 8 (pagesOf (threeLeaves key))).pin 2) := by
  have hidle := idle_fileOf (by decide : 0 < 8) (by decide : (0 : UInt32) < 5)
    (fits_threeLeaves key) (isSome_threeLeaves key)
  obtain ⟨f, -, hshows⟩ := @BufferPoolManager.Idle.fetchPage _ _ hidle 2 rfl
  exact hshows

theorem sorted_threeLeaves (x : PageId) (cs : List PageId) (ks : List KeyType)
    (h : (threeLeaves key).innerAt x = some (cs, ks)) : ks.Pairwise (· ≤ ·) := by
  rw [innerAt_threeLeaves] at h
  split_ifs at h
  obtain ⟨-, rfl⟩ := Prod.mk.inj (Option.some.inj h)
  exact List.pairwise_singleton _ _

theorem within_threeLeaves : ((View.quiet 8 (pagesOf (threeLeaves key))).pin 2).Within 4 := by
  refine ⟨[1, 2, 3, 4], le_rfl, fun id hid => ⟨?_, Function.update_of_ne ?_ _ _⟩⟩
  · have hnone : threeLeaves key id = none := by
      simp only [List.mem_cons, List.not_mem_nil, not_or] at hid
      obtain ⟨h1, h2, h3, h4, -⟩ := hid
      rw [threeLeaves, if_neg h1, if_neg h2, if_neg h3, if_neg h4]
    change pagesOf (threeLeaves key) id = none
    rw [pagesOf, hnone, Option.map_none]
  · rintro rfl
    exact hid (by decide)

/-- The call on this tree, with frames for all of its pages. -/
theorem insertIntoParent_threeLeaves :
    let b := ((BufferPoolManager.create 8 (fileOf (threeLeaves key) 5)).fetchPage 2).2
    let m := BPlusTree.insertIntoParent 2 ⟨1, defaultKeyComparator⟩ 2 key 4
    m.CallsOk BufferPoolManager.handle BufferPoolManager.Succeeds b ∧
      ∃ v' t, (m.exec b).2.Shows v' ∧ (m.exec b).1 = some t ∧
        (Beside (nodesOn v'.pages).innerAt t.rootPageId 2 key 4 ↔
          Between (threeLeaves key) key 2) := by
  intro b m
  have hwp : m.wp .safe (fun r v' => ∃ t : BPlusTree, r = some t ∧
      (Beside (nodesOn v'.pages).innerAt t.rootPageId 2 key 4 ↔ Between (threeLeaves key) key 2))
      ((View.quiet 8 (pagesOf (threeLeaves key))).pin 2) :=
    PoolM.wp_of_refusing (PoolM.wpr_insertIntoParent_beside (ready_threeLeaves key)
      (fun x cs ks _ => sorted_threeLeaves key x cs ks) (by decide)
      (PoolMode.allows_safe (by decide : 6 < 8) (by decide)) rfl (within_threeLeaves key) le_rfl)
  obtain ⟨hok, v', ⟨t, hres, hiff⟩, hshows⟩ := (shows_threeLeaves key).exec_safe hwp
  exact ⟨hok, v', t, hshows, hres, hiff⟩

end ThreeLeaves

theorem insertIntoParent_beside_threeLeaves :
    let b := ((BufferPoolManager.create 8 (fileOf (threeLeaves 4) 5)).fetchPage 2).2
    let r := (BPlusTree.insertIntoParent 2 ⟨1, defaultKeyComparator⟩ 2 4 4).exec b
    ∃ t v', r.1 = some t ∧ r.2.Shows v' ∧
      Beside (nodesOn v'.pages).innerAt t.rootPageId 2 4 4 := by
  intro b r
  obtain ⟨t, v', hres, hshows, hiff⟩ := @insertIntoParent_beside_iff _ _ 1 2 4 1 0 4 [2, 3] [5] 2
    _ _ (shows_threeLeaves 4) (ready_threeLeaves 4)
    (fun x cs ks _ => sorted_threeLeaves 4 x cs ks) rfl rfl rfl (fun k h0 => absurd h0 (by decide))
    (by decide) (insertIntoParent_threeLeaves 4).1
  refine ⟨t, v', hres, hshows, hiff.mpr ⟨fun k hk => ?_, fun h => absurd h (by decide)⟩⟩
  obtain rfl := Option.some.inj hk
  decide

/-- The key is `5`, that of the parent: the right node goes behind the third leaf. -/
theorem insertIntoParent_not_beside :
    let b := ((BufferPoolManager.create 8 (fileOf (threeLeaves 5) 5)).fetchPage 2).2
    let r := (BPlusTree.insertIntoParent 2 ⟨1, defaultKeyComparator⟩ 2 5 4).exec b
    (threeLeaves 5).par 2 = some 1 ∧ (threeLeaves 5).innerAt 1 = some ([2, 3], [5]) ∧
      ∃ v' t, r.2.Shows v' ∧ r.1 = some t ∧
        ¬ Beside (nodesOn v'.pages).innerAt t.rootPageId 2 5 4 := by
  intro b r
  obtain ⟨-, v', t, hshows, hres, hiff⟩ := insertIntoParent_threeLeaves 5
  refine ⟨rfl, rfl, v', t, hshows, hres, fun hbeside => ?_⟩
  cases hiff.mp hbeside with
  | root hroot => exact absurd hroot (by decide)
  | @inner _ _ _ _ i hpar hparent hi _ hhigh _ =>
    obtain rfl := Option.some.inj hpar
    obtain ⟨rfl, rfl⟩ := Prod.mk.inj (Option.some.inj hparent)
    have hi0 : [(2 : PageId), 3][0]? = [(2 : PageId), 3][i]? := hi.symm
    obtain rfl : 0 = i := (List.getElem?_inj (by decide) (by decide)).mp hi0
    exact absurd (hhigh 5 rfl) (by decide)

end CourtDB
