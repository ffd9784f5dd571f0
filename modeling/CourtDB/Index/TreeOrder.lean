/-
# The order of a tree

Every node of a search tree is responsible for a range of keys, from `lo` up to `hi`.  The children
of an internal node divide its range at its keys, and the entries of a leaf lie in its range
(`Ordered`).  The ranges are not stored anywhere; they are what makes the descent find a key.  As
`FindChild` goes to the right of an equal key, a range has its lower end and not its upper one.

While a split is under way the left node has only the part of its range up to the split key, where
it now stops, and the right node, which nobody knows yet, has the rest (`Cut`).  So there are two
upper ends: `stop`, where the keys in the node end, and `hi`, where its parent takes its range to
end.  In a tree without a split under way they are the same everywhere.

`InsertIntoParent` mends a cut.  If the parent has room it takes the split key between the two nodes
and the range of the left one ends there.  If the parent is full it is split too, and the cut moves
up to its halves, at the middle key.  When a refused request makes it give up, some node stays cut,
and the keys past the cut are out of reach.  `Links.ordered` says which of the two it was: the call
answered that it linked the right node, or there is a node that is cut.
-/
import CourtDB.Index.TreeSearch

namespace CourtDB

open InternalNode

variable {nodes nodes' : NodeMap} {level : PageId → Nat} {root left right parent id : PageId}
  {l : Nat} {key : KeyType} {n : InternalNode} {lo hi stop : PageId → Nat}

/-- **The order of a tree**: a node has the keys from `lo` on that are before `stop`, of a range
that ends at `hi`. -/
structure Ordered (nodes : NodeMap) (lo hi stop : PageId → Nat) (root : PageId) : Prop where
  inner : ∀ id cs ks, nodes.innerAt id = some (cs, ks) → Divides cs ks lo hi (lo id) (stop id)
  leaf : ∀ id nx es, nodes.leafAt id = some (nx, es) →
    ∀ e ∈ es, lo id ≤ e.1.toNat ∧ e.1.toNat < stop id
  lt : ∀ id, (nodes id).isSome → lo id < stop id
  le : ∀ id, (nodes id).isSome → stop id ≤ hi id
  root_lo : lo root = 0
  root_hi : hi root = 2 ^ 32

/-- The right node took over the end of the left one's range. -/
structure Cut (nodes : NodeMap) (lo hi stop : PageId → Nat) (left right : PageId) : Prop where
  left_stop : stop left = lo right
  right_hi : hi right = hi left
  right_stop : stop right = hi left
  other : ∀ x, (nodes x).isSome → x ≠ left → stop x = hi x

/-! ## 1. The parent takes the right node

Here the order of the keys meets `FindChild`: the position it finds for the split key is behind the
left node, because the key lies in the left node's range and in no other child's. -/

namespace Splitting

variable (h : Splitting nodes level root left right parent l n)
  (ho : Ordered nodes lo hi stop root) (hc : Cut nodes lo hi stop left right)

include h

theorem innerAt_parent : nodes.innerAt parent = some (n.children, n.keys) :=
  NodeMap.innerAt_of_some h.node

theorem left_mem : left ∈ n.children :=
  h.kids ▸ h.parents.left_mem_kids h.pending h.level_le h.par h.ne

theorem root_ne : root ≠ left := by
  rintro rfl
  exact h.ne (Option.some.inj (h.par.symm.trans h.parents.root_par))

theorem right_isSome : (nodes right).isSome := by
  have hpar := h.pending.par_eq.trans h.par
  cases hn : nodes right with
  | some m => rfl
  | none =>
    rw [NodeMap.par, hn] at hpar
    exact absurd hpar (by simp)

include ho hc

/-- The children of the parent with the new one divide its range. -/
theorem divides_with (hkey : lo right = key.toNat) :
    Divides (n.childrenWith key right) (n.keysWith key) lo stop (lo parent) (stop parent) := by
  have hleft := ho.lt left h.pending.left_mem
  have hright := ho.lt right h.right_isSome
  rw [hc.left_stop, hkey] at hleft
  rw [hkey, hc.right_stop] at hright
  refine (ho.inner parent _ _ h.innerAt_parent).insert h.fits h.left_mem ⟨hleft, hright⟩ hkey
    (fun c hcm hne => hc.other c ?_ hne) (hc.left_stop.trans hkey) hc.right_stop
    (h.kids ▸ h.shape.nodup parent)
  exact (h.shape.kid parent c (h.kids.symm ▸ hcm)).1

/-- Nothing changes for other nodes. -/
theorem divides_other {x : PageId} {cs : List PageId} {ks : List KeyType} (hx : x ≠ parent)
    (hin : nodes.innerAt x = some (cs, ks)) : Divides cs ks lo stop (lo x) (stop x) := by
  refine (ho.inner x cs ks hin).congr (fun _ _ => rfl) fun c hcm => ?_
  have hk : c ∈ nodes.kids x := (NodeMap.kids_of_innerAt hin).symm ▸ hcm
  refine hc.other c (h.shape.kid x c hk).1 ?_
  rintro rfl
  have hnot : c ∉ n.childrenWith 0 right := h.not_mem_of_kid hx hk h.level_le
  exact hnot ((mem_childrenWith h.fits).mpr (Or.inr h.left_mem))

theorem ordered_room (hkey : lo right = key.toNat) :
    Ordered (Function.update nodes parent (some (.internal
      (n.insertAfter (n.findChild key defaultKeyComparator) key right)))) lo stop stop root := by
  have hsome : ∀ x, (Function.update nodes parent (some (.internal
      (n.insertAfter (n.findChild key defaultKeyComparator) key right))) x).isSome →
        (nodes x).isSome := by
    intro x hx
    by_cases hxp : x = parent
    · rw [hxp, h.node]
      rfl
    · rwa [Function.update_of_ne hxp] at hx
  have hleaf : nodes.leafAt parent = none := by rw [NodeMap.leafAt, h.node]
  refine ⟨fun x cs ks hx => ?_, fun x nx es hx => ?_, fun x hx => ho.lt x (hsome x hx),
    fun _ _ => le_rfl, ho.root_lo, ?_⟩
  · rw [NodeMap.innerAt_update_internal] at hx
    split at hx
    · rename_i hxp
      obtain ⟨rfl, rfl⟩ := Prod.mk.inj (Option.some.inj hx)
      rw [hxp]
      exact h.divides_with ho hc hkey
    · rename_i hxp
      exact h.divides_other ho hc hxp hx
  · rw [NodeMap.leafAt_update_internal _ _ _ hleaf] at hx
    exact ho.leaf x nx es hx
  · rw [hc.other root h.shape.root_mem h.root_ne]
    exact ho.root_hi

end Splitting

/-! ## 2. The parent is split

The children with the new one divide the parent's range; cut at the middle key they divide the two
parts of it. -/

namespace SplitStep

variable {nodes₁ : NodeMap} {nextPageId : PageId}
  (h : SplitStep nodes level root left right parent l n nodes₁ id key)

include h

theorem innerAt_split (x : PageId) :
    (splitNodes nodes₁ parent id right nextPageId key n).innerAt x
      = if x = id then some ((n.childrenWith key right).drop 255, (n.keysWith key).drop 255)
        else if x = parent then some ((n.childrenWith key right).take 255,
          (n.keysWith key).take 254)
        else nodes.innerAt x := by
  rw [splitNodes, NodeMap.innerAt_update_internal, NodeMap.innerAt_update_internal,
    h.patched.innerAt]
  rfl

theorem ne_of_isSome {x : PageId} (hx : (nodes x).isSome) : x ≠ id := by
  rintro rfl
  rw [h.fresh] at hx
  exact absurd hx (by simp)

/-- **The cut moves up**: the two halves of the parent are cut at the middle key. -/
theorem ordered_split (nextPageId : PageId) (ho : Ordered nodes lo hi stop root)
    (hc : Cut nodes lo hi stop left right) (hkey : lo right = key.toNat)
    (hfull : n.keys.length = 507) :
    let c := ((n.keysWith key).getD 254 0).toNat
    let lo' := Function.update lo id c
    let hi' := Function.update stop id (stop parent)
    let stop' := Function.update (Function.update stop parent c) id (stop parent)
    Ordered (splitNodes nodes₁ parent id right nextPageId key n) lo' hi' stop' root ∧
      Cut (splitNodes nodes₁ parent id right nextPageId key n) lo' hi' stop' parent id := by
  intro c lo' hi' stop'
  have hs := h.toSplitting
  have hps : (nodes parent).isSome := by rw [h.node]; rfl
  have hpid : parent ≠ id := h.id_ne.symm
  have hlen : (n.childrenWith key right).length = 509 := by
    rw [length_childrenWith h.fits, h.fits.children, hfull]
  -- the children of the parent, with the new one, are divided at the middle key
  obtain ⟨hleft, hright⟩ := (hs.divides_with ho hc hkey).cut (i := 255) (by decide)
    (by rw [hlen]; decide)
  have hlt₁ : lo parent < c := hleft.range_lt (List.ne_nil_of_length_pos (by simp [hlen]))
  have hlt₂ : c < stop parent := hright.range_lt (List.ne_nil_of_length_pos (by simp [hlen]))
  -- the old nodes keep the ends of their ranges, and only the parent stops earlier than before
  have hlo : ∀ x, (nodes x).isSome → lo' x = lo x :=
    fun x hx => Function.update_of_ne (h.ne_of_isSome hx) _ _
  have hhi : ∀ x, (nodes x).isSome → hi' x = stop x :=
    fun x hx => Function.update_of_ne (h.ne_of_isSome hx) _ _
  have hstop : ∀ x, (nodes x).isSome → x ≠ parent → stop' x = stop x := by
    intro x hx hxp
    exact (Function.update_of_ne (h.ne_of_isSome hx) _ _).trans (Function.update_of_ne hxp _ _)
  have hstopp : stop' parent = c :=
    (Function.update_of_ne hpid _ _).trans (Function.update_self _ _ _)
  have hloid : lo' id = c := Function.update_self _ _ _
  have hhiid : hi' id = stop parent := Function.update_self _ _ _
  have hstopid : stop' id = stop parent := Function.update_self _ _ _
  have hchild : ∀ c ∈ n.childrenWith key right, (nodes c).isSome := fun c hcm => (h.of_mem hcm).1
  -- a node is the right half, the left half, or another old one
  have hcover : ∀ x, (splitNodes nodes₁ parent id right nextPageId key n x).isSome →
      x = id ∨ x = parent ∨ (nodes x).isSome ∧ x ≠ parent ∧ x ≠ id := by
    intro x hx
    rcases h.isSome_split x |>.mp hx with rfl | hx
    · exact Or.inl rfl
    · by_cases hxp : x = parent
      · exact Or.inr (Or.inl hxp)
      · exact Or.inr (Or.inr ⟨hx, hxp, h.ne_of_isSome hx⟩)
  refine ⟨⟨fun x cs ks hx => ?_, fun x nx es hx => ?_, fun x hx => ?_, fun x hx => ?_, ?_, ?_⟩,
    ⟨hstopp.trans hloid.symm, hhiid.trans (hhi parent hps).symm, ?_, fun x hx hxp => ?_⟩⟩
  · -- inner nodes: each half has its part of the division, another node the one it had
    rw [h.innerAt_split] at hx
    split at hx
    · rename_i hxid
      obtain ⟨rfl, rfl⟩ := Prod.mk.inj (Option.some.inj hx)
      rw [hxid, hloid, hstopid]
      exact hright.congr (fun d hd => hlo d (hchild d (List.mem_of_mem_drop hd)))
        fun d hd => hhi d (hchild d (List.mem_of_mem_drop hd))
    · split at hx
      · rename_i hxp
        obtain ⟨rfl, rfl⟩ := Prod.mk.inj (Option.some.inj hx)
        rw [hxp, hlo parent hps, hstopp]
        exact hleft.congr (fun d hd => hlo d (hchild d (List.mem_of_mem_take hd)))
          fun d hd => hhi d (hchild d (List.mem_of_mem_take hd))
      · rename_i hxp
        have hk := NodeMap.kids_of_innerAt hx
        have hxs : (nodes x).isSome := by
          cases hn : nodes x with
          | some m => rfl
          | none => rw [NodeMap.innerAt, hn] at hx; exact absurd hx (by simp)
        rw [hlo x hxs, hstop x hxs hxp]
        exact (hs.divides_other ho hc hxp hx).congr
          (fun d hd => hlo d (h.shape.kid x d (hk.symm ▸ hd)).1)
          fun d hd => hhi d (h.shape.kid x d (hk.symm ▸ hd)).1
  · -- leaves are not written
    rw [h.leafAt_split] at hx
    have hxp : x ≠ parent := by
      rintro rfl
      rw [NodeMap.leafAt, h.node] at hx
      exact absurd hx (by simp)
    have hxs : (nodes x).isSome := by
      cases hn : nodes x with
      | some m => rfl
      | none => rw [NodeMap.leafAt, hn] at hx; exact absurd hx (by simp)
    rw [hlo x hxs, hstop x hxs hxp]
    exact ho.leaf x nx es hx
  · -- no range is empty
    rcases hcover x hx with rfl | rfl | ⟨hxs, hxp, -⟩
    · rw [hloid, hstopid]
      exact hlt₂
    · rw [hlo x hps, hstopp]
      exact hlt₁
    · rw [hlo x hxs, hstop x hxs hxp]
      exact ho.lt x hxs
  · -- only the parent stops before its range ends
    rcases hcover x hx with rfl | rfl | ⟨hxs, hxp, -⟩
    · rw [hstopid, hhiid]
    · rw [hstopp, hhi x hps]
      exact hlt₂.le
    · rw [hstop x hxs hxp, hhi x hxs]
  · -- the root has all keys
    rw [hlo root h.shape.root_mem]
    exact ho.root_lo
  · rw [hhi root h.shape.root_mem, hc.other root h.shape.root_mem hs.root_ne]
    exact ho.root_hi
  · -- the right half takes the rest of the range of the parent
    rw [hstopid, hhi parent hps]
  · rcases hcover x hx with rfl | rfl | ⟨hxs, -, -⟩
    · rw [hstopid, hhiid]
    · exact absurd rfl hxp
    · rw [hstop x hxs hxp, hhi x hxs]

end SplitStep

/-! ## 3. A new root

The root's range is that of all keys, and the new root divides it at one key. -/

theorem RootStep.ordered_root (h : RootStep nodes level root right l nodes' id key)
    (ho : Ordered nodes lo hi stop root) (hc : Cut nodes lo hi stop root right)
    (hkey : lo right = key.toNat) :
    let lo' := Function.update lo id 0
    let hi' := Function.update stop id (2 ^ 32)
    Ordered nodes' lo' hi' hi' id := by
  intro lo' hi'
  have hrs := h.shape.root_mem
  have hrights := h.right_mem
  -- the old nodes keep their ranges, now that the right half is linked
  have hlo : ∀ x, (nodes x).isSome → lo' x = lo x :=
    fun x hx => Function.update_of_ne (h.ne_id hx) _ _
  have hhi : ∀ x, (nodes x).isSome → hi' x = stop x :=
    fun x hx => Function.update_of_ne (h.ne_id hx) _ _
  have hloid : lo' id = 0 := Function.update_self _ _ _
  have hhiid : hi' id = 2 ^ 32 := Function.update_self _ _ _
  refine ⟨fun x cs ks hx => ?_, fun x nx es hx => ?_, fun x hx => ?_, fun _ _ => le_rfl, hloid,
    hhiid⟩
  · -- the new root: its two children divide all keys at the one that came up
    rw [h.patched.innerAt, NodeMap.innerAt_update_internal] at hx
    split at hx
    · rename_i hxid
      obtain ⟨rfl, rfl⟩ := Prod.mk.inj (Option.some.inj hx)
      rw [hxid, hloid, hhiid]
      refine ⟨?_, ?_, ?_⟩
      · refine ⟨(hlo root hrs).trans ho.root_lo, ?_, ?_⟩
        · rw [hlo right hrights, hhi root hrs, hc.left_stop]
        · rw [abuts_nil, hhi right hrights, hc.right_stop, ho.root_hi]
      · change [key].map UInt32.toNat = [right].map lo'
        rw [List.map_singleton, List.map_singleton, hlo right hrights, hkey]
      · intro d hd
        have hds : (nodes d).isSome := by
          rcases List.mem_cons.mp hd with rfl | hd
          · exact hrs
          · exact List.mem_singleton.mp hd ▸ hrights
        rw [hlo d hds, hhi d hds]
        exact ho.lt d hds
    · -- another inner node: its children are not the halves, so their ranges have not changed
      have hk := NodeMap.kids_of_innerAt hx
      have hxs : (nodes x).isSome := by
        cases hn : nodes x with
        | some m => rfl
        | none => rw [NodeMap.innerAt, hn] at hx; exact absurd hx (by simp)
      have hkid : ∀ d ∈ cs, (nodes d).isSome := fun d hd => (h.shape.kid x d (hk.symm ▸ hd)).1
      have hstopx : stop x = hi' x := (hhi x hxs).symm
      rw [hlo x hxs, ← hstopx]
      refine (ho.inner x cs ks hx).congr (fun d hd => hlo d (hkid d hd)) fun d hd => ?_
      rw [hhi d (hkid d hd)]
      refine hc.other d (hkid d hd) ?_
      rintro rfl
      exact h.parents.root_not_mem h.shape (hk.symm ▸ hd) h.level_le
  · -- leaves are not written
    rw [h.leafAt_root] at hx
    have hxs : (nodes x).isSome := by
      cases hn : nodes x with
      | some m => rfl
      | none => rw [NodeMap.leafAt, hn] at hx; exact absurd hx (by simp)
    rw [hlo x hxs, hhi x hxs]
    exact ho.leaf x nx es hx
  · -- no range is empty
    rcases (h.isSome_root x).mp hx with rfl | hxs
    · rw [hloid, hhiid]
      decide
    · rw [hlo x hxs, hhi x hxs]
      exact ho.lt x hxs

/-! ## 4. InsertIntoParent

The functions `lo`, `stop` and `hi` are others after the call.  `Follows` says what stays, which is
what the caller needs for the leaves. -/

/-- The ranges of old nodes start where they did, and those up to a level also stop there. -/
def Follows (nodes : NodeMap) (level : PageId → Nat) (l : Nat) (lo stop lo' stop' : PageId → Nat) :
    Prop :=
  ∀ x, (nodes x).isSome → lo' x = lo x ∧ (level x ≤ l → stop' x = stop x)

/-- **The order after InsertIntoParent**: a linked node is in order, and where the call gave up some
node is left cut. -/
theorem Links.ordered {s s' : LinkState} {linked : Bool}
    (hlinks : Links s left key right s' linked) :
    ∀ {level : PageId → Nat} {l : Nat} {lo hi stop : PageId → Nat}, Situation s level l left right →
      Ordered s.nodes lo hi stop s.root → Cut s.nodes lo hi stop left right →
      lo right = key.toNat →
      ∃ lo' hi' stop', Follows s.nodes level (level left) lo stop lo' stop' ∧
        Ordered s'.nodes lo' hi' stop' s'.root ∧
        (linked = true → stop' = hi') ∧
        (linked = false → ∃ level' l' x y, Situation s' level' l' x y ∧
          Cut s'.nodes lo' hi' stop' x y) := by
  induction hlinks with
  -- a refusal: nothing changed, and the two nodes are still cut
  | @rootRefused s left right key hroot hr =>
    intro level l lo hi stop h ho hc hkey
    exact ⟨lo, hi, stop, fun _ _ => ⟨rfl, fun _ => rfl⟩, ho, fun hf => absurd hf (by simp),
      fun _ => ⟨level, l, left, right, ⟨h.shape, h.parents, h.pending, h.level_le⟩, hc⟩⟩
  | @parentRefused s left right parent key hpar hne hr =>
    intro level l lo hi stop h ho hc hkey
    exact ⟨lo, hi, stop, fun _ _ => ⟨rfl, fun _ => rfl⟩, ho, fun hf => absurd hf (by simp),
      fun _ => ⟨level, l, left, right, ⟨h.shape, h.parents, h.pending, h.level_le⟩, hc⟩⟩
  | @newParentRefused s left right parent key n hpar hne hr hn hfull hr' =>
    intro level l lo hi stop h ho hc hkey
    exact ⟨lo, hi, stop, fun _ _ => ⟨rfl, fun _ => rfl⟩, ho, fun hf => absurd hf (by simp),
      fun _ => ⟨level, l, left, right, ⟨h.shape, h.parents, h.pending, h.level_le⟩, hc⟩⟩
  | @newRoot s left right id key hroot hr h0 hne hfresh =>
    intro level l lo hi stop h ho hc hkey
    obtain ⟨rfl, hstep⟩ := h.rootStep hroot h0 hne hfresh key
    refine ⟨_, _, _, fun x hx => ⟨?_, fun _ => ?_⟩, hstep.ordered_root ho hc hkey, fun _ => rfl,
      fun hf => absurd hf (by simp)⟩
    · -- a new root takes all keys, and the range of an old node begins where it did
      exact Function.update_of_ne (hstep.ne_id hx) _ _
    · exact Function.update_of_ne (hstep.ne_id hx) _ _
  | @room s left right parent key n hpar hne hr hn hroom =>
    intro level l lo hi stop h ho hc hkey
    have hstep := h.splitting hpar hne hn
    -- the parent takes the right half, and no node is left cut
    exact ⟨lo, stop, stop, fun _ _ => ⟨rfl, fun _ => rfl⟩, hstep.ordered_room ho hc hkey,
      fun _ => rfl, fun hf => absurd hf (by simp)⟩
  | @split s s' left right parent id nextPageId key n linked hpar hne hr hn hfull hr' h0 hnew
      hfresh hrest ih =>
    intro level l lo hi stop h ho hc hkey
    have hstep := h.splitStep hpar hne hn hfresh key
    have hlevel := hstep.level_parent
    obtain ⟨l₂, -, hnext⟩ := h.afterSplit hpar hne hn hfull h0 hnew hfresh key
    -- the parent is split at its middle key, and that cut is linked by the rest of the call
    obtain ⟨ho₂, hc₂⟩ := hstep.ordered_split nextPageId ho hc hkey hfull
    rw [← nodes_splitParent] at ho₂ hc₂
    obtain ⟨lo', hi', stop', hfollows, hafter⟩ := ih hnext
      (by rw [root_splitParent]; exact ho₂) hc₂ (Function.update_self _ _ _)
    refine ⟨lo', hi', stop', fun x hx => ?_, hafter⟩
    have hxid : x ≠ id := hstep.ne_of_isSome hx
    obtain ⟨hlo, hstop⟩ := hfollows x
      (by rw [nodes_splitParent]; exact (hstep.isSome_split x).mpr (Or.inr hx))
    rw [Function.update_of_ne hxid, Function.update_of_ne hstep.id_ne.symm,
      Function.update_of_ne hxid] at hstop
    -- up to the level of the halves the two steps change nothing
    refine ⟨hlo.trans (Function.update_of_ne hxid _ _), fun hl => ?_⟩
    rw [hstop (by omega), Function.update_of_ne]
    rintro rfl
    omega

end CourtDB
