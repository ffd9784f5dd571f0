/-
# Insert when pages are refused

`Insert` gives up before it changes anything if it cannot reach the leaf or cannot get a page for a
new one.  After the split of a leaf there is no way back: if `InsertIntoParent` or `CreateNewRoot`
does not get a page, the right half stays unlinked and `Insert` returns true.

Whether the right half is linked depends on the pattern of refusals and on which nodes above the
leaf are full (`Refusals.links`).  It is a question about the state before the call, and
`Refusals.links` answers it by counting requests: the parent; if that is full, a page for its right
half, one request for each of the 254 children that move there, whose answers do not matter, and the
same again for the level above; for a node without a parent, the page of a new root.

If the right half is linked, every entry is found afterwards, although some parent pointers may be
old ones.  If it is not, the keys past the split key are out of reach: their path ends in the left
leaf.  An entry that is lost so is in the chain of leaves but in no lookup.

`insert_atomic_iff` puts it together, for trees reached by insertions of different keys.  The
pattern of refusals is a list of answers to the requests of the one call, in their order.
-/
import CourtDB.Index.SingleLeaf
import CourtDB.Index.TreeMultimap

namespace CourtDB

open BufferPoolManager NodeMap

/-! ## 1. Whether a node is linked

The nodes above a leaf are given as a list of booleans: is this one full?  The list and the refusals
determine what `InsertIntoParent` returns (`Links.linked_eq`), whatever the keys are. -/

/-- The requests that linking a node needs, for the nodes above it from its parent up, full or not:
the parent; if it is full a page for its right half, and, past the 254 children that move there,
what linking that half needs; and for a node without a parent the page of the new root. -/
def Refusals.links : List Bool → Refusals → Bool
  | [], ps => !ps.headD false
  | full :: above, ps =>
    !ps.headD false && (!full || !ps.tail.headD false && Refusals.links above
      (ps.tail.tail.drop 254))

namespace NodeMap

variable {nodes nodes' : NodeMap} {id leaf : PageId} {key : KeyType} {inner up : List PageId}

/-- An internal node without room. -/
def fullAt (nodes : NodeMap) (id : PageId) : Bool :=
  ((nodes.innerAt id).map fun e => decide (e.2.length = 507)).getD false

theorem fullAt_of_some {n : InternalNode} (h : nodes id = some (.internal n)) :
    nodes.fullAt id = decide (n.keys.length = 507) := by
  rw [fullAt, innerAt_of_some h]
  rfl

/-- The nodes above a node, from its parent to the root. -/
inductive Ancestors (nodes : NodeMap) : PageId → List PageId → Prop
  | root {id : PageId} (hpar : nodes.par id = some invalidPageId) : Ancestors nodes id []
  | up {id parent : PageId} {above : List PageId} (hpar : nodes.par id = some parent)
      (hne : parent ≠ invalidPageId) (hkid : id ∈ nodes.kids parent)
      (h : Ancestors nodes parent above) : Ancestors nodes id (parent :: above)

/-- Ancestors are on higher levels. -/
theorem Ancestors.level_lt {level : PageId → Nat} {root : PageId} (h : Ancestors nodes id up)
    (hshape : Shape nodes level root) : ∀ x ∈ up, level id < level x := by
  induction h with
  | root _ => exact fun x hx => absurd hx List.not_mem_nil
  | @up id parent above hpar hne hkid h ih =>
    have hlevel := (hshape.kid parent id hkid).2
    intro x hx
    rcases List.mem_cons.mp hx with rfl | hx
    · omega
    · exact lt_trans (by omega) (ih x hx)

/-- The nodes above a node exist. -/
theorem Ancestors.isSome (h : Ancestors nodes id up) : ∀ x ∈ up, (nodes x).isSome := by
  induction h with
  | root _ => exact fun x hx => absurd hx List.not_mem_nil
  | @up id parent above hpar hne hkid _ ih =>
    intro x hx
    rcases List.mem_cons.mp hx with rfl | hx
    · obtain ⟨n, hn, -⟩ := internal_of_mem_kids hkid
      rw [hn]
      rfl
    · exact ih x hx

/-- Ancestors stay where parent pointers and children do. -/
theorem Ancestors.congr (h : Ancestors nodes id up)
    (hpar : ∀ x ∈ id :: up, nodes'.par x = nodes.par x)
    (hkids : ∀ x ∈ up, nodes'.kids x = nodes.kids x) : Ancestors nodes' id up := by
  induction h with
  | root h => exact .root ((hpar _ List.mem_cons_self).trans h)
  | @up id parent above h hne hkid _ ih =>
    refine .up ((hpar _ List.mem_cons_self).trans h) hne ?_ (ih (fun x hx => ?_) fun x hx => ?_)
    · rw [hkids parent List.mem_cons_self]
      exact hkid
    · exact hpar x (List.mem_cons_of_mem _ hx)
    · exact hkids x (List.mem_cons_of_mem _ hx)

/-- The nodes on a path are the ancestors of its leaf. -/
theorem Descends.ancestors {level : PageId → Nat} {root : PageId} (hshape : Shape nodes level root)
    (hparents : Parents nodes level root 0 none) (h : Descends nodes key id inner leaf) :
    ∀ {up : List PageId}, Ancestors nodes id up → Ancestors nodes leaf (inner.reverse ++ up) := by
  induction h with
  | leaf _ => exact fun hup => hup
  | @inner id leaf n inner hn _ ih =>
    intro up hup
    have hkid : n.getChildAt (n.findChild key defaultKeyComparator) ∈ nodes.kids id := by
      rw [kids_of_some hn]
      exact InternalNode.getChildAt_mem (hshape.fits id _ hn) key defaultKeyComparator
    have hs : (nodes id).isSome := by rw [hn]; rfl
    have hanc := ih (.up (hparents.down id _ hkid (Nat.zero_le _)) (hshape.ids id hs).2 hkid hup)
    rwa [List.reverse_cons, List.append_assoc]

end NodeMap

namespace LinkState

variable {s : LinkState} {id parent right nextPageId : PageId} {key : KeyType} {n : InternalNode}

/-- Each patch is one request. -/
theorem refusals_patches (cs : List PageId) (s : LinkState) :
    (cs.foldl (patch id) s).refusals = s.refusals.drop cs.length := by
  induction cs generalizing s with
  | nil => rfl
  | cons c cs ih =>
    rw [List.foldl_cons, ih, refusals_patch, List.length_cons, ← List.drop_one, List.drop_drop,
      Nat.add_comm]

/-- The split of a full parent passes over one request for each child that moves. -/
theorem refusals_splitParent (hlen : (n.childrenWith key right).length = 509) :
    (s.splitParent parent id right nextPageId key n).refusals
      = s.refusals.tail.tail.drop 254 := by
  rw [splitParent, refusals_setNode, refusals_setNode, refusals_patches, List.length_drop, hlen]
  rfl

end LinkState

/-- The split of a parent leaves what is above it. -/
theorem SplitStep.ancestors {nodes nodes₁ : NodeMap} {level : PageId → Nat}
    {root left right parent id nextPageId : PageId} {l : Nat} {n : InternalNode} {key : KeyType}
    {above : List PageId} (h : SplitStep nodes level root left right parent l n nodes₁ id key)
    (habove : Ancestors nodes parent above) :
    Ancestors (splitNodes nodes₁ parent id right nextPageId key n) parent above ∧
      above.map (fullAt (splitNodes nodes₁ parent id right nextPageId key n))
        = above.map nodes.fullAt := by
  have hlevel := h.level_parent
  have hlt := habove.level_lt h.shape
  have hs : ∀ x ∈ parent :: above, (nodes x).isSome := by
    intro x hx
    rcases List.mem_cons.mp hx with rfl | hx
    · rw [h.node]
      rfl
    · exact habove.isSome x hx
  have hge : ∀ x ∈ parent :: above, level parent ≤ level x := by
    intro x hx
    rcases List.mem_cons.mp hx with rfl | hx
    · exact le_rfl
    · exact (hlt x hx).le
  have hne : ∀ x ∈ above, x ≠ id ∧ x ≠ parent := by
    intro x hx
    refine ⟨h.ne_of_isSome (habove.isSome x hx), ?_⟩
    rintro rfl
    exact lt_irrefl _ (hlt x hx)
  refine ⟨habove.congr (fun x hx => ?_) fun x hx => ?_, List.map_congr_left fun x hx => ?_⟩
  · refine h.par_split_of_not_mem (h.ne_of_isSome (hs x hx)) fun hmem => ?_
    have hx' := (h.of_mem (List.mem_of_mem_drop hmem)).2.1
    have hlevel' := hge x hx
    omega
  · rw [h.kids_split, if_neg (hne x hx).1, if_neg (hne x hx).2]
  · rw [fullAt, h.innerAt_split, if_neg (hne x hx).1, if_neg (hne x hx).2]
    rfl

/-- **Whether the right node is linked** depends on the refusals and the nodes above. -/
theorem Links.linked_eq {s s' : LinkState} {left right : PageId} {key : KeyType} {linked : Bool}
    (hlinks : Links s left key right s' linked) :
    ∀ {level : PageId → Nat} {l : Nat} {up : List PageId}, Situation s level l left right →
      Ancestors s.nodes left up → linked = Refusals.links (up.map s.nodes.fullAt) s.refusals := by
  induction hlinks with
  -- no page for a new root
  | @rootRefused s left right key hroot hr =>
    intro level l up h hup
    cases hup with
    | root _ =>
      have hhead : s.refusals.headD false = true := hr
      rw [List.map_nil, Refusals.links, hhead]
      rfl
    | up hpar hne => exact absurd (Option.some.inj (hpar.symm.trans hroot)) hne
  -- the root is split, and the new one links both halves
  | @newRoot s left right id key hroot hr h0 hne hfresh =>
    intro level l up h hup
    cases hup with
    | root _ =>
      have hhead : s.refusals.headD false = false := hr
      rw [List.map_nil, Refusals.links, hhead]
      rfl
    | up hpar hne => exact absurd (Option.some.inj (hpar.symm.trans hroot)) hne
  -- the parent is refused
  | @parentRefused s left right parent key hpar hne hr =>
    intro level l up h hup
    cases hup with
    | root hroot => exact absurd (Option.some.inj (hpar.symm.trans hroot)) hne
    | up _ _ _ _ =>
      have hhead : s.refusals.headD false = true := hr
      rw [List.map_cons, Refusals.links, hhead]
      rfl
  -- the parent has room
  | @room s left right parent key n hpar hne hr hn hroom =>
    intro level l up h hup
    cases hup with
    | root hroot => exact absurd (Option.some.inj (hpar.symm.trans hroot)) hne
    | up hpar' _ _ _ =>
      obtain rfl := Option.some.inj (hpar'.symm.trans hpar)
      have hhead : s.refusals.headD false = false := hr
      rw [List.map_cons, Refusals.links, hhead, fullAt_of_some hn, decide_eq_false hroom.ne]
      rfl
  -- the full parent gets no page for its right half
  | @newParentRefused s left right parent key n hpar hne hr hn hfull hr' =>
    intro level l up h hup
    cases hup with
    | root hroot => exact absurd (Option.some.inj (hpar.symm.trans hroot)) hne
    | up hpar' _ _ _ =>
      obtain rfl := Option.some.inj (hpar'.symm.trans hpar)
      have hhead : s.refusals.headD false = false := hr
      have hnext : s.refusals.tail.headD false = true := hr'
      rw [List.map_cons, Refusals.links, hhead, hnext, fullAt_of_some hn, decide_eq_true hfull]
      rfl
  -- the parent is split: the answers to the requests of its moved children do not matter, and the
  -- rest of the pattern decides at the level above
  | @split s s' left right parent id nextPageId key n linked hpar hne hr hn hfull hr' h0 hnew
      hfresh hrest ih =>
    intro level l up h hup
    cases hup with
    | root hroot => exact absurd (Option.some.inj (hpar.symm.trans hroot)) hne
    | @up _ _ above hpar' _ hkid habove =>
      obtain rfl := Option.some.inj (hpar'.symm.trans hpar)
      have hhead : s.refusals.headD false = false := hr
      have hnext : s.refusals.tail.headD false = false := hr'
      have hstep := h.splitStep hpar hne hn hfresh key
      have hfits : n.Fits := hstep.fits
      have hlen : (n.childrenWith key right).length = 509 := by
        rw [length_childrenWith hfits, hfits.children, hfull]
      obtain ⟨l₂, -, hafter⟩ := h.afterSplit hpar hne hn hfull h0 hnew hfresh key
      obtain ⟨hup', hfulls⟩ := hstep.ancestors habove
      rw [ih hafter hup', LinkState.refusals_splitParent hlen, nodes_splitParent, hfulls,
        List.map_cons, Refusals.links, hhead, hnext, fullAt_of_some hn, decide_eq_true hfull]
      rfl

/-- **The right half of a leaf is linked**, or not, as the nodes on the path say. -/
theorem LeafSplit.linked_eq {nodes : NodeMap} {level : PageId → Nat} {root leaf id : PageId}
    {n : LeafNode} {key key' : KeyType} {rid : RID} {ps : Refusals} {s' : LinkState} {linked : Bool}
    {inner : List PageId} (hs : LeafSplit nodes level root leaf id n)
    (hlinks : Links ⟨ps, nodes.splitLeaf leaf id n key rid, root⟩ leaf (n.splitKey key rid) id s'
      linked) (hd : Descends nodes key' root inner leaf) :
    linked = Refusals.links (inner.reverse.map nodes.fullAt) ps := by
  have hup : Ancestors nodes leaf (inner.reverse ++ []) :=
    hd.ancestors hs.shape hs.parents (.root hs.parents.root_par)
  rw [List.append_nil] at hup
  have hne : ∀ x ∈ leaf :: inner.reverse, x ≠ id := by
    intro x hx
    refine ne_of_fresh hs.fresh ?_
    rcases List.mem_cons.mp hx with rfl | hx
    · rw [hs.node]
      rfl
    · exact hup.isSome x hx
  have hup' : Ancestors (nodes.splitLeaf leaf id n key rid) leaf inner.reverse := by
    refine hup.congr (fun x hx => ?_) fun x _ => ?_
    · rw [splitLeaf, par_update, if_neg (hne x hx), par_update]
      split
      · rename_i hxl
        rw [hxl, par_of_some hs.node]
        rfl
      · rfl
    · rw [splitLeaf, kids_update_leaf _ _ (kids_of_fresh hs.fresh'),
        kids_update_leaf _ _ (kids_of_leaf hs.node)]
  rw [hlinks.linked_eq (hs.situation ps) hup']
  congr 1
  refine List.map_congr_left fun x _ => ?_
  rw [fullAt, hs.innerAt_splitLeaf]
  rfl

/-! ## 2. What is found and what is lost

`Finds` and `Loses` are about `Lookup` on the pages as they are then, in a pool that serves every
fetch.  They exclude each other. -/

section Search

variable {nodes : NodeMap} {level lo hi stop : PageId → Nat} {root first leaf : PageId}
  {inner chain : List PageId} {m : PageId → Option Page} {n fuel : Nat} {key : KeyType}

/-- **In a tree in order** every entry is found. -/
theorem Searchable.finds (hs : Searchable nodes level root first chain)
    (hr : Ranged nodes lo hi hi root chain) (hholds : Holds m nodes) (hn : 0 < n)
    (hfuel : level root < fuel ∧ chain.length ≤ fuel) {e : KeyType × RID}
    (he : e ∈ nodes.contents chain) :
    (BPlusTree.lookup fuel ⟨root, defaultKeyComparator⟩ e.1).wp .safe
      (fun r _ => ∃ l, r = some l ∧ e.2 ∈ l) (View.quiet n m) := by
  refine PoolM.wp_of_refusing ?_
  obtain ⟨inner, leaf, k, l₁, l₂, hd, hlen, hk, hsplit⟩ := hs.path e.1
  have hl₂ : l₂.length < fuel := by
    have hle := hfuel.2
    rw [hsplit, List.length_append, List.length_cons] at hle
    omega
  refine PoolM.wpr_lookup (PoolMode.serves_safe hn) hholds hs.shape.ids
    (fun id k hk => hs.fits_leaf hk) hd (hs.segment hsplit) ⟨hlen ▸ hfuel.1, hl₂⟩ ⟨_, rfl, ?_⟩
  rw [hr.lookup hs hd hsplit]
  exact List.mem_map.mpr ⟨e, List.mem_filter.mpr ⟨he, decide_eq_true rfl⟩, rfl⟩

/-- **Nothing is found** if the path of a key ends in a leaf without it. -/
theorem Searchable.misses (hs : Searchable nodes level root first chain) (hholds : Holds m nodes)
    (hn : 0 < n) (hfuel : level root < fuel ∧ chain.length ≤ fuel)
    (hlost : ∀ inner leaf, Descends nodes key root inner leaf →
      ∀ e ∈ nodes.entriesAt leaf, e.1 ≠ key) :
    (BPlusTree.lookup fuel ⟨root, defaultKeyComparator⟩ key).wp .safe
      (fun r _ => r = some []) (View.quiet n m) := by
  refine PoolM.wp_of_refusing ?_
  obtain ⟨inner, leaf, k, l₁, l₂, hd, hlen, hk, hsplit⟩ := hs.path key
  have hl₂ : l₂.length < fuel := by
    have hle := hfuel.2
    rw [hsplit, List.length_append, List.length_cons] at hle
    omega
  refine PoolM.wpr_lookup (PoolMode.serves_safe hn) hholds hs.shape.ids
    (fun id k hk => hs.fits_leaf hk) hd (hs.segment hsplit) ⟨hlen ▸ hfuel.1, hl₂⟩ ?_
  rw [lookupAlong_lost (hlost inner leaf hd)]

/-- The leaf of a path is below the node where it starts. -/
theorem NodeMap.Descends.under {id : PageId} (hshape : Shape nodes level root)
    (h : Descends nodes key id inner leaf) : Under nodes leaf id := by
  induction h with
  | leaf _ => exact .refl
  | @inner id leaf n inner hn _ ih =>
    refine .kid ?_ ih
    rw [kids_of_some hn]
    exact InternalNode.getChildAt_mem (hshape.fits id _ hn) key defaultKeyComparator

end Search

/-- **Below a node that is cut off there are entries**, and none of them is on its path. -/
theorem Situation.loses {s : LinkState} {level lo hi stop : PageId → Nat} {l : Nat}
    {left right first : PageId} {chain : List PageId} (h : Situation s level l left right)
    (ho : Ordered s.nodes lo hi stop s.root) (hc : Cut s.nodes lo hi stop left right)
    (hst : Stocked s.nodes) (hchain : Chain s.nodes first chain) :
    ∃ e ∈ s.nodes.contents chain, ∀ inner leaf, Descends s.nodes e.1 s.root inner leaf →
      ∀ e' ∈ s.nodes.entriesAt leaf, e'.1 ≠ e.1 := by
  have hright : (s.nodes right).isSome := by
    obtain ⟨n, hn⟩ := Option.isSome_iff_exists.mp h.pending.left_mem
    have hpar := h.pending.par_eq
    rw [par_of_some hn] at hpar
    cases hr : s.nodes right with
    | some k => rfl
    | none =>
      rw [par, hr] at hpar
      exact absurd hpar (by simp)
  obtain ⟨inner, leaf, hd, -⟩ := h.shape.descends 0 _ right hright rfl
  obtain ⟨k, hk⟩ := hd.leaf_mem
  have hleaf := leafAt_of_some hk
  obtain ⟨e, he⟩ := List.exists_mem_of_ne_nil _ (hst leaf _ _ hleaf)
  have hmem : e ∈ s.nodes.contents chain := by
    refine List.mem_flatMap.mpr ⟨leaf, hchain.leaf_mem hk, ?_⟩
    rwa [entriesAt_of_leaf hk]
  obtain ⟨hlo, hlt⟩ := ho.leaf leaf _ _ hleaf e he
  have hhi : e.1.toNat < hi leaf := lt_of_lt_of_le hlt (ho.le leaf (by rw [hk]; rfl))
  have hkey : lo right ≤ e.1.toNat ∧ e.1.toNat < hi right := by
    rcases ho.under_range (hd.under h.shape) with ⟨h₁, h₂⟩ | heq
    · exact ⟨h₁.trans hlo, lt_of_lt_of_le hhi h₂⟩
    · exact heq ▸ ⟨hlo, hhi⟩
  exact ⟨e, hmem, fun inner' leaf' hd' => h.lost ho hc hkey hd'⟩

namespace TreeState

variable {s : TreeState} {m : PageId → Option Page} {mode : PoolMode} {n p limit fuel : Nat}
  {key : KeyType} {rid : RID} {ps : Refusals}

/-- If the leaf of the key is split, its right half will be linked. -/
def Linkable (s : TreeState) (ps : Refusals) (key : KeyType) : Prop :=
  ∀ inner leaf k, Descends s.nodes key s.root inner leaf → s.nodes leaf = some (.leaf k) →
    k.entries.length = 406 → ps.Grants (inner.length + 1) →
    (ps.drop (inner.length + 1)).headD false = false →
      Refusals.links (inner.reverse.map s.nodes.fullAt) (ps.drop (inner.length + 1)).tail = true

/-- All entries are found in the tree on the pages. -/
def Finds (n : Nat) (t : BPlusTree) (m : PageId → Option Page) (entries : List (KeyType × RID))
    (enough : Nat) : Prop :=
  ∀ fuel, enough < fuel → ∀ e ∈ entries, (t.lookup fuel e.1).wp .safe
    (fun r _ => ∃ l, r = some l ∧ e.2 ∈ l) (View.quiet n m)

/-- For the key of some entry nothing is found. -/
def Loses (n : Nat) (t : BPlusTree) (m : PageId → Option Page) (entries : List (KeyType × RID))
    (enough : Nat) : Prop :=
  ∃ e ∈ entries, ∀ fuel, enough < fuel →
    (t.lookup fuel e.1).wp .safe (fun r _ => r = some []) (View.quiet n m)

/-- **Insert under refusals.**  It answers false and has changed nothing; or it answers true, and
all entries are found if a right half was linked, and some are lost if not. -/
theorem Ok.insertRefused {Q : Option (Bool × BPlusTree) → Refusals × View → Prop} (h : s.Ok)
    (hord : s.InOrder) (hclean : s.Clean key rid) (hst : Stocked s.nodes) (hholds : Holds m s.nodes)
    (hmode : mode.Allows n limit) (hw : (View.quiet n m).Within p) (hp : p + 1 + fuel ≤ limit)
    (hn : 0 < n) (hfuel : s.height < fuel) {enough : Nat}
    (henough : s.height + 1 ≤ enough ∧ s.chain.length + 1 ≤ enough)
    (hkept : s.Linkable ps key → ∀ ps', Q (some (false, s.tree)) (ps', View.quiet n m))
    (hfound : s.Linkable ps key → ∀ t ps' m', Finds n t m' ((key, rid) :: s.contents) enough →
      Q (some (true, t)) (ps', View.quiet n m'))
    (hlost : ¬ s.Linkable ps key → ∀ t ps' m', Loses n t m' ((key, rid) :: s.contents) enough →
      Q (some (true, t)) (ps', View.quiet n m')) :
    (s.tree.insert fuel key rid).wpr mode Q (ps, View.quiet n m) := by
  cases h with
  -- there is no leaf to be split
  | empty =>
    have hlinkable : TreeState.empty.Linkable ps key :=
      fun _ _ _ _ hk => absurd hk (by simp [TreeState.empty])
    refine PoolM.wpr_insertFirst hmode hw (by omega) (fun _ => hkept hlinkable _)
      fun _ id m' h0 hne _ hmove _ => ?_
    have htree : IsTree (oneLeaf id (PoolM.firstLeaf key rid)) (fun _ => 0) id id [id] :=
      isTree_oneLeaf ⟨rfl, rfl, Nat.le_add_left 1 405⟩ (List.pairwise_singleton _ _) rfl rfl h0 hne
    refine hfound hlinkable _ _ _ fun fuel' hf e he => ?_
    have hr : Ranged (oneLeaf id (PoolM.firstLeaf key rid)) (fun _ => 0) (fun _ => 2 ^ 32)
        (fun _ => 2 ^ 32) id [id] := ranged_oneLeaf
    refine htree.finds hr hmove.holds hn ⟨by omega, by rw [List.length_singleton]; omega⟩ ?_
    rwa [contents_oneLeaf]
  | tree htree =>
    obtain ⟨inner, leaf, k, l₁, l₂, hd, hlen, hk, hsplit⟩ := htree.path key
    obtain ⟨hfits, hsorted⟩ := htree.fits_leaf hk
    obtain ⟨lo, hi, hr⟩ := hord.ranged htree
    have hkey := hr.ordered.descends_root (fun x n hx => htree.fits_inner hx) hd
    -- the key has this path only
    have hlinkable : (k.entries.length = 406 → ps.Grants (inner.length + 1) →
        (ps.drop (inner.length + 1)).headD false = false →
          Refusals.links (inner.reverse.map s.nodes.fullAt) (ps.drop (inner.length + 1)).tail
            = true) → s.Linkable ps key := by
      intro hall inner' leaf' k' hd' hk'
      obtain ⟨rfl, rfl⟩ := hd'.unique hd
      obtain rfl := BTreeNode.leaf.inj (Option.some.inj (hk'.symm.trans hk))
      exact hall
    refine PoolM.wpr_insert htree.shape htree.parents hholds hd hk hsorted hmode hw hp
      ⟨hlen ▸ hfuel, hfuel⟩ (fun _ hng => hkept (hlinkable fun _ hg => absurd hg hng) _)
      (fun _ hlt m' hmove _ => ?_)
      (fun _ _ hrefused => hkept (hlinkable fun _ _ hr => ?_) _)
      fun hg hgranted id s' linked m' hs hlinks hmove _ => ?_
    · -- the leaf has room
      have hperm : (k.inserted key rid).entries.Perm ((key, rid) :: k.entries) :=
        LeafNode.overflow_perm hfits hsorted key rid
      have hins : IsTree (s.setLeaf leaf (k.inserted key rid)).nodes s.level s.root s.first
          s.chain :=
        htree.setLeaf hk ⟨rfl, rfl⟩ (hfits.inserted hlt key rid)
          (LeafNode.overflow_sorted hfits hsorted key rid)
      have hr' : Ranged (s.setLeaf leaf (k.inserted key rid)).nodes lo hi hi s.root s.chain := by
        refine hr.setLeaf hk fun e he => ?_
        rcases List.mem_cons.mp (hperm.mem_iff.mp he) with rfl | he
        · exact hkey
        · exact leaf_entries hr hk e he
      refine hfound (hlinkable fun hfull => absurd hfull hlt.ne) _ _ _ fun fuel' hf e he => ?_
      obtain ⟨rest, hold, hnew⟩ := contents_setLeaf_rest hk htree.chain.nodup
        (htree.chain.leaf_mem hk) (k.inserted key rid)
      refine hins.finds hr' hmove.holds hn ⟨show s.height < fuel' by omega, by omega⟩ ?_
      exact (hnew.trans ((hperm.append_right rest).trans (hold.symm.cons _))).mem_iff.mpr he
    · -- the leaf is full and gets a page, so the condition speaks of this case
      rw [hrefused] at hr
      exact absurd hr (by simp)
    · -- the leaf is split, and its right half is linked or not
      have htree' := htree
      rw [hsplit] at htree' hr
      obtain ⟨level', hsearch, hrise, -⟩ := hs.searchable hlinks htree'.toSearchable
      have hid : id ∉ l₁ ++ leaf :: l₂ := by
        intro hmem
        obtain ⟨es, hes⟩ := Option.isSome_iff_exists.mp (htree'.leafAt_isSome id hmem)
        obtain ⟨k', hk', -⟩ := leaf_of_leafAt hes
        exact absurd (hs.fresh.symm.trans hk') (by simp)
      obtain ⟨lo', hi', stop', hr', hstop, hcut⟩ := hs.ranged hlinks htree'.chain.nodup hid
        htree'.leafAt_isSome hr (hclean _ _ _ hd hk hs.full) hkey
      have hperm := hs.contents_perm hlinks htree'.toSearchable
      rw [← hsplit] at hperm
      have hchain : (l₁ ++ leaf :: id :: l₂).length = s.chain.length + 1 := by
        rw [hsplit]
        simp only [List.length_append, List.length_cons]
        omega
      have hheight : s.level s.root = s.height := rfl
      have hlinked := hs.linked_eq hlinks hd
      cases linked with
      -- linked: the tree is in order again
      | true =>
        obtain rfl := hstop rfl
        refine hfound (hlinkable fun _ _ _ => hlinked.symm) _ _ _ fun fuel' hf e he => ?_
        exact hsearch.finds hr' hmove.holds hn ⟨by omega, by omega⟩ (hperm.mem_iff.mpr he)
      -- not linked: the keys past some cut are lost
      | false =>
        obtain ⟨level'', l, x, y, hsit, hc⟩ := hcut rfl
        obtain ⟨e, he, hmiss⟩ := hsit.loses hr'.ordered hc
          ((hs.stocked_splitLeaf hst).congr hlinks.leafAt) hsearch.chain
        refine hlost (fun hall => ?_) _ _ _ ⟨e, hperm.mem_iff.mp he, fun fuel' hf => ?_⟩
        · have hlinks' := hall inner leaf k hd hk hs.full hg hgranted
          rw [← hlinked] at hlinks'
          exact absurd hlinks' Bool.false_ne_true
        · exact hsearch.misses hmove.holds hn ⟨by omega, by omega⟩ hmiss

end TreeState

/-! ## 3. The way to a leaf

`wayTo` is a program that walks down to the leaf as `FindLeafPage` does and notes which nodes are
full.  So the condition of the theorem can be read off the pool before the call. -/

/-- The nodes on the way of a key, from the parent of its leaf up: are they full?  And the leaf. -/
def wayTo (key : KeyType) : Nat → PageId → PoolM (Option (List Bool × LeafNode))
  | 0, _ => return none
  | fuel + 1, id => do
    if ← fetchPage id then
      let page ← readPage id
      let _ ← unpinPage id false
      if page.getNodeType = .leafNode then
        return some ([], LeafNode.ofPage page)
      else
        let node := InternalNode.ofPage page
        match ← wayTo key fuel (node.getChildAt (node.findChild key defaultKeyComparator)) with
        | some (fulls, leaf) => return some (fulls ++ [node.isFull], leaf)
        | none => return none
    else
      return none

namespace PoolM

variable {nodes : NodeMap} {level : PageId → Nat} {root id leaf : PageId} {inner : List PageId}
  {n : Nat} {m : PageId → Option Page} {key : KeyType} {k : LeafNode}

/-- The way is the path. -/
theorem wpr_wayTo (hn : 0 < n) (hshape : Shape nodes level root) (hholds : Holds m nodes)
    (h : Descends nodes key id inner leaf) (hk : nodes leaf = some (.leaf k)) :
    ∀ {fuel : Nat} {Q : Option (List Bool × LeafNode) → Refusals × View → Prop},
      inner.length < fuel →
      Q (some (inner.reverse.map nodes.fullAt, k)) ([], View.quiet n m) →
      wpr .safe (wayTo key fuel id) Q ([], View.quiet n m) := by
  have hserve : PoolMode.safe.Serves n 0 := PoolMode.serves_safe hn
  induction h with
  -- at the leaf the way ends
  | @leaf id k' hn' =>
    intro fuel Q hfuel hQ
    obtain ⟨fuel, rfl⟩ := Nat.exists_eq_add_one_of_ne_zero (Nat.ne_zero_of_lt hfuel)
    obtain ⟨q, hq, -⟩ := hholds _ _ hn'
    obtain rfl := BTreeNode.leaf.inj (Option.some.inj (hn'.symm.trans hk))
    rw [wayTo, wpr, Program.wp_bind]
    refine wpr_fetch_quiet (hserve _ rfl View.pinsAtMost_quiet)
      (hshape.ids id (by rw [hk]; rfl)).1 hq (fun hr => absurd hr (by simp)) fun _ => ?_
    rw [if_pos rfl, Program.wp_bind]
    refine wpr_readNode held_pos hholds hk fun p hp => ?_
    rw [Program.wp_bind]
    refine wpr_unpin_held (fun h => absurd h Bool.false_ne_true) ?_
    rw [if_pos hp.nodeType_leaf, hp.ofPage_leaf]
    exact hQ
  -- the node is noted, as full or not, and the way goes on to its child
  | @inner id leaf node inner hn' hd ih =>
    intro fuel Q hfuel hQ
    obtain ⟨fuel, rfl⟩ := Nat.exists_eq_add_one_of_ne_zero (Nat.ne_zero_of_lt hfuel)
    obtain ⟨q, hq, -⟩ := hholds _ _ hn'
    rw [wayTo, wpr, Program.wp_bind]
    refine wpr_fetch_quiet (hserve _ rfl View.pinsAtMost_quiet)
      (hshape.ids id (by rw [hn']; rfl)).1 hq (fun hr => absurd hr (by simp)) fun _ => ?_
    rw [if_pos rfl, Program.wp_bind]
    refine wpr_readNode held_pos hholds hn' fun p hp => ?_
    rw [Program.wp_bind]
    refine wpr_unpin_held (fun h => absurd h Bool.false_ne_true) ?_
    obtain ⟨hleaf, hnode⟩ := hp.ofPage_internal
    rw [if_neg hleaf]
    simp only [hnode]
    rw [Program.wp_bind]
    refine ih hk (Nat.lt_of_succ_lt_succ hfuel) ?_
    have hfull : nodes.fullAt id = node.isFull := by
      rw [fullAt_of_some hn', Bool.eq_iff_iff, decide_eq_true_eq,
        InternalNode.isFull_iff (hshape.fits id _ hn')]
    rw [List.reverse_cons, List.map_append, List.map_cons, hfull] at hQ
    exact hQ

end PoolM

namespace TreeRun

variable {n k fuel : Nat} {st : TreeRun} {s : TreeState} {m : PageId → Option Page}
  {key : KeyType} {rid : RID} {ps : Refusals} {live : List (KeyType × RID)}

/-- If the leaf of the key is full and gets a page for its right half, none of the requests by which
that half is linked is refused. -/
def GrantsLinks (fuel : Nat) (st : TreeRun) (ps : Refusals) (key : KeyType) : Prop :=
  st.tree.rootPageId ≠ invalidPageId →
    ∀ way ∈ ((wayTo key fuel st.tree.rootPageId).exec st.pool).1, way.2.isFull = true →
      ps.Grants (way.1.length + 1) → (ps.drop (way.1.length + 1)).headD false = false →
        Refusals.links way.1 (ps.drop (way.1.length + 1)).tail = true

/-- The callers' condition is that of the state. -/
theorem Sound.grantsLinks_iff (h : Sound n k st s m) (hn : 0 < n) (hk : k < fuel) :
    GrantsLinks fuel st ps key ↔ s.Linkable ps key := by
  cases h.ok with
  | empty =>
    refine ⟨fun _ _ _ _ _ hk => absurd hk (by simp [TreeState.empty]), fun _ hne => absurd ?_ hne⟩
    rw [h.tree]
    rfl
  | tree htree =>
    obtain ⟨inner, leaf, node, -, -, hd, hlen, hnode, -⟩ := htree.path key
    have hshort : inner.length < fuel := hlen ▸ (h.enough hk).1
    have hwp : (wayTo key fuel st.tree.rootPageId).wp .safe
        (fun r _ => r = some (inner.reverse.map s.nodes.fullAt, node)) (View.quiet n m) := by
      rw [h.tree]
      exact PoolM.wp_of_refusing
        (PoolM.wpr_wayTo hn htree.shape h.holds hd hnode hshort rfl)
    obtain ⟨-, _, hres, -⟩ := h.shows.exec_safe hwp
    have hroot : st.tree.rootPageId ≠ invalidPageId := by
      rw [h.tree]
      exact TreeState.root_ne htree
    have hfull : node.isFull = true ↔ node.entries.length = 406 :=
      LeafNode.isFull_iff (htree.fits_leaf hnode).1
    rw [GrantsLinks, hres]
    constructor
    · intro hall inner' leaf' node' hd' hnode' hlen'
      obtain ⟨rfl, rfl⟩ := hd'.unique hd
      obtain rfl := BTreeNode.leaf.inj (Option.some.inj (hnode'.symm.trans hnode))
      have hway := hall hroot _ rfl (hfull.mpr hlen')
      rwa [List.length_map, List.length_reverse] at hway
    · intro hall _ way hway hlen'
      obtain rfl := Option.some.inj hway
      rw [List.length_map, List.length_reverse]
      exact hall inner leaf node hd hnode (hfull.mp hlen')

/-- **Insert is atomic** under a pattern of refusals: if it returns true every entry is found, the
new one included, and if it returns false every `Lookup` is as before. -/
def Atomic (fuel : Nat) (st : TreeRun) (ps : Refusals) (key : KeyType) (rid : RID) : Prop :=
  let r := (st.tree.insert fuel key rid).run handleRefusing (ps, st.pool)
  ∃ returned t, r.1 = some (returned, t) ∧ ∀ fuel', fuel < fuel' →
    (returned = true → ∀ e ∈ (key, rid) :: st.entries, ∃ l,
      ((t.lookup fuel' e.1).exec r.2.2).1 = some l ∧ e.2 ∈ l) ∧
    (returned = false → ∀ key', ((t.lookup fuel' key').exec r.2.2).1
      = ((st.tree.lookup fuel' key').exec st.pool).1)

/-- **One insertion.** -/
theorem InStep.atomic_iff (h : InStep n k st s m live) (hn : 0 < n) (hk : k < fuel)
    (hst : Stocked s.nodes) (hclean : s.Clean key rid)
    (hok : (st.tree.insert fuel key rid).CallsOk handleRefusing RefusedOrSucceeds (ps, st.pool)) :
    Atomic fuel st ps key rid ↔ s.Linkable ps key := by
  obtain ⟨p, hw⟩ := (View.quiet n m).exists_within
  have henough : s.height + 1 ≤ fuel ∧ s.chain.length + 1 ≤ fuel :=
    ⟨(h.enough hk).1, Nat.lt_of_le_of_lt h.chain_le hk⟩
  have hwp : (st.tree.insert fuel key rid).wpr .succeeds (fun r v =>
      (s.Linkable ps key ∧ r = some (false, s.tree) ∧ v.2 = View.quiet n m) ∨
      ∃ t m', r = some (true, t) ∧ v.2 = View.quiet n m' ∧
        (s.Linkable ps key ∧ TreeState.Finds n t m' ((key, rid) :: s.contents) fuel ∨
          ¬ s.Linkable ps key ∧ TreeState.Loses n t m' ((key, rid) :: s.contents) fuel))
      (ps, View.quiet n m) := by
    rw [h.tree]
    exact h.ok.insertRefused h.order hclean hst h.holds PoolMode.allows_succeeds hw le_rfl hn
      (h.enough hk).1 henough (fun hl _ => Or.inl ⟨hl, rfl, rfl⟩)
      (fun hl t _ m' hf => Or.inr ⟨t, m', rfl, rfl, Or.inl ⟨hl, hf⟩⟩)
      fun hl t _ m' hf => Or.inr ⟨t, m', rfl, rfl, Or.inr ⟨hl, hf⟩⟩
  have hentries : ∀ e, e ∈ (key, rid) :: s.contents ↔ e ∈ (key, rid) :: st.entries :=
    fun e => (h.entries.cons (key, rid)).mem_iff
  obtain ⟨v, hres, hshows⟩ := h.shows.exec_refusing hok hwp
  rcases hres with ⟨hl, hres, hv⟩ | ⟨t, m', hres, hv, hcases⟩
  · refine ⟨fun _ => hl, fun _ => ⟨false, s.tree, hres, fun fuel' hf =>
      ⟨by simp, fun _ key' => ?_⟩⟩⟩
    -- both pools show the same pages
    have hlookup : (s.tree.lookup fuel' key').wp .safe
        (fun r _ => r = some ((s.contents.filter fun e => e.1 = key').map Prod.snd))
        (View.quiet n m) :=
      h.ok.lookup h.order h.holds (PoolMode.serves_safe hn) (h.enough (hk.trans hf)) rfl
    obtain rfl : v = View.quiet n m := hv
    obtain ⟨-, _, hnew, -⟩ := hshows.exec_safe hlookup
    obtain ⟨-, _, hold, -⟩ := h.shows.exec_safe hlookup
    rw [hnew, h.tree, hold]
  · obtain rfl : v = View.quiet n m' := hv
    rcases hcases with ⟨hl, hfinds⟩ | ⟨hl, e, he, hmiss⟩
    · refine ⟨fun _ => hl, fun _ => ⟨true, t, hres, fun fuel' hf => ⟨fun _ e he => ?_, by simp⟩⟩⟩
      obtain ⟨-, _, hfound, -⟩ := hshows.exec_safe (hfinds fuel' hf e ((hentries e).mpr he))
      exact hfound
    · refine ⟨fun ⟨returned, t', hres', hall⟩ => ?_, fun hl' => absurd hl' hl⟩
      obtain ⟨rfl, rfl⟩ := Prod.mk.inj (Option.some.inj (hres.symm.trans hres'))
      obtain ⟨l, hl', hmem⟩ :=
        (hall (fuel + 1) (Nat.lt_succ_self fuel)).1 rfl e ((hentries e).mp he)
      obtain ⟨-, _, hnone, -⟩ := hshows.exec_safe (hmiss (fuel + 1) (Nat.lt_succ_self fuel))
      obtain rfl := Option.some.inj (hl'.symm.trans hnone)
      exact absurd hmem List.not_mem_nil

/-- Insertions of different keys keep the tree in order and leave no leaf empty. -/
theorem InStep.run_inserts {entries : List (KeyType × RID)} : ∀ {k : Nat} {st : TreeRun}
    {s : TreeState} {m : PageId → Option Page} {live : List (KeyType × RID)},
      InStep n k st s m live → Stocked s.nodes → ((entries ++ live).map Prod.fst).Nodup →
      k + entries.length ≤ fuel →
      Run.StepsOk (TreeRun.step fuel) (Admits fuel) st (TreeOp.inserts entries) →
      ∃ t m', InStep n (k + entries.length)
        ((TreeOp.inserts entries).foldl (TreeRun.step fuel) st) t m' (entries.reverse ++ live) ∧
          Stocked t.nodes := by
  induction entries with
  | nil => exact fun h hst _ _ _ => ⟨_, _, h, hst⟩
  | cons e entries ih =>
    intro k st s m live h hst hnd hk hok
    rw [List.length_cons] at hk
    have hperm : (entries ++ e :: live).Perm (e :: entries ++ live) := List.perm_middle
    have hnd' : ((entries ++ e :: live).map Prod.fst).Nodup :=
      (hperm.map Prod.fst).nodup_iff.mpr hnd
    have hkeys := (h.live ▸ h.entries).map Prod.fst
    rw [List.map_append, List.map_cons] at hnd'
    obtain ⟨hnot, hlive⟩ := List.nodup_cons.mp (List.nodup_append.mp hnd').2.1
    obtain ⟨t, m', h', hst'⟩ := h.step (show k < fuel by omega) hok.1 fun key rid hop => by
      obtain ⟨rfl, rfl⟩ := TreeOp.insert.inj hop
      exact TreeState.clean_of_fresh h.ok (hkeys.nodup_iff.mpr hlive) fun hmem =>
        hnot (hkeys.mem_iff.mp hmem)
    rw [List.length_cons, Nat.add_comm entries.length 1, ← Nat.add_assoc, List.reverse_cons,
      List.append_assoc]
    refine ih h' (hst' _ _ rfl hst) ?_ (by omega) hok.2
    rwa [← List.map_cons, ← List.map_append] at hnd'

/-- A new key makes no leaf be split within a run of equal ones. -/
theorem InStep.clean_of_fresh {entries : List (KeyType × RID)}
    (h : InStep n k st s m (entries.reverse ++ [])) (hkeys : (entries.map Prod.fst).Nodup)
    (hnew : key ∉ entries.map Prod.fst) : s.Clean key rid := by
  have hperm : (s.contents.map Prod.fst).Perm (entries.map Prod.fst) := by
    have hentries := h.entries
    rw [h.live, List.append_nil] at hentries
    exact (hentries.trans entries.reverse_perm).map Prod.fst
  exact TreeState.clean_of_fresh h.ok (hperm.nodup_iff.mpr hkeys) fun hmem =>
    hnew (hperm.mem_iff.mp hmem)

/-! ## 4. The theorem

An insertion that is answered false has left every lookup as it was.  One that is answered true
needs the condition. -/

/-- **Insert is atomic exactly if the right half of a leaf that is split gets linked.**  The tree
was reached by insertions of different keys whose calls succeeded, the key is new, and the calls of
the insertion on the pool fail as the pattern says. -/
theorem insert_atomic_iff {b : BufferPoolManager} {m₀ : PageId → Option Page} (hb : b.Idle m₀)
    {entries : List (KeyType × RID)} (hfuel : entries.length < fuel)
    (hkeys : (entries.map Prod.fst).Nodup)
    (hops : Run.StepsOk (TreeRun.step fuel) (Admits fuel) { pool := b } (TreeOp.inserts entries))
    (hnew : key ∉ entries.map Prod.fst) :
    let st := (TreeOp.inserts entries).foldl (TreeRun.step fuel) { pool := b }
    (st.tree.insert fuel key rid).CallsOk handleRefusing RefusedOrSucceeds (ps, st.pool) →
      (Atomic fuel st ps key rid ↔ GrantsLinks fuel st ps key) := by
  intro st hok
  have hstart : Stocked TreeState.empty.nodes := fun _ _ _ hx =>
    absurd hx (by simp [TreeState.empty, leafAt])
  obtain ⟨t, m, h, hst⟩ := (inStep_start hb).run_inserts hstart
    (by rwa [List.append_nil]) (by omega) hops
  have hk : 0 + entries.length < fuel := by omega
  rw [h.grantsLinks_iff hb.size_pos hk]
  exact h.atomic_iff hb.size_pos hk hst (h.clean_of_fresh hkeys hnew) hok

/-- The fetch of the leaf is refused, and nothing changes. -/
theorem insert_atomic_refused :
    let st := (TreeOp.inserts [(5, ⟨1, 0⟩), (3, ⟨1, 1⟩)]).foldl (TreeRun.step 4)
      { pool := overNewFile 32 }
    Atomic 4 st [true] 7 ⟨1, 2⟩ ↔ GrantsLinks 4 st [true] 7 :=
  insert_atomic_iff (idle_overNewFile (by decide)) (by decide) (by decide)
    (stepsOk_of_frames (idle_overNewFile (by decide)) (by decide) (by decide) (by decide))
    (by decide) (by decide +kernel)

/-- A leaf without a parent is split, and the page for the new root is refused. -/
theorem OneLeaf.not_grantsLinks {id : PageId} {leaf : LeafNode} (h : OneLeaf n live st id leaf m)
    (hfull : live.length = 406) (hn : 0 < n) (hfuel : 0 < fuel) :
    ¬ GrantsLinks fuel st [false, false, true] key := by
  have hwp : (wayTo key fuel st.tree.rootPageId).wp .safe
      (fun r _ => r = some ([], leaf)) (View.quiet n m) := by
    rw [h.tree]
    exact PoolM.wp_of_refusing
      (PoolM.wpr_wayTo hn h.built.shape h.holds (.leaf oneLeaf_self) oneLeaf_self hfuel rfl)
  obtain ⟨-, _, hres, -⟩ := h.shows.exec_safe hwp
  have hroot : st.tree.rootPageId ≠ invalidPageId := by
    rw [h.tree]
    exact (h.built.shape.ids id h.built.shape.root_mem).2
  have hisFull : leaf.isFull = true :=
    (LeafNode.isFull_iff (h.built.fits_leaf oneLeaf_self).1).mpr (h.entries.length_eq.trans hfull)
  have hgrants : Refusals.Grants [false, false, true] 1 := by decide
  intro hall
  have hlinks : Refusals.links [] [true] = true := hall hroot _ hres hisFull hgrants rfl
  exact absurd hlinks (by decide)

/-- **The root is a full leaf, and there is no page for a new root.** -/
theorem not_atomic_of_full {b : BufferPoolManager} (hb : b.Idle fun _ => none)
    {entries : List (KeyType × RID)} (hlen : entries.length = 406)
    (hkeys : (entries.map Prod.fst).Nodup) (hnew : key ∉ entries.map Prod.fst)
    (hframes : 409 < b.poolSize) :
    Run.StepsOk (TreeRun.step 407) (Admits 407) { pool := b } (TreeOp.inserts entries) ∧
      let st := (TreeOp.inserts entries).foldl (TreeRun.step 407) { pool := b }
      (st.tree.insert 407 key rid).CallsOk handleRefusing RefusedOrSucceeds
        ([false, false, true], st.pool) ∧ ¬ Atomic 407 st [false, false, true] key rid := by
  have hne : entries ≠ [] := by
    rintro rfl
    exact absurd hlen (by decide)
  have hids : 407 + 4 < 2 ^ 32 := by decide
  obtain ⟨hops, id, leaf, m, hone⟩ := oneLeaf_run hb hframes hids (Nat.zero_lt_succ 406) hne hlen.le
  have hfull : entries.reverse.length = 406 := List.length_reverse.trans hlen
  obtain ⟨hok, -⟩ := hone.insert_refusing key rid [false, false, true] hframes hids
    (Nat.zero_lt_succ 406)
  refine ⟨hops, hok, fun hatomic => ?_⟩
  have hstart : Stocked TreeState.empty.nodes :=
    fun _ _ _ hx => absurd hx (by simp [TreeState.empty, leafAt])
  have hk : 0 + entries.length < 407 := by omega
  obtain ⟨t, m', h, hst⟩ := (inStep_start hb).run_inserts hstart
    (by rwa [List.append_nil]) hk.le hops
  have hlinkable := (h.atomic_iff hb.size_pos hk hst (h.clean_of_fresh hkeys hnew) hok).mp hatomic
  exact hone.not_grantsLinks hfull hb.size_pos (Nat.zero_lt_succ 406)
    ((h.grantsLinks_iff hb.size_pos hk).mpr hlinkable)

theorem fullLeaf_nodup : (fullLeaf.map Prod.fst).Nodup := by
  rw [fullLeaf, List.map_map]
  refine List.nodup_range.map_on fun i hi j hj heq => ?_
  have hi' := List.mem_range.mp hi
  have hj' := List.mem_range.mp hj
  have htoNat : (UInt32.ofNat i).toNat = (UInt32.ofNat j).toNat := congrArg UInt32.toNat heq
  rwa [UInt32.toNat_ofNat_of_lt' (lt_trans hi' (by decide)),
    UInt32.toNat_ofNat_of_lt' (lt_trans hj' (by decide))] at htoNat

theorem fullLeaf_fresh : 406 ∉ fullLeaf.map Prod.fst := by
  rw [fullLeaf, List.map_map]
  intro hmem
  obtain ⟨i, hi, heq⟩ := List.mem_map.mp hmem
  have hi' := List.mem_range.mp hi
  have htoNat : (UInt32.ofNat i).toNat = (406 : UInt32).toNat := congrArg UInt32.toNat heq
  rw [UInt32.toNat_ofNat_of_lt' (lt_trans hi' (by decide))] at htoNat
  have h406 : (406 : UInt32).toNat = 406 := rfl
  omega

/-- **There is no frame for a new root**: `Insert` returns true, and entries are lost. -/
theorem insert_not_atomic :
    Run.StepsOk (TreeRun.step 407) (Admits 407) { pool := overNewFile 500 }
        (TreeOp.inserts fullLeaf) ∧
      let st := (TreeOp.inserts fullLeaf).foldl (TreeRun.step 407) { pool := overNewFile 500 }
      (st.tree.insert 407 406 ⟨2, 0⟩).CallsOk handleRefusing RefusedOrSucceeds
        ([false, false, true], st.pool) ∧ ¬ Atomic 407 st [false, false, true] 406 ⟨2, 0⟩ :=
  have hframes : 409 < (overNewFile 500).poolSize := by
    have hsize : (overNewFile 500).poolSize = 500 := rfl
    rw [hsize]
    decide
  not_atomic_of_full (idle_overNewFile (by decide)) fullLeaf_length fullLeaf_nodup fullLeaf_fresh
    hframes

end TreeRun

end CourtDB
