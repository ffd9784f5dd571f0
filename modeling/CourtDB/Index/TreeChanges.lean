/-
# Trees and their entries

A tree has its nodes, their order and its chain of leaves; what it is for are the entries on the
chain (`IsTree`).  Here the changes that operations make to nodes are put together: one leaf gets
other entries, or is split and the new leaf is linked.  Each says what becomes of the entries, and
of the order if there was one.

Three things are kept apart, because not every run keeps all of them:

* `IsTree` is the structure, with parent pointers that agree and a chain that starts at the leftmost
  leaf.  Runs without refusals keep it, whatever the keys are.
* `Searchable` is less: no parent pointers.  It is what is left when requests are refused.
* `Ranged` is the order.  It is kept by splits that cut no run of equal keys.

With the order, `Lookup` and `RangeScan` find what the chain holds (§5): the list functions that say
what they visit become filters of the entries.
-/
import CourtDB.Index.TreeRanges

namespace CourtDB

open NodeMap

variable {nodes nodes' : NodeMap} {level : PageId → Nat} {root leaf id first : PageId}
  {key low high : KeyType} {rid : RID} {n n' : LeafNode} {lo hi stop : PageId → Nat}
  {inner chain l₁ l₂ : List PageId}

/-! ## 1. Trees -/

/-- What searching relies on: downward links, sorted leaves, and the chain. -/
structure Searchable (nodes : NodeMap) (level : PageId → Nat) (root first : PageId)
    (chain : List PageId) : Prop where
  shape : Shape nodes level root
  sorted : ∀ id nx es, nodes.leafAt id = some (nx, es) → SortedEntries es
  chain : Chain nodes first chain

/-- **A tree**: parent pointers agree with the children, and the chain starts at the leftmost
leaf. -/
structure IsTree (nodes : NodeMap) (level : PageId → Nat) (root first : PageId)
    (chain : List PageId) : Prop extends Searchable nodes level root first chain where
  parents : Parents nodes level root 0 none
  spine : Spine nodes root first

namespace Searchable

variable (h : Searchable nodes level root first chain)

include h

/-- A leaf of the tree has the size its header says, and its keys in order. -/
theorem fits_leaf (hn : nodes id = some (.leaf n)) : n.Fits ∧ SortedEntries n.entries :=
  ⟨h.shape.fits id _ hn, h.sorted id _ _ (leafAt_of_some hn)⟩

theorem fits_inner {m : InternalNode} (hm : nodes id = some (.internal m)) : m.Fits :=
  h.shape.fits id _ hm

/-- Every key has a path, and its leaf is on the chain. -/
theorem path (key : KeyType) : ∃ inner leaf n l₁ l₂, Descends nodes key root inner leaf ∧
    inner.length = level root ∧ nodes leaf = some (.leaf n) ∧ chain = l₁ ++ leaf :: l₂ := by
  obtain ⟨inner, leaf, hd, hlen⟩ := h.shape.descends key (level root) root h.shape.root_mem rfl
  obtain ⟨n, hn⟩ := hd.leaf_mem
  obtain ⟨l₁, l₂, hsplit⟩ := List.append_of_mem (h.chain.leaf_mem hn)
  exact ⟨inner, leaf, n, l₁, l₂, hd, hlen, hn, hsplit⟩

/-- The rest of the chain from a leaf on. -/
theorem segment (hsplit : chain = l₁ ++ leaf :: l₂) :
    Segment nodes.next leaf (leaf :: l₂) invalidPageId := by
  have hlinks := h.chain.links
  rw [hsplit] at hlinks
  obtain ⟨b, -, rfl, hrest⟩ := segment_append.mp hlinks
  exact ⟨rfl, hrest⟩

theorem leafAt_isSome : ∀ id ∈ chain, (nodes.leafAt id).isSome := fun id hid =>
  (h.chain.mem id).mp hid

end Searchable

/-! ## 2. One leaf changes

An insertion into a leaf with room, and every deletion.  The links are those of the old leaf. -/

section SetLeaf

variable (h : IsTree nodes level root first chain) (hn : nodes id = some (.leaf n))
  (hheader : n'.header.parentPageId = n.header.parentPageId ∧
    n'.header.nextPageId = n.header.nextPageId)
  (hfits : n'.Fits) (hsorted : SortedEntries n'.entries)

include h hn hheader hfits hsorted

/-- **Another leaf in the place of one**, with the same links. -/
theorem IsTree.setLeaf :
    IsTree (Function.update nodes id (some (.leaf n'))) level root first chain := by
  refine ⟨⟨h.shape.setLeaf hn hfits, fun x nx es hx => ?_, h.chain.setLeaf hn hheader.2⟩,
    h.parents.setLeaf hn hheader.1, h.spine.mono (fun x c hc => ?_) fun x hx => ?_⟩
  · -- sorted: the leaf that changed, and the others as before
    rw [leafAt_update_leaf] at hx
    split at hx
    · obtain ⟨-, rfl⟩ := Prod.mk.inj (Option.some.inj hx)
      exact hsorted
    · exact h.sorted x nx es hx
  · -- the first path of children is the same
    rw [kids_update_leaf nodes n' (kids_of_leaf hn)]
    exact hc
  · rw [leafAt_update_leaf]
    split
    · rfl
    · exact hx

end SetLeaf

/-- The entries of the chain change as those of the leaf do. -/
theorem contents_setLeaf_rest (hn : nodes id = some (.leaf n)) (hnd : chain.Nodup)
    (hid : id ∈ chain) (n' : LeafNode) :
    ∃ rest, (nodes.contents chain).Perm (n.entries ++ rest) ∧
      (contents (Function.update nodes id (some (.leaf n'))) chain).Perm (n'.entries ++ rest) := by
  obtain ⟨l₁, l₂, rfl⟩ := List.append_of_mem hid
  have hswap : ∀ a b c : List (KeyType × RID), (a ++ b ++ c).Perm (b ++ (a ++ c)) := by
    intro a b c
    rw [← List.append_assoc]
    exact List.perm_append_comm.append_right c
  -- the entries of the leaf stand between those before and behind it
  refine ⟨nodes.contents l₁ ++ nodes.contents l₂, ?_, ?_⟩
  · rw [contents_middle hn]
    exact hswap _ _ _
  · rw [contents_setLeaf hnd]
    exact hswap _ _ _

/-- The order stays if the new entries are in the range of the leaf. -/
theorem Ranged.setLeaf (h : Ranged nodes lo hi stop root chain) (hn : nodes id = some (.leaf n))
    (hrange : ∀ e ∈ n'.entries, lo id ≤ e.1.toNat ∧ e.1.toNat < stop id) :
    Ranged (Function.update nodes id (some (.leaf n'))) lo hi stop root chain :=
  ⟨h.ordered.setLeaf hn hrange, h.abuts⟩

/-! ## 3. A leaf is split

The leaf is split on the pages first, and then `InsertIntoParent` links the right half, or fails to.
Either way the entries on the chain are the old ones and the new one. -/

namespace LeafSplit

variable (hs : LeafSplit nodes level root leaf id n)

include hs

/-- After the split of a leaf `InsertIntoParent` is called. -/
theorem situation (ps : Refusals) : Situation ⟨ps, nodes.splitLeaf leaf id n key rid, root⟩
    (Function.update level id 0) 0 leaf id :=
  ⟨hs.shape_split, hs.parents_split, hs.pending_split, Nat.zero_le _⟩

variable {ps : Refusals} {s' : LinkState} {linked : Bool}
  (hlinks : Links ⟨ps, nodes.splitLeaf leaf id n key rid, root⟩ leaf (n.splitKey key rid) id s'
    linked)

include hlinks

/-- **The tree after an insertion that splits a leaf**, whether or not the new leaf was linked. -/
theorem searchable (h : Searchable nodes level root first (l₁ ++ leaf :: l₂)) :
    ∃ level', Searchable s'.nodes level' s'.root first (l₁ ++ leaf :: id :: l₂) ∧
      level' s'.root ≤ level root + 1 ∧
      ((∀ b ∈ ps, b = false) → linked = true ∧ Parents s'.nodes level' s'.root 0 none) := by
  obtain ⟨level', -, hrise, hshape, hclear⟩ := hlinks.preserves (hs.situation ps)
  have hchain : Chain (nodes.splitLeaf leaf id n key rid) first (l₁ ++ leaf :: id :: l₂) :=
    h.chain.split hs.node hs.fresh rfl rfl
  -- the height rises as the root does
  rw [Function.update_of_ne (ne_of_fresh hs.fresh hs.shape.root_mem)] at hrise
  refine ⟨level', ⟨hshape, fun x nx es hx => ?_, hchain.congr hlinks.leafAt⟩, hrise, hclear⟩
  rw [hlinks.leafAt, leafAt_splitLeaf] at hx
  have hall : SortedEntries (n.withEntry key rid) :=
    LeafNode.overflow_sorted hs.fits hs.sorted key rid
  -- sorted: each half is a part of the sorted entries
  split at hx
  · obtain ⟨-, rfl⟩ := Prod.mk.inj (Option.some.inj hx)
    rw [LeafNode.rightHalf_entries hs.length]
    exact hall.sublist (List.drop_sublist _ _)
  · split at hx
    · obtain ⟨-, rfl⟩ := Prod.mk.inj (Option.some.inj hx)
      rw [LeafNode.leftHalf_entries hs.length]
      exact hall.sublist (List.take_sublist _ _)
    · exact h.sorted x nx es hx

/-- After the split the entries are the old ones and the new one. -/
theorem contents_perm (h : Searchable nodes level root first (l₁ ++ leaf :: l₂)) :
    (s'.nodes.contents (l₁ ++ leaf :: id :: l₂)).Perm
      ((key, rid) :: nodes.contents (l₁ ++ leaf :: l₂)) := by
  have hchain : Chain (nodes.splitLeaf leaf id n key rid) first (l₁ ++ leaf :: id :: l₂) :=
    h.chain.split hs.node hs.fresh rfl rfl
  -- the two halves take the place of the leaf
  have hcontents : s'.nodes.contents (l₁ ++ leaf :: id :: l₂)
      = nodes.contents l₁ ++ ((n.leftHalf key rid id).entries ++ (n.rightHalf key rid).entries)
        ++ nodes.contents l₂ := by
    rw [contents_congr fun x _ => congrFun hlinks.leafAt x]
    exact contents_split hchain.nodup
  have hhalves : ((n.leftHalf key rid id).entries ++ (n.rightHalf key rid).entries).Perm
      ((key, rid) :: n.entries) := hs.halves_perm
  have hall := (hhalves.append_right (nodes.contents l₂)).append_left (nodes.contents l₁)
  simp only [List.append_assoc, List.cons_append] at hall
  simp only [hcontents, contents_middle hs.node, List.append_assoc]
  exact hall.trans List.perm_middle

/-- **Without refusals it is a tree.** -/
theorem isTree (h : IsTree nodes level root first (l₁ ++ leaf :: l₂))
    (hclear : ∀ b ∈ ps, b = false) :
    linked = true ∧ ∃ level', IsTree s'.nodes level' s'.root first (l₁ ++ leaf :: id :: l₂) ∧
      level' s'.root ≤ level root + 1 := by
  obtain ⟨level', hsearch, hrise, hparents⟩ := hs.searchable hlinks h.toSearchable
  obtain ⟨hlinked, hpar⟩ := hparents hclear
  refine ⟨hlinked, level', ⟨hsearch, hpar, hlinks.spine (hs.situation ps) ?_⟩, hrise⟩
  -- no first child changes, since leaves have none and the chain still begins with the same leaf
  refine h.spine.mono (fun x c hc => ?_) fun x hx => ?_
  · change (kids (nodes.splitLeaf leaf id n key rid) x).head? = some c
    rw [splitLeaf, kids_update_leaf _ _ (kids_of_fresh hs.fresh'),
      kids_update_leaf _ _ (kids_of_leaf hs.node)]
    exact hc
  · change ((nodes.splitLeaf leaf id n key rid).leafAt x).isSome
    rw [leafAt_splitLeaf]
    split
    · rfl
    · split
      · rfl
      · exact hx

/-- **The order after a split that cuts no run.**  If the new leaf could not be linked, the keys of
some range are lost. -/
theorem ranged (hnd : (l₁ ++ leaf :: l₂).Nodup) (hid : id ∉ l₁ ++ leaf :: l₂)
    (hleaves : ∀ x ∈ l₁ ++ leaf :: l₂, (nodes.leafAt x).isSome)
    (h : Ranged nodes lo hi hi root (l₁ ++ leaf :: l₂))
    (hclean : n.cutsRun key rid = false) (hkey : lo leaf ≤ key.toNat ∧ key.toNat < hi leaf) :
    ∃ lo' hi' stop', Ranged s'.nodes lo' hi' stop' s'.root (l₁ ++ leaf :: id :: l₂) ∧
      (linked = true → stop' = hi') ∧
      (linked = false → ∃ level' l x y, Situation s' level' l x y ∧
        Cut s'.nodes lo' hi' stop' x y) := by
  obtain ⟨hord, hcut⟩ := hs.ordered_splitLeaf h.ordered hclean hkey
  obtain ⟨lo', hi', stop', hfollows, hord', hafter⟩ :=
    hlinks.ordered (hs.situation ps) hord hcut (Function.update_self _ _ _)
  refine ⟨lo', hi', stop', ⟨hord', ?_⟩, hafter⟩
  have hne := hs.leaf_ne
  -- the ranges of the leaves after the split
  have hother : ∀ z ∈ l₁ ++ l₂, z ≠ leaf ∧ z ≠ id ∧ (nodes.leafAt z).isSome := by
    intro z hz
    have hzm : z ∈ l₁ ++ leaf :: l₂ := by
      rcases List.mem_append.mp hz with hz | hz
      · exact List.mem_append_left _ hz
      · exact List.mem_append_right _ (List.mem_cons_of_mem _ hz)
    refine ⟨?_, ?_, hleaves z hzm⟩
    · rintro rfl
      rw [List.nodup_middle] at hnd
      exact (List.nodup_cons.mp hnd).1 hz
    · rintro rfl
      exact hid hzm
  -- right after the split of the leaf the ranges of the chain abut
  have hsplit : Abuts (Function.update lo id (n.splitKey key rid).toNat)
      (Function.update (Function.update hi leaf (n.splitKey key rid).toNat) id (hi leaf)) 0
      (l₁ ++ leaf :: id :: l₂) (2 ^ 32) := by
    refine h.abuts.split (c := (n.splitKey key rid).toNat) (fun z hz => ?_) (fun z hz => ?_)
      ⟨Function.update_of_ne hne _ _, ?_⟩ ⟨Function.update_self _ _ _, Function.update_self _ _ _⟩
    · exact Function.update_of_ne (hother z hz).2.1 _ _
    · rw [Function.update_of_ne (hother z hz).2.1, Function.update_of_ne (hother z hz).1]
    · rw [Function.update_of_ne hne, Function.update_self]
  -- all of them are leaves
  have hleaf : ∀ z ∈ l₁ ++ leaf :: id :: l₂,
      ((nodes.splitLeaf leaf id n key rid) z).isSome ∧ Function.update level id 0 z = 0 := by
    intro z hz
    have hz' : z = id ∨ (nodes.leafAt z).isSome := by
      rcases List.mem_append.mp hz with hz | hz
      · exact Or.inr (hleaves z (List.mem_append_left _ hz))
      · rcases List.mem_cons.mp hz with rfl | hz
        · exact Or.inr (by rw [leafAt_of_some hs.node]; rfl)
        · rcases List.mem_cons.mp hz with rfl | hz
          · exact Or.inl rfl
          · exact Or.inr (hleaves z (List.mem_append_right _ (List.mem_cons_of_mem _ hz)))
    rw [hs.isSome_splitLeaf]
    by_cases hzid : z = id
    · exact ⟨Or.inl hzid, by rw [hzid, Function.update_self]⟩
    · obtain ⟨es, hes⟩ := Option.isSome_iff_exists.mp (hz'.resolve_left hzid)
      obtain ⟨k, hk, -, -⟩ := leaf_of_leafAt hes
      exact ⟨Or.inr (by rw [hk]; rfl),
        (Function.update_of_ne hzid _ _).trans (hs.shape.level_leaf z es hes)⟩
  -- and `InsertIntoParent` does not change the ranges of leaves
  refine hsplit.congr (fun z hz => ?_) fun z hz => ?_
  · exact (hfollows z (hleaf z hz).1).1
  · refine (hfollows z (hleaf z hz).1).2 ?_
    rw [(hleaf z hz).2]
    exact Nat.zero_le _

end LeafSplit

/-! ## 4. The first leaf

Where every tree begins. -/

section FirstLeaf

/-- The nodes of a tree with one leaf. -/
def oneLeaf (id : PageId) (n : LeafNode) : NodeMap :=
  Function.update (fun _ => none) id (some (.leaf n))

/-- A leaf alone is a tree. -/
theorem isTree_oneLeaf (hn : n.Fits) (hsorted : SortedEntries n.entries)
    (hparent : n.header.parentPageId = invalidPageId)
    (hnext : n.header.nextPageId = invalidPageId) (h0 : id ≠ 0) (hne : id ≠ invalidPageId) :
    IsTree (oneLeaf id n) (fun _ => 0) id id [id] := by
  have hself : oneLeaf id n id = some (.leaf n) := Function.update_self _ _ _
  have hother : ∀ x, x ≠ id → oneLeaf id n x = none := fun x hx => Function.update_of_ne hx _ _
  -- no other page holds a node
  have honly : ∀ x, (oneLeaf id n x).isSome → x = id := by
    intro x hx
    by_contra hxid
    rw [hother x hxid] at hx
    exact absurd hx (by simp)
  have hkids : ∀ x, (oneLeaf id n).kids x = [] := by
    intro x
    by_cases hx : x = id
    · rw [hx, kids_of_leaf hself]
    · rw [kids, hother x hx]
      rfl
  have hleaf : ∀ x, (oneLeaf id n).leafAt x
      = if x = id then some (n.header.nextPageId, n.entries) else none := by
    intro x
    rw [oneLeaf, leafAt_update_leaf]
    rfl
  -- the shape (root, page ids, sizes, inner nodes, children), the order of the entries, the chain,
  -- the parent pointers, and the first leaf
  refine ⟨⟨⟨?_, ?_, ?_, fun _ _ _ => rfl, ?_, ?_, fun _ _ => le_rfl, ?_⟩, ?_, ?_, ?_, ?_⟩,
    ⟨?_, ?_, ?_⟩, .leaf ?_⟩
  · -- the root is there
    rw [hself]
    rfl
  · intro x hx
    rw [honly x hx]
    exact ⟨h0, hne⟩
  · -- the sizes are those of the leaf
    intro x m hx
    obtain rfl := honly x (by rw [hx]; rfl)
    rw [← Option.some.inj (hself.symm.trans hx)]
    exact hn
  · -- there is no inner node
    intro x cs hx
    obtain rfl : x = id := by
      by_contra hxid
      rw [innerAt, hother x hxid] at hx
      exact absurd hx (by simp)
    rw [innerAt_of_leaf hself] at hx
    exact absurd hx (by simp)
  · intro x c hc
    rw [hkids] at hc
    exact absurd hc List.not_mem_nil
  · intro x
    rw [hkids]
    exact List.nodup_nil
  · -- sorted
    intro x nx es hx
    rw [hleaf] at hx
    split at hx
    · obtain ⟨-, rfl⟩ := Prod.mk.inj (Option.some.inj hx)
      exact hsorted
    · exact absurd hx (by simp)
  · -- the chain is this leaf, and ends behind it
    refine ⟨rfl, invalidPageId, ?_, rfl⟩
    rw [next, hleaf, if_pos rfl]
    exact congrArg some hnext
  · exact List.nodup_singleton id
  · intro x
    rw [List.mem_singleton, hleaf]
    split
    · rename_i hx
      simp [hx]
    · rename_i hx
      simp [hx]
  · -- the root has no parent
    rw [par_of_some hself]
    exact congrArg some hparent
  · -- any other node would be a second one
    intro c q hc _ hroot
    refine absurd ?_ hroot
    refine honly c ?_
    cases hm : oneLeaf id n c with
    | some m => rfl
    | none => rw [par, hm] at hc; exact absurd hc (by simp)
  · intro x c hc
    rw [hkids] at hc
    exact absurd hc List.not_mem_nil
  · rw [hleaf, if_pos rfl]
    rfl

/-- Its range is that of all keys. -/
theorem ranged_oneLeaf : Ranged (oneLeaf id n) (fun _ => 0) (fun _ => 2 ^ 32) (fun _ => 2 ^ 32) id
    [id] := by
  refine ⟨⟨fun x cs ks hx => ?_, fun x nx es _ e _ => ⟨Nat.zero_le _, e.1.toNat_lt⟩,
    fun _ _ => by decide, fun _ _ => le_rfl, rfl, rfl⟩, rfl, rfl⟩
  -- there is no inner node whose range would be divided
  by_cases hxid : x = id
  · rw [hxid, innerAt, oneLeaf, Function.update_self] at hx
    exact absurd hx (by simp)
  · rw [innerAt, oneLeaf, Function.update_of_ne hxid] at hx
    exact absurd hx (by simp)

theorem contents_oneLeaf : (oneLeaf id n).contents [id] = n.entries := by
  have hself : oneLeaf id n id = some (.leaf n) := Function.update_self _ _ _
  rw [contents, List.flatMap_singleton, entriesAt_of_leaf hself]

end FirstLeaf

/-! ## 5. What searches find

Sorted entries: those of a range are reached by dropping the smaller ones and taking as long as they
are not greater, which is what the loops do. -/

/-- Leaves without the key add nothing. -/
theorem lookupAlong_of_not (results : List RID)
    (h : ∀ x ∈ l₂, ∀ e ∈ nodes.entriesAt x, e.1 ≠ key) :
    nodes.lookupAlong key l₂ results = results := by
  cases l₂ with
  | nil => rfl
  | cons x l =>
    rw [lookupAlong, if_pos]
    refine Or.inr fun hhead => ?_
    obtain ⟨e, he, hek⟩ := Option.map_eq_some_iff.mp hhead
    exact h x List.mem_cons_self e (List.mem_of_head? he) hek

/-- **Lookup finds the entries of its key.** -/
theorem Ranged.lookup (h : Ranged nodes lo hi hi root chain)
    (hs : Searchable nodes level root first chain) (hd : Descends nodes key root inner leaf)
    (hsplit : chain = l₁ ++ leaf :: l₂) :
    nodes.lookupAlong key l₂ (((nodes.entriesAt leaf).filter fun e => e.1 = key).map Prod.snd)
      = ((nodes.contents chain).filter fun e => e.1 = key).map Prod.snd := by
  have hkey := h.ordered.descends_root (fun x n hx => hs.fits_inner hx) hd
  obtain ⟨hno, hfilter⟩ := h.filter_contents hs.leafAt_isSome hsplit hkey
  rw [hfilter]
  exact lookupAlong_of_not _ fun x hx => hno x (List.mem_append_right _ hx)

/-- **The chain is sorted.** -/
theorem Ranged.contents_sorted (h : Ranged nodes lo hi stop root chain)
    (hs : Searchable nodes level root first chain) : SortedEntries (nodes.contents chain) := by
  have hrange : ∀ x ∈ chain, lo x < stop x ∧ ∀ e ∈ nodes.entriesAt x,
      lo x ≤ e.1.toNat ∧ e.1.toNat < stop x := fun x hx => h.leaf_range hs.leafAt_isSome hx
  have hsorted : ∀ x ∈ chain, SortedEntries (nodes.entriesAt x) := by
    intro x hx
    obtain ⟨⟨nx, es⟩, hes⟩ := Option.isSome_iff_exists.mp (hs.leafAt_isSome x hx)
    rw [entriesAt, hes]
    exact hs.sorted x nx es hes
  have habuts := h.abuts
  generalize (0 : Nat) = a at habuts
  clear h hs
  induction chain generalizing a with
  | nil => exact List.Pairwise.nil
  | cons x l ih =>
    obtain ⟨-, hrest⟩ := habuts
    have hl := fun y hy => hrange y (List.mem_cons_of_mem _ hy)
    refine List.pairwise_append.mpr ⟨hsorted x List.mem_cons_self,
      ih hl (fun y hy => hsorted y (List.mem_cons_of_mem _ hy)) _ hrest, fun e he f hf => ?_⟩
    -- what is further along the chain is in a later range
    obtain ⟨y, hy, hfy⟩ := List.mem_flatMap.mp hf
    have hlater := ((hrest.bounds fun z hz => (hl z hz).1.le).2 y hy).1
    have he' := ((hrange x List.mem_cons_self).2 e he).2
    have hf' := ((hl y hy).2 f hfy).1
    omega

/-- Dropping the entries before a key from sorted entries. -/
theorem SortedEntries.dropWhile_eq {l : List (KeyType × RID)} (h : SortedEntries l)
    (low : KeyType) : (l.dropWhile fun e => e.1.toNat < low.toNat)
      = l.filter fun e => low.toNat ≤ e.1.toNat := by
  induction l with
  | nil => rfl
  | cons e l ih =>
    obtain ⟨hhead, htail⟩ := List.pairwise_cons.mp h
    by_cases he : e.1.toNat < low.toNat
    · rw [List.dropWhile_cons_of_pos (by simpa using he),
        List.filter_cons_of_neg (by simpa using he), ih htail]
    · have hall : ∀ f ∈ e :: l, decide (low.toNat ≤ f.1.toNat) = true := by
        intro f hf
        rcases List.mem_cons.mp hf with rfl | hf
        · simpa using he
        · exact decide_eq_true ((Nat.le_of_not_lt he).trans (hhead f hf))
      rw [List.dropWhile_cons_of_neg (by simpa using he), List.filter_eq_self.mpr hall]

/-- Taking the entries up to a key from sorted entries. -/
theorem SortedEntries.takeWhile_eq {l : List (KeyType × RID)} (h : SortedEntries l)
    (high : KeyType) : (l.takeWhile fun e => e.1.toNat ≤ high.toNat)
      = l.filter fun e => e.1.toNat ≤ high.toNat := by
  induction l with
  | nil => rfl
  | cons e l ih =>
    obtain ⟨hhead, htail⟩ := List.pairwise_cons.mp h
    by_cases he : e.1.toNat ≤ high.toNat
    · rw [List.takeWhile_cons_of_pos (by simpa using he),
        List.filter_cons_of_pos (by simpa using he), ih htail]
    · have hnone : ∀ f ∈ e :: l, ¬ decide (f.1.toNat ≤ high.toNat) = true := by
        intro f hf
        rcases List.mem_cons.mp hf with rfl | hf
        · simpa using he
        · have hle := hhead f hf
          simp only [decide_eq_true_eq]
          omega
      rw [List.takeWhile_cons_of_neg (by simpa using he), List.filter_eq_nil_iff.mpr hnone]

/-- An entry is in a range of keys. -/
def inRange (low high : KeyType) (e : KeyType × RID) : Bool :=
  low.toNat ≤ e.1.toNat && e.1.toNat ≤ high.toNat

/-- On sorted entries `RangeScan` returns those of the range. -/
theorem scanAlong_eq (l : List PageId) (h : SortedEntries (nodes.contents l)) :
    nodes.scanAlong low high l = (nodes.contents l).filter (inRange low high) := by
  induction l with
  | nil => rfl
  | cons x l ih =>
    obtain ⟨hx, hl, hcross⟩ := List.pairwise_append.mp h
    have hvisited := SortedEntries.dropWhile_eq hx low
    have hsorted : SortedEntries ((nodes.entriesAt x).filter fun e => low.toNat ≤ e.1.toNat) :=
      hx.sublist List.filter_sublist
    have hboth : ((nodes.entriesAt x).filter fun e => low.toNat ≤ e.1.toNat).filter
        (fun e => e.1.toNat ≤ high.toNat) = (nodes.entriesAt x).filter (inRange low high) := by
      rw [List.filter_filter]
      congr 1
      funext e
      exact Bool.and_comm _ _
    rw [scanAlong, hvisited, contents, List.flatMap_cons, List.filter_append, ← hboth]
    split
    · rename_i hall
      rw [List.filter_eq_self.mpr fun e he => List.all_eq_true.mp hall e he, ih hl]
      rfl
    · rename_i hnot
      -- an entry of this leaf is past the range, and so is all that follows
      rw [hsorted.takeWhile_eq high, List.self_eq_append_right]
      rw [List.all_eq_true] at hnot
      obtain ⟨e, he⟩ := not_forall.mp hnot
      obtain ⟨hmem, hgt⟩ := Classical.not_imp.mp he
      refine List.filter_eq_nil_iff.mpr fun f hf => ?_
      have hle := hcross e (List.mem_of_mem_filter hmem) f hf
      simp only [inRange, Bool.and_eq_true, decide_eq_true_eq, not_and] at hgt ⊢
      omega

/-- **RangeScan finds the entries of its range.** -/
theorem Ranged.scan (h : Ranged nodes lo hi hi root chain)
    (hs : Searchable nodes level root first chain) (hd : Descends nodes low root inner leaf)
    (hsplit : chain = l₁ ++ leaf :: l₂) :
    nodes.scanAlong low high (leaf :: l₂)
      = (nodes.contents chain).filter (inRange low high) := by
  have hkey := h.ordered.descends_root (fun x n hx => hs.fits_inner hx) hd
  have hsorted := h.contents_sorted hs
  rw [hsplit, contents, List.flatMap_append] at hsorted
  have hsplit' : nodes.contents chain = nodes.contents l₁ ++ nodes.contents (leaf :: l₂) := by
    rw [hsplit, contents, List.flatMap_append]
    rfl
  have hbefore : (nodes.contents l₁).filter (inRange low high) = [] := by
    refine List.filter_eq_nil_iff.mpr fun e he => ?_
    obtain ⟨y, hy, hey⟩ := List.mem_flatMap.mp he
    have hlt := h.before hs.leafAt_isSome hsplit y hy
    have hrange := ((h.leaf_range hs.leafAt_isSome
      (hsplit ▸ List.mem_append_left _ hy)).2 e hey).2
    simp only [inRange, Bool.and_eq_true, decide_eq_true_eq, not_and]
    omega
  rw [scanAlong_eq _ (List.pairwise_append.mp hsorted).2.1, hsplit', List.filter_append, hbefore,
    List.nil_append]

/-- **Lookup finds nothing** where the path of its key ends in a leaf without it. -/
theorem lookupAlong_lost (h : ∀ e ∈ nodes.entriesAt leaf, e.1 ≠ key) :
    nodes.lookupAlong key l₂ (((nodes.entriesAt leaf).filter fun e => e.1 = key).map Prod.snd)
      = [] := by
  have hnil : ((nodes.entriesAt leaf).filter fun e => e.1 = key) = [] :=
    List.filter_eq_nil_iff.mpr fun e he => by simpa using h e he
  rw [hnil]
  cases l₂ with
  | nil => rfl
  | cons x l =>
    rw [lookupAlong, List.map_nil, if_pos (Or.inl rfl)]

end CourtDB
