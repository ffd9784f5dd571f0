/-
# Keys and the leaves they are in

In a tree that is in order the ranges of the leaves lie end to end along the chain (`Ranged`), so a
key has one leaf, and its path ends there.  `Lookup` then returns all entries of its key, and
`RangeScan` all entries of its range: the entries of a key are a run within one leaf, and those of a
range a run along the chain.

A full leaf is cut at the key of its right half.  That is in order again if the run of entries with
that key is not cut (`LeafNode.cutsRun`).  If it is cut, entries with the split key stay in the left
half, outside its new range, and this is the only way in which insertions that are served can bring
a tree out of order.

In a tree that was left cut, the path of a key past the cut ends in a leaf that does not have it
(`Situation.lost`).  The path follows the ranges that the parents believe in, and the left node
still has the larger one.
-/
import CourtDB.Index.TreeInsert
import CourtDB.Index.TreeOrder

namespace CourtDB

open NodeMap InternalNode

variable {nodes nodes' : NodeMap} {level : PageId → Nat} {root leaf id first : PageId}
  {key : KeyType} {rid : RID} {n n' : LeafNode} {lo hi stop : PageId → Nat}
  {inner chain l₁ l₂ : List PageId}

/-! ## 1. Leaves

The entries of a leaf lie in its range.  A new entry does because the descent with its key ended
here; a split leaves each half with its part. -/

/-- A link and entries come from a leaf. -/
theorem leaf_of_leafAt {nx : PageId} {es : List (KeyType × RID)}
    (h : nodes.leafAt id = some (nx, es)) :
    ∃ k, nodes id = some (.leaf k) ∧ k.header.nextPageId = nx ∧ k.entries = es := by
  unfold leafAt at h
  split at h
  · obtain ⟨rfl, rfl⟩ := Prod.mk.inj (Option.some.inj h)
    exact ⟨_, by assumption, rfl, rfl⟩
  · exact absurd h (by simp)
  · exact absurd h (by simp)

/-- **Other entries of its range in one leaf.** -/
theorem Ordered.setLeaf (h : Ordered nodes lo hi stop root) (hn : nodes id = some (.leaf n))
    (hrange : ∀ e ∈ n'.entries, lo id ≤ e.1.toNat ∧ e.1.toNat < stop id) :
    Ordered (Function.update nodes id (some (.leaf n'))) lo hi stop root := by
  have hsome : ∀ x, (Function.update nodes id (some (.leaf n')) x).isSome → (nodes x).isSome := by
    intro x hx
    rcases (isSome_update _ _ _ _).mp hx with rfl | hx
    · rw [hn]
      rfl
    · exact hx
  refine ⟨fun x cs ks hx => ?_, fun x nx es hx => ?_, fun x hx => h.lt x (hsome x hx),
    fun x hx => h.le x (hsome x hx), h.root_lo, h.root_hi⟩
  · -- inner nodes are not written
    rw [innerAt_update_leaf nodes n' (innerAt_of_leaf hn)] at hx
    exact h.inner x cs ks hx
  · -- the leaf has the new entries, which lie in its range
    rw [leafAt_update_leaf] at hx
    split at hx
    · rename_i hxid
      obtain ⟨-, rfl⟩ := Prod.mk.inj (Option.some.inj hx)
      rw [hxid]
      exact hrange
    · exact h.leaf x nx es hx

namespace LeafNode

/-- Splitting the leaf cuts a run of equal keys in two. -/
def cutsRun (n : LeafNode) (key : KeyType) (rid : RID) : Bool :=
  ((n.withEntry key rid).map Prod.fst)[202]? = ((n.withEntry key rid).map Prod.fst)[203]?

/-- 203 entries stay in the left half. -/
theorem leftHalf_entries (hlen : (n.withEntry key rid).length = 407) :
    (n.leftHalf key rid id).entries = (n.withEntry key rid).take 203 := by
  rw [leftHalf, splitLeft, hlen]

theorem rightHalf_entries (hlen : (n.withEntry key rid).length = 407) :
    (n.rightHalf key rid).entries = (n.withEntry key rid).drop 203 := by
  rw [rightHalf, splitRight, hlen]

/-- The split key is the first key of the right half. -/
theorem splitKey_eq (hlen : (n.withEntry key rid).length = 407) :
    n.splitKey key rid = ((n.withEntry key rid).get ⟨203, by omega⟩).1 := by
  rw [splitKey, getKeyAt, getKeys, rightHalf_entries hlen, List.map_drop,
    List.getD_eq_getElem?_getD,
    List.getElem?_drop]
  simp [hlen]

end LeafNode

namespace LeafSplit

variable (h : LeafSplit nodes level root leaf id n)

include h

/-- The right half has the keys from the split key on. -/
theorem le_of_mem_right {e : KeyType × RID} (he : e ∈ (n.rightHalf key rid).entries) :
    (n.splitKey key rid).toNat ≤ e.1.toNat := by
  have hlen : (n.withEntry key rid).length = 407 := h.length
  have hsorted : SortedEntries (n.withEntry key rid) :=
    LeafNode.overflow_sorted h.fits h.sorted key rid
  rw [LeafNode.rightHalf_entries hlen] at he
  rw [LeafNode.splitKey_eq hlen, List.get_eq_getElem]
  obtain ⟨i, hi, rfl⟩ := List.mem_drop_iff_getElem.mp he
  rcases Nat.eq_zero_or_pos i with rfl | hpos
  · -- the split key itself, or an entry behind it
    exact le_rfl
  · exact List.pairwise_iff_getElem.mp hsorted 203 (203 + i) (by omega) (by omega) (by omega)

/-- The left half has the keys up to it, and those before it if no run is cut. -/
theorem lt_of_mem_left (hclean : n.cutsRun key rid = false) {e : KeyType × RID}
    (he : e ∈ (n.leftHalf key rid id).entries) : e.1.toNat < (n.splitKey key rid).toNat := by
  have hlen : (n.withEntry key rid).length = 407 := h.length
  have hsorted : SortedEntries (n.withEntry key rid) :=
    LeafNode.overflow_sorted h.fits h.sorted key rid
  rw [LeafNode.leftHalf_entries hlen] at he
  rw [LeafNode.splitKey_eq hlen, List.get_eq_getElem]
  obtain ⟨i, hi, rfl⟩ := List.mem_take_iff_getElem.mp he
  -- the run of the split key is not cut, so the last key on the left is another one
  have hne : (n.withEntry key rid)[202].1 ≠ (n.withEntry key rid)[203].1 := by
    have hno := of_decide_eq_false hclean
    rw [List.getElem?_eq_getElem (by rw [List.length_map]; omega),
      List.getElem?_eq_getElem (by rw [List.length_map]; omega), List.getElem_map,
      List.getElem_map] at hno
    exact fun heq => hno (congrArg some heq)
  have hpair := List.pairwise_iff_getElem.mp hsorted
  have hlt : (n.withEntry key rid)[202].1.toNat < (n.withEntry key rid)[203].1.toNat := by
    have hle := hpair 202 203 (by omega) (by omega) (by omega)
    exact lt_of_le_of_ne hle fun heq => hne (UInt32.toNat_inj.mp heq)
  -- all keys on the left are at most the last one
  rcases Nat.lt_or_ge i 202 with hi' | hi'
  · exact lt_of_le_of_lt (hpair i 202 (by omega) (by omega) hi') hlt
  · obtain rfl : i = 202 := by omega
    exact hlt

theorem nonempty_left : ∃ e, e ∈ (n.leftHalf key rid id).entries := by
  refine List.exists_mem_of_length_pos ?_
  rw [LeafNode.leftHalf_entries h.length, List.length_take, h.length]
  decide

theorem nonempty_right : ∃ e, e ∈ (n.rightHalf key rid).entries := by
  refine List.exists_mem_of_length_pos ?_
  rw [LeafNode.rightHalf_entries h.length, List.length_drop, h.length]
  decide

/-- The split of a leaf leaves no empty one. -/
theorem stocked_splitLeaf (hst : Stocked nodes) :
    Stocked (nodes.splitLeaf leaf id n key rid) := by
  have hleft : ∃ e, e ∈ (n.leftHalf key rid id).entries := h.nonempty_left
  have hright : ∃ e, e ∈ (n.rightHalf key rid).entries := h.nonempty_right
  exact (hst.setLeaf leaf (List.ne_nil_of_mem hleft.choose_spec)).setLeaf id
    (List.ne_nil_of_mem hright.choose_spec)

/-- The two halves have the entries of the leaf and the new one. -/
theorem halves_perm : ((n.leftHalf key rid id).entries ++ (n.rightHalf key rid).entries).Perm
    ((key, rid) :: n.entries) := by
  have happ : (n.leftHalf key rid id).entries ++ (n.rightHalf key rid).entries
      = n.withEntry key rid := LeafNode.split_append n n _ id
  rw [happ]
  exact LeafNode.overflow_perm h.fits h.sorted key rid

omit h in
/-- The left half links to the right one, and that one to the old next leaf. -/
theorem leafAt_splitLeaf (x : PageId) : (nodes.splitLeaf leaf id n key rid).leafAt x
    = if x = id then some (n.header.nextPageId, (n.rightHalf key rid).entries)
      else if x = leaf then some (id, (n.leftHalf key rid id).entries) else nodes.leafAt x := by
  rw [splitLeaf, leafAt_update_leaf, leafAt_update_leaf]
  rfl

theorem innerAt_splitLeaf (x : PageId) :
    (nodes.splitLeaf leaf id n key rid).innerAt x = nodes.innerAt x := by
  rw [splitLeaf, innerAt_update_leaf _ _ (innerAt_of_fresh h.fresh'),
    innerAt_update_leaf _ _ (innerAt_of_leaf h.node)]

theorem isSome_splitLeaf (x : PageId) : (nodes.splitLeaf leaf id n key rid x).isSome
    ↔ x = id ∨ (nodes x).isSome := by
  have hs : (nodes leaf).isSome := by rw [h.node]; rfl
  rw [splitLeaf, isSome_update, isSome_update]
  constructor
  · rintro (hx | rfl | hx)
    · exact Or.inl hx
    · exact Or.inr hs
    · exact Or.inr hx
  · exact fun hx => hx.imp_right Or.inr

/-- **A leaf that is split without cutting a run** is cut at the split key. -/
theorem ordered_splitLeaf (ho : Ordered nodes lo hi hi root) (hclean : n.cutsRun key rid = false)
    (hkey : lo leaf ≤ key.toNat ∧ key.toNat < hi leaf) :
    let c := (n.splitKey key rid).toNat
    let lo' := Function.update lo id c
    let hi' := Function.update hi id (hi leaf)
    let stop' := Function.update (Function.update hi leaf c) id (hi leaf)
    Ordered (nodes.splitLeaf leaf id n key rid) lo' hi' stop' root ∧
      Cut (nodes.splitLeaf leaf id n key rid) lo' hi' stop' leaf id := by
  intro c lo' hi' stop'
  have hs : (nodes leaf).isSome := by rw [h.node]; rfl
  have hlne : leaf ≠ id := h.leaf_ne
  have hold : ∀ {x : PageId}, (nodes x).isSome → x ≠ id := fun hx => ne_of_fresh h.fresh hx
  -- all entries lie in the range of the leaf, so the split key lies inside it
  have hrange : ∀ e ∈ (n.leftHalf key rid id).entries ++ (n.rightHalf key rid).entries,
      lo leaf ≤ e.1.toNat ∧ e.1.toNat < hi leaf := by
    intro e he
    rcases List.mem_cons.mp (h.halves_perm.mem_iff.mp he) with rfl | he
    · exact hkey
    · exact ho.leaf leaf _ _ (leafAt_of_some h.node) e he
  have hlt₁ : lo leaf < c := by
    have hne : ∃ e, e ∈ (n.leftHalf key rid id).entries := h.nonempty_left
    obtain ⟨e, he⟩ := hne
    exact lt_of_le_of_lt (hrange e (List.mem_append_left _ he)).1 (h.lt_of_mem_left hclean he)
  have hlt₂ : c < hi leaf := by
    have hne : ∃ e, e ∈ (n.rightHalf key rid).entries := h.nonempty_right
    obtain ⟨e, he⟩ := hne
    exact lt_of_le_of_lt (h.le_of_mem_right he) (hrange e (List.mem_append_right _ he)).2
  -- the ends of the ranges stay for the old nodes, but the left half now stops where the right one
  -- begins
  have hlo : ∀ x, (nodes x).isSome → lo' x = lo x :=
    fun x hx => Function.update_of_ne (hold hx) _ _
  have hhi : ∀ x, (nodes x).isSome → hi' x = hi x :=
    fun x hx => Function.update_of_ne (hold hx) _ _
  have hstop : ∀ x, (nodes x).isSome → x ≠ leaf → stop' x = hi x := by
    intro x hx hxl
    exact (Function.update_of_ne (hold hx) _ _).trans (Function.update_of_ne hxl _ _)
  have hstopl : stop' leaf = c :=
    (Function.update_of_ne hlne _ _).trans (Function.update_self _ _ _)
  have hloid : lo' id = c := Function.update_self _ _ _
  have hhiid : hi' id = hi leaf := Function.update_self _ _ _
  have hstopid : stop' id = hi leaf := Function.update_self _ _ _
  refine ⟨⟨fun x cs ks hx => ?_, fun x nx es hx => ?_, fun x hx => ?_, fun x hx => ?_, ?_, ?_⟩,
    ⟨hstopl.trans hloid.symm, hhiid.trans (hhi leaf hs).symm, ?_, fun x hx hxl => ?_⟩⟩
  · -- inner nodes: the ranges of their children have not changed
    rw [h.innerAt_splitLeaf] at hx
    have hk := kids_of_innerAt hx
    have hxs : (nodes x).isSome := by
      cases hn : nodes x with
      | some m => rfl
      | none => rw [innerAt, hn] at hx; exact absurd hx (by simp)
    have hxl : x ≠ leaf := by
      rintro rfl
      rw [innerAt_of_leaf h.node] at hx
      exact absurd hx (by simp)
    rw [hlo x hxs, hstop x hxs hxl]
    exact (ho.inner x cs ks hx).congr
      (fun d hd => hlo d (h.shape.kid x d (hk.symm ▸ hd)).1)
      fun d hd => hhi d (h.shape.kid x d (hk.symm ▸ hd)).1
  · -- leaves: the right half lies above the split key, the left half below it
    rw [leafAt_splitLeaf] at hx
    split at hx
    · rename_i hxid
      obtain ⟨-, rfl⟩ := Prod.mk.inj (Option.some.inj hx)
      rw [hxid, hloid, hstopid]
      exact fun e he => ⟨h.le_of_mem_right he, (hrange e (List.mem_append_right _ he)).2⟩
    · split at hx
      · rename_i hxl
        obtain ⟨-, rfl⟩ := Prod.mk.inj (Option.some.inj hx)
        rw [hxl, hlo leaf hs, hstopl]
        exact fun e he =>
          ⟨(hrange e (List.mem_append_left _ he)).1, h.lt_of_mem_left hclean he⟩
      · rename_i hxl
        obtain ⟨k, hk, -, rfl⟩ := leaf_of_leafAt hx
        have hxs : (nodes x).isSome := by rw [hk]; rfl
        rw [hlo x hxs, hstop x hxs hxl]
        exact ho.leaf x nx _ hx
  · -- no range is empty
    rcases (h.isSome_splitLeaf x).mp hx with rfl | hxs
    · rw [hloid, hstopid]
      exact hlt₂
    · by_cases hxl : x = leaf
      · rw [hxl, hlo leaf hs, hstopl]
        exact hlt₁
      · rw [hlo x hxs, hstop x hxs hxl]
        exact ho.lt x hxs
  · -- only the left half stops before its range ends
    rcases (h.isSome_splitLeaf x).mp hx with rfl | hxs
    · rw [hstopid, hhiid]
    · by_cases hxl : x = leaf
      · rw [hxl, hstopl, hhi leaf hs]
        exact hlt₂.le
      · rw [hstop x hxs hxl, hhi x hxs]
  · -- the root has all keys
    rw [hlo root h.shape.root_mem]
    exact ho.root_lo
  · rw [hhi root h.shape.root_mem]
    exact ho.root_hi
  · -- the right half takes the rest of the range of the leaf
    rw [hstopid, hhi leaf hs]
  · rcases (h.isSome_splitLeaf x).mp hx with rfl | hxs
    · rw [hstopid, hhiid]
    · rw [hstop x hxs hxl, hhi x hxs]

end LeafSplit

/-! ## 2. Paths

Where the path of a key ends, by induction on the level.  With a node that is cut the question is
whether the path meets it: it does for every key of its range (`Ordered.descends_under`). -/

/-- **The path of a key** of the range ends in the leaf whose range it is in. -/
theorem Ordered.descends (ho : Ordered nodes lo hi hi root)
    (hfits : ∀ x n, nodes x = some (.internal n) → n.Fits) (h : Descends nodes key id inner leaf)
    (hkey : lo id ≤ key.toNat ∧ key.toNat < hi id) :
    lo leaf ≤ key.toNat ∧ key.toNat < hi leaf := by
  induction h with
  | leaf hn => exact hkey
  | @inner id leaf n inner hn _ ih =>
    obtain ⟨l₁, c, l₂, -, hlo, hhi, -, hget⟩ :=
      (ho.inner id _ _ (innerAt_of_some hn)).findChild (hfits id n hn) hkey.1 hkey.2
    exact ih (hget.symm ▸ ⟨hlo, hhi⟩)

theorem Ordered.descends_root (ho : Ordered nodes lo hi hi root)
    (hfits : ∀ x n, nodes x = some (.internal n) → n.Fits)
    (h : Descends nodes key root inner leaf) : lo leaf ≤ key.toNat ∧ key.toNat < hi leaf := by
  refine ho.descends hfits h ⟨?_, ?_⟩
  · rw [ho.root_lo]
    exact Nat.zero_le _
  · rw [ho.root_hi]
    exact key.toNat_lt

/-- **The path of a key past the stop of a node** ends in a leaf that stops before the key. -/
theorem Ordered.descends_past (ho : Ordered nodes lo hi stop root)
    (hfits : ∀ x n, nodes x = some (.internal n) → n.Fits)
    (hkids : ∀ x, ∀ c ∈ nodes.kids x, (nodes c).isSome) (h : Descends nodes key id inner leaf)
    (hkey : stop id ≤ key.toNat) : stop leaf ≤ key.toNat := by
  induction h with
  | leaf hn => exact hkey
  | @inner id leaf n inner hn _ ih =>
    obtain ⟨c, hc, hget, hend⟩ :=
      (ho.inner id _ _ (innerAt_of_some hn)).findChild_past (hfits id n hn) hkey
    refine ih ?_
    rw [hget]
    refine (ho.le c (hkids id c ?_)).trans (hend.trans_le hkey)
    rw [kids_of_some hn]
    exact hc

/-- Below a page. -/
inductive Under (nodes : NodeMap) (x : PageId) : PageId → Prop
  | refl : Under nodes x x
  | kid {id c : PageId} (hc : c ∈ nodes.kids id) (h : Under nodes x c) : Under nodes x id

/-- Nodes from the level of a pending node on are below the root. -/
theorem Situation.under_root {s : LinkState} {l : Nat} {left right : PageId}
    (h : Situation s level l left right) (k : Nat) : ∀ x, (s.nodes x).isSome →
      level left ≤ level x → x ≠ right → level s.root = level x + k →
        ∀ y, Under s.nodes y x → Under s.nodes y s.root := by
  have hle := h.level_le
  induction k with
  | zero =>
    intro x hx hl hne hlev y hy
    by_cases hroot : x = s.root
    · exact hroot ▸ hy
    · -- a parent of it would be above the root
      obtain ⟨n, hn⟩ := Option.isSome_iff_exists.mp hx
      have hmem := h.parents.up x _ (par_of_some hn) (by omega) hroot
        fun he => hne (Option.some.inj he)
      obtain ⟨m, hm, -⟩ := internal_of_mem_kids hmem
      have htop := h.shape.top _ (by rw [hm]; rfl : (s.nodes n.header.parentPageId).isSome)
      have hkid := (h.shape.kid _ x hmem).2
      omega
  | succ k ih =>
    intro x hx hl hne hlev y hy
    have hroot : x ≠ s.root := by
      rintro rfl
      omega
    obtain ⟨n, hn⟩ := Option.isSome_iff_exists.mp hx
    have hmem := h.parents.up x _ (par_of_some hn) (by omega) hroot
      fun he => hne (Option.some.inj he)
    obtain ⟨m, hm, -⟩ := internal_of_mem_kids hmem
    have hkid := (h.shape.kid _ x hmem).2
    have hpl := h.pending.level_eq
    refine ih n.header.parentPageId (by rw [hm]; rfl) (by omega) ?_ (by omega) y (.kid hmem hy)
    rintro heq
    rw [heq] at hkid
    omega

/-- Ranges below a node lie in its range. -/
theorem Ordered.under_range (ho : Ordered nodes lo hi stop root) {x y : PageId}
    (h : Under nodes y x) : lo x ≤ lo y ∧ hi y ≤ hi x ∨ y = x := by
  induction h with
  | refl => exact Or.inr rfl
  | @kid id c hc _ ih =>
    obtain ⟨n, hn, hcn⟩ := internal_of_mem_kids hc
    obtain ⟨hlo, hhi⟩ := (ho.inner id _ _ (innerAt_of_some hn)).bounds hcn
    have hle := hhi.trans (ho.le id (by rw [hn]; rfl))
    rcases ih with ⟨h₁, h₂⟩ | rfl
    · exact Or.inl ⟨hlo.trans h₁, h₂.trans hle⟩
    · exact Or.inl ⟨hlo, hle⟩

/-- **A path meets every node below whose range the key is in.** -/
theorem Ordered.descends_under (ho : Ordered nodes lo hi stop root)
    (hshape : Shape nodes level root) {x y : PageId} (h : Under nodes y x)
    (hkey : lo y ≤ key.toNat ∧ key.toNat < hi y) :
    ∀ {inner : List PageId}, Descends nodes key x inner leaf →
      ∃ inner', Descends nodes key y inner' leaf := by
  induction h with
  | refl => exact fun hd => ⟨_, hd⟩
  | @kid id c hc hy ih =>
    intro inner hd
    obtain ⟨n, hn, hcn⟩ := internal_of_mem_kids hc
    have hfits : n.Fits := hshape.fits id _ hn
    have hdiv := ho.inner id _ _ (innerAt_of_some hn)
    -- the key is in the range of the child below which `y` is
    have hck : lo c ≤ key.toNat ∧ key.toNat < hi c := by
      rcases ho.under_range hy with ⟨h₁, h₂⟩ | rfl
      · exact ⟨h₁.trans hkey.1, lt_of_lt_of_le hkey.2 h₂⟩
      · exact hkey
    obtain ⟨ha, hb⟩ := hdiv.bounds hcn
    obtain ⟨m₁, d, m₂, hsplit, hdlo, hdhi, -, hget⟩ :=
      hdiv.findChild hfits (ha.trans hck.1) (lt_of_lt_of_le hck.2 hb)
    obtain rfl : c = d := hdiv.unique hcn (by rw [hsplit]; simp) hck ⟨hdlo, hdhi⟩
    cases hd with
    | leaf hn' => exact absurd (hn.symm.trans hn') (by simp)
    | inner hn' hd' =>
      obtain rfl := BTreeNode.internal.inj (Option.some.inj (hn.symm.trans hn'))
      rw [hget] at hd'
      exact ih hd'

/-- **A key past the cut is lost**: its path ends in a leaf that does not have it. -/
theorem Situation.lost {s : LinkState} {l : Nat} {left right : PageId}
    (h : Situation s level l left right) (ho : Ordered s.nodes lo hi stop s.root)
    (hc : Cut s.nodes lo hi stop left right)
    (hkey : lo right ≤ key.toNat ∧ key.toNat < hi right)
    (hd : Descends s.nodes key s.root inner leaf) :
    ∀ e ∈ s.nodes.entriesAt leaf, e.1 ≠ key := by
  have hkids : ∀ x, ∀ c ∈ s.nodes.kids x, (s.nodes c).isSome :=
    fun x c hc => (h.shape.kid x c hc).1
  have htop := h.shape.top left h.pending.left_mem
  have hunder := h.under_root (level s.root - level left) left h.pending.left_mem le_rfl
    h.pending.ne.symm (by omega) left .refl
  have hlt := ho.lt left h.pending.left_mem
  rw [hc.left_stop] at hlt
  obtain ⟨inner', hd'⟩ := ho.descends_under h.shape hunder
    ⟨hlt.le.trans hkey.1, hc.right_hi ▸ hkey.2⟩ hd
  have hpast := ho.descends_past (fun x n hx => h.shape.fits x _ hx) hkids hd'
    (hc.left_stop.trans_le hkey.1)
  obtain ⟨k, hk⟩ := hd.leaf_mem
  rw [entriesAt_of_leaf hk]
  rintro e he rfl
  exact absurd (ho.leaf leaf _ _ (leafAt_of_some hk) e he).2 (Nat.not_lt_of_le hpast)

/-! ## 3. The chain

The same order from left to right: all entries of a leaf come before those of the leaves behind
it. -/

/-- **A tree in order**: in the tree and along the chain. -/
structure Ranged (nodes : NodeMap) (lo hi stop : PageId → Nat) (root : PageId)
    (chain : List PageId) : Prop where
  ordered : Ordered nodes lo hi stop root
  abuts : Abuts lo stop 0 chain (2 ^ 32)

section Search

variable (h : Ranged nodes lo hi stop root chain) (hchain : ∀ id ∈ chain, (nodes.leafAt id).isSome)

include h hchain

theorem Ranged.leaf_range {x : PageId} (hx : x ∈ chain) :
    lo x < stop x ∧ ∀ e ∈ nodes.entriesAt x, lo x ≤ e.1.toNat ∧ e.1.toNat < stop x := by
  obtain ⟨⟨nx, es⟩, hes⟩ := Option.isSome_iff_exists.mp (hchain x hx)
  obtain ⟨k, hk, -, rfl⟩ := leaf_of_leafAt hes
  refine ⟨h.ordered.lt x (by rw [hk]; rfl), fun e he => ?_⟩
  rw [entriesAt_of_leaf hk] at he
  exact h.ordered.leaf x _ _ hes e he

/-- The entries before a leaf are less than those from it on. -/
theorem Ranged.before {x : PageId} (hsplit : chain = l₁ ++ x :: l₂) :
    ∀ y ∈ l₁, stop y ≤ lo x := by
  intro y hy
  have habuts := h.abuts
  rw [hsplit] at habuts
  obtain ⟨c, h₁, hx, -⟩ := abuts_append.mp habuts
  have hle : ∀ z ∈ l₁, lo z ≤ stop z := by
    intro z hz
    refine (h.leaf_range hchain ?_).1.le
    rw [hsplit]
    exact List.mem_append_left _ hz
  exact ((h₁.bounds hle).2 y hy).2.trans_eq hx.symm

theorem Ranged.after {x : PageId} (hsplit : chain = l₁ ++ x :: l₂) :
    ∀ y ∈ l₂, stop x ≤ lo y := by
  intro y hy
  have habuts := h.abuts
  rw [hsplit] at habuts
  obtain ⟨c, -, -, h₂⟩ := abuts_append.mp habuts
  have hle : ∀ z ∈ l₂, lo z ≤ stop z := by
    intro z hz
    refine (h.leaf_range hchain ?_).1.le
    rw [hsplit]
    exact List.mem_append_right _ (List.mem_cons_of_mem _ hz)
  exact ((h₂.bounds hle).2 y hy).1

/-- **The entries of a key** are in its leaf. -/
theorem Ranged.filter_contents {x : PageId} (hsplit : chain = l₁ ++ x :: l₂)
    (hkey : lo x ≤ key.toNat ∧ key.toNat < stop x) :
    (∀ y ∈ l₁ ++ l₂, ∀ e ∈ nodes.entriesAt y, e.1 ≠ key) ∧
      ((nodes.contents chain).filter fun e => e.1 = key)
        = (nodes.entriesAt x).filter fun e => e.1 = key := by
  have hmem : ∀ y ∈ l₁ ++ l₂, y ∈ chain := by
    intro y hy
    rw [hsplit]
    rcases List.mem_append.mp hy with hy | hy
    · exact List.mem_append_left _ hy
    · exact List.mem_append_right _ (List.mem_cons_of_mem _ hy)
  have hno : ∀ y ∈ l₁ ++ l₂, ∀ e ∈ nodes.entriesAt y, e.1 ≠ key := by
    rintro y hy e he rfl
    obtain ⟨h₁, h₂⟩ := (h.leaf_range hchain (hmem y hy)).2 e he
    rcases List.mem_append.mp hy with hy | hy
    · have hb := h.before hchain hsplit y hy
      omega
    · have ha := h.after hchain hsplit y hy
      omega
  have hnil : ∀ l : List PageId, (∀ y ∈ l, ∀ e ∈ nodes.entriesAt y, e.1 ≠ key) →
      ((nodes.contents l).filter fun e => e.1 = key) = [] := by
    intro l hl
    refine List.filter_eq_nil_iff.mpr fun e he => ?_
    obtain ⟨y, hy, hey⟩ := List.mem_flatMap.mp he
    simpa using hl y hy e hey
  refine ⟨hno, ?_⟩
  rw [hsplit, contents, List.flatMap_append, List.flatMap_cons, List.filter_append,
    List.filter_append]
  have hnil₁ := hnil l₁ fun y hy => hno y (List.mem_append_left _ hy)
  have hnil₂ := hnil l₂ fun y hy => hno y (List.mem_append_right _ hy)
  rw [contents] at hnil₁ hnil₂
  rw [hnil₁, hnil₂, List.nil_append, List.append_nil]

end Search

end CourtDB
