/-
# What the operations of an internal node do

An internal node with `n` keys has `n + 1` children.  `findChild` always names a child.  Where the
children divide the range of the node, with the keys as the starts of all but the first, it names
the one whose part holds the key (`Divides.findChild`).

A node with room takes a key and a child; a full one is split into the keys before the middle one
and those after it (`splitLeft_eq`, `splitRight_eq`), with their children.  The middle key goes to
neither half, but up.

The vectors of the source are longer than the node: `SerializeToPage` looks only at as many entries
as the header counts, and the loops that fill a half write over what is there.  So the left half
still has the old keys and children behind its own.  They are never read again, because the node is
stored and loaded before its next use; the lemmas say what the vectors are all the same.
-/
import CourtDB.Lib.Abutting
import CourtDB.Index.LeafSpecs

namespace CourtDB

/-! ## 1. Loops that overwrite a vector

`SetKeyAt` and `SetChildAt` make the vector longer when they are called past its end. -/

/-- Writing `xs` over a vector from position `pre.length` on. -/
theorem foldl_resize_set {α : Type} (d : α) (xs pre rest : List α) :
    (xs.zipIdx pre.length).foldl
        (fun l x => (l ++ List.replicate (x.2 + 1 - l.length) d).set x.2 x.1) (pre ++ rest)
      = pre ++ xs ++ rest.drop xs.length := by
  induction xs generalizing pre rest with
  | nil => simp
  | cons x xs ih =>
    have hstep : ((pre ++ rest) ++ List.replicate (pre.length + 1 - (pre ++ rest).length) d).set
        pre.length x = (pre ++ [x]) ++ rest.drop 1 := by
      cases rest with
      | nil => simp
      | cons r rest => simp
    have hlen : pre.length + 1 = (pre ++ [x]).length := by simp
    rw [List.zipIdx_cons, List.foldl_cons, hstep, hlen, ih]
    simp

namespace InternalNode

variable {n : InternalNode}

theorem setKeys_eq (n : InternalNode) (ks : List KeyType) :
    n.setKeys ks = { n with keys := ks ++ n.keys.drop ks.length } := by
  have h := foldl_resize_set 0 ks [] n.keys
  rw [List.nil_append, List.nil_append] at h
  rw [← h]
  refine List.foldl_hom (fun keys => ({ n with keys := keys } : InternalNode)) ?_
  intro keys k
  rfl

theorem setChildren_eq (n : InternalNode) (cs : List PageId) :
    n.setChildren cs = { n with children := cs ++ n.children.drop cs.length } := by
  have h := foldl_resize_set invalidPageId cs [] n.children
  rw [List.nil_append, List.nil_append] at h
  rw [← h]
  refine List.foldl_hom (fun children => ({ n with children := children } : InternalNode)) ?_
  intro children c
  rfl

/-! ## 2. Searching

`Divides` is about a sequence of intervals that follow one another; the lemmas are those of the
library, read for nodes. -/

theorem findChild_le (n : InternalNode) (key : KeyType) (cmp : KeyComparator) :
    n.findChild key cmp ≤ n.header.numKeys.toNat := (bisect_le (Nat.zero_le _)).2

theorem findChild_lt (h : n.Fits) (key : KeyType) (cmp : KeyComparator) :
    n.findChild key cmp < n.children.length := by
  have hle := n.findChild_le key cmp
  rw [← h.length] at hle
  rw [h.children]
  exact Nat.lt_succ_of_le hle

theorem getChildAt_mem (h : n.Fits) (key : KeyType) (cmp : KeyComparator) :
    n.getChildAt (n.findChild key cmp) ∈ n.children := by
  rw [getChildAt_eq (findChild_lt h key cmp)]
  exact List.getElem_mem _

/-- In a sorted node the search counts the keys that are not greater. -/
theorem findChild_eq (h : n.Fits) (hs : (n.keys.map UInt32.toNat).Pairwise (· ≤ ·))
    (key : KeyType) : n.findChild key defaultKeyComparator
      = ((n.keys.map UInt32.toNat).takeWhile fun c => c ≤ key.toNat).length := by
  have hmono : n.keys.Pairwise fun a b =>
      decide (b.toNat ≤ key.toNat) = true → decide (a.toNat ≤ key.toNat) = true :=
    (List.pairwise_map.mp hs).imp fun hle hb => by simp only [decide_eq_true_eq] at *; omega
  simp only [findChild, defaultKeyComparator_nonpos, ← h.length]
  rw [bisect_eq_length_takeWhile hmono, List.takeWhile_map, List.length_map]
  rfl

section Range

variable {lo hi : PageId → Nat} {a b : Nat} {cs : List PageId} {ks : List KeyType}

/-- The children `cs` divide the range `[a, b)`, at the keys `ks`. -/
structure Divides (cs : List PageId) (ks : List KeyType) (lo hi : PageId → Nat) (a b : Nat) :
    Prop where
  abuts : Abuts lo hi a cs b
  keys : ks.map UInt32.toNat = cs.tail.map lo
  lt : ∀ c ∈ cs, lo c < hi c

theorem Divides.le (h : Divides cs ks lo hi a b) : ∀ c ∈ cs, lo c ≤ hi c :=
  fun c hc => (h.lt c hc).le

theorem Divides.sorted (h : Divides cs ks lo hi a b) :
    (ks.map UInt32.toNat).Pairwise (· ≤ ·) := by
  rw [h.keys, List.map_tail]
  exact (h.abuts.sorted h.le).sublist (List.tail_sublist _)

/-- **FindChild** cuts the children at the one whose part holds the key. -/
theorem Divides.findChild (h : Divides n.children n.keys lo hi a b) (hfits : n.Fits)
    {key : KeyType} (ha : a ≤ key.toNat) (hb : key.toNat < b) :
    ∃ l₁ c l₂, n.children = l₁ ++ c :: l₂ ∧ lo c ≤ key.toNat ∧ key.toNat < hi c ∧
      n.findChild key defaultKeyComparator = l₁.length ∧
      n.getChildAt (n.findChild key defaultKeyComparator) = c := by
  obtain ⟨l₁, c, l₂, hsplit, hlo, hhi, hcount⟩ := h.abuts.find h.le ha hb
  have hpos : n.findChild key defaultKeyComparator = l₁.length := by
    rw [findChild_eq hfits h.sorted, h.keys]
    exact hcount
  refine ⟨l₁, c, l₂, hsplit, hlo, hhi, hpos, ?_⟩
  rw [hpos, getChildAt, hsplit, List.getD_append_right _ _ _ _ (Nat.le_refl _), Nat.sub_self]
  rfl

/-- **A key past the range** goes to the last child. -/
theorem Divides.findChild_past (h : Divides n.children n.keys lo hi a b) (hfits : n.Fits)
    {key : KeyType} (hb : b ≤ key.toNat) : ∃ c ∈ n.children,
      n.getChildAt (n.findChild key defaultKeyComparator) = c ∧ hi c = b := by
  have hall : ∀ k ∈ n.keys.map UInt32.toNat, decide (k ≤ key.toNat) = true := by
    intro k hk
    rw [h.keys, List.map_tail] at hk
    exact decide_eq_true (h.abuts.starts_le h.le hb k (List.mem_of_mem_tail hk))
  have hpos : n.findChild key defaultKeyComparator = n.children.length - 1 := by
    rw [findChild_eq hfits h.sorted, ← List.append_nil (n.keys.map UInt32.toNat),
      List.takeWhile_append_of_pos hall, List.takeWhile_nil, List.append_nil, List.length_map,
      hfits.children]
    rfl
  have hne : n.children ≠ [] := List.ne_nil_of_length_pos (by rw [hfits.children]; omega)
  refine ⟨n.children.getLast hne, List.getLast_mem hne, ?_, ?_⟩
  · have hlt : n.children.length - 1 < n.children.length :=
      Nat.sub_lt (List.length_pos_iff.mpr hne) Nat.one_pos
    rw [hpos, getChildAt_eq hlt, List.getLast_eq_getElem]
  · have habuts := h.abuts
    rw [← List.dropLast_append_getLast hne] at habuts
    obtain ⟨c, -, -, hlast⟩ := abuts_append.mp habuts
    exact hlast

/-- Only the intervals of the children matter. -/
theorem Divides.congr {lo' hi' : PageId → Nat} (h : Divides cs ks lo hi a b)
    (hlo : ∀ c ∈ cs, lo' c = lo c) (hhi : ∀ c ∈ cs, hi' c = hi c) :
    Divides cs ks lo' hi' a b := by
  refine ⟨h.abuts.congr hlo hhi, h.keys.trans ?_, fun c hc => ?_⟩
  · exact List.map_congr_left fun c hc => (hlo c (List.mem_of_mem_tail hc)).symm
  · rw [hlo c hc, hhi c hc]
    exact h.lt c hc

/-- The part of a child lies in the range. -/
theorem Divides.bounds (h : Divides cs ks lo hi a b) {c : PageId} (hc : c ∈ cs) :
    a ≤ lo c ∧ hi c ≤ b := (h.abuts.bounds h.le).2 c hc

/-- Two children whose parts have a key in common are the same. -/
theorem Divides.unique (h : Divides cs ks lo hi a b) {c d : PageId} {k : Nat} (hc : c ∈ cs)
    (hd : d ∈ cs) (hkc : lo c ≤ k ∧ k < hi c) (hkd : lo d ≤ k ∧ k < hi d) : c = d :=
  h.abuts.unique h.le hc hd hkc hkd

/-- A range that is divided is not empty. -/
theorem Divides.range_lt (h : Divides cs ks lo hi a b) (hne : cs ≠ []) : a < b := by
  obtain ⟨c, hc⟩ := List.exists_mem_of_ne_nil cs hne
  obtain ⟨ha, hb⟩ := h.bounds hc
  exact lt_of_le_of_lt ha (lt_of_lt_of_le (h.lt c hc) hb)

/-- **One part is cut in two** at a key, the second half of it goes to a new child, and the key to
the place that `FindChild` gives. -/
theorem Divides.insert {hi' : PageId → Nat} {left right : PageId} {key : KeyType}
    (h : Divides n.children n.keys lo hi a b) (hfits : n.Fits) (hleft : left ∈ n.children)
    (hkey : lo left < key.toNat ∧ key.toNat < hi left) (hlo : lo right = key.toNat)
    (hother : ∀ c ∈ n.children, c ≠ left → hi' c = hi c) (hhi : hi' left = key.toNat)
    (hhi' : hi' right = hi left) (hnd : n.children.Nodup) :
    Divides (n.children.insertIdx (n.findChild key defaultKeyComparator + 1) right)
      (n.keys.insertIdx (n.findChild key defaultKeyComparator) key) lo hi' a b := by
  obtain ⟨hal, hlb⟩ := h.bounds hleft
  obtain ⟨l₁, c, l₂, hsplit, hlc, hch, hpos, -⟩ := h.findChild hfits
    (hal.trans hkey.1.le) (lt_of_lt_of_le hkey.2 hlb)
  -- the part that holds the key is that of `left`
  obtain rfl : left = c :=
    h.unique hleft (by rw [hsplit]; simp) ⟨hkey.1.le, hkey.2⟩ ⟨hlc, hch⟩
  have hchildren : (l₁ ++ left :: l₂).insertIdx (l₁.length + 1) right
      = l₁ ++ left :: right :: l₂ := by
    have hins := insertIdx_append_length (l₁ ++ [left]) l₂ right
    rwa [List.append_assoc, List.length_append, List.append_assoc] at hins
  have hne : ∀ z ∈ l₁ ++ l₂, z ≠ left := by
    rintro z hz rfl
    rw [hsplit, List.nodup_middle] at hnd
    exact (List.nodup_cons.mp hnd).1 hz
  -- the other parts are as they were
  have hold : ∀ z ∈ l₁ ++ l₂, hi' z = hi z := by
    intro z hz
    refine hother z ?_ (hne z hz)
    rw [hsplit]
    rcases List.mem_append.mp hz with hz | hz
    · exact List.mem_append_left _ hz
    · exact List.mem_append_right _ (List.mem_cons_of_mem _ hz)
  have habuts := h.abuts
  rw [hsplit] at habuts
  rw [hpos, hsplit, hchildren]
  refine ⟨habuts.split (fun _ _ => rfl) hold ⟨rfl, hhi⟩ ⟨hlo, hhi'⟩, ?_, ?_⟩
  · -- the new key is the start of the part of `right`
    have hkeys := h.keys
    rw [hsplit] at hkeys
    rw [List.map_insertIdx, hkeys]
    cases l₁ with
    | nil =>
      change (l₂.map lo).insertIdx 0 key.toNat = (right :: l₂).map lo
      rw [List.insertIdx_zero, List.map_cons, hlo]
    | cons z l₁ =>
      have hins := insertIdx_append_length (l₁.map lo ++ [lo left]) (l₂.map lo) key.toNat
      simp only [List.append_assoc, List.length_append, List.length_map, List.length_cons,
        List.length_nil, List.singleton_append, Nat.zero_add] at hins
      simpa [hlo] using hins
  · -- no part is empty
    intro z hz
    by_cases hzl : z = left
    · rw [hzl, hhi]
      exact hkey.1
    · by_cases hzr : z = right
      · rw [hzr, hlo, hhi']
        exact hkey.2
      · have hz' : z ∈ l₁ ++ l₂ := by
          rcases List.mem_append.mp hz with hz | hz
          · exact List.mem_append_left _ hz
          · rcases List.mem_cons.mp hz with rfl | hz
            · exact absurd rfl hzl
            · rcases List.mem_cons.mp hz with rfl | hz
              · exact absurd rfl hzr
              · exact List.mem_append_right _ hz
        rw [hold z hz']
        refine h.lt z ?_
        rw [hsplit]
        rcases List.mem_append.mp hz' with hz | hz
        · exact List.mem_append_left _ hz
        · exact List.mem_append_right _ (List.mem_cons_of_mem _ hz)

/-- **The range is cut** at the start of a child: the key between the two halves belongs to
neither. -/
theorem Divides.cut (h : Divides cs ks lo hi a b) {i : Nat} (hi₀ : 0 < i) (hlt : i < cs.length) :
    Divides (cs.take i) (ks.take (i - 1)) lo hi a (ks.getD (i - 1) 0).toNat ∧
      Divides (cs.drop i) (ks.drop i) lo hi (ks.getD (i - 1) 0).toNat b := by
  obtain ⟨j, rfl⟩ := Nat.exists_eq_add_one_of_ne_zero (Nat.ne_of_gt hi₀)
  obtain ⟨l₁, y, l₂, rfl, hlen⟩ : ∃ l₁ y l₂, cs = l₁ ++ y :: l₂ ∧ l₁.length = j + 1 :=
    ⟨cs.take (j + 1), cs[j + 1], cs.drop (j + 2), by simp, by simp; omega⟩
  obtain ⟨d, h₁, hy, h₂⟩ := abuts_append.mp h.abuts
  obtain ⟨x, l₁, rfl⟩ := List.exists_cons_of_length_eq_add_one hlen
  have hlen₁ : l₁.length = j := Nat.succ_injective hlen
  have hkeys : ks.map UInt32.toNat = l₁.map lo ++ lo y :: l₂.map lo := by
    rw [h.keys]
    simp
  have hkey : (ks.getD j 0).toNat = lo y := by
    have hget := congrArg (fun l => l.getD j (UInt32.toNat 0)) hkeys
    simp only [List.getD_map] at hget
    rw [hget, List.getD_append_right _ _ _ _ (by simp [hlen₁])]
    simp [hlen₁]
  rw [Nat.add_sub_cancel, hkey, List.take_left' hlen, List.drop_left' hlen]
  refine ⟨⟨hy ▸ h₁, ?_, fun c hc => h.lt c (List.mem_append_left _ hc)⟩,
    ⟨⟨rfl, h₂⟩, ?_, fun c hc => h.lt c (List.mem_append_right _ hc)⟩⟩
  · rw [List.map_take, hkeys, List.take_left' (by simp [hlen₁])]
    rfl
  · rw [List.map_drop, hkeys, List.append_cons, List.drop_left' (by simp [hlen₁])]
    rfl

end Range

/-! ## 3. Insertion and splits -/

theorem isFull_iff (h : n.Fits) : n.isFull = true ↔ n.keys.length = 507 := by
  have hle := h.le
  rw [isFull, decide_eq_true_eq, ge_iff_le, UInt16.le_iff_toNat_le, ← h.length]
  change 507 ≤ n.keys.length ↔ _
  omega

section Insert

variable {pos : Nat} {key : KeyType} {rightId : PageId}

theorem Fits.insertAfter (h : n.Fits) (hlt : n.keys.length < 507) (hpos : pos ≤ n.keys.length) :
    (n.insertAfter pos key rightId).Fits := by
  have hkeys : (n.keys.insertIdx pos key).length = n.keys.length + 1 :=
    List.length_insertIdx_of_le_length hpos _
  have hchildren : (n.children.insertIdx (pos + 1) rightId).length = n.children.length + 1 :=
    List.length_insertIdx_of_le_length (by rw [h.children]; omega) _
  refine ⟨h.type, ?_, ?_, ?_, ?_⟩
  · change (n.keys.insertIdx pos key).length = (n.header.numKeys + 1).toNat
    have hn := h.length
    rw [hkeys, UInt16.toNat_add, ← hn, Nat.mod_eq_of_lt]
    · rfl
    · change n.keys.length + 1 < 2 ^ 16
      omega
  · change (n.children.insertIdx (pos + 1) rightId).length = (n.keys.insertIdx pos key).length + 1
    rw [hchildren, hkeys, h.children]
  · change 0 < (n.keys.insertIdx pos key).length
    omega
  · change (n.keys.insertIdx pos key).length ≤ 507
    omega

theorem overflowKeys_eq (h : n.Fits) (pos : Nat) (key : KeyType) :
    n.overflowKeys pos key = n.keys.insertIdx pos key := by
  rw [overflowKeys, ← h.length, List.take_length]

theorem overflowChildren_eq (h : n.Fits) (pos : Nat) (rightId : PageId) :
    n.overflowChildren pos rightId = n.children.insertIdx (pos + 1) rightId := by
  rw [overflowChildren, ← h.length, ← h.children, List.take_length]

end Insert

section Split

variable {keys : List KeyType} {children : List PageId} {fresh : InternalNode}

/-- The left parent; its vectors keep what was not overwritten. -/
theorem splitLeft_eq (n : InternalNode) (hkeys : keys.length = 508)
    (hchildren : children.length = 509) :
    n.splitLeft keys children = {
      header := { n.header with numKeys := 254 }
      keys := keys.take 254 ++ n.keys.drop 254
      children := children.take 255 ++ n.children.drop 255 } := by
  have hk : (keys.take 254).length = 254 := by rw [List.length_take]; omega
  have hc : (children.take 255).length = 255 := by rw [List.length_take]; omega
  simp only [splitLeft, setKeys_eq, setChildren_eq, hkeys, Nat.reduceDiv, Nat.reduceAdd,
    UInt16.reduceOfNat, hk, hc]

/-- The right parent. -/
theorem splitRight_eq (n fresh : InternalNode) (hkeys : keys.length = 508)
    (hchildren : children.length = 509) :
    n.splitRight fresh keys children = {
      header := { fresh.header with
        nodeType := .internalNode
        parentPageId := n.header.parentPageId
        numKeys := 253 }
      keys := keys.drop 255 ++ fresh.keys.drop 253
      children := children.drop 255 ++ fresh.children.drop 254 } := by
  have hk : (keys.drop 255).length = 253 := by rw [List.length_drop]; omega
  have hc : (children.drop 255).length = 254 := by rw [List.length_drop]; omega
  simp only [splitRight, setKeys_eq, setChildren_eq, hkeys, Nat.reduceDiv, Nat.reduceAdd,
    Nat.reduceSub, UInt16.reduceOfNat, hk, hc]

end Split

end InternalNode

end CourtDB
