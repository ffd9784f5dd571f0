/-
# What the operations of a leaf do

A leaf that fits its page and is sorted is cut by `findKeyPosition` into the entries before a key
and those from it on (`below_append_atLeast`).  Everything else follows from that cut:

* an insertion lands in it, in front of the entries with the same key, so the leaf stays sorted;
* the entries of one key are a run that starts there, which is what `findAll` returns and `delete`
  searches;
* a full leaf with its new entry is a sorted list again, and its halves are cuts of that list.

The header counts the entries, and the source looks at so many of its arrays and no further.  In a
leaf that fits (`LeafNode.Fits`) the count is the length of the list, so the lemmas can forget it.
Lemmas that hold under every comparator are stated for every one; the order of the keys is that of
the default comparator.
-/
import CourtDB.Index.BTree
import CourtDB.Index.NodeCodec
import Mathlib.Data.List.Perm.Basic

namespace CourtDB

/-! ## 1. The default comparator

It answers `-1`, `0` or `1`, and its sign is the order of the keys as numbers. -/

section

variable {a b : KeyType}

/-- The comparator compares numbers. -/
@[simp] theorem defaultKeyComparator_neg :
    defaultKeyComparator a b < 0 ↔ a.toNat < b.toNat := by
  unfold defaultKeyComparator
  simp only [UInt32.lt_iff_toNat_lt, gt_iff_lt]
  split
  · simpa
  · split <;> simp <;> omega

@[simp] theorem defaultKeyComparator_nonpos :
    defaultKeyComparator a b ≤ 0 ↔ a.toNat ≤ b.toNat := by
  unfold defaultKeyComparator
  simp only [UInt32.lt_iff_toNat_lt, gt_iff_lt]
  split
  · simp; omega
  · split <;> simp <;> omega

@[simp] theorem defaultKeyComparator_eq_zero : defaultKeyComparator a b = 0 ↔ a = b := by
  rw [← UInt32.toNat_inj]
  unfold defaultKeyComparator
  simp only [UInt32.lt_iff_toNat_lt, gt_iff_lt]
  split
  · simp; omega
  · split <;> simp <;> omega

end

/-! ## 2. Sorted leaves

Entries are ordered by their keys alone.  Two entries with one key are in no order, and the lemmas
do not put them in one. -/

/-- An entry lies before another by its key. -/
def SortedEntries (l : List (KeyType × RID)) : Prop :=
  l.Pairwise fun e f => e.1.toNat ≤ f.1.toNat

theorem SortedEntries.mono {l : List (KeyType × RID)} (h : SortedEntries l) (key : KeyType) :
    l.Pairwise fun e f =>
      decide (f.1.toNat < key.toNat) = true → decide (e.1.toNat < key.toNat) = true :=
  h.imp fun hle hf => by simp only [decide_eq_true_eq] at *; omega

namespace LeafNode

variable {n : LeafNode} {key : KeyType} {rid : RID}

/-- The entries before a key. -/
def below (n : LeafNode) (key : KeyType) : List (KeyType × RID) :=
  n.entries.takeWhile fun e => e.1.toNat < key.toNat

/-- The entries from a key on. -/
def atLeast (n : LeafNode) (key : KeyType) : List (KeyType × RID) :=
  n.entries.dropWhile fun e => e.1.toNat < key.toNat

/-- A key cuts the entries in two. -/
theorem below_append_atLeast (n : LeafNode) (key : KeyType) :
    n.below key ++ n.atLeast key = n.entries := List.takeWhile_append_dropWhile

theorem lt_of_mem_below {e : KeyType × RID} (he : e ∈ n.below key) : e.1.toNat < key.toNat :=
  of_decide_eq_true (List.all_eq_true.mp List.all_takeWhile e he)

theorem le_of_mem_atLeast (hs : SortedEntries n.entries) {e : KeyType × RID}
    (he : e ∈ n.atLeast key) : key.toNat ≤ e.1.toNat := by
  have hnot := not_of_mem_dropWhile
    (p := fun e : KeyType × RID => decide (e.1.toNat < key.toNat)) (hs.mono key) he
  have hge := of_decide_eq_false hnot
  omega

/-- The position is behind the smaller keys. -/
theorem findKeyPosition_eq (h : n.Fits) (hs : SortedEntries n.entries) (key : KeyType) :
    n.findKeyPosition key defaultKeyComparator = (n.below key).length := by
  have hkeys : n.getKeys.length = n.header.numKeys.toNat := (List.length_map _).trans h.length
  simp only [findKeyPosition, defaultKeyComparator_neg, ← hkeys]
  rw [bisect_eq_length_takeWhile, getKeys, List.takeWhile_map, List.length_map]
  · rfl
  · exact List.pairwise_map.mpr (hs.mono key)

theorem take_numKeys (h : n.Fits) : n.entries.take n.header.numKeys.toNat = n.entries := by
  rw [← h.length, List.take_length]

theorem entriesFrom_eq (h : n.Fits) (hs : SortedEntries n.entries) (key : KeyType) :
    n.entriesFrom key defaultKeyComparator = n.atLeast key := by
  rw [entriesFrom, take_numKeys h, findKeyPosition_eq h hs]
  conv_lhs => rw [← n.below_append_atLeast key]
  exact List.drop_left

/-! ## 3. Insertion

A leaf with room takes the entry in place.  For a full leaf the source makes the same list in a
vector beside the leaf (`overflow`), which is then cut in two. -/

/-- The new entry comes before all entries of its key. -/
theorem overflow_eq (h : n.Fits) (hs : SortedEntries n.entries) (key : KeyType) (rid : RID) :
    n.overflow key rid defaultKeyComparator = n.below key ++ (key, rid) :: n.atLeast key := by
  rw [overflow, findKeyPosition_eq h hs]
  exact insertIdx_length_takeWhile _ _ _

/-- The new entry is added, and nothing is lost. -/
theorem overflow_perm (h : n.Fits) (hs : SortedEntries n.entries) (key : KeyType) (rid : RID) :
    (n.overflow key rid defaultKeyComparator).Perm ((key, rid) :: n.entries) := by
  rw [overflow_eq h hs, ← n.below_append_atLeast key]
  exact List.perm_middle

theorem overflow_sorted (h : n.Fits) (hs : SortedEntries n.entries) (key : KeyType) (rid : RID) :
    SortedEntries (n.overflow key rid defaultKeyComparator) := by
  rw [overflow_eq h hs]
  unfold SortedEntries at *
  rw [List.pairwise_append, List.pairwise_cons]
  refine ⟨hs.sublist (List.takeWhile_sublist _), ⟨?_, hs.sublist (List.dropWhile_sublist _)⟩, ?_⟩
  · intro e he
    exact le_of_mem_atLeast hs he
  · intro e he f hf
    have hlt := lt_of_mem_below he
    rcases List.mem_cons.mp hf with rfl | hf
    · exact hlt.le
    · exact hlt.le.trans (le_of_mem_atLeast hs hf)

/-- The leaf with one entry more. -/
def inserted (n : LeafNode) (key : KeyType) (rid : RID) : LeafNode where
  header := { n.header with numKeys := n.header.numKeys + 1 }
  entries := n.overflow key rid defaultKeyComparator

/-- A leaf is full with 406 entries. -/
theorem isFull_iff (h : n.Fits) : n.isFull = true ↔ n.entries.length = 406 := by
  have hle := h.le
  rw [isFull, decide_eq_true_eq, ge_iff_le, UInt16.le_iff_toNat_le, ← h.length]
  change 406 ≤ n.entries.length ↔ _
  omega

theorem insert_of_lt (h : n.Fits) (hlt : n.entries.length < 406) (key : KeyType) (rid : RID) :
    n.insert key rid defaultKeyComparator = (true, n.inserted key rid) := by
  rw [insert, if_neg fun hfull => hlt.ne ((isFull_iff h).mp hfull)]
  rfl

theorem insert_of_full (h : n.Fits) (hfull : n.entries.length = 406) (key : KeyType) (rid : RID) :
    n.insert key rid defaultKeyComparator = (false, n) := by
  rw [insert, if_pos ((isFull_iff h).mpr hfull)]

theorem findKeyPosition_le (h : n.Fits) (key : KeyType) (cmp : KeyComparator) :
    n.findKeyPosition key cmp ≤ n.entries.length := by
  rw [h.length]
  exact (bisect_le (Nat.zero_le _)).2

/-- Whatever the comparator, there is one entry more. -/
theorem length_overflow (h : n.Fits) (key : KeyType) (rid : RID) (cmp : KeyComparator) :
    (n.overflow key rid cmp).length = n.entries.length + 1 :=
  List.length_insertIdx_of_le_length (findKeyPosition_le h key cmp) _

theorem Fits.overflow (h : n.Fits) (hlt : n.entries.length < 406) (key : KeyType) (rid : RID)
    (cmp : KeyComparator) : Fits { header := { n.header with numKeys := n.header.numKeys + 1 }
                                   entries := n.overflow key rid cmp } := by
  have hlen := length_overflow h key rid cmp
  refine ⟨h.type, ?_, ?_⟩
  · change (n.overflow key rid cmp).length = (n.header.numKeys + 1).toNat
    have hn := h.length
    rw [hlen, UInt16.toNat_add, ← hn, Nat.mod_eq_of_lt]
    · rfl
    · change n.entries.length + 1 < 2 ^ 16
      omega
  · change (n.overflow key rid cmp).length ≤ 406
    omega

theorem Fits.inserted (h : n.Fits) (hlt : n.entries.length < 406) (key : KeyType) (rid : RID) :
    (n.inserted key rid).Fits := h.overflow hlt key rid defaultKeyComparator

/-! ## 4. Splits -/

section Split

variable {all : List (KeyType × RID)} {fresh : LeafNode} {rightPageId : PageId}

/-- The left half has 203 entries. -/
theorem fits_splitLeft (h : n.Fits) (hlen : all.length = 407) :
    (n.splitLeft all rightPageId).Fits := by
  have htake : (all.take (all.length / 2)).length = 203 := by
    rw [List.length_take, hlen]
    rfl
  refine ⟨h.type, ?_, ?_⟩
  · change (all.take (all.length / 2)).length = (UInt16.ofNat (all.length / 2)).toNat
    rw [htake, hlen]
    rfl
  · change (all.take (all.length / 2)).length ≤ 406
    omega

/-- The right half has 204 entries. -/
theorem fits_splitRight (hlen : all.length = 407) : (n.splitRight fresh all).Fits := by
  have hdrop : (all.drop (all.length / 2)).length = 204 := by
    rw [List.length_drop, hlen]
  refine ⟨rfl, ?_, ?_⟩
  · change (all.drop (all.length / 2)).length
      = (UInt16.ofNat (all.length - all.length / 2)).toNat
    rw [hdrop, hlen]
    rfl
  · change (all.drop (all.length / 2)).length ≤ 406
    omega

/-- Both together have all of them. -/
theorem split_append (n fresh : LeafNode) (all : List (KeyType × RID)) (rightPageId : PageId) :
    (n.splitLeft all rightPageId).entries ++ (n.splitRight fresh all).entries = all :=
  List.take_append_drop _ _

end Split

/-! ## 5. The entries of a key

`Delete` takes the first entry that has the key and the record id, and leaves equal ones behind
it. -/

/-- The run of entries of a key. -/
theorem takeWhile_atLeast (hs : SortedEntries n.entries) (key : KeyType) :
    (n.atLeast key).takeWhile (fun e => e.1 = key) = n.entries.filter fun e => e.1 = key := by
  have hbelow : (n.below key).filter (fun e => e.1 = key) = [] := by
    rw [List.filter_eq_nil_iff]
    intro e he heq
    have hlt := lt_of_mem_below he
    rw [of_decide_eq_true heq] at hlt
    exact lt_irrefl _ hlt
  rw [← n.below_append_atLeast key, List.filter_append, hbelow, List.nil_append]
  have hsorted : SortedEntries (n.atLeast key) := hs.sublist (List.dropWhile_sublist _)
  have hle : ∀ e ∈ n.atLeast key, key.toNat ≤ e.1.toNat := fun e he => le_of_mem_atLeast hs he
  generalize n.atLeast key = l at *
  induction l with
  | nil => rfl
  | cons e l ih =>
    obtain ⟨hhead, htail⟩ := List.pairwise_cons.mp hsorted
    by_cases heq : e.1 = key
    · rw [List.takeWhile_cons_of_pos (by simpa using heq),
        List.filter_cons_of_pos (by simpa using heq),
        ih htail fun f hf => hle f (List.mem_cons_of_mem _ hf)]
    · rw [List.takeWhile_cons_of_neg (by simpa using heq)]
      refine (List.filter_eq_nil_iff.mpr ?_).symm
      -- the first key is greater, and so are all after it
      have hgt : key.toNat < e.1.toNat := by
        have hge := hle e List.mem_cons_self
        have hne : e.1.toNat ≠ key.toNat := fun h => heq (UInt32.toNat_inj.mp h)
        omega
      intro f hf hfk
      have hfk' := congrArg UInt32.toNat (of_decide_eq_true hfk)
      rcases List.mem_cons.mp hf with rfl | hf
      · omega
      · have := hhead f hf
        omega

/-- **FindAll** returns the record ids of a key. -/
theorem findAll_eq (h : n.Fits) (hs : SortedEntries n.entries) (key : KeyType) :
    n.findAll key defaultKeyComparator
      = (n.entries.filter fun e => e.1 = key).map Prod.snd := by
  have hdrop := entriesFrom_eq h hs key
  unfold entriesFrom at hdrop
  simp only [findAll, hdrop, defaultKeyComparator_eq_zero, takeWhile_atLeast hs]

/-- The search for an entry in the run of its key. -/
theorem findEntry_eq (key : KeyType) (rid : RID) (l : List (KeyType × RID)) (pos : Nat) :
    findEntry key rid defaultKeyComparator l pos
      = ((l.takeWhile fun e => e.1 = key).findIdx? fun e => e = (key, rid)).map (pos + ·) := by
  induction l generalizing pos with
  | nil => rfl
  | cons e l ih =>
    rw [findEntry]
    simp only [defaultKeyComparator_eq_zero]
    by_cases heq : e.1 = key
    · rw [if_pos heq, List.takeWhile_cons_of_pos (by simpa using heq), List.findIdx?_cons]
      by_cases hrid : e.2 = rid
      · have he : e = (key, rid) := Prod.ext heq hrid
        rw [if_pos hrid, if_pos (by simpa using he)]
        rfl
      · have he : e ≠ (key, rid) := fun he => hrid (congrArg Prod.snd he)
        rw [if_neg hrid, if_neg (by simpa using he), ih, Option.map_map]
        congr 1
        funext i
        simp only [Function.comp_apply]
        omega
    · rw [if_neg heq, List.takeWhile_cons_of_neg (by simpa using heq)]
      rfl

/-- The leaf without the entry at an index. -/
def erased (n : LeafNode) (i : Nat) : LeafNode where
  header := { n.header with numKeys := n.header.numKeys - 1 }
  entries := n.entries.eraseIdx i

theorem Fits.erased (h : n.Fits) {i : Nat} (hi : i < n.entries.length) : (n.erased i).Fits := by
  have hlen : (n.entries.eraseIdx i).length = n.entries.length - 1 := List.length_eraseIdx_of_lt hi
  have hle := h.le
  refine ⟨h.type, ?_, ?_⟩
  · change (n.entries.eraseIdx i).length = (n.header.numKeys - 1).toNat
    have hn := h.length
    rw [hlen, UInt16.toNat_sub_of_le, ← hn]
    · rfl
    · rw [UInt16.le_iff_toNat_le, ← hn]
      change 1 ≤ _
      omega
  · change (n.entries.eraseIdx i).length ≤ 406
    omega

/-- The search ends within the list. -/
theorem findEntry_lt {cmp : KeyComparator} (l : List (KeyType × RID)) : ∀ {pos i : Nat},
    findEntry key rid cmp l pos = some i → i < pos + l.length := by
  induction l with
  | nil => exact fun h => absurd h (Option.some_ne_none _).symm
  | cons e l ih =>
    intro pos i h
    rw [findEntry] at h
    rw [List.length_cons]
    split_ifs at h
    · obtain rfl := Option.some.inj h
      omega
    · have hlt := ih h
      omega

/-- Whatever the comparator, **Delete** removes at most one entry. -/
theorem delete_any (h : n.Fits) (key : KeyType) (rid : RID) (cmp : KeyComparator) :
    n.delete key rid cmp = (false, n) ∨
      ∃ i, i < n.entries.length ∧ n.delete key rid cmp = (true, n.erased i) := by
  have hpos := findKeyPosition_le h key cmp
  unfold delete
  cases hfind : findEntry key rid cmp
      ((n.entries.take n.header.numKeys.toNat).drop (n.findKeyPosition key cmp))
      (n.findKeyPosition key cmp) with
  | none => exact Or.inl (by simp only [hfind])
  | some i =>
    have hlt := findEntry_lt _ hfind
    rw [take_numKeys h, List.length_drop] at hlt
    exact Or.inr ⟨i, by omega, by simp only [hfind]; rfl⟩

/-- **Delete** removes one occurrence of the entry, if there is one. -/
theorem delete_cases (h : n.Fits) (hs : SortedEntries n.entries) (key : KeyType) (rid : RID) :
    ((key, rid) ∉ n.entries ∧ n.delete key rid defaultKeyComparator = (false, n)) ∨
      ∃ i, n.delete key rid defaultKeyComparator = (true, n.erased i) ∧ i < n.entries.length ∧
        n.entries.Perm ((key, rid) :: (n.erased i).entries) := by
  have hdrop := entriesFrom_eq h hs key
  rw [entriesFrom, findKeyPosition_eq h hs] at hdrop
  have hfind : n.delete key rid defaultKeyComparator
      = (((n.entries.filter fun e => e.1 = key).findIdx? fun e => e = (key, rid)).map
          ((n.below key).length + ·)).elim (false, n) fun i => (true, n.erased i) := by
    unfold delete
    simp only [findKeyPosition_eq h hs, hdrop, findEntry_eq, takeWhile_atLeast hs]
    cases (n.entries.filter fun e => e.1 = key).findIdx? fun e => e = (key, rid) <;> rfl
  rw [hfind]
  cases hidx : (n.entries.filter fun e => e.1 = key).findIdx? fun e => e = (key, rid) with
  | none =>
    refine Or.inl ⟨fun hmem => ?_, rfl⟩
    have hnone := List.findIdx?_eq_none_iff.mp hidx (key, rid)
      (List.mem_filter.mpr ⟨hmem, by simp⟩)
    simp at hnone
  | some j =>
    obtain ⟨hj, hget, -⟩ := List.findIdx?_eq_some_iff_getElem.mp hidx
    have hget' := of_decide_eq_true hget
    -- the run starts where the entries from the key on do
    have hpre : (n.entries.filter fun e => e.1 = key) <+: n.atLeast key :=
      takeWhile_atLeast hs key ▸ List.takeWhile_prefix _
    have hlen := congrArg List.length (n.below_append_atLeast key)
    rw [List.length_append] at hlen
    have hjlt := lt_of_lt_of_le hj hpre.length_le
    have hi : (n.below key).length + j < n.entries.length := by omega
    have hentry : n.entries[(n.below key).length + j] = (key, rid) := by
      rw [← hget', List.IsPrefix.getElem hpre hj,
        List.getElem_of_eq (n.below_append_atLeast key).symm hi,
        List.getElem_append_right (Nat.le_add_right _ _)]
      simp only [Nat.add_sub_cancel_left]
    refine Or.inr ⟨_, rfl, hi, ?_⟩
    rw [← hentry]
    exact (List.getElem_cons_eraseIdx_perm hi).symm

/-- A deletion keeps the order. -/
theorem erased_sorted (hs : SortedEntries n.entries) (i : Nat) :
    SortedEntries (n.erased i).entries :=
  hs.sublist (List.eraseIdx_sublist _ _)

end LeafNode

end CourtDB
