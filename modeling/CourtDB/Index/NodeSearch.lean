/-
# The searches inside a node

`LeafNode` has one list of entries and computes positions in `Nat`.  The source has two vectors,
`keys_` and `rids_`, and 16-bit indices.  `LeafArrays` is the node as the source has it: a probe
outside a vector has no result, and neither has an index that does not fit 16 bits when it is
checked (`Narrowing.checked`) instead of cut off.

On a node whose vectors have the length that its header says, up to 65535, this model and the one of
`LeafNode` agree for every comparator (`LeafArrays.findKeyPosition_eq`, `insert_eq`, `delete_eq`). 
So nothing is lost by the simpler model, and the results about trees are about the arrays of the
source.

What the searches compute is then a matter of sorted lists: the numbers of keys that are smaller
than the key, or not greater (`InternalNode.findChild16_eq`).  Both searches are binary searches,
with the midpoint taken as `low + (high - low) / 2`, so the sum does not overflow; they end because
the interval at least halves, and seventeen rounds are enough for 16 bits.  The library of binary
searches has these facts once, over an arbitrary predicate that is false up to a point and true from
there on.

The comparator is any that decides a linear order (`KeyComparator.Lawful`); of the numbers that it
answers only the sign is used.
-/
import CourtDB.Index.InternalSpecs

namespace CourtDB

/-! ## 1. Comparators -/

/-- A comparator decides a linear order. -/
structure KeyComparator.Lawful (cmp : KeyComparator) : Prop where
  eq_zero : ∀ a b, cmp a b = 0 ↔ a = b
  swap : ∀ a b, cmp a b < 0 ↔ 0 < cmp b a
  trans : ∀ a b c, cmp a b ≤ 0 → cmp b c ≤ 0 → cmp a c ≤ 0

/-- The comparator the tree uses by default is lawful. -/
theorem lawful_defaultKeyComparator : KeyComparator.Lawful defaultKeyComparator where
  eq_zero _ _ := defaultKeyComparator_eq_zero
  swap a b := by
    rw [defaultKeyComparator_neg, ← not_le, ← not_le, defaultKeyComparator_nonpos]
  trans a b c := by
    simp only [defaultKeyComparator_nonpos]
    exact le_trans

/-- Keys in ascending order, equal ones allowed. -/
def SortedKeys (cmp : KeyComparator) (keys : List KeyType) : Prop :=
  keys.Pairwise fun a b => cmp a b ≤ 0

section Order

variable {cmp : KeyComparator} {a b key : KeyType} {keys : List KeyType}

theorem KeyComparator.Lawful.lt_of_le_of_lt (h : cmp.Lawful) (hab : cmp a b ≤ 0)
    (hb : cmp b key < 0) : cmp a key < 0 := by
  -- not greater, and not equal either
  have hle := h.trans a b key hab hb.le
  refine lt_of_le_of_ne hle fun hzero => ?_
  obtain rfl := (h.eq_zero a key).mp hzero
  have hpos := (h.swap b a).mp hb
  omega

theorem SortedKeys.mono_lt (hs : SortedKeys cmp keys) (h : cmp.Lawful) (key : KeyType) :
    keys.Pairwise fun a b => decide (cmp b key < 0) = true → decide (cmp a key < 0) = true :=
  hs.imp fun hab hb => decide_eq_true (h.lt_of_le_of_lt hab (of_decide_eq_true hb))

theorem SortedKeys.mono_le (hs : SortedKeys cmp keys) (h : cmp.Lawful) (key : KeyType) :
    keys.Pairwise fun a b => decide (cmp b key ≤ 0) = true → decide (cmp a key ≤ 0) = true :=
  hs.imp fun hab hb => decide_eq_true (h.trans _ _ _ hab (of_decide_eq_true hb))

end Order

/-! ## 2. The source's nodes

The definitions follow the source line by line; `Narrowing` says what becomes of an index that is
assigned to a `uint16_t`. -/

/-- A leaf with its two vectors. -/
structure LeafArrays where
  header : BTreeNodeHeader
  keys : List KeyType
  rids : List RID

namespace LeafArrays

/-- `FindKeyPosition`. -/
def findKeyPosition (store : Narrowing) (fuel : ℕ) (n : LeafArrays) (key : KeyType)
    (cmp : KeyComparator) : Option UInt16 :=
  bisect16 store (fun k => cmp k key < 0) n.keys fuel 0 n.header.numKeys

/-- `Insert`.  The vectors take an element at `begin() + pos` up to their end. -/
def insert (store : Narrowing) (fuel : ℕ) (n : LeafArrays) (key : KeyType) (rid : RID)
    (cmp : KeyComparator) : Option (Bool × LeafArrays) :=
  if n.header.numKeys ≥ LeafNode.maxKeys then
    some (false, n)
  else do
    let pos ← n.findKeyPosition store fuel key cmp
    guard (pos.toNat ≤ n.keys.length ∧ pos.toNat ≤ n.rids.length)
    let numKeys ← store (n.header.numKeys.toNat + 1)
    return (true, {
      header := { n.header with numKeys := numKeys }
      keys := n.keys.insertIdx pos.toNat key
      rids := n.rids.insertIdx pos.toNat rid })

/-- The loop of `Delete`.  The count is positive where it is decremented. -/
def deleteFrom (store : Narrowing) (n : LeafArrays) (key : KeyType) (rid : RID)
    (cmp : KeyComparator) : ℕ → UInt16 → Option (Bool × LeafArrays)
  | 0, _ => none
  | fuel + 1, pos =>
    if pos < n.header.numKeys then do
      let k ← n.keys[pos.toNat]?
      if cmp k key = 0 then
        let r ← n.rids[pos.toNat]?
        if r = rid then
          let numKeys ← store (n.header.numKeys.toNat - 1)
          return (true, {
            header := { n.header with numKeys := numKeys }
            keys := n.keys.eraseIdx pos.toNat
            rids := n.rids.eraseIdx pos.toNat })
        else
          let pos ← store (pos.toNat + 1)
          n.deleteFrom store key rid cmp fuel pos
      else
        return (false, n)
    else
      return (false, n)

/-- `Delete`. -/
def delete (store : Narrowing) (fuel : ℕ) (n : LeafArrays) (key : KeyType) (rid : RID)
    (cmp : KeyComparator) : Option (Bool × LeafArrays) := do
  let pos ← n.findKeyPosition store fuel key cmp
  n.deleteFrom store key rid cmp fuel pos

/-- The vectors have the length that the header says. -/
structure Matches (n : LeafArrays) : Prop where
  keys_length : n.keys.length = n.header.numKeys.toNat
  rids_length : n.rids.length = n.header.numKeys.toNat

/-- The entries, as pairs. -/
def entries (n : LeafArrays) : List (KeyType × RID) := n.keys.zip n.rids

end LeafArrays

/-- `FindChild`. -/
def InternalNode.findChild16 (store : Narrowing) (fuel : ℕ) (n : InternalNode) (key : KeyType)
    (cmp : KeyComparator) : Option UInt16 :=
  bisect16 store (fun k => cmp k key ≤ 0) n.keys fuel 0 n.header.numKeys

/-- The two vectors of a leaf. -/
def LeafNode.arrays (n : LeafNode) : LeafArrays where
  header := n.header
  keys := n.entries.map Prod.fst
  rids := n.entries.map Prod.snd

/-! ## 3. The two models agree

For every comparator, lawful or not, and for keys in any order. -/

namespace LeafArrays

variable {store : Narrowing} {fuel : ℕ} {key : KeyType} {rid : RID} {cmp : KeyComparator}

/-- Two vectors of one length are the entries of a leaf. -/
theorem Matches.exists_arrays {a : LeafArrays} (h : a.Matches) :
    ∃ n : LeafNode, n.arrays = a ∧ n.entries = a.entries ∧
      n.entries.length = n.header.numKeys.toNat := by
  -- the two vectors have one length, so zipping and unzipping give them back
  have hlen : a.keys.length = a.rids.length := h.keys_length.trans h.rids_length.symm
  refine ⟨⟨a.header, a.entries⟩, ?_, rfl, ?_⟩
  · rw [LeafNode.arrays, entries, List.map_fst_zip hlen.le, List.map_snd_zip hlen.ge]
  · rw [entries, List.length_zip, ← hlen, Nat.min_self]
    exact h.keys_length

section

variable {n : LeafNode} (hlen : n.entries.length = n.header.numKeys.toNat)

theorem matches_arrays : n.arrays.Matches ↔ n.entries.length = n.header.numKeys.toNat := by
  constructor
  · intro h
    exact (List.length_map _).symm.trans h.keys_length
  · intro h
    exact ⟨(List.length_map _).trans h, (List.length_map _).trans h⟩

theorem entries_arrays : n.arrays.entries = n.entries := (List.zip_of_prod rfl rfl).symm

include hlen

/-- **FindKeyPosition**, with 16-bit indices. -/
theorem findKeyPosition_eq (hstore : store.Faithful) (hfuel : 17 ≤ fuel) (key : KeyType)
    (cmp : KeyComparator) :
    ∃ pos, n.arrays.findKeyPosition store fuel key cmp = some pos ∧
      pos.toNat = n.findKeyPosition key cmp := by
  have hsize : n.header.numKeys.toNat ≤ n.arrays.keys.length :=
    hlen.symm.le.trans (List.length_map _).symm.le
  have hzero : (0 : UInt16) ≤ n.header.numKeys := UInt16.le_iff_toNat_le.mpr (Nat.zero_le _)
  have hrange : n.header.numKeys.toNat - (0 : UInt16).toNat < 2 ^ 16 := n.header.numKeys.toNat_lt
  exact bisect16_eq_bisect hstore _ _ hsize hzero hrange hfuel

/-- **Insert** on the two vectors. -/
theorem insert_eq (hstore : store.Faithful) (hfuel : 17 ≤ fuel) (key : KeyType) (rid : RID)
    (cmp : KeyComparator) :
    n.arrays.insert store fuel key rid cmp
      = some ((n.insert key rid cmp).1, (n.insert key rid cmp).2.arrays) := by
  -- a full node is not changed
  by_cases hfull : n.isFull = true
  · have hge : n.arrays.header.numKeys ≥ LeafNode.maxKeys := of_decide_eq_true hfull
    rw [insert, if_pos hge, LeafNode.insert, if_pos hfull]
  · have hlt : ¬ n.arrays.header.numKeys ≥ LeafNode.maxKeys := fun hge =>
      hfull (decide_eq_true hge)
    have hroom : n.header.numKeys.toNat < 406 :=
      UInt16.lt_iff_toNat_lt.mp (UInt16.not_le.mp hlt)
    -- the position is one of the vectors, so `insert` may use it
    obtain ⟨pos, hpos, hposNat⟩ := findKeyPosition_eq hlen hstore hfuel key cmp
    have hin : pos.toNat ≤ n.arrays.keys.length ∧ pos.toNat ≤ n.arrays.rids.length := by
      have hle : pos.toNat ≤ n.entries.length := by
        rw [hposNat, hlen]
        exact (bisect_le (Nat.zero_le _)).2
      exact ⟨hle.trans (List.length_map _).ge, hle.trans (List.length_map _).ge⟩
    -- the count is below the limit, so it fits the header
    have hcount : store (n.arrays.header.numKeys.toNat + 1) = some (n.header.numKeys + 1) := by
      rw [hstore _ (by change n.header.numKeys.toNat + 1 < _; omega)]
      rfl
    rw [insert, if_neg hlt, hpos, Option.bind_eq_bind, Option.bind_some, guard, if_pos hin, hcount,
      LeafNode.insert, if_neg hfull, ← hposNat]
    simp [LeafNode.arrays, List.map_insertIdx]

/-- The loop of `Delete`, from any position on. -/
theorem deleteFrom_eq (hstore : store.Faithful) {l : List (KeyType × RID)} :
    ∀ {fuel : ℕ} {pos : UInt16}, n.entries.drop pos.toNat = l → l.length < fuel →
      n.arrays.deleteFrom store key rid cmp fuel pos
        = match LeafNode.findEntry key rid cmp l pos.toNat with
          | some i => some (true, (n.erased i).arrays)
          | none => some (false, n.arrays) := by
  induction l with
  -- past the last entry: the loop ends
  | nil =>
    intro fuel pos hdrop hfuel
    obtain ⟨fuel, rfl⟩ := Nat.exists_eq_add_of_lt hfuel
    have hend : ¬ pos < n.arrays.header.numKeys := fun hlt => by
      have hlt := UInt16.lt_iff_toNat_lt.mp hlt
      have hle := List.drop_eq_nil_iff.mp hdrop
      change pos.toNat < n.header.numKeys.toNat at hlt
      omega
    rw [deleteFrom, if_neg hend]
    rfl
  -- an entry to look at
  | cons e l ih =>
    intro fuel pos hdrop hfuel
    obtain ⟨fuel, rfl⟩ : ∃ f, fuel = f + 1 := Nat.exists_eq_add_one_of_ne_zero (by omega)
    rw [List.length_cons] at hfuel
    have hget : n.entries[pos.toNat]? = some e := by rw [← List.head?_drop, hdrop, List.head?_cons]
    have hin := (List.getElem?_eq_some_iff.mp hget).1
    have hlt : pos < n.arrays.header.numKeys := UInt16.lt_iff_toNat_lt.mpr (hlen ▸ hin)
    have hkey : n.arrays.keys[pos.toNat]? = some e.1 := by simp [LeafNode.arrays, hget]
    have hrid : n.arrays.rids[pos.toNat]? = some e.2 := by simp [LeafNode.arrays, hget]
    have hkeys := n.header.numKeys.toNat_lt
    rw [deleteFrom, if_pos hlt, LeafNode.findEntry, hkey, Option.bind_eq_bind, Option.bind_some]
    -- its key is the one searched for
    by_cases hk : cmp e.1 key = 0
    · rw [if_pos hk, if_pos hk, hrid, Option.bind_eq_bind, Option.bind_some]
      by_cases hr : e.2 = rid
      · -- the entry is found and the count decremented
        have hcount : store (n.arrays.header.numKeys.toNat - 1) = some (n.header.numKeys - 1) := by
          have hless : n.header.numKeys.toNat - 1 < 2 ^ 16 := (Nat.sub_le _ _).trans_lt hkeys
          have hone : (1 : UInt16).toNat ≤ n.header.numKeys.toNat := by
            rw [← hlen]
            exact Nat.one_le_of_lt hin
          refine (hstore _ hless).trans (congrArg some (UInt16.toNat_inj.mp ?_))
          rw [UInt16.toNat_ofNat_of_lt' hless, toNat_sub16 hone]
          rfl
        rw [if_pos hr, if_pos hr, hcount, Option.bind_eq_bind, Option.bind_some]
        simp [LeafNode.arrays, LeafNode.erased, List.eraseIdx_map]
      · -- another record id: the loop goes on, and the index fits 16 bits
        obtain ⟨next, hnext, hnextNat⟩ := hstore.exists (n := pos.toNat + 1) (by omega)
        have hrest : n.entries.drop next.toNat = l := by
          rw [hnextNat, ← List.drop_drop, hdrop, List.drop_one, List.tail_cons]
        rw [if_neg hr, if_neg hr, hnext, Option.bind_eq_bind, Option.bind_some,
          ih hrest (by omega), hnextNat]
    · -- another key: the loop gives up
      rw [if_neg hk, if_neg hk]
      rfl

/-- **Delete** on the two vectors. -/
theorem delete_eq (hstore : store.Faithful) (hfuel : 2 ^ 16 ≤ fuel) (key : KeyType) (rid : RID)
    (cmp : KeyComparator) :
    n.arrays.delete store fuel key rid cmp
      = some ((n.delete key rid cmp).1, (n.delete key rid cmp).2.arrays) := by
  -- the position, and then the loop from there
  have hkeys := n.header.numKeys.toNat_lt
  obtain ⟨pos, hpos, hposNat⟩ := findKeyPosition_eq hlen hstore (by omega : 17 ≤ fuel) key cmp
  have hrest : (n.entries.drop pos.toNat).length < fuel := by
    rw [List.length_drop]
    omega
  have htake : n.entries.take n.header.numKeys.toNat = n.entries := by rw [← hlen, List.take_length]
  rw [delete, hpos, Option.bind_eq_bind, Option.bind_some, deleteFrom_eq hlen hstore rfl hrest,
    LeafNode.delete, htake, ← hposNat]
  cases LeafNode.findEntry key rid cmp (n.entries.drop pos.toNat) pos.toNat <;> rfl

end

end LeafArrays

/-! ## 4. Sorted leaves, for every comparator

`before` and `after` cut the entries at a key.  Among equal keys the position is the first. -/

namespace LeafNode

variable {n : LeafNode} {key : KeyType} {rid : RID} {cmp : KeyComparator}
  (hlen : n.entries.length = n.header.numKeys.toNat) (hs : SortedKeys cmp n.getKeys)
  (hcmp : cmp.Lawful)

/-- The entries before a key, by the comparator. -/
def before (n : LeafNode) (key : KeyType) (cmp : KeyComparator) : List (KeyType × RID) :=
  n.entries.takeWhile fun e => cmp e.1 key < 0

/-- The entries from a key on, by the comparator. -/
def after (n : LeafNode) (key : KeyType) (cmp : KeyComparator) : List (KeyType × RID) :=
  n.entries.dropWhile fun e => cmp e.1 key < 0

theorem before_append_after (n : LeafNode) (key : KeyType) (cmp : KeyComparator) :
    n.before key cmp ++ n.after key cmp = n.entries := List.takeWhile_append_dropWhile

include hlen hs hcmp in
/-- The position is the number of smaller keys. -/
theorem findKeyPosition_eq_countP (key : KeyType) :
    n.findKeyPosition key cmp = n.getKeys.countP fun k => cmp k key < 0 := by
  have hkeys : n.getKeys.length = n.header.numKeys.toNat := (List.length_map _).trans hlen
  rw [findKeyPosition, ← hkeys, bisect_eq_length_takeWhile (hs.mono_lt hcmp key),
    length_takeWhile_eq_countP (hs.mono_lt hcmp key)]

include hlen hs hcmp in
theorem findKeyPosition_eq_length_before (key : KeyType) :
    n.findKeyPosition key cmp = (n.before key cmp).length := by
  rw [findKeyPosition_eq_countP hlen hs hcmp,
    ← length_takeWhile_eq_countP (hs.mono_lt hcmp key), getKeys, List.takeWhile_map,
    List.length_map]
  rfl

/-- The entries before the position have smaller keys. -/
theorem neg_of_mem_before {e : KeyType × RID} (he : e ∈ n.before key cmp) : cmp e.1 key < 0 :=
  of_decide_eq_true (List.all_eq_true.mp List.all_takeWhile e he)

include hs hcmp in
/-- Those from it on do not. -/
theorem nonneg_of_mem_after {e : KeyType × RID} (he : e ∈ n.after key cmp) :
    0 ≤ cmp e.1 key := by
  have hnot := not_of_mem_dropWhile (p := fun e : KeyType × RID => decide (cmp e.1 key < 0))
    (List.pairwise_map.mp (hs.mono_lt hcmp key)) he
  exact not_lt.mp (of_decide_eq_false hnot)

include hlen hs hcmp in
/-- **Insert** keeps the node sorted, and adds the entry when the node is not full. -/
theorem insert_spec (key : KeyType) (rid : RID) :
    (n.insert key rid cmp).2.entries.length = (n.insert key rid cmp).2.header.numKeys.toNat ∧
      SortedKeys cmp (n.insert key rid cmp).2.getKeys ∧
      if n.isFull then n.insert key rid cmp = (false, n)
      else (n.insert key rid cmp).1 = true ∧
        (n.insert key rid cmp).2.entries.Perm ((key, rid) :: n.entries) := by
  -- a full node stays as it is
  by_cases hfull : n.isFull = true
  · rw [LeafNode.insert, if_pos hfull, if_pos hfull]
    exact ⟨hlen, hs, rfl⟩
  · have hroom : n.header.numKeys.toNat < 406 :=
      Nat.lt_of_not_le fun hge => hfull (decide_eq_true (UInt16.le_iff_toNat_le.mpr hge))
    -- the new entry goes between those before the key and those from it on
    rw [LeafNode.insert, if_neg hfull, if_neg hfull, findKeyPosition_eq_length_before hlen hs hcmp]
    have hentries : n.entries.insertIdx (n.before key cmp).length (key, rid)
        = n.before key cmp ++ (key, rid) :: n.after key cmp := insertIdx_length_takeWhile _ _ _
    have hpairs := List.pairwise_map.mp hs
    rw [← n.before_append_after key cmp, List.pairwise_append] at hpairs
    obtain ⟨hleft, hright, hacross⟩ := hpairs
    have hafter : ∀ e ∈ n.after key cmp, cmp key e.1 ≤ 0 := fun e he =>
      not_lt.mp fun hpos =>
        (nonneg_of_mem_after hs hcmp he).not_gt ((hcmp.swap e.1 key).mpr hpos)
    have hsplit : (n.before key cmp).length ≤ n.entries.length :=
      (List.takeWhile_prefix _).length_le
    -- the count
    refine ⟨?_, ?_, rfl, ?_⟩
    · rw [List.length_insertIdx_of_le_length hsplit, hlen]
      exact (toNat_succ16 (by omega)).symm
    · -- sorted: smaller keys before it, not smaller ones behind
      refine List.pairwise_map.mpr ?_
      simp only [hentries]
      refine List.pairwise_append.mpr ⟨hleft, List.pairwise_cons.mpr ⟨hafter, hright⟩, ?_⟩
      intro e he f hf
      rcases List.mem_cons.mp hf with rfl | hf
      · exact (neg_of_mem_before he).le
      · exact hacross e he f hf
    · -- the entries
      simp only [hentries]
      conv_rhs => rw [← n.before_append_after key cmp]
      exact List.perm_middle

include hcmp in
/-- The loop of `Delete` finds the entry among the sorted entries that are not smaller. -/
theorem findEntry_spec (key : KeyType) (rid : RID) {l : List (KeyType × RID)}
    (hsorted : l.Pairwise fun e f => cmp e.1 f.1 ≤ 0) (hge : ∀ e ∈ l, 0 ≤ cmp e.1 key) (pos : ℕ) :
    match findEntry key rid cmp l pos with
    | some i => ∃ j, i = pos + j ∧ l[j]? = some (key, rid)
    | none => (key, rid) ∉ l := by
  induction l generalizing pos with
  | nil => exact List.not_mem_nil
  | cons e l ih =>
    obtain ⟨hhead, htail⟩ := List.pairwise_cons.mp hsorted
    rw [findEntry]
    -- the key is that of the entry
    by_cases hk : cmp e.1 key = 0
    · rw [if_pos hk]
      by_cases hr : e.2 = rid
      · rw [if_pos hr]
        have he : e = (key, rid) := Prod.ext ((hcmp.eq_zero _ _).mp hk) hr
        exact ⟨0, rfl, by rw [he]; rfl⟩
      · -- another record id: it is among the rest, or nowhere
        rw [if_neg hr]
        have hrest := ih htail (fun f hf => hge f (List.mem_cons_of_mem _ hf)) (pos + 1)
        cases hfind : findEntry key rid cmp l (pos + 1) with
        | some i =>
          rw [hfind] at hrest
          obtain ⟨j, rfl, hget⟩ := hrest
          exact ⟨j + 1, by omega, hget⟩
        | none =>
          rw [hfind] at hrest
          refine fun hmem => (List.mem_cons.mp hmem).elim (fun he => hr ?_) hrest
          exact (congrArg Prod.snd he).symm
    · -- this key is greater, and so are those after it
      rw [if_neg hk]
      intro hmem
      have hpos : 0 < cmp e.1 key := lt_of_le_of_ne (hge e List.mem_cons_self) (Ne.symm hk)
      rcases List.mem_cons.mp hmem with rfl | hmem
      · exact hk ((hcmp.eq_zero _ _).mpr rfl)
      · exact absurd (hhead _ hmem) (not_le.mpr hpos)

include hlen hs hcmp in
/-- **Delete** removes an entry if and only if it is there. -/
theorem delete_spec (key : KeyType) (rid : RID) :
    (n.delete key rid cmp).2.entries.length = (n.delete key rid cmp).2.header.numKeys.toNat ∧
      SortedKeys cmp (n.delete key rid cmp).2.getKeys ∧
      if (key, rid) ∈ n.entries then (n.delete key rid cmp).1 = true ∧
        n.entries.Perm ((key, rid) :: (n.delete key rid cmp).2.entries)
      else n.delete key rid cmp = (false, n) := by
  -- the header counts all entries
  have htake : n.entries.take n.header.numKeys.toNat = n.entries := by rw [← hlen, List.take_length]
  have hdrop : n.entries.drop (n.before key cmp).length = n.after key cmp := by
    conv_lhs => rw [← n.before_append_after key cmp]
    exact List.drop_left
  -- the loop runs over the entries that are not smaller
  have hsorted : (n.after key cmp).Pairwise fun e f => cmp e.1 f.1 ≤ 0 :=
    (List.pairwise_map.mp hs).sublist (List.dropWhile_sublist _)
  have hfind := findEntry_spec hcmp key rid hsorted
    (fun e he => nonneg_of_mem_after hs hcmp he) (n.before key cmp).length
  rw [LeafNode.delete, findKeyPosition_eq_length_before hlen hs hcmp, htake, hdrop]
  -- found: the entry at the position is taken out
  cases heq : findEntry key rid cmp (n.after key cmp) (n.before key cmp).length with
  | some i =>
    rw [heq] at hfind
    obtain ⟨j, rfl, hget⟩ := hfind
    have hentry : n.entries[(n.before key cmp).length + j]? = some (key, rid) := by
      rw [← hdrop, List.getElem?_drop] at hget
      exact hget
    obtain ⟨hi, hentry⟩ := List.getElem?_eq_some_iff.mp hentry
    have hmem : (key, rid) ∈ n.entries := hentry ▸ List.getElem_mem hi
    refine ⟨?_, ?_, ?_⟩
    · have hone : (1 : UInt16).toNat ≤ n.header.numKeys.toNat := by
        rw [← hlen]
        exact Nat.one_le_of_lt hi
      change (n.entries.eraseIdx _).length = (n.header.numKeys - 1).toNat
      rw [List.length_eraseIdx_of_lt hi, toNat_sub16 hone, hlen]
      rfl
    · exact List.pairwise_map.mpr ((List.pairwise_map.mp hs).sublist (List.eraseIdx_sublist _ _))
    · rw [if_pos hmem]
      have hperm := (List.getElem_cons_eraseIdx_perm hi).symm
      rw [hentry] at hperm
      exact ⟨rfl, hperm⟩
  -- not found among the entries that are not smaller; the others have smaller keys
  | none =>
    rw [heq] at hfind
    have hnot : (key, rid) ∉ n.entries := by
      rw [← n.before_append_after key cmp, List.mem_append, not_or]
      refine ⟨fun hmem => ?_, hfind⟩
      -- the key is not smaller than itself
      exact (neg_of_mem_before hmem).ne ((hcmp.eq_zero key key).mpr rfl)
    rw [if_neg hnot]
    exact ⟨hlen, hs, rfl⟩

end LeafNode

/-! ## 5. The searches are exact -/

section Exact

variable {store : Narrowing} {fuel : ℕ} {cmp : KeyComparator}

/-- **FindChild** counts the keys that are not greater, with 16-bit indices. -/
theorem InternalNode.findChild16_eq {n : InternalNode}
    (hlen : n.keys.length = n.header.numKeys.toNat) (hs : SortedKeys cmp n.keys)
    (hcmp : cmp.Lawful) (hstore : store.Faithful) (hfuel : 17 ≤ fuel) (key : KeyType) :
    ∃ index, n.findChild16 store fuel key cmp = some index ∧
      index.toNat = n.keys.countP fun k => cmp k key ≤ 0 :=
  bisect16_eq_countP hstore (hs.mono_le hcmp key) hlen hfuel

namespace LeafArrays

/-- What the operations of a leaf do with a key, when it is sorted. -/
structure Exact (store : Narrowing) (fuel : ℕ) (n : LeafArrays) (key : KeyType) (rid : RID)
    (cmp : KeyComparator) : Prop where
  find : ∃ pos, n.findKeyPosition store 17 key cmp = some pos ∧
    pos.toNat = n.keys.countP fun k => cmp k key < 0
  insert : ∃ inserted n', n.insert store 17 key rid cmp = some (inserted, n') ∧ n'.Matches ∧
    SortedKeys cmp n'.keys ∧ (inserted = true ↔ n.header.numKeys < LeafNode.maxKeys) ∧
    if inserted then n'.entries.Perm ((key, rid) :: n.entries) else n' = n
  delete : ∃ deleted n', n.delete store fuel key rid cmp = some (deleted, n') ∧ n'.Matches ∧
    SortedKeys cmp n'.keys ∧ (deleted = true ↔ (key, rid) ∈ n.entries) ∧
    if deleted then n.entries.Perm ((key, rid) :: n'.entries) else n' = n

variable {a : LeafArrays}

theorem Matches.exact (h : a.Matches) (hs : SortedKeys cmp a.keys) (hcmp : cmp.Lawful)
    (hstore : store.Faithful) (hfuel : 2 ^ 16 ≤ fuel) (key : KeyType) (rid : RID) :
    a.Exact store fuel key rid cmp := by
  obtain ⟨n, rfl, -, hlen⟩ := h.exists_arrays
  obtain ⟨hlenInsert, hsInsert, hinsert⟩ := LeafNode.insert_spec hlen hs hcmp key rid
  obtain ⟨hlenDelete, hsDelete, hdelete⟩ := LeafNode.delete_spec hlen hs hcmp key rid
  constructor
  · exact bisect16_eq_countP hstore (hs.mono_lt hcmp key) h.keys_length (le_refl 17)
  · refine ⟨_, _, insert_eq hlen hstore (le_refl 17) key rid cmp,
      matches_arrays.mpr hlenInsert, hsInsert, ?_⟩
    by_cases hfull : n.isFull = true
    · have hge : ¬ n.arrays.header.numKeys < LeafNode.maxKeys :=
        UInt16.not_lt.mpr (of_decide_eq_true hfull)
      rw [if_pos hfull] at hinsert
      simp [hinsert, hge]
    · have hlt : n.arrays.header.numKeys < LeafNode.maxKeys :=
        UInt16.not_le.mp fun hge => hfull (decide_eq_true hge)
      rw [if_neg hfull] at hinsert
      rw [hinsert.1, if_pos rfl, entries_arrays, entries_arrays]
      exact ⟨iff_of_true rfl hlt, hinsert.2⟩
  · refine ⟨_, _, delete_eq hlen hstore hfuel key rid cmp,
      matches_arrays.mpr hlenDelete, hsDelete, ?_⟩
    rw [entries_arrays]
    by_cases hmem : (key, rid) ∈ n.entries
    · rw [if_pos hmem] at hdelete
      rw [hdelete.1, if_pos rfl, entries_arrays]
      exact ⟨iff_of_true rfl hmem, hdelete.2⟩
    · rw [if_neg hmem] at hdelete
      simp [hdelete, hmem]

end LeafArrays

/-- **The searches inside a node are exact.**  They end after at most seventeen rounds, with every
probe inside the vector, and no index needs more than 16 bits: it makes no difference whether one
that does is refused or cut off. -/
theorem nodeSearches_exact {leaf : LeafArrays} {node : InternalNode} (hcmp : cmp.Lawful)
    (hleaf : leaf.Matches) (hleafSorted : SortedKeys cmp leaf.keys)
    (hnode : node.keys.length = node.header.numKeys.toNat) (hnodeSorted : SortedKeys cmp node.keys)
    (hfuel : 2 ^ 16 ≤ fuel) (key : KeyType) (rid : RID) :
    ∀ store ∈ [Narrowing.checked, Narrowing.wrapping],
      leaf.Exact store fuel key rid cmp ∧
        ∃ index, node.findChild16 store 17 key cmp = some index ∧
          index.toNat = node.keys.countP fun k => cmp k key ≤ 0 := by
  intro store hmem
  have hstore := Narrowing.faithful_of_mem hmem
  exact ⟨hleaf.exact hleafSorted hcmp hstore hfuel key rid,
    InternalNode.findChild16_eq hnode hnodeSorted hcmp hstore (le_refl 17) key⟩

/-- Four keys, two of them equal. -/
def fourKeys : LeafArrays where
  header := { numKeys := 4 }
  keys := [3, 5, 5, 7]
  rids := [⟨1, 0⟩, ⟨1, 1⟩, ⟨1, 2⟩, ⟨1, 3⟩]

theorem nodeSearches_exact_fourKeys :
    fourKeys.Exact .checked (2 ^ 16) 5 ⟨1, 2⟩ defaultKeyComparator ∧
      ∃ index, InternalNode.findChild16 .checked 17
          { header := fourKeys.header, children := [1, 2, 3, 4, 5], keys := fourKeys.keys } 5
          defaultKeyComparator = some index ∧ index.toNat = 3 := by
  have hsorted : SortedKeys defaultKeyComparator fourKeys.keys := by
    unfold SortedKeys
    decide
  exact nodeSearches_exact lawful_defaultKeyComparator ⟨rfl, rfl⟩ hsorted rfl hsorted (le_refl _) 5
    ⟨1, 2⟩ .checked List.mem_cons_self

end Exact

end CourtDB
