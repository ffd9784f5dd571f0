/-
# Streams of self-delimiting items

Items are laid back to back in a stream of symbols, and a reader takes one item at a time from
the front until it finds none.  When the reader recognises every whole encoding and refuses
every proper prefix of one, it reads a stream back exactly, and a stream that was cut short up
to the cut (`items_take`).  What comes after the whole items of a cut is `torn`: it is what an
append after the cut lands behind.
-/
import Mathlib.Algebra.Ring.Nat
import Mathlib.Data.List.Basic

namespace Framing

variable {α β : Type*}

/-! ## 1. Positions -/

/-- The items of `as` that lie wholly within the first `k` symbols. -/
def whole (size : α → Nat) : Nat → List α → List α
  | _, [] => []
  | k, a :: as => if size a ≤ k then a :: whole size (k - size a) as else []

/-- The positions where the items start, the first of them at `n`. -/
def offsets (size : α → Nat) : Nat → List α → List Nat
  | _, [] => []
  | n, a :: as => n :: offsets size (n + size a) as

variable {size : α → Nat}

theorem offsets_append (n : Nat) (as bs : List α) :
    offsets size n (as ++ bs) = offsets size n as ++ offsets size (n + (as.map size).sum) bs := by
  induction as generalizing n with
  | nil => simp [offsets]
  | cons a as ih => simp [offsets, ih, Nat.add_assoc]

/-- An item ends where the items up to it end. -/
theorem offsets_getElem? {as : List α} : ∀ {n i k : Nat} {a : α},
    (offsets size n as)[i]? = some k → as[i]? = some a →
      k + size a = n + ((as.take (i + 1)).map size).sum := by
  induction as with
  | nil => exact fun _ ha => absurd ha (by simp)
  | cons b as ih =>
    intro n i k a hk ha
    cases i with
    | zero =>
      obtain rfl : n = k := by simpa [offsets] using hk
      obtain rfl : b = a := by simpa using ha
      simp
    | succ i =>
      rw [offsets, List.getElem?_cons_succ] at hk
      rw [List.getElem?_cons_succ] at ha
      rw [ih hk ha, List.take_succ_cons, List.map_cons, List.sum_cons, Nat.add_assoc]

theorem add_mem_offsets (n m k : Nat) (as : List α) :
    m + k ∈ offsets size (m + n) as ↔ k ∈ offsets size n as := by
  induction as generalizing n with
  | nil => simp [offsets]
  | cons a as ih => simp only [offsets, List.mem_cons, Nat.add_assoc, ih]; simp

theorem le_of_mem_offsets {n k : Nat} {as : List α} (h : k ∈ offsets size n as) : n ≤ k := by
  induction as generalizing n with
  | nil => exact absurd h List.not_mem_nil
  | cons a as ih =>
    rcases List.mem_cons.mp h with rfl | h
    · exact Nat.le_refl k
    · exact Nat.le_of_add_right_le (ih h)

/-! ## 2. Cutting a stream -/

/-- What a cut after `k` symbols leaves of the item it falls into. -/
def torn (encode : α → List β) : Nat → List α → List β
  | _, [] => []
  | k, a :: as =>
    if (encode a).length ≤ k then torn encode (k - (encode a).length) as else (encode a).take k

variable {encode : α → List β}

/-- The number of symbols of an item. -/
abbrev length (encode : α → List β) (a : α) : Nat := (encode a).length

theorem take_flatMap (encode : α → List β) (k : Nat) (as : List α) :
    (as.flatMap encode).take k
      = (whole (length encode) k as).flatMap encode ++ torn encode k as := by
  induction as generalizing k with
  | nil => simp [whole, torn]
  | cons a as ih =>
    by_cases h : (encode a).length ≤ k
    · rw [whole, torn, if_pos h, if_pos h, List.flatMap_cons, List.flatMap_cons, List.append_assoc,
        ← ih, List.take_append, List.take_of_length_le h]
    · rw [whole, torn, if_neg h, if_neg h, List.flatMap_cons, List.flatMap_nil, List.nil_append,
        List.take_append_of_le_length (Nat.le_of_not_le h)]

theorem mem_of_mem_whole {k : Nat} {as : List α} {a : α} (h : a ∈ whole size k as) : a ∈ as := by
  induction as generalizing k with
  | nil => exact h
  | cons b as ih =>
    rw [whole] at h
    by_cases hk : size b ≤ k
    · rw [if_pos hk] at h
      rcases List.mem_cons.mp h with rfl | h
      · exact List.mem_cons_self
      · exact List.mem_cons_of_mem b (ih h)
    · rw [if_neg hk] at h; exact absurd h List.not_mem_nil

theorem length_whole_le (k : Nat) (as : List α) : (whole size k as).length ≤ as.length := by
  induction as generalizing k with
  | nil => exact Nat.le_refl 0
  | cons b as ih =>
    rw [whole]
    split
    · exact Nat.succ_le_succ (ih _)
    · exact Nat.zero_le _

/-- A cut leaves nothing torn exactly when it falls between two items or past the last one. -/
theorem torn_eq_nil_iff {as : List α} (hpos : ∀ a ∈ as, 0 < (encode a).length) {k : Nat} :
    torn encode k as = [] ↔
      k ∈ offsets (length encode) 0 as ∨ (as.map (length encode)).sum ≤ k := by
  induction as generalizing k with
  | nil => simp [torn]
  | cons a as ih =>
    obtain ⟨ha, has⟩ := List.forall_mem_cons.mp hpos
    rw [torn, offsets, List.mem_cons, List.map_cons, List.sum_cons]
    by_cases h : (encode a).length ≤ k
    · obtain ⟨j, rfl⟩ := Nat.exists_eq_add_of_le h
      have hne : (encode a).length + j ≠ 0 := by omega
      have hmem : (encode a).length + j ∈ offsets (length encode) ((encode a).length + 0) as ↔
          j ∈ offsets (length encode) 0 as := add_mem_offsets 0 _ j as
      rw [if_pos h, Nat.add_sub_cancel_left, ih has, ← hmem, Nat.add_zero, Nat.zero_add]
      simp only [hne, false_or, Nat.add_le_add_iff_left]
    · rw [if_neg h, List.take_eq_nil_iff]
      have hnot : k ∉ offsets (length encode) (0 + (encode a).length) as := fun hk =>
        h (by simpa using le_of_mem_offsets hk)
      have hnil : encode a ≠ [] := List.ne_nil_of_length_pos ha
      simp only [hnil, hnot, or_false, length]
      omega

theorem torn_cases (encode : α → List β) (k : Nat) (as : List α) :
    torn encode k as = [] ∨
      ∃ a ∈ as, ∃ j, 0 < j ∧ j < (encode a).length ∧ torn encode k as = (encode a).take j := by
  induction as generalizing k with
  | nil => exact Or.inl rfl
  | cons a as ih =>
    by_cases h : (encode a).length ≤ k
    · rw [torn, if_pos h]
      rcases ih (k - (encode a).length) with hnil | ⟨b, hb, hj⟩
      · exact Or.inl hnil
      · exact Or.inr ⟨b, List.mem_cons_of_mem a hb, hj⟩
    · rw [torn, if_neg h]
      rcases Nat.eq_zero_or_pos k with rfl | hk
      · exact Or.inl (List.take_zero)
      · exact Or.inr ⟨a, List.mem_cons_self, k, hk, Nat.lt_of_not_le h, rfl⟩

/-! ## 3. Reading a stream -/

/-- The items that a reader finds from the front of a stream, at most `fuel` of them.  The
reader gives the item at the front and the number of symbols it takes. -/
def items (next : List β → Option (α × Nat)) : Nat → List β → List α
  | 0, _ => []
  | fuel + 1, s =>
    match next s with
    | none => []
    | some (a, n) => a :: items next fuel (s.drop n)

/-- A reader that makes the stream shorter finds no more items than there are symbols. -/
theorem length_items_le {next : List β → Option (α × Nat)}
    (hnext : ∀ s a n, next s = some (a, n) → (s.drop n).length < s.length) (fuel : Nat)
    (s : List β) : (items next fuel s).length ≤ s.length := by
  induction fuel generalizing s with
  | zero => exact Nat.zero_le _
  | succ fuel ih =>
    rw [items]
    split
    · exact Nat.zero_le _
    · rename_i a n ha
      exact Nat.succ_le_of_lt (Nat.lt_of_le_of_lt (ih _) (hnext s a n ha))

/-- The reader recognises the encoding of every item that meets `P`, whatever follows it, and
finds nothing in a proper prefix of one. -/
structure SelfDelimiting (encode : α → List β) (next : List β → Option (α × Nat))
    (P : α → Prop) : Prop where
  read_nil : next [] = none
  read_whole : ∀ {a}, P a → ∀ rest, next (encode a ++ rest) = some (a, (encode a).length)
  read_torn : ∀ {a}, P a → ∀ {k}, k < (encode a).length → next ((encode a).take k) = none

namespace SelfDelimiting

variable {next : List β → Option (α × Nat)} {P : α → Prop}

theorem items_append (h : SelfDelimiting encode next P) {as : List α} (hP : ∀ a ∈ as, P a)
    (fuel : Nat) (rest : List β) :
    items next (as.length + fuel) (as.flatMap encode ++ rest) = as ++ items next fuel rest := by
  induction as with
  | nil => simp
  | cons a as ih =>
    obtain ⟨ha, has⟩ := List.forall_mem_cons.mp hP
    rw [List.length_cons, Nat.add_right_comm, items, List.flatMap_cons, List.append_assoc,
      h.read_whole ha]
    simp only [List.drop_left, ih has, List.cons_append]

/-- A whole stream is read back. -/
theorem items_flatMap (h : SelfDelimiting encode next P) {as : List α} (hP : ∀ a ∈ as, P a)
    {fuel : Nat} (hfuel : as.length ≤ fuel) : items next fuel (as.flatMap encode) = as := by
  obtain ⟨f, rfl⟩ := Nat.exists_eq_add_of_le hfuel
  have hnil : items next f [] = [] := by
    cases f with
    | zero => rfl
    | succ f => rw [items, h.read_nil]
  have hall := h.items_append hP f []
  rwa [hnil, List.append_nil, List.append_nil] at hall

/-- **A stream that was cut reads back up to the cut.** -/
theorem items_take (h : SelfDelimiting encode next P) {as : List α} (hP : ∀ a ∈ as, P a)
    {fuel k : Nat} (hfuel : (whole (length encode) k as).length ≤ fuel) :
    items next fuel ((as.flatMap encode).take k) = whole (length encode) k as := by
  obtain ⟨f, rfl⟩ := Nat.exists_eq_add_of_le hfuel
  have hnone : next (torn encode k as) = none := by
    rcases torn_cases encode k as with htorn | ⟨a, ha, j, -, hj, htorn⟩
    · rw [htorn]; exact h.read_nil
    · rw [htorn]; exact h.read_torn (hP a ha) hj
  have hrest : items next f (torn encode k as) = [] := by
    cases f with
    | zero => rfl
    | succ f => rw [items, hnone]
  rw [take_flatMap, h.items_append fun a ha => hP a (mem_of_mem_whole ha), hrest, List.append_nil]

end SelfDelimiting

end Framing
