/-
# Binary search for a boundary

A list on which a predicate holds up to some position and fails from there on has a boundary, and
`bisect` finds it by halving.  The result is the length of the longest prefix on which the predicate
holds (`bisect_eq_length_takeWhile`), so that cutting the list there is `takeWhile` and `dropWhile`.
Whatever the list, the search ends inside it (`bisect_le`).

`bisect16` is the same loop on 16-bit indices, where a probe can miss the list and an index can fail
to fit.  Within a list neither happens, and seventeen rounds are enough (`bisect16_eq_bisect`).
-/
import Mathlib.Algebra.Ring.Nat
import Mathlib.Data.List.GetD
import Mathlib.Data.List.Sort

/-- The first position of `l[lo, hi)` at which `p` fails, if `p` never holds after it failed. -/
def bisect {α : Type} [Inhabited α] (p : α → Bool) (l : List α) (lo hi : Nat) : Nat :=
  if h : lo < hi then
    let mid := lo + (hi - lo) / 2
    if p (l.getD mid default) then
      bisect p l (mid + 1) hi
    else
      bisect p l lo mid
  else
    lo
termination_by hi - lo

/-! ## 1. Boundaries -/

/-- Inserting where a list is cut. -/
theorem insertIdx_append_length {α : Type} (l₁ l₂ : List α) (a : α) :
    (l₁ ++ l₂).insertIdx l₁.length a = l₁ ++ a :: l₂ := by
  induction l₁ with
  | nil => rfl
  | cons b l₁ ih =>
    rw [List.cons_append, List.length_cons, List.insertIdx_succ_cons, ih, List.cons_append]

/-- Inserting at the boundary. -/
theorem insertIdx_length_takeWhile {α : Type} (p : α → Bool) (l : List α) (a : α) :
    l.insertIdx (l.takeWhile p).length a = l.takeWhile p ++ a :: l.dropWhile p := by
  have h := insertIdx_append_length (l.takeWhile p) (l.dropWhile p) a
  rwa [List.takeWhile_append_dropWhile] at h

/-- In a list in which `p` never holds after it failed, it fails from the boundary on. -/
theorem not_of_mem_dropWhile {α : Type} {p : α → Bool} {l : List α} {a : α}
    (hmono : l.Pairwise fun a b => p b = true → p a = true) (ha : a ∈ l.dropWhile p) :
    p a = false := by
  cases hd : l.dropWhile p with
  | nil => rw [hd] at ha; exact absurd ha List.not_mem_nil
  | cons b rest =>
    have hb : p b = false := by
      have hnot := List.head_dropWhile_not p (l := l) (by rw [hd]; exact List.cons_ne_nil _ _)
      simpa [hd] using hnot
    rw [hd] at ha
    rcases List.mem_cons.mp ha with rfl | ha
    · exact hb
    · have hpair := hmono.sublist (List.dropWhile_sublist p)
      rw [hd] at hpair
      by_contra hpa
      rw [Bool.not_eq_false] at hpa
      rw [List.rel_of_pairwise_cons hpair ha hpa] at hb
      exact Bool.false_ne_true hb.symm

/-! ## 2. The search -/

section

variable {α : Type} [Inhabited α] {p : α → Bool} {l : List α} {lo hi : Nat}

theorem bisect_le (h : lo ≤ hi) : lo ≤ bisect p l lo hi ∧ bisect p l lo hi ≤ hi := by
  fun_induction bisect p l lo hi with
  | case1 lo hi hlt mid hp ih => have := ih (by omega); omega
  | case2 lo hi hlt mid hp ih => have := ih (by omega); omega
  | case3 lo hi hlt => exact ⟨Nat.le_refl lo, h⟩

/-- The search keeps the boundary between its two ends. -/
theorem bisect_eq_of_boundary {n : Nat} (hn : lo ≤ n ∧ n ≤ hi)
    (hleft : ∀ i < n, p (l.getD i default) = true)
    (hright : ∀ i, n ≤ i → i < hi → p (l.getD i default) = false) :
    bisect p l lo hi = n := by
  fun_induction bisect p l lo hi with
  | case1 lo hi hlt mid hp ih =>
    refine ih ⟨?_, hn.2⟩ hright
    by_contra hle
    rw [hright mid (by omega) (by omega)] at hp
    exact Bool.false_ne_true hp
  | case2 lo hi hlt mid hp ih =>
    refine ih ⟨hn.1, ?_⟩ fun i h1 h2 => hright i h1 (by omega)
    by_contra hle
    exact hp (hleft mid (by omega))
  | case3 lo hi hlt => omega

/-- **The boundary of a list**, where `p` holds before everything it holds of. -/
theorem bisect_eq_length_takeWhile (hmono : l.Pairwise fun a b => p b = true → p a = true) :
    bisect p l 0 l.length = (l.takeWhile p).length := by
  have hsplit : l.takeWhile p ++ l.dropWhile p = l := List.takeWhile_append_dropWhile
  have hlen := congrArg List.length hsplit
  rw [List.length_append] at hlen
  refine bisect_eq_of_boundary ⟨Nat.zero_le _, by omega⟩ ?_ ?_
  · intro i hi
    have hget : l.getD i default = (l.takeWhile p)[i] := by
      rw [← List.getD_eq_getElem _ default hi]
      conv_lhs => rw [← hsplit]
      exact List.getD_append _ _ _ _ hi
    rw [hget]
    exact List.all_eq_true.mp List.all_takeWhile _ (List.getElem_mem hi)
  · intro i hi hlt
    have hget : l.getD i default = (l.dropWhile p).getD (i - (l.takeWhile p).length) default := by
      conv_lhs => rw [← hsplit]
      exact List.getD_append_right _ _ _ _ hi
    rw [hget, List.getD_eq_getElem _ _ (by omega)]
    exact not_of_mem_dropWhile hmono (List.getElem_mem _)

omit [Inhabited α] in
/-- The longest prefix on which `p` holds has all elements on which it holds. -/
theorem length_takeWhile_eq_countP (hmono : l.Pairwise fun a b => p b = true → p a = true) :
    (l.takeWhile p).length = l.countP p := by
  have hrest : (l.dropWhile p).countP p = 0 := by
    rw [List.countP_eq_zero]
    intro a ha hpa
    rw [not_of_mem_dropWhile hmono ha] at hpa
    exact Bool.false_ne_true hpa
  have hall : (l.takeWhile p).countP p = (l.takeWhile p).length :=
    List.countP_eq_length.mpr (List.all_eq_true.mp List.all_takeWhile)
  conv_rhs => rw [← List.takeWhile_append_dropWhile (p := p) (l := l)]
  rw [List.countP_append, hrest, hall, Nat.add_zero]

end

/-! ## 3. The search on 16-bit indices -/

/-- How a number is stored in 16 bits. -/
abbrev Narrowing := ℕ → Option UInt16

namespace Narrowing

/-- What does not fit is cut off. -/
def wrapping : Narrowing := fun n => some (UInt16.ofNat n)

/-- What does not fit is refused. -/
def checked : Narrowing := fun n => if n < 2 ^ 16 then some (UInt16.ofNat n) else none

/-- What fits is stored as it is. -/
def Faithful (store : Narrowing) : Prop := ∀ n < 2 ^ 16, store n = some (UInt16.ofNat n)

theorem faithful_wrapping : wrapping.Faithful := fun _ _ => rfl

theorem faithful_checked : checked.Faithful := fun _ hn => if_pos hn

/-- Either way of storing a number. -/
theorem faithful_of_mem {store : Narrowing} (h : store ∈ [checked, wrapping]) :
    store.Faithful := by
  rcases List.mem_pair.mp h with rfl | rfl
  · exact faithful_checked
  · exact faithful_wrapping

theorem Faithful.exists {store : Narrowing} (h : store.Faithful) {n : ℕ} (hn : n < 2 ^ 16) :
    ∃ x, store n = some x ∧ x.toNat = n :=
  ⟨_, h n hn, UInt16.toNat_ofNat_of_lt' hn⟩

end Narrowing

/-- `bisect`, with indices of 16 bits.  It has no result when the fuel, the number of rounds, runs
out, when an index is refused, or when a probe misses the list. -/
def bisect16 {α : Type} (store : Narrowing) (p : α → Bool) (l : List α) :
    ℕ → UInt16 → UInt16 → Option UInt16
  | 0, _, _ => none
  | fuel + 1, lo, hi =>
    if lo < hi then do
      let mid ← store (lo.toNat + (hi.toNat - lo.toNat) / 2)
      let a ← l[mid.toNat]?
      if p a then
        let lo ← store (mid.toNat + 1)
        bisect16 store p l fuel lo hi
      else
        bisect16 store p l fuel lo mid
    else
      some lo

/-- **Within a list the loop is `bisect`**: its range is halved in every round, every probe hits the
list and every index fits. -/
theorem bisect16_eq_bisect {α : Type} [Inhabited α] {store : Narrowing} (hstore : store.Faithful)
    (p : α → Bool) (l : List α) {k : ℕ} : ∀ {fuel : ℕ} {lo hi : UInt16},
    hi.toNat ≤ l.length → lo ≤ hi → hi.toNat - lo.toNat < 2 ^ k → k < fuel →
    ∃ x, bisect16 store p l fuel lo hi = some x ∧ x.toNat = bisect p l lo.toNat hi.toNat := by
  induction k with
  | zero =>
    intro fuel lo hi hlen hle hrange hfuel
    obtain ⟨fuel, rfl⟩ := Nat.exists_eq_add_of_lt hfuel
    have hle := UInt16.le_iff_toNat_le.mp hle
    have hdone : ¬ lo.toNat < hi.toNat := by omega
    refine ⟨lo, ?_, ?_⟩
    · rw [bisect16, if_neg fun h => hdone (UInt16.lt_iff_toNat_lt.mp h)]
    · rw [bisect, dif_neg hdone]
  | succ k ih =>
    intro fuel lo hi hlen hle hrange hfuel
    obtain ⟨fuel, rfl⟩ : ∃ f, fuel = f + 1 := Nat.exists_eq_add_one_of_ne_zero (by omega)
    by_cases hlt : lo < hi
    · have hlt' := UInt16.lt_iff_toNat_lt.mp hlt
      have hhi := hi.toNat_lt
      rw [Nat.pow_succ] at hrange
      obtain ⟨mid, hmid, hmidNat⟩ :=
        hstore.exists (n := lo.toNat + (hi.toNat - lo.toNat) / 2) (by omega)
      have hprobe : mid.toNat < l.length := by omega
      rw [bisect16, if_pos hlt, bisect, dif_pos hlt', hmid, ← hmidNat]
      simp only [Option.bind_eq_bind, Option.bind_some, List.getElem?_eq_getElem hprobe,
        List.getD_eq_getElem _ _ hprobe]
      by_cases hp : p l[mid.toNat] = true
      · obtain ⟨lo', hlo, hloNat⟩ := hstore.exists (n := mid.toNat + 1) (by omega)
        rw [if_pos hp, if_pos hp, hlo, ← hloNat]
        exact ih hlen (UInt16.le_iff_toNat_le.mpr (by omega)) (by omega) (by omega)
      · rw [if_neg hp, if_neg hp]
        exact ih (by omega) (UInt16.le_iff_toNat_le.mpr (by omega)) (by omega) (by omega)
    · refine ⟨lo, ?_, ?_⟩
      · rw [bisect16, if_neg hlt]
      · rw [bisect, dif_neg fun h => hlt (UInt16.lt_iff_toNat_lt.mpr h)]

/-- **The search of a whole list** takes at most seventeen rounds. -/
theorem bisect16_eq_countP {α : Type} [Inhabited α] {store : Narrowing} (hstore : store.Faithful)
    {p : α → Bool} {l : List α} (hmono : l.Pairwise fun a b => p b = true → p a = true)
    {size : UInt16} (hsize : l.length = size.toNat) {fuel : ℕ} (hfuel : 17 ≤ fuel) :
    ∃ x, bisect16 store p l fuel 0 size = some x ∧ x.toNat = l.countP p := by
  have hzero : (0 : UInt16) ≤ size := UInt16.le_iff_toNat_le.mpr (Nat.zero_le _)
  have hrange : size.toNat - (0 : UInt16).toNat < 2 ^ 16 := size.toNat_lt
  obtain ⟨x, hx, hxNat⟩ := bisect16_eq_bisect hstore p l hsize.ge hzero hrange hfuel
  refine ⟨x, hx, hxNat.trans ?_⟩
  rw [← hsize, ← length_takeWhile_eq_countP hmono]
  exact bisect_eq_length_takeWhile hmono
