/-
# Intervals that lie end to end

Names `x` with half-open intervals `[lo x, hi x)` lie end to end from `a` to `b` when the first
starts at `a`, each ends where the next starts, and the last ends at `b` (`Abuts`).  This is how the
children of a search node divide its range, and how the leaves of a search tree divide the whole
range.

A list of such intervals can be cut and joined anywhere (`abuts_append`), an interval can be cut in
two (`Abuts.split`), and every key of the range lies in exactly one interval, whose position is the
number of starts, after the first, that are not greater than the key (`Abuts.find`).
-/
import Mathlib.Data.List.Basic
import Mathlib.Data.List.Sort
import Mathlib.Order.Basic

/-- The intervals of `l` lie end to end from `a` to `b`. -/
def Abuts {α β : Type} (lo hi : α → β) : β → List α → β → Prop
  | a, [], b => a = b
  | a, x :: l, b => lo x = a ∧ Abuts lo hi (hi x) l b

section

variable {α β : Type} {lo hi lo' hi' : α → β} {a b : β} {l l₁ l₂ : List α} {x y : α}

@[simp] theorem abuts_nil : Abuts lo hi a [] b ↔ a = b := Iff.rfl

@[simp] theorem abuts_cons : Abuts lo hi a (x :: l) b ↔ lo x = a ∧ Abuts lo hi (hi x) l b := Iff.rfl

/-- Rows of intervals can be cut and joined. -/
theorem abuts_append :
    Abuts lo hi a (l₁ ++ l₂) b ↔ ∃ c, Abuts lo hi a l₁ c ∧ Abuts lo hi c l₂ b := by
  induction l₁ generalizing a with
  | nil => exact ⟨fun h => ⟨a, rfl, h⟩, fun ⟨_, hc, h⟩ => hc ▸ h⟩
  | cons x l₁ ih =>
    rw [List.cons_append, abuts_cons, ih]
    constructor
    · rintro ⟨hx, c, h₁, h₂⟩
      exact ⟨c, ⟨hx, h₁⟩, h₂⟩
    · rintro ⟨c, ⟨hx, h₁⟩, h₂⟩
      exact ⟨hx, c, h₁, h₂⟩

/-- A row depends on the intervals of its own names only. -/
theorem Abuts.congr (h : Abuts lo hi a l b) (hlo : ∀ x ∈ l, lo' x = lo x)
    (hhi : ∀ x ∈ l, hi' x = hi x) : Abuts lo' hi' a l b := by
  induction l generalizing a with
  | nil => exact h
  | cons x l ih =>
    obtain ⟨hx, hrest⟩ := h
    refine ⟨(hlo x List.mem_cons_self).trans hx, ?_⟩
    rw [hhi x List.mem_cons_self]
    exact ih hrest (fun y hy => hlo y (List.mem_cons_of_mem _ hy))
      fun y hy => hhi y (List.mem_cons_of_mem _ hy)

/-- **An interval is cut in two**: `x` keeps the part before `c`, and the new name `y` gets the
rest. -/
theorem Abuts.split {c : β} (h : Abuts lo hi a (l₁ ++ x :: l₂) b)
    (hlo : ∀ z ∈ l₁ ++ l₂, lo' z = lo z) (hhi : ∀ z ∈ l₁ ++ l₂, hi' z = hi z)
    (hx : lo' x = lo x ∧ hi' x = c) (hy : lo' y = c ∧ hi' y = hi x) :
    Abuts lo' hi' a (l₁ ++ x :: y :: l₂) b := by
  obtain ⟨d, h₁, hxd, h₂⟩ := abuts_append.mp h
  refine abuts_append.mpr ⟨d, ?_, hx.1.trans hxd, hy.1.trans hx.2.symm, ?_⟩
  · exact h₁.congr (fun z hz => hlo z (List.mem_append_left _ hz))
      fun z hz => hhi z (List.mem_append_left _ hz)
  · rw [hy.2]
    exact h₂.congr (fun z hz => hlo z (List.mem_append_right _ hz))
      fun z hz => hhi z (List.mem_append_right _ hz)

variable [LinearOrder β]

/-- Every interval lies between the ends of the row. -/
theorem Abuts.bounds (h : Abuts lo hi a l b) (hlt : ∀ x ∈ l, lo x ≤ hi x) :
    a ≤ b ∧ ∀ x ∈ l, a ≤ lo x ∧ hi x ≤ b := by
  induction l generalizing a with
  | nil => exact ⟨le_of_eq h, fun _ hx => absurd hx List.not_mem_nil⟩
  | cons x l ih =>
    obtain ⟨rfl, hrest⟩ := h
    obtain ⟨hle, hall⟩ := ih hrest fun y hy => hlt y (List.mem_cons_of_mem _ hy)
    have hx := hlt x List.mem_cons_self
    refine ⟨hx.trans hle, fun y hy => ?_⟩
    rcases List.mem_cons.mp hy with rfl | hy
    · exact ⟨le_rfl, hle⟩
    · exact ⟨hx.trans (hall y hy).1, (hall y hy).2⟩

/-- The starts after the first are increasing. -/
theorem Abuts.sorted (h : Abuts lo hi a l b) (hlt : ∀ x ∈ l, lo x ≤ hi x) :
    (l.map lo).Pairwise (· ≤ ·) := by
  induction l generalizing a with
  | nil => exact List.Pairwise.nil
  | cons x l ih =>
    obtain ⟨rfl, hrest⟩ := h
    have hall := fun y hy => hlt y (List.mem_cons_of_mem _ hy)
    rw [List.map_cons, List.pairwise_cons]
    refine ⟨fun c hc => ?_, ih hrest hall⟩
    obtain ⟨y, hy, rfl⟩ := List.mem_map.mp hc
    exact (hlt x List.mem_cons_self).trans ((hrest.bounds hall).2 y hy).1

/-- **A key of the range lies in one interval**, after as many others as there are starts, after
the first, up to the key. -/
theorem Abuts.find {k : β} (h : Abuts lo hi a l b) (hlt : ∀ x ∈ l, lo x ≤ hi x) (ha : a ≤ k)
    (hb : k < b) : ∃ l₁ x l₂, l = l₁ ++ x :: l₂ ∧ lo x ≤ k ∧ k < hi x ∧
      ((l.tail.map lo).takeWhile fun c => c ≤ k).length = l₁.length := by
  induction l generalizing a with
  | nil => exact absurd (lt_of_le_of_lt ha hb) (not_lt_of_ge (le_of_eq h.symm))
  | cons x l ih =>
    obtain ⟨rfl, hrest⟩ := h
    have hall := fun y hy => hlt y (List.mem_cons_of_mem _ hy)
    by_cases hk : k < hi x
    · refine ⟨[], x, l, rfl, ha, hk, ?_⟩
      cases l with
      | nil => rfl
      | cons y l =>
        have hy : ¬ lo y ≤ k := not_le_of_gt (hrest.1.symm ▸ hk)
        rw [List.tail_cons, List.map_cons, List.takeWhile_cons_of_neg (by simpa using hy)]
        rfl
    · obtain ⟨l₁, y, l₂, rfl, hlo, hhi, hcount⟩ := ih hrest hall (le_of_not_gt hk)
      refine ⟨x :: l₁, y, l₂, rfl, hlo, hhi, ?_⟩
      cases l₁ with
      | nil =>
        have hy : lo y ≤ k := hlo
        rw [List.tail_cons, List.nil_append, List.map_cons,
          List.takeWhile_cons_of_pos (by simpa using hy), List.length_cons]
        exact congrArg Nat.succ hcount
      | cons z l₁ =>
        have hz : lo z ≤ k := (hrest.1.trans_le (le_of_not_gt hk))
        rw [List.tail_cons, List.cons_append, List.map_cons,
          List.takeWhile_cons_of_pos (by simpa using hz), List.length_cons]
        exact congrArg Nat.succ hcount

/-- A key past the range lies after every start. -/
theorem Abuts.starts_le {k : β} (h : Abuts lo hi a l b) (hlt : ∀ x ∈ l, lo x ≤ hi x)
    (hb : b ≤ k) : ∀ c ∈ l.map lo, c ≤ k := by
  intro c hc
  obtain ⟨x, hx, rfl⟩ := List.mem_map.mp hc
  exact (hlt x hx).trans (((h.bounds hlt).2 x hx).2.trans hb)

/-- Two names of a row have the same key in their intervals only if they are the same. -/
theorem Abuts.unique {k : β} (h : Abuts lo hi a l b) (hlt : ∀ x ∈ l, lo x ≤ hi x) (hx : x ∈ l)
    (hy : y ∈ l) (hkx : lo x ≤ k ∧ k < hi x) (hky : lo y ≤ k ∧ k < hi y) : x = y := by
  induction l generalizing a with
  | nil => exact absurd hx List.not_mem_nil
  | cons z l ih =>
    obtain ⟨-, hrest⟩ := h
    have hall := fun y hy => hlt y (List.mem_cons_of_mem _ hy)
    have hlater : ∀ w ∈ l, hi z ≤ lo w := fun w hw => ((hrest.bounds hall).2 w hw).1
    rcases List.mem_cons.mp hx with rfl | hxl <;> rcases List.mem_cons.mp hy with rfl | hyl
    · rfl
    · exact absurd (lt_of_lt_of_le hkx.2 ((hlater y hyl).trans hky.1)) (lt_irrefl k)
    · exact absurd (lt_of_lt_of_le hky.2 ((hlater x hxl).trans hkx.1)) (lt_irrefl k)
    · exact ih hrest hall hxl hyl

end
