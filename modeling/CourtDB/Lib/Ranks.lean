/-
# Ranks under a strict weak order

A list whose first `k` elements are in order, with nothing smaller behind them, holds at each of
the first `k` places an element of that rank: of the elements of the list, at most the place's
index are smaller (`Ranked.countP_lt_le`), and more than that are not greater (`Ranked.lt_countP`).
Ties can be broken either way, so two such arrangements of one list need not be equal; place by
place they are incomparable (`PartlySorted.forall₂_incompRel`).
-/
import Mathlib.Data.List.Forall2
import Mathlib.Data.List.Sublists
import Mathlib.Order.Comparable

namespace Ranks

variable {α : Type} (lt : α → α → Prop)

/-- No element is smaller than one in front of it. -/
def Sorted (l : List α) : Prop := l.Pairwise fun a b => ¬ lt b a

/-- The first `k` elements are in order and not greater than the rest. -/
def PartlySorted (k : ℕ) (l : List α) : Prop :=
  Sorted lt (l.take k) ∧ ∀ a ∈ l.take k, ∀ b ∈ l.drop k, ¬ lt b a

/-- `a` stands at place `i`, behind nothing greater and in front of nothing smaller. -/
def Ranked (l : List α) (i : ℕ) (a : α) : Prop :=
  ∃ before after, l = before ++ a :: after ∧ before.length = i ∧
    (∀ b ∈ before, ¬ lt a b) ∧ ∀ b ∈ after, ¬ lt b a

variable {lt} {l l' : List α} {a b c : α} {i k : ℕ}

theorem Sorted.partlySorted (h : Sorted lt l) (k : ℕ) : PartlySorted lt k l := by
  rw [Sorted, ← List.take_append_drop k l, List.pairwise_append] at h
  exact ⟨h.1, h.2.2⟩

theorem PartlySorted.sorted_take (h : PartlySorted lt k l) : Sorted lt (l.take k) := h.1

theorem Sorted.take (h : Sorted lt l) (k : ℕ) : Sorted lt (l.take k) :=
  (h.partlySorted k).sorted_take

theorem PartlySorted.ranked (h : PartlySorted lt k l) (hi : i < (l.take k).length) :
    Ranked lt l i (l.take k)[i] := by
  obtain ⟨hsorted, hrest⟩ := h
  generalize hf : l.take k = first at hsorted hrest hi
  have hl : l = first ++ l.drop k := by rw [← hf, List.take_append_drop]
  have hsplit : first = first.take i ++ first[i] :: first.drop (i + 1) := by
    rw [List.getElem_cons_drop, List.take_append_drop]
  refine ⟨first.take i, first.drop (i + 1) ++ l.drop k, ?_, ?_, ?_, ?_⟩
  · rw [← List.cons_append, ← List.append_assoc, ← hsplit, ← hl]
  · exact List.length_take_of_le hi.le
  all_goals
    rw [Sorted, hsplit, List.pairwise_append, List.pairwise_cons] at hsorted
    obtain ⟨-, ⟨hafter, -⟩, hbefore⟩ := hsorted
  · intro b hb
    exact hbefore b hb _ List.mem_cons_self
  · intro b hb
    rcases List.mem_append.mp hb with hb | hb
    · exact hafter b hb
    · exact hrest _ (List.getElem_mem hi) b hb

variable [IsStrictWeakOrder α lt]

/-- What is not below `c` is not below anything that `c` is not above. -/
theorem not_lt_trans (hab : ¬ lt a b) (hbc : ¬ lt b c) : ¬ lt a c := by
  intro hac
  have hba : ¬ lt b a := fun h => hbc (trans_of lt h hac)
  have hcb : ¬ lt c b := fun h => hab (trans_of lt hac h)
  exact (IsStrictWeakOrder.incomp_trans a b c ⟨hab, hba⟩ ⟨hbc, hcb⟩).1 hac

section Counting

variable [DecidableRel lt]

theorem Ranked.countP_lt_le (h : Ranked lt l i a) : l.countP (fun b => lt b a) ≤ i := by
  obtain ⟨before, after, rfl, rfl, -, hafter⟩ := h
  have hnone : (a :: after).countP (fun b => decide (lt b a)) = 0 := by
    rw [List.countP_eq_zero]
    intro b hb
    rcases List.mem_cons.mp hb with rfl | hb
    · simpa using irrefl_of lt b
    · simpa using hafter b hb
  rw [List.countP_append, hnone]
  exact List.countP_le_length

theorem Ranked.lt_countP (h : Ranked lt l i a) : i < l.countP (fun b => ¬ lt a b) := by
  obtain ⟨before, after, rfl, rfl, hbefore, -⟩ := h
  have hall : before.countP (fun b => decide ¬ lt a b) = before.length := by
    rw [List.countP_eq_length]
    intro b hb
    simpa using hbefore b hb
  rw [List.countP_append, hall, List.countP_cons_of_pos (by simpa using irrefl_of lt a)]
  omega

end Counting

/-- Elements of one rank in two arrangements of a list are not ordered. -/
theorem Ranked.not_lt (h : Ranked lt l i a) (h' : Ranked lt l' i b) (hp : l.Perm l') :
    ¬ lt a b := by
  classical
  intro hab
  -- what is not above `a` is below `b`, and there are more of the former than of the latter
  have hsub : ∀ c ∈ l, decide (¬ lt a c) = true → decide (lt c b) = true := by
    intro c _ hc
    rw [decide_eq_true_eq] at hc ⊢
    by_contra hcb
    exact not_lt_trans hc hcb hab
  have hcount : i < i := calc
    i < l.countP (fun c => ¬ lt a c) := h.lt_countP
    _ ≤ l.countP (fun c => lt c b) := List.countP_mono_left hsub
    _ = l'.countP (fun c => lt c b) := hp.countP_eq _
    _ ≤ i := h'.countP_lt_le
  exact lt_irrefl i hcount

/-- **Arrangements agree up to ties.** -/
theorem PartlySorted.forall₂_incompRel (h : PartlySorted lt k l) (h' : PartlySorted lt k l')
    (hp : l.Perm l') : List.Forall₂ (IncompRel lt) (l.take k) (l'.take k) := by
  rw [List.forall₂_iff_get]
  constructor
  · rw [List.length_take, List.length_take, hp.length_eq]
  · intro i hi hi'
    have hr := h.ranked hi
    have hr' := h'.ranked hi'
    exact ⟨hr.not_lt hr' hp, hr'.not_lt hr hp.symm⟩

end Ranks
