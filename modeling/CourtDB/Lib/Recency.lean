/-
# Lists in order of recency

A list of keys that is kept with the most recent one in front, against a clock that says when each
key was last used.  The list needs no clock of its own: moving a key to the front when it is used,
and taking keys out, are enough for the last one to be the one whose last use lies furthest back.
-/
import Mathlib.Data.List.Basic
import Mathlib.Logic.Function.Basic

namespace Recency

variable {α : Type*} {lastUse' lastUse : α → Nat} {l l' : List α} {a b : α} {now : Nat}

/-- What comes first was used last. -/
def Recent (lastUse : α → Nat) (l : List α) : Prop := l.Pairwise fun a b => lastUse b < lastUse a

theorem recent_nil : Recent lastUse [] := List.Pairwise.nil

/-- Only the last uses of the keys in the list matter. -/
theorem Recent.congr (h : Recent lastUse l) (heq : ∀ a ∈ l, lastUse' a = lastUse a) :
    Recent lastUse' l :=
  List.Pairwise.imp_of_mem (fun ha hb hlt => by rw [heq _ ha, heq _ hb]; exact hlt) h

/-- Keys are taken out. -/
theorem Recent.sublist (h : Recent lastUse l) (hl : l'.Sublist l) : Recent lastUse l' :=
  List.Pairwise.sublist hl h

/-- A key that is used comes to the front. -/
theorem Recent.touch [DecidableEq α] (h : Recent lastUse l) (hat : lastUse' a = now)
    (hold : ∀ b ∈ l, b ≠ a → lastUse' b = lastUse b) (hnow : ∀ b ∈ l, lastUse b < now)
    (hnodup : l.Nodup) : Recent lastUse' (a :: l.erase a) := by
  have hmem : ∀ b ∈ l.erase a, b ≠ a ∧ b ∈ l := fun b hb => hnodup.mem_erase_iff.mp hb
  refine List.pairwise_cons.mpr ⟨fun b hb => ?_, ?_⟩
  · obtain ⟨hne, hbl⟩ := hmem b hb
    rw [hat, hold b hbl hne]
    exact hnow b hbl
  · refine (h.sublist List.erase_sublist).congr fun b hb => ?_
    obtain ⟨hne, hbl⟩ := hmem b hb
    exact hold b hbl hne

/-- **The last key is the one that has not been used for longest.** -/
theorem Recent.last_lt (h : Recent lastUse (l ++ [a])) (hb : b ∈ l) : lastUse a < lastUse b :=
  (List.pairwise_append.mp h).2.2 b hb a List.mem_cons_self

end Recency
