/-
# Sweeps over a collection that changes

A cursor goes through the elements of a collection in the order of their positions, each time to the
first element beyond the one it is on, while elements come and go.  An element that stays keeps its
position, so the cursor cannot pass it by: it visits no element twice, and at its end it has visited
every element that was there all the time (`Swept`).
-/
import Mathlib.Data.List.Nodup
import Mathlib.Order.Lattice

/-- A cursor has been on the elements `visited` and is on `here`, or at the end.  The elements
`stayed` have been there since it began, and those it has not been on are still before it. -/
structure Swept {α π : Type*} [LinearOrder π] (pos : α → π) (stayed visited : List α)
    (here : Option α) : Prop where
  nodup : visited.Nodup
  on : ∀ a, here = some a → a ∈ visited ∧ ∀ x ∈ visited, pos x ≤ pos a
  before : ∀ x ∈ stayed, x ∉ visited → ∃ a, here = some a ∧ pos a < pos x

namespace Swept

variable {α π : Type*} [LinearOrder π] {pos pos' : α → π} {stayed stayed' visited todo : List α}
  {here : Option α} {a : α}

/-- At the end, every element that stayed has been visited. -/
theorem all_visited (h : Swept pos stayed visited none) {x : α} (hx : x ∈ stayed) :
    x ∈ visited := by
  by_contra hnot
  obtain ⟨a, ha, -⟩ := h.before x hx hnot
  exact absurd ha (by simp)

/-- **The collection changes**: fewer elements have stayed, and those keep their positions. -/
theorem keep (h : Swept pos stayed visited here) (hsub : ∀ x ∈ stayed', x ∈ stayed)
    (hvisited : ∀ x ∈ visited, pos' x = pos x) (hstayed : ∀ x ∈ stayed', pos' x = pos x) :
    Swept pos' stayed' visited here := by
  refine ⟨h.nodup, fun a ha => ?_, fun x hx hnot => ?_⟩
  · obtain ⟨hmem, hle⟩ := h.on a ha
    refine ⟨hmem, fun x hx => ?_⟩
    rw [hvisited x hx, hvisited a hmem]
    exact hle x hx
  · obtain ⟨a, ha, hlt⟩ := h.before x (hsub x hx) hnot
    refine ⟨a, ha, ?_⟩
    rw [hstayed x hx, hvisited a (h.on a ha).1]
    exact hlt

/-- **The cursor begins**, at the first of all elements. -/
theorem begin (hsorted : todo.Pairwise fun x y => pos x < pos y) (hall : ∀ x ∈ stayed, x ∈ todo) :
    Swept pos stayed todo.head?.toList todo.head? := by
  cases todo with
  | nil => exact ⟨List.nodup_nil, fun a ha => absurd ha (by simp), fun x hx _ =>
      absurd (hall x hx) List.not_mem_nil⟩
  | cons b todo =>
    rw [List.head?_cons, Option.toList_some]
    refine ⟨List.nodup_singleton b, fun a ha => ?_, fun x hx hnot => ⟨b, rfl, ?_⟩⟩
    · obtain rfl := Option.some.inj ha
      refine ⟨List.mem_singleton_self b, fun x hx => ?_⟩
      rw [List.mem_singleton.mp hx]
    · rcases List.mem_cons.mp (hall x hx) with rfl | hmem
      · exact absurd (List.mem_singleton_self x) hnot
      · exact (List.pairwise_cons.mp hsorted).1 x hmem

/-- **The cursor goes on** to the first element beyond, or to the end: `todo` are the elements
beyond in order. -/
theorem next (h : Swept pos stayed visited (some a))
    (hsorted : todo.Pairwise fun x y => pos x < pos y) (hbeyond : ∀ x ∈ todo, pos a < pos x)
    (hall : ∀ x ∈ stayed, pos a < pos x → x ∈ todo) :
    Swept pos stayed (visited ++ todo.head?.toList) todo.head? := by
  obtain ⟨-, hle⟩ := h.on a rfl
  have hstay : ∀ x ∈ stayed, x ∉ visited → x ∈ todo := by
    intro x hx hnot
    obtain ⟨b, hb, hlt⟩ := h.before x hx hnot
    obtain rfl := Option.some.inj hb
    exact hall x hx hlt
  cases todo with
  | nil =>
    rw [List.head?_nil, Option.toList_none, List.append_nil]
    exact ⟨h.nodup, fun b hb => absurd hb (by simp), fun x hx hnot =>
      absurd (hstay x hx hnot) List.not_mem_nil⟩
  | cons b todo =>
    have hab : pos a < pos b := hbeyond b List.mem_cons_self
    have hnew : b ∉ visited := fun hmem => absurd (hle b hmem) (not_le_of_gt hab)
    rw [List.head?_cons, Option.toList_some]
    refine ⟨?_, fun c hc => ?_, fun x hx hnot => ⟨b, rfl, ?_⟩⟩
    · exact List.nodup_append.mpr ⟨h.nodup, List.nodup_singleton b, fun x hx y hy hxy =>
        hnew (List.mem_singleton.mp hy ▸ hxy ▸ hx)⟩
    · obtain rfl := Option.some.inj hc
      refine ⟨List.mem_append_right _ (List.mem_singleton_self b), fun x hx => ?_⟩
      rcases List.mem_append.mp hx with hold | hx
      · exact le_trans (hle x hold) (le_of_lt hab)
      · rw [List.mem_singleton.mp hx]
    · rw [List.mem_append, not_or, List.mem_singleton] at hnot
      rcases List.mem_cons.mp (hstay x hx hnot.1) with hxb | hmem
      · exact absurd hxb hnot.2
      · exact (List.pairwise_cons.mp hsorted).1 x hmem

/-- The element that the cursor goes on to is a new one. -/
theorem next_new (h : Swept pos stayed visited (some a))
    (hbeyond : ∀ x ∈ todo, pos a < pos x) {b : α}
    (hb : todo.head? = some b) : b ∉ visited := by
  intro hmem
  have hlt := hbeyond b (List.mem_of_head? hb)
  exact absurd ((h.on a rfl).2 b hmem) (not_le_of_gt hlt)

end Swept
