/-
# Segments of linked structures

Nodes that hold the name of their successor, `next`, form lists without being in one.
`Segment next a l b` says that following the links from `a` passes through exactly the nodes of `l`,
in order, and arrives at `b`.

A change of the links outside a segment does not concern it (`Segment.congr`), and a segment can
be cut and joined anywhere (`segment_append`), which is what inserting a node amounts to.
-/
import Mathlib.Data.List.Basic

/-- Following `next` from `a` visits `l` and arrives at `b`. -/
def Segment {α : Type} (next : α → Option α) : α → List α → α → Prop
  | a, [], b => a = b
  | a, x :: l, b => a = x ∧ ∃ y, next x = some y ∧ Segment next y l b

section

variable {α : Type} {next next' : α → Option α} {a b c : α} {l l₁ l₂ : List α}

@[simp] theorem segment_nil : Segment next a [] b ↔ a = b := Iff.rfl

@[simp] theorem segment_cons {x : α} :
    Segment next a (x :: l) b ↔ a = x ∧ ∃ y, next x = some y ∧ Segment next y l b := Iff.rfl

/-- A segment starts at its first node. -/
theorem Segment.head? (h : Segment next a l b) : l.head?.getD b = a := by
  cases l with
  | nil => exact h.symm
  | cons x l => exact h.1.symm

/-- Segments can be cut and joined. -/
theorem segment_append :
    Segment next a (l₁ ++ l₂) c ↔ ∃ b, Segment next a l₁ b ∧ Segment next b l₂ c := by
  induction l₁ generalizing a with
  | nil => exact ⟨fun h => ⟨a, rfl, h⟩, fun ⟨_, hb, h⟩ => hb ▸ h⟩
  | cons x l₁ ih =>
    constructor
    · rintro ⟨rfl, y, hy, h⟩
      obtain ⟨b, h₁, h₂⟩ := ih.mp h
      exact ⟨b, ⟨rfl, y, hy, h₁⟩, h₂⟩
    · rintro ⟨b, ⟨rfl, y, hy, h₁⟩, h₂⟩
      exact ⟨rfl, y, hy, ih.mpr ⟨b, h₁, h₂⟩⟩

/-- A segment depends on the links of its own nodes only. -/
theorem Segment.congr (h : Segment next a l b) (hl : ∀ x ∈ l, next' x = next x) :
    Segment next' a l b := by
  induction l generalizing a with
  | nil => exact h
  | cons x l ih =>
    obtain ⟨rfl, y, hy, h⟩ := h
    refine ⟨rfl, y, (hl a List.mem_cons_self).trans hy, ih h fun z hz => ?_⟩
    exact hl z (List.mem_cons_of_mem _ hz)

/-- **The last node is relinked** to a new one, which takes over its link. -/
theorem Segment.extend {x y : α} (h : Segment next a (l ++ [x]) b)
    (hl : ∀ z ∈ l, next' z = next z) (hx : next' x = some y) (hy : next' y = some c) :
    Segment next' a (l ++ [x, y]) c := by
  obtain ⟨d, h₁, h₂⟩ := segment_append.mp h
  obtain ⟨rfl, -⟩ := h₂
  exact segment_append.mpr ⟨d, h₁.congr hl, rfl, y, hx, rfl, c, hy, rfl⟩

/-- **A new node is put after another**, whose link it takes over. -/
theorem Segment.insert {x y : α} (h : Segment next a (l₁ ++ x :: l₂) b)
    (hl : ∀ z ∈ l₁ ++ l₂, next' z = next z) (hx : next' x = some y) (hy : next' y = next x) :
    Segment next' a (l₁ ++ x :: y :: l₂) b := by
  obtain ⟨d, h₁, hd, z, hz, h₂⟩ := segment_append.mp h
  refine segment_append.mpr ⟨d, h₁.congr fun w hw => hl w (List.mem_append_left _ hw), hd, y, hx,
    rfl, z, hy.trans hz, h₂.congr fun w hw => hl w (List.mem_append_right _ hw)⟩

end
