/-
# Listings of partial maps

A list of keys and values *lists* a partial map when it holds every binding of the map once and
nothing else.  Two listings of one map are permutations of each other (`Listing.perm`), and the
ways a map is updated have their counterparts on lists (`Listing.insert`, `Listing.erase`), which
also say how the number of bindings changes.
-/
import Mathlib.Data.List.Lookmap
import Mathlib.Data.List.Perm.Lattice
import Mathlib.Logic.Function.Basic

/-- `l` holds every binding of `f` exactly once. -/
structure Listing {α β : Type} (l : List (α × β)) (f : α → Option β) : Prop where
  nodup : (l.map Prod.fst).Nodup
  mem_iff : ∀ a b, (a, b) ∈ l ↔ f a = some b

namespace Listing

variable {α β : Type} {l l' : List (α × β)} {f : α → Option β} {a : α} {b : β}

theorem empty : Listing ([] : List (α × β)) fun _ => none :=
  ⟨List.nodup_nil, fun _ _ => by simp⟩

/-- Two listings of one map hold the same bindings. -/
theorem perm (h : Listing l f) (h' : Listing l' f) : l.Perm l' := by
  refine (List.perm_ext_iff_of_nodup (List.Nodup.of_map _ h.nodup)
    (List.Nodup.of_map _ h'.nodup)).mpr ?_
  rintro ⟨a, b⟩
  rw [h.mem_iff, h'.mem_iff]

theorem mem_keys (h : Listing l f) : a ∈ l.map Prod.fst ↔ (f a).isSome := by
  rw [List.mem_map, Option.isSome_iff_exists]
  constructor
  · rintro ⟨⟨a', b⟩, hmem, rfl⟩
    exact ⟨b, (h.mem_iff _ b).mp hmem⟩
  · rintro ⟨b, hb⟩
    exact ⟨(a, b), (h.mem_iff a b).mpr hb, rfl⟩

variable [DecidableEq α]

/-- Looking a key up in a listing is applying the map. -/
theorem lookup (h : Listing l f) (a : α) : l.lookup a = f a := by
  obtain ⟨hnd, hmem⟩ := h
  cases hl : l.lookup a with
  | none =>
    cases hf : f a with
    | none => rfl
    | some b =>
      have hne := List.lookup_eq_none_iff.mp hl (a, b) ((hmem a b).mpr hf)
      exact absurd hne (by simp)
  | some b =>
    obtain ⟨l₁, l₂, rfl, -⟩ := List.lookup_eq_some_iff.mp hl
    exact ((hmem a b).mp (by simp)).symm

/-- A new binding. -/
theorem insert (h : Listing l f) (hnew : f a = none) (b : β) :
    Listing ((a, b) :: l) (Function.update f a (some b)) := by
  refine ⟨?_, fun a' b' => ?_⟩
  · rw [List.map_cons, List.nodup_cons, h.mem_keys, hnew]
    exact ⟨by simp, h.nodup⟩
  · rw [List.mem_cons, Prod.mk.injEq, h.mem_iff, Function.update_apply]
    by_cases ha : a' = a
    · subst ha
      rw [hnew]
      simp [eq_comm]
    · simp [ha]

/-- A binding is taken away. -/
theorem erase (h : Listing l f) (a : α) :
    Listing (l.filter fun e => decide (e.1 ≠ a)) (Function.update f a none) := by
  refine ⟨h.nodup.sublist (List.filter_sublist.map _), fun a' b' => ?_⟩
  rw [List.mem_filter, h.mem_iff, Function.update_apply]
  by_cases ha : a' = a <;> simp [ha]

/-- Taking a binding away makes the list shorter by one. -/
theorem length_erase (h : Listing l f) (a : α) :
    l.length = (l.filter fun e => decide (e.1 ≠ a)).length + if (f a).isSome then 1 else 0 := by
  cases hf : f a with
  | none =>
    rw [List.filter_eq_self.mpr]
    · rfl
    · rintro ⟨a', b⟩ hmem
      have hb := (h.mem_iff a' b).mp hmem
      refine decide_eq_true fun ha => ?_
      rw [show a' = a from ha, hf] at hb
      exact absurd hb (by simp)
  | some b =>
    have hself : Function.update (Function.update f a none) a (some b) = f := by
      rw [Function.update_idem, ← hf, Function.update_eq_self]
    have hl := (h.erase a).insert (Function.update_self a none f) b
    rw [hself] at hl
    exact (h.perm hl).length_eq

end Listing
