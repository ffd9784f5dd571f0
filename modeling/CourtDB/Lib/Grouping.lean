/-
# Grouping in one pass

A table of accumulators, one for each key, is filled by going through a list once: every element is
added to the accumulator of its key, which is created when the key is seen for the first time.
`grouped_foldl` says what the table holds at the end, however the groups are interleaved: one entry
for each key that occurs, and in it what the pass over the elements of that key alone gives.
-/
import Mathlib.Algebra.Ring.Nat
import Mathlib.Algebra.BigOperators.Group.List.Lemmas
import Mathlib.Data.List.Dedup
import Mathlib.Order.Bounds.Basic
import Mathlib.Order.MinMax

namespace Grouping

variable {κ α β : Type} [DecidableEq κ]

/-- Apply `f` to the value of key `k`, which is `init` if there is none yet. -/
def upsert (k : κ) (init : α) (f : α → α) : List (κ × α) → List (κ × α)
  | [] => [(k, f init)]
  | entry :: rest =>
    if entry.1 = k then (entry.1, f entry.2) :: rest else entry :: upsert k init f rest

/-- The elements of a key. -/
def group (key : β → κ) (k : κ) (xs : List β) : List β := xs.filter fun x => key x = k

/-- The table of the elements `xs`. -/
structure Grouped (key : β → κ) (init : α) (step : α → β → α) (xs : List β)
    (groups : List (κ × α)) : Prop where
  keys_nodup : (groups.map Prod.fst).Nodup
  mem_iff : ∀ k a, (k, a) ∈ groups ↔
    (∃ x ∈ xs, key x = k) ∧ a = (group key k xs).foldl step init

section Upsert

variable {k : κ} {init : α} {f : α → α} {groups : List (κ × α)}

/-- An upsert adds its key, if it is new. -/
theorem mem_keys_upsert (k' : κ) :
    k' ∈ (upsert k init f groups).map Prod.fst ↔ k' = k ∨ k' ∈ groups.map Prod.fst := by
  induction groups with
  | nil => simp [upsert]
  | cons entry rest ih =>
    rw [upsert]
    split
    · rename_i heq
      simp [heq]
    · rw [List.map_cons, List.mem_cons, ih, List.map_cons, List.mem_cons]
      tauto

/-- No key is listed twice. -/
theorem nodup_keys_upsert (h : (groups.map Prod.fst).Nodup) :
    ((upsert k init f groups).map Prod.fst).Nodup := by
  induction groups with
  | nil => simp [upsert]
  | cons entry rest ih =>
    obtain ⟨hnot, hrest⟩ := List.nodup_cons.mp h
    rw [upsert]
    split
    · exact h
    · rename_i hne
      refine List.nodup_cons.mpr ⟨fun hmem => ?_, ih hrest⟩
      exact ((mem_keys_upsert entry.1).mp hmem).elim hne hnot

/-- The values of the other keys stay. -/
theorem mem_upsert_of_ne {k' : κ} (hne : k' ≠ k) (a : α) :
    (k', a) ∈ upsert k init f groups ↔ (k', a) ∈ groups := by
  induction groups with
  | nil => simp [upsert, hne]
  | cons entry rest ih =>
    rw [upsert]
    split
    · rename_i heq
      have hhead : ∀ v : α, (k', a) ≠ (entry.1, v) := fun v he =>
        hne ((congrArg Prod.fst he).trans heq)
      simp [hhead]
    · rw [List.mem_cons, List.mem_cons, ih]

/-- The value of the key. -/
theorem mem_upsert_self (h : (groups.map Prod.fst).Nodup) (a : α) :
    (k, a) ∈ upsert k init f groups ↔
      (∃ b, (k, b) ∈ groups ∧ a = f b) ∨ k ∉ groups.map Prod.fst ∧ a = f init := by
  induction groups with
  | nil => simp [upsert]
  | cons entry rest ih =>
    obtain ⟨hnot, hrest⟩ := List.nodup_cons.mp h
    obtain ⟨k', b⟩ := entry
    rw [upsert]
    by_cases heq : k' = k
    · subst heq
      have hout : ∀ v, (k', v) ∉ rest := fun v hv => hnot (List.mem_map.mpr ⟨_, hv, rfl⟩)
      simp [hout]
    · have hne : k ≠ k' := Ne.symm heq
      simp [heq, hne, ih hrest]

end Upsert

variable {key : β → κ} {init : α} {step : α → β → α} {xs : List β} {groups : List (κ × α)}

/-- One more value belongs to the group of its key. -/
theorem group_append_singleton (k : κ) (xs : List β) (x : β) :
    group key k (xs ++ [x]) = group key k xs ++ if key x = k then [x] else [] := by
  unfold group
  rw [List.filter_append]
  by_cases h : key x = k <;> simp [h]

theorem group_eq_nil_iff {k : κ} : group key k xs = [] ↔ ¬ ∃ x ∈ xs, key x = k := by
  simp [group, List.filter_eq_nil_iff]

/-- The keys are those that occur. -/
theorem Grouped.mem_keys (h : Grouped key init step xs groups) (k : κ) :
    k ∈ groups.map Prod.fst ↔ ∃ x ∈ xs, key x = k := by
  constructor
  · intro hk
    obtain ⟨⟨k', a⟩, hmem, rfl⟩ := List.mem_map.mp hk
    exact ((h.mem_iff k' a).mp hmem).1
  · exact fun hx => List.mem_map.mpr ⟨_, (h.mem_iff k _).mpr ⟨hx, rfl⟩, rfl⟩

theorem grouped_nil (key : β → κ) (init : α) (step : α → β → α) :
    Grouped key init step [] [] :=
  ⟨List.nodup_nil, by simp⟩

/-- **One more element** goes to the accumulator of its key. -/
theorem Grouped.upsert (h : Grouped key init step xs groups) (x : β) :
    Grouped key init step (xs ++ [x]) (upsert (key x) init (fun a => step a x) groups) := by
  refine ⟨nodup_keys_upsert h.keys_nodup, fun k a => ?_⟩
  rw [group_append_singleton]
  by_cases hk : k = key x
  · subst hk
    rw [mem_upsert_self h.keys_nodup, if_pos rfl, List.foldl_concat]
    have hx : ∃ y ∈ xs ++ [x], key y = key x := ⟨x, List.mem_append_right _ List.mem_cons_self, rfl⟩
    simp only [hx, true_and, h.mem_keys]
    constructor
    · rintro (⟨b, hb, rfl⟩ | ⟨hnew, rfl⟩)
      · rw [((h.mem_iff _ b).mp hb).2]
      · rw [group_eq_nil_iff.mpr hnew, List.foldl_nil]
    · rintro rfl
      by_cases hold : ∃ y ∈ xs, key y = key x
      · exact Or.inl ⟨_, (h.mem_iff _ _).mpr ⟨hold, rfl⟩, rfl⟩
      · rw [group_eq_nil_iff.mpr hold, List.foldl_nil]
        exact Or.inr ⟨hold, rfl⟩
  · rw [mem_upsert_of_ne hk, h.mem_iff, if_neg (Ne.symm hk), List.append_nil]
    have hsame : (∃ y ∈ xs ++ [x], key y = k) ↔ ∃ y ∈ xs, key y = k := by
      simp [Ne.symm hk]
    rw [hsame]

/-- **The pass over a list.** -/
theorem grouped_foldl (ys : List β) : ∀ {xs : List β} {groups : List (κ × α)},
    Grouped key init step xs groups →
    Grouped key init step (xs ++ ys)
      (ys.foldl (fun groups x => Grouping.upsert (key x) init (fun a => step a x) groups)
        groups) := by
  induction ys with
  | nil =>
    intro xs groups h
    rwa [List.append_nil]
  | cons y ys ih =>
    intro xs groups h
    have hrest := ih (h.upsert y)
    rwa [List.append_assoc, List.singleton_append] at hrest

/-- The sizes of the groups add up to the length of the list. -/
theorem sum_length_group {ks : List κ} (hnodup : ks.Nodup)
    (hks : ∀ k, k ∈ ks ↔ ∃ x ∈ xs, key x = k) :
    (ks.map fun k => (group key k xs).length).sum = xs.length := by
  have hperm : ks.Perm (xs.map key).dedup := by
    refine (List.perm_ext_iff_of_nodup hnodup (List.nodup_dedup _)).mpr fun k => ?_
    rw [hks, List.mem_dedup, List.mem_map]
  have hcount : ∀ k, (group key k xs).length = (xs.map key).count k := fun k => by
    rw [group, ← List.countP_eq_length_filter, List.count, List.countP_map]
    congr 1
  simp only [hcount]
  rw [(hperm.map _).sum_eq, List.sum_map_count_dedup_eq_length, List.length_map]

section Extremes

variable {γ : Type} [LinearOrder γ] (f : β → γ)

/-- What the pass with `min` leaves is a lower bound, and the start or one of the values. -/
theorem foldl_min_spec (xs : List β) : ∀ start : γ,
    let least := xs.foldl (fun v x => min v (f x)) start
    least ≤ start ∧ (∀ x ∈ xs, least ≤ f x) ∧ (least = start ∨ ∃ x ∈ xs, f x = least) := by
  induction xs with
  | nil => simp
  | cons x xs ih =>
    intro start least
    obtain ⟨hstart, hxs, hmem⟩ := ih (min start (f x))
    have hle := le_min_iff.mp hstart
    refine ⟨hle.1, List.forall_mem_cons.mpr ⟨hle.2, hxs⟩, ?_⟩
    rcases hmem with heq | ⟨y, hy, heq⟩
    · rcases min_choice start (f x) with hmin | hmin
      · exact Or.inl (heq.trans hmin)
      · exact Or.inr ⟨x, List.mem_cons_self, (heq.trans hmin).symm⟩
    · exact Or.inr ⟨y, List.mem_cons_of_mem x hy, heq⟩

/-- **Sentinels are harmless**: a start that no value exceeds is not in the way of the minimum. -/
theorem isLeast_foldl_min {xs : List β} (hne : xs ≠ []) {start : γ}
    (hstart : ∀ x ∈ xs, f x ≤ start) :
    IsLeast {v | ∃ x ∈ xs, f x = v} (xs.foldl (fun v x => min v (f x)) start) := by
  obtain ⟨-, hxs, hmem⟩ := foldl_min_spec f xs start
  refine ⟨hmem.elim (fun heq => ?_) id, fun v ⟨x, hx, heq⟩ => heq ▸ hxs x hx⟩
  obtain ⟨x, hx⟩ := List.exists_mem_of_ne_nil xs hne
  exact ⟨x, hx, le_antisymm ((hstart x hx).trans_eq heq.symm) (hxs x hx)⟩

/-- A running maximum, started no higher than it may be, is the greatest of the values. -/
theorem isGreatest_foldl_max {xs : List β} (hne : xs ≠ []) {start : γ}
    (hstart : ∀ x ∈ xs, start ≤ f x) :
    IsGreatest {v | ∃ x ∈ xs, f x = v} (xs.foldl (fun v x => max v (f x)) start) :=
  @isLeast_foldl_min β γᵒᵈ _ f xs hne start hstart

end Extremes

end Grouping
