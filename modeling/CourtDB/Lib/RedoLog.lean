/-
# Replaying a log over a state it has partly reached

A store maps slots to values and gives an insertion the first free slot.  A redo log over such
a store records inserts, deletes and updates; replaying it does not know which of its
operations the store has seen already, and decides by looking at the slot: an insert is
repeated if its slot is empty, a delete or an update if it is not, and a repeated insert goes
to whatever slot is the first free one.

Replaying a log over the very state it was logged from repeats the run (`redo_self`).
Replaying it over a *later* state of that run, the states in between are new ones; `CatchUp` is
what holds in them, and at the end of the log it leaves the later state alone
(`CatchUp.eq`).  The one way to leave the invariant is an insert that goes astray, because a
slot below its own is empty in the later state and the log has not come to it yet (`Stray`);
with a log that starts from the empty store this never happens (`not_stray_of_empty`).
-/
import CourtDB.Lib.Run
import Mathlib.Logic.Function.Basic

namespace RedoLog

variable {β : Type*}

/-! ## 1. Stores and their logs -/

/-- Values by slot. -/
abbrev Store (β : Type*) := Nat → Option β

/-- One entry of a log. -/
inductive Op (β : Type*)
  | insert (slot : Nat) (v : β)
  | delete (slot : Nat)
  | update (slot : Nat) (v : β)

/-- Slot `s` is free and all slots before it are taken. -/
def FirstFree (m : Store β) (s : Nat) : Prop := m s = none ∧ ∀ t < s, (m t).isSome

theorem FirstFree.unique {m : Store β} {s t : Nat} (hs : FirstFree m s) (ht : FirstFree m t) :
    s = t := by
  rcases Nat.lt_trichotomy s t with h | h | h
  · have := ht.2 s h; rw [hs.1] at this; exact absurd this (by simp)
  · exact h
  · have := hs.2 t h; rw [ht.1] at this; exact absurd this (by simp)

namespace Op

/-- What the operation did when it was logged. -/
def apply (m : Store β) : Op β → Store β
  | insert s v | update s v => Function.update m s (some v)
  | delete s => Function.update m s none

/-- The operation is one that the store performs: an insert takes the first free slot, a delete
or an update a slot that is taken. -/
def Enabled (m : Store β) : Op β → Prop
  | insert s _ => FirstFree m s
  | delete s | update s _ => (m s).isSome

/-- What repeating the operation makes of the store `m`. -/
def Redo (m m' : Store β) : Op β → Prop
  | insert s v =>
    if (m s).isSome then m' = m else ∃ t, FirstFree m t ∧ m' = Function.update m t (some v)
  | delete s => m' = Function.update m s none
  | update s v => m' = if (m s).isSome then Function.update m s (some v) else m

/-- The slot whose being taken or free the operation settles. -/
def Settles (s : Nat) : Op β → Prop
  | insert t _ | delete t => s = t
  | update _ _ => False

end Op

/-- The store after a run. -/
def run (m : Store β) (ops : List (Op β)) : Store β := ops.foldl Op.apply m

/-- Every operation of the run was enabled when it was performed. -/
abbrev EnabledRun (m : Store β) (ops : List (Op β)) : Prop := Run.StepsOk Op.apply Op.Enabled m ops

/-- Some operation of `ops` settles the slot. -/
def Settled (ops : List (Op β)) (s : Nat) : Prop := ∃ op ∈ ops, op.Settles s

theorem run_append_singleton (m : Store β) (ops : List (Op β)) (op : Op β) :
    run m (ops ++ [op]) = op.apply (run m ops) := by simp [run]

theorem settled_append_singleton {ops : List (Op β)} {op : Op β} {s : Nat} :
    Settled (ops ++ [op]) s ↔ Settled ops s ∨ op.Settles s := by
  simp [Settled, or_and_right, exists_or]

/-- An operation that does not settle a slot leaves it taken or free. -/
theorem isSome_apply {m : Store β} {op : Op β} {s : Nat} (he : op.Enabled m) (hs : ¬ op.Settles s) :
    (op.apply m s).isSome = (m s).isSome := by
  cases op with
  | insert t v => rw [Op.apply, Function.update_of_ne hs]
  | delete t => rw [Op.apply, Function.update_of_ne hs]
  | update t v =>
    rw [Op.apply, Function.update_apply]
    split
    · rename_i h; rw [h, Option.isSome_some]; exact (Eq.symm he)
    · rfl

/-- A run does not make a cell appear or vanish. -/
theorem isSome_run {ops : List (Op β)} {s : Nat} (hs : ¬ Settled ops s) :
    ∀ {m : Store β}, EnabledRun m ops → (run m ops s).isSome = (m s).isSome := by
  induction ops with
  | nil => intro m _; rfl
  | cons op ops ih =>
    rintro m ⟨he, hrest⟩
    have h1 : ¬ op.Settles s := fun h => hs ⟨op, List.mem_cons_self, h⟩
    have h2 : ¬ Settled ops s := fun ⟨o, ho, h⟩ => hs ⟨o, List.mem_cons_of_mem _ ho, h⟩
    exact (ih h2 hrest).trans (isSome_apply he h1)

/-! ## 2. Replaying over the same state -/

/-- **Redo of an operation over the state it was logged from repeats it.** -/
theorem redo_self {m m' : Store β} {op : Op β} (he : op.Enabled m) (hr : op.Redo m m') :
    m' = op.apply m := by
  cases op with
  | insert s v =>
    simp only [Op.Redo, he.1, Option.isSome_none, Bool.false_eq_true, if_false] at hr
    obtain ⟨t, ht, rfl⟩ := hr
    rw [he.unique ht, Op.apply]
  | delete s => exact hr
  | update s v => exact hr.trans (if_pos he)

/-! ## 3. Replaying over a later state -/

/-- The insert `op`, replayed after `pre` over a state that has reached `final`, may find a slot
below its own free: one that the log has not settled yet and that is free in `final`. -/
def Stray (final : Store β) (pre : List (Op β)) : Op β → Prop
  | .insert s _ => (Settled pre s ∨ final s = none) ∧ ∃ t < s, ¬ Settled pre t ∧ final t = none
  | _ => False

/-- The state `m` of a replay that started from `final`, a later state of the run that logged
`pre` from `start`.  Whether a slot is taken is as in the run if the log has settled it, and as
in `final` if not; what is in it is from the one or the other. -/
structure CatchUp (start final : Store β) (pre : List (Op β)) (m : Store β) : Prop where
  settled : ∀ s, Settled pre s → (m s).isSome = (run start pre s).isSome
  unsettled : ∀ s, ¬ Settled pre s → (m s).isSome = (final s).isSome
  value : ∀ s, m s = run start pre s ∨ m s = final s

namespace CatchUp

variable {start final m m' : Store β} {pre : List (Op β)} {op : Op β}

theorem nil (start final : Store β) : CatchUp start final [] final where
  settled _ h := absurd h (by simp [Settled])
  unsettled _ _ := rfl
  value _ := .inr rfl

/-- At the end of the log the replay is where it started. -/
theorem eq (h : CatchUp start (run start pre) pre m) : m = run start pre :=
  funext fun s => (h.value s).elim id id

/-- **An insert that is not astray is repeated in its own slot.** -/
theorem firstFree (h : CatchUp start final pre m) {s : Nat} {v : β}
    (he : FirstFree (run start pre) s) (hns : ¬ Stray final pre (.insert s v)) (hm : m s = none) :
    FirstFree m s := by
  refine ⟨hm, fun t ht => ?_⟩
  -- a settled slot before it is taken, as it was when the insert was made
  by_cases hset : Settled pre t
  · rw [h.settled t hset]; exact he.2 t ht
  · -- an unsettled one has what it has in the end, or the insert would be astray
    have hfinal : Settled pre s ∨ final s = none := by
      by_cases hs : Settled pre s
      · exact .inl hs
      · have := h.unsettled s hs
        rw [hm] at this
        exact .inr (Option.isNone_iff_eq_none.mp (by simpa using this.symm))
    rw [h.unsettled t hset, ← Option.ne_none_iff_isSome]
    exact fun hf => hns ⟨hfinal, t, ht, hset, hf⟩

/-- An insert is repeated in its slot, or skipped because the slot has a later value. -/
theorem insert_step (h : CatchUp start final pre m) {s : Nat} {v : β}
    (he : FirstFree (run start pre) s) (hns : ¬ Stray final pre (.insert s v))
    (hr : (Op.insert s v).Redo m m') : CatchUp start final (pre ++ [.insert s v]) m' := by
  simp only [Op.Redo] at hr
  have hset : ∀ t, Settled (pre ++ [.insert s v]) t ↔ Settled pre t ∨ t = s :=
    fun t => settled_append_singleton
  have hrun : ∀ t, run start (pre ++ [.insert s v]) t
      = if t = s then some v else run start pre t := fun t => by
    rw [run_append_singleton, Op.apply, Function.update_apply]
  cases hm : m s with
  | some w =>
    -- the slot is taken, so the log has not settled it: its value is the later one
    rw [hm, Option.isSome_some, if_pos rfl] at hr
    subst hr
    have hns : ¬ Settled pre s := fun hs => by
      have := h.settled s hs
      rw [hm, he.1] at this
      exact absurd this (by simp)
    have hval : m' s = final s := (h.value s).resolve_left (by rw [hm, he.1]; simp)
    refine ⟨fun t ht => ?_, fun t ht => ?_, fun t => ?_⟩
    · rw [hrun]
      by_cases hts : t = s
      · rw [if_pos hts, hts, hm]; rfl
      · rw [if_neg hts]; exact h.settled t (((hset t).mp ht).resolve_right hts)
    · exact h.unsettled t fun hs => ht ((hset t).mpr (.inl hs))
    · rw [hrun]
      by_cases hts : t = s
      · exact .inr (hts ▸ hval)
      · rw [if_neg hts]; exact h.value t
  -- the slot is free, and it is the first, so the insert is repeated where it was made
  | none =>
    have hfirst := h.firstFree he hns hm
    rw [hm, Option.isSome_none, if_neg (by decide)] at hr
    obtain ⟨u, hu, rfl⟩ := hr
    obtain rfl := hu.unique hfirst
    refine ⟨fun t ht => ?_, fun t ht => ?_, fun t => ?_⟩
    · rw [hrun, Function.update_apply]
      by_cases hts : t = u
      · rw [if_pos hts, if_pos hts]
      · rw [if_neg hts, if_neg hts]
        exact h.settled t (((hset t).mp ht).resolve_right hts)
    · have hts : t ≠ u := fun hts => ht ((hset t).mpr (.inr hts))
      rw [Function.update_of_ne hts]
      exact h.unsettled t fun hs => ht ((hset t).mpr (.inl hs))
    · rw [hrun, Function.update_apply]
      by_cases hts : t = u
      · exact .inl (by rw [if_pos hts, if_pos hts])
      · rw [if_neg hts, if_neg hts]; exact h.value t

/-- A delete is repeated whatever the slot holds. -/
theorem delete_step (h : CatchUp start final pre m) (s : Nat) :
    CatchUp start final (pre ++ [.delete s]) (Function.update m s none) := by
  have hset : ∀ t, Settled (pre ++ [.delete s]) t ↔ Settled pre t ∨ t = s :=
    fun t => settled_append_singleton
  have hrun : ∀ t, run start (pre ++ [.delete s]) t
      = if t = s then none else run start pre t := fun t => by
    rw [run_append_singleton, Op.apply, Function.update_apply]
  refine ⟨fun t ht => ?_, fun t ht => ?_, fun t => ?_⟩
  · rw [hrun, Function.update_apply]
    by_cases hts : t = s
    · rw [if_pos hts, if_pos hts]
    · rw [if_neg hts, if_neg hts]
      exact h.settled t (((hset t).mp ht).resolve_right hts)
  · -- no other slot was touched
    have hts : t ≠ s := fun hts => ht ((hset t).mpr (.inr hts))
    rw [Function.update_of_ne hts]
    exact h.unsettled t fun hs => ht ((hset t).mpr (.inl hs))
  · rw [hrun, Function.update_apply]
    by_cases hts : t = s
    · exact .inl (by rw [if_pos hts, if_pos hts])
    · rw [if_neg hts, if_neg hts]; exact h.value t

/-- An update is repeated where the slot is taken, and skipped where it is free. -/
theorem update_step (h : CatchUp start final pre m) {s : Nat} {v : β}
    (he : (run start pre s).isSome) :
    CatchUp start final (pre ++ [.update s v])
      (if (m s).isSome then Function.update m s (some v) else m) := by
  have hset : ∀ t, Settled (pre ++ [.update s v]) t ↔ Settled pre t := fun t =>
    settled_append_singleton.trans (or_iff_left id)
  have hrun : ∀ t, run start (pre ++ [.update s v]) t
      = if t = s then some v else run start pre t := fun t => by
    rw [run_append_singleton, Op.apply, Function.update_apply]
  cases hm : m s with
  | none =>
    -- a free slot is one that the log has not settled, and it is free later on too
    have hns : ¬ Settled pre s := fun hs => by
      rw [← h.settled s hs, hm] at he
      exact absurd he (by simp)
    have hfinal : m s = final s := by
      have := h.unsettled s hns
      rw [hm] at this ⊢
      exact (Option.isNone_iff_eq_none.mp (by simpa using this.symm)).symm
    rw [Option.isSome_none, if_neg (by decide)]
    refine ⟨fun t ht => ?_, fun t ht => h.unsettled t fun hs => ht ((hset t).mpr hs), fun t => ?_⟩
    · have hts : t ≠ s := fun hts => hns (hts ▸ (hset t).mp ht)
      rw [hrun, if_neg hts]; exact h.settled t ((hset t).mp ht)
    · rw [hrun]
      by_cases hts : t = s
      · exact .inr (hts ▸ hfinal)
      · rw [if_neg hts]; exact h.value t
  -- the slot is taken, and gets the value of this update
  | some w =>
    have hsome : ∀ t, (Function.update m s (some v) t).isSome = (m t).isSome := fun t => by
      rw [Function.update_apply]
      split
      · rename_i hts; rw [hts, hm]; rfl
      · rfl
    rw [Option.isSome_some, if_pos rfl]
    refine ⟨fun t ht => ?_, fun t ht => ?_, fun t => ?_⟩
    · rw [hsome, hrun]
      split
      · rename_i hts; rw [hts, hm]; rfl
      · exact h.settled t ((hset t).mp ht)
    · rw [hsome]; exact h.unsettled t fun hs => ht ((hset t).mpr hs)
    · rw [hrun, Function.update_apply]
      by_cases hts : t = s
      · exact .inl (by rw [if_pos hts, if_pos hts])
      · rw [if_neg hts, if_neg hts]; exact h.value t

/-- **One step of the replay.** -/
theorem step (h : CatchUp start final pre m) (he : op.Enabled (run start pre))
    (hns : ¬ Stray final pre op) (hr : op.Redo m m') : CatchUp start final (pre ++ [op]) m' := by
  cases op with
  | insert s v => exact h.insert_step he hns hr
  | delete s => exact (show m' = _ from hr) ▸ h.delete_step s
  | update s v => exact (show m' = _ from hr) ▸ h.update_step he

end CatchUp

/-- **No insert goes astray in a log that starts from the empty store.** -/
theorem not_stray_of_empty {final : Store β} {pre : List (Op β)} {op : Op β}
    (hpre : EnabledRun (fun _ => none) pre) (he : op.Enabled (run (fun _ => none) pre)) :
    ¬ Stray final pre op := by
  cases op with
  | insert s v =>
    -- a slot that the log has settled before the insert would be taken
    rintro ⟨-, t, ht, hset, -⟩
    have h1 := he.2 t ht
    rw [isSome_run hset hpre] at h1
    exact absurd h1 (by simp)
  | delete s => exact id
  | update s v => exact id

/-! ## 4. A whole replay -/

/-- The state `m` of a replay of a run from `start`, after the operations `pre`, when the replay
began at the state after the operations `seen`: it is catching up, or it has caught up and is
where the run was. -/
def Replaying (start : Store β) (seen pre : List (Op β)) (m : Store β) : Prop :=
  (∃ rest, seen = pre ++ rest ∧ CatchUp start (run start seen) pre m) ∨
    (∃ later, pre = seen ++ later ∧ m = run start pre)

namespace Replaying

variable {start m m' : Store β} {seen later pre post : List (Op β)} {op : Op β}

theorem nil (start : Store β) (seen : List (Op β)) : Replaying start seen [] (run start seen) :=
  .inl ⟨seen, rfl, CatchUp.nil start _⟩

/-- A replay whose next operation is not one of `seen` has caught up. -/
theorem eq_run (h : Replaying start seen pre m) (hlen : seen.length ≤ pre.length) :
    m = run start pre := by
  rcases h with ⟨rest, rfl, h⟩ | ⟨-, -, h⟩
  · rw [List.length_append] at hlen
    obtain rfl : rest = [] := List.length_eq_zero_iff.mp (by omega)
    rw [List.append_nil] at h
    exact h.eq
  · exact h

/-- **One step of a replay**, while it catches up or after. -/
theorem step (h : Replaying start seen pre m) (hsplit : seen ++ later = pre ++ op :: post)
    (he : op.Enabled (run start pre))
    (hns : pre.length < seen.length → ¬ Stray (run start seen) pre op) (hr : op.Redo m m') :
    Replaying start seen (pre ++ [op]) m' := by
  by_cases hlen : pre.length < seen.length
  · rcases h with ⟨rest, rfl, h⟩ | ⟨l, rfl, -⟩
    · cases rest with
      | nil => simp at hlen
      | cons o rest =>
        simp only [List.append_assoc, List.append_cancel_left_eq, List.cons_append,
          List.cons.injEq] at hsplit
        obtain ⟨rfl, -⟩ := hsplit
        exact .inl ⟨rest, by simp, h.step he (hns hlen) hr⟩
    · exact absurd (List.length_append ▸ hlen) (by omega)
  · have hm := h.eq_run (by omega)
    subst hm
    obtain ⟨l, rfl⟩ : ∃ l, pre = seen ++ l := by
      have hpre : seen <+: pre := List.prefix_of_prefix_length_le
        (List.prefix_append seen later) (hsplit ▸ List.prefix_append pre _) (by omega)
      exact hpre.imp fun _ h => h.symm
    refine .inr ⟨l ++ [op], by simp, ?_⟩
    rw [run_append_singleton]
    exact redo_self he hr

/-- **Every repeated insert takes its own slot.** -/
theorem firstFree (h : Replaying start seen pre m) {s : Nat} {v : β}
    (he : FirstFree (run start pre) s)
    (hns : pre.length < seen.length → ¬ Stray (run start seen) pre (.insert s v))
    (hm : m s = none) : FirstFree m s := by
  by_cases hlen : pre.length < seen.length
  · rcases h with ⟨rest, rfl, h⟩ | ⟨-, -, h⟩
    · exact h.firstFree he (hns hlen) hm
    · rw [h]; exact he
  · rw [h.eq_run (by omega)]; exact he

end Replaying

end RedoLog
