/-
# Programs with fuel

A loop over an interface has fuel, and a program without enough of it ends in the middle with no
result. With more fuel it is the same program, but that it goes on where the other ends: `q.Prolongs
p`.  The relation follows the structure of programs, so it is proved of a loop by induction on the
fuel.

Whatever a specification says of the shorter program when it has a result, it says of the longer one
(`Prolongs.wp`).  So the bounds that come with little fuel are those of every run.
-/
import CourtDB.Lib.Program

namespace Program

variable {O : Type} {R : O → Type} {α β γ τ : Type}

/-- The program is the other one, which it may continue where that ends without a result. -/
inductive Prolongs : Program O R (Option α) → Program O R (Option α) → Prop
  | refl (p : Program O R (Option α)) : Prolongs p p
  | out (q : Program O R (Option α)) : Prolongs q (Pure.pure none)
  | call (o : O) {k k' : R o → Program O R (Option α)} (h : ∀ r, Prolongs (k' r) (k r)) :
      Prolongs (.call o k') (.call o k)

namespace Prolongs

/-- After the same beginning. -/
theorem bind (m : Program O R γ) {f f' : γ → Program O R (Option α)}
    (h : ∀ a, Prolongs (f' a) (f a)) :
    Prolongs (m >>= f') (m >>= f) := by
  change Prolongs (m.bind f') (m.bind f)
  induction m with
  | pure a => exact h a
  | call o k ih => exact .call o ih

/-- What follows a program that may end without a result. -/
theorem bind_option {p q : Program O R (Option α)} (hpq : Prolongs q p)
    {f f' : Option α → Program O R (Option β)} (hnone : f none = Pure.pure none)
    (h : ∀ r, Prolongs (f' r) (f r)) : Prolongs (q >>= f') (p >>= f) := by
  change Prolongs (q.bind f') (p.bind f)
  induction hpq with
  | refl p => exact bind p h
  | out q =>
    change Prolongs _ (f none)
    rw [hnone]
    exact .out _
  | call o hk ih => exact .call o ih

/-- **The longer program** does what the shorter one does when it has a result. -/
theorem wp {spec : Spec O R τ} {p q : Program O R (Option α)} (h : Prolongs q p)
    {Q : Option α → τ → Prop} {t : τ} (hp : p.wp spec (fun r t => r.isSome = true ∧ Q r t) t) :
    q.wp spec Q t := by
  induction h generalizing t with
  | refl p => exact wp_mono hp fun r t h => h.2
  | out q => exact absurd hp.1 (by simp)
  | call o hk ih => exact spec.mono (fun r t hr => ih r hr) hp

end Prolongs

end Program
