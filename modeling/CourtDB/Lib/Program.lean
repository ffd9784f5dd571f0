/-
# Programs over an interface

A client of a component reaches it through a fixed set of calls.  A `Program` is such a client as
a tree: it ends with a result, or makes a call and goes on with the answer.  A handler of the
calls, a function on the component's states, runs it (`run`).

What a program achieves is reasoned about without the component: a specification says, for each
call, when it may be made and which answers and states can follow, and `wp` carries it through
the program, from a condition on the end back to one on the start.  `wp_sound` is the link: a
component that simulates the specification, call by call, runs every program as `wp` says.
-/
import Mathlib.Logic.Function.Basic

/-- A client that makes calls `o : O`, each answered by an `R o`, and returns an `α`. -/
inductive Program (O : Type) (R : O → Type) (α : Type) : Type
  | pure (a : α)
  | call (o : O) (k : R o → Program O R α)

namespace Program

variable {O : Type} {R : O → Type} {α β γ σ τ : Type}

/-! ## 1. Sequencing -/

/-- Run `m`, then the program that `f` gives for its result. -/
def bind : Program O R α → (α → Program O R β) → Program O R β
  | .pure a, f => f a
  | .call o k, f => .call o fun r => (k r).bind f

instance : Monad (Program O R) where
  pure := Program.pure
  bind := Program.bind

theorem bind_pure (m : Program O R α) : m.bind Program.pure = m := by
  induction m with
  | pure a => rfl
  | call o k ih => exact congrArg _ (funext ih)

theorem bind_assoc (m : Program O R α) (f : α → Program O R β) (g : β → Program O R γ) :
    (m.bind f).bind g = m.bind fun a => (f a).bind g := by
  induction m with
  | pure a => rfl
  | call o k ih => exact congrArg _ (funext ih)

instance : LawfulMonad (Program O R) := by
  refine LawfulMonad.mk' (Program O R) ?_ ?_ ?_
  · exact fun m => bind_pure m
  · exact fun _ _ => rfl
  · exact fun m f g => bind_assoc m f g

/-! ## 2. Running -/

/-- Run a program on a state, each call answered by the handler. -/
def run (handle : (o : O) → σ → R o × σ) : Program O R α → σ → α × σ
  | .pure a, s => (a, s)
  | .call o k, s => (k (handle o s).1).run handle (handle o s).2

/-- The side condition holds at every call of the run. -/
def CallsOk (handle : (o : O) → σ → R o × σ) (ok : σ → O → Prop) : Program O R α → σ → Prop
  | .pure _, _ => True
  | .call o k, s => ok s o ∧ (k (handle o s).1).CallsOk handle ok (handle o s).2

section Run

variable {handle : (o : O) → σ → R o × σ} {ok : σ → O → Prop}

@[simp] theorem run_pure (a : α) (s : σ) :
    (Pure.pure a : Program O R α).run handle s = (a, s) := rfl

/-- A sequence runs its second part where its first part ended. -/
@[simp] theorem run_bind (m : Program O R α) (f : α → Program O R β) (s : σ) :
    (m >>= f).run handle s = (f (m.run handle s).1).run handle (m.run handle s).2 := by
  change (m.bind f).run handle s = _
  induction m generalizing s with
  | pure a => rfl
  | call o k ih => exact ih _ _

@[simp] theorem callsOk_pure (a : α) (s : σ) :
    (Pure.pure a : Program O R α).CallsOk handle ok s := trivial

@[simp] theorem callsOk_bind (m : Program O R α) (f : α → Program O R β) (s : σ) :
    (m >>= f).CallsOk handle ok s ↔ m.CallsOk handle ok s ∧
      (f (m.run handle s).1).CallsOk handle ok (m.run handle s).2 := by
  change (m.bind f).CallsOk handle ok s ↔ _
  induction m generalizing s with
  | pure a => exact ⟨fun h => ⟨trivial, h⟩, fun h => h.2⟩
  | call o k ih =>
    change _ ∧ _ ↔ (_ ∧ _) ∧ _
    rw [ih, and_assoc]
    rfl

/-- A handler that answers as another one does, on states that `f` embeds, runs as the other one
does. -/
theorem run_embed {handle' : (o : O) → τ → R o × τ} {f : σ → τ}
    (hcall : ∀ o s, handle' o (f s) = ((handle o s).1, f (handle o s).2))
    (m : Program O R α) (s : σ) :
    m.run handle' (f s) = ((m.run handle s).1, f (m.run handle s).2) := by
  induction m generalizing s with
  | pure a => rfl
  | call o k ih =>
    rw [run, hcall]
    exact ih _ _

/-- Its runs meet what follows from the side condition of the other one's. -/
theorem CallsOk.embed {handle' : (o : O) → τ → R o × τ} {ok' : τ → O → Prop} {f : σ → τ}
    (hcall : ∀ o s, handle' o (f s) = ((handle o s).1, f (handle o s).2))
    (hok : ∀ s o, ok s o → ok' (f s) o) {m : Program O R α} {s : σ} (h : m.CallsOk handle ok s) :
    m.CallsOk handle' ok' (f s) := by
  induction m generalizing s with
  | pure a => trivial
  | call o k ih =>
    refine ⟨hok s o h.1, ?_⟩
    rw [hcall]
    exact ih _ h.2

/-- A weaker side condition. -/
theorem CallsOk.mono {ok' : σ → O → Prop} (hok : ∀ s o, ok s o → ok' s o)
    {m : Program O R α} {s : σ}
    (h : m.CallsOk handle ok s) : m.CallsOk handle ok' s :=
  h.embed (f := id) (fun _ _ => rfl) hok

/-- What every call keeps holds after the run. -/
theorem run_invariant {I : σ → Prop} (hcall : ∀ o s, I s → I (handle o s).2)
    (m : Program O R α) {s : σ}
    (h : I s) : I (m.run handle s).2 := by
  induction m generalizing s with
  | pure a => exact h
  | call o k ih => exact ih _ (hcall o s h)

instance decidableCallsOk [∀ s o, Decidable (ok s o)] :
    ∀ (m : Program O R α) (s : σ), Decidable (m.CallsOk handle ok s)
  | .pure _, _ => isTrue trivial
  | .call o k, s =>
    have := decidableCallsOk (k (handle o s).1) (handle o s).2
    inferInstanceAs (Decidable (_ ∧ _))

end Run

/-! ## 3. Weakest preconditions -/

/-- What calls do, as predicate transformers: `call o Q t` says that the call `o` may be made in
state `t`, and that every answer and state that can follow satisfy `Q`. -/
structure Spec (O : Type) (R : O → Type) (τ : Type) where
  call : (o : O) → (R o → τ → Prop) → τ → Prop
  mono : ∀ {o : O} {Q Q' : R o → τ → Prop} {t : τ}, (∀ r t, Q r t → Q' r t) →
    call o Q t → call o Q' t

/-- The states from which a run of the program makes only calls that may be made, and ends in
`Q`. -/
def wp (spec : Spec O R τ) : Program O R α → (α → τ → Prop) → τ → Prop
  | .pure a, Q, t => Q a t
  | .call o k, Q, t => spec.call o (fun r t => (k r).wp spec Q t) t

section Wp

variable {spec : Spec O R τ} {Q Q' : α → τ → Prop} {t : τ}

@[simp] theorem wp_pure (a : α) : (Pure.pure a : Program O R α).wp spec Q t ↔ Q a t := Iff.rfl

/-- **Consequence.** -/
theorem wp_mono {m : Program O R α} (h : m.wp spec Q t) (hQ : ∀ a t, Q a t → Q' a t) :
    m.wp spec Q' t := by
  induction m generalizing t with
  | pure a => exact hQ a t h
  | call o k ih => exact spec.mono (fun r t' ht => ih r ht) h

/-- **Sequencing.** -/
@[simp] theorem wp_bind {m : Program O R α} {f : α → Program O R β} {Q : β → τ → Prop} :
    (m >>= f).wp spec Q t ↔ m.wp spec (fun a t => (f a).wp spec Q t) t := by
  change (m.bind f).wp spec Q t ↔ _
  induction m generalizing t with
  | pure a => rfl
  | call o k ih =>
    exact ⟨spec.mono fun r t' ht => (ih r).mp ht, spec.mono fun r t' ht => (ih r).mpr ht⟩

/-- **Soundness.**  When the component answers every call as the specification allows, it runs
every program as `wp` says. -/
theorem wp_sound {handle : (o : O) → σ → R o × σ} {ok : σ → O → Prop} {Shows : σ → τ → Prop}
    (hcall : ∀ (o : O) (s : σ) (t : τ) (Q : R o → τ → Prop), Shows s t → ok s o →
      spec.call o Q t → ∃ t', Q (handle o s).1 t' ∧ Shows (handle o s).2 t')
    {m : Program O R α} {s : σ} (hs : Shows s t) (hok : m.CallsOk handle ok s)
    (h : m.wp spec Q t) :
    ∃ t', Q (m.run handle s).1 t' ∧ Shows (m.run handle s).2 t' := by
  induction m generalizing s t with
  | pure a => exact ⟨t, h, hs⟩
  | call o k ih =>
    obtain ⟨t', hQ, hs'⟩ := hcall o s t _ hs hok.1 h
    exact ih _ hs' hok.2 hQ

/-- **Safety.**  When in addition no call that the specification admits can break the side
condition, no call of the run does. -/
theorem wp_callsOk {handle : (o : O) → σ → R o × σ} {ok : σ → O → Prop} {Shows : σ → τ → Prop}
    (hok : ∀ (o : O) (s : σ) (t : τ) (Q : R o → τ → Prop), Shows s t → spec.call o Q t → ok s o)
    (hcall : ∀ (o : O) (s : σ) (t : τ) (Q : R o → τ → Prop), Shows s t → ok s o →
      spec.call o Q t → ∃ t', Q (handle o s).1 t' ∧ Shows (handle o s).2 t')
    {m : Program O R α} {s : σ} (hs : Shows s t) (h : m.wp spec Q t) :
    m.CallsOk handle ok s := by
  induction m generalizing s t with
  | pure a => trivial
  | call o k ih =>
    have ho := hok o s t _ hs h
    obtain ⟨t', hQ, hs'⟩ := hcall o s t _ hs ho h
    exact ⟨ho, ih _ hs' hQ⟩

/-- Safety of a run that is known to meet another side condition. -/
theorem wp_callsOk_of {handle : (o : O) → σ → R o × σ} {ok safe : σ → O → Prop}
    {Shows : σ → τ → Prop}
    (hsafe : ∀ (o : O) (s : σ) (t : τ) (Q : R o → τ → Prop), Shows s t → ok s o → spec.call o Q t →
      safe s o)
    (hcall : ∀ (o : O) (s : σ) (t : τ) (Q : R o → τ → Prop), Shows s t → ok s o →
      spec.call o Q t → ∃ t', Q (handle o s).1 t' ∧ Shows (handle o s).2 t')
    {m : Program O R α} {s : σ} (hs : Shows s t) (hok : m.CallsOk handle ok s) (h : m.wp spec Q t) :
    m.CallsOk handle safe s := by
  induction m generalizing s t with
  | pure a => trivial
  | call o k ih =>
    obtain ⟨t', hQ, hs'⟩ := hcall o s t _ hs hok.1 h
    exact ⟨hsafe o s t _ hs hok.1 h, ih _ hs' hok.2 hQ⟩

/-- **Conjunction**, for a specification where it holds of every call. -/
theorem wp_and (hand : ∀ (o : O) (Q Q' : R o → τ → Prop) (t : τ), spec.call o Q t →
      spec.call o Q' t → spec.call o (fun r t => Q r t ∧ Q' r t) t)
    {m : Program O R α} (h : m.wp spec Q t) (h' : m.wp spec Q' t) :
    m.wp spec (fun a t => Q a t ∧ Q' a t) t := by
  induction m generalizing t with
  | pure a => exact ⟨h, h'⟩
  | call o k ih => exact spec.mono (fun r t' hr => ih r hr.1 hr.2) (hand o _ _ t h h')

end Wp

/-! ## 4. Guarded calls -/

/-- The specification with one condition more on the calls that may be made. -/
def Spec.guard (spec : Spec O R τ) (may : τ → O → Prop) : Spec O R τ where
  call o Q t := may t o ∧ spec.call o Q t
  mono hQ h := ⟨h.1, spec.mono hQ h.2⟩

/-- **Soundness with a guard.**  What the guard says of a call in a state holds of the call in every
state of the component that shows it. -/
theorem wp_guard_sound {spec : Spec O R τ} {may : τ → O → Prop}
    {handle : (o : O) → σ → R o × σ} {ok safe : σ → O → Prop} {Shows : σ → τ → Prop}
    (hcall : ∀ (o : O) (s : σ) (t : τ) (Q : R o → τ → Prop), Shows s t → ok s o →
      spec.call o Q t → ∃ t', Q (handle o s).1 t' ∧ Shows (handle o s).2 t')
    (hsafe : ∀ (o : O) (s : σ) (t : τ), Shows s t → may t o → safe s o)
    {m : Program O R α} {Q : α → τ → Prop} {s : σ} {t : τ} (hs : Shows s t)
    (hok : m.CallsOk handle ok s) (h : m.wp (spec.guard may) Q t) :
    m.CallsOk handle safe s ∧ ∃ t', Q (m.run handle s).1 t' ∧ Shows (m.run handle s).2 t' := by
  induction m generalizing s t with
  | pure a => exact ⟨trivial, t, h, hs⟩
  | call o k ih =>
    obtain ⟨hmay, hspec⟩ := h
    obtain ⟨t', hQ, hs'⟩ := hcall o s t _ hs hok.1 hspec
    obtain ⟨hrest, hend⟩ := ih _ hs' hok.2 hQ
    exact ⟨⟨hsafe o s t hs hmay, hrest⟩, hend⟩

/-- Without the guard. -/
theorem wp_of_guard {spec : Spec O R τ} {may : τ → O → Prop} {m : Program O R α}
    {Q : α → τ → Prop} {t : τ} (h : m.wp (spec.guard may) Q t) : m.wp spec Q t := by
  induction m generalizing t with
  | pure a => exact h
  | call o k ih => exact spec.mono (fun r t' ht => ih r ht) h.2

/-! ## 5. Programs that make only some of the calls -/

/-- Whatever it is answered, the program makes only calls with `p`. -/
def Only (p : O → Prop) : Program O R α → Prop
  | .pure _ => True
  | .call o k => p o ∧ ∀ r, (k r).Only p

section Only

variable {p : O → Prop} {m : Program O R α}

@[simp] theorem only_pure (a : α) : (Pure.pure a : Program O R α).Only p := trivial

theorem Only.bind (h : m.Only p) {f : α → Program O R β} (hf : ∀ a, (f a).Only p) :
    (m >>= f).Only p := by
  change (m.bind f).Only p
  induction m with
  | pure a => exact hf a
  | call o k ih => exact ⟨h.1, fun r => ih r (h.2 r)⟩

theorem Only.callsOk (h : m.Only p) {handle : (o : O) → σ → R o × σ} {ok : σ → O → Prop}
    (hok : ∀ s o, p o → ok s o) (s : σ) : m.CallsOk handle ok s := by
  induction m generalizing s with
  | pure a => trivial
  | call o k ih => exact ⟨hok s o h.1, ih _ (h.2 _) _⟩

/-- **What all these calls keep**, the program keeps. -/
theorem Only.wp {spec : Spec O R τ} {I : τ → Prop}
    (hI : ∀ (o : O) (Q : R o → τ → Prop) (t : τ), p o → I t → spec.call o Q t →
      spec.call o (fun r t' => Q r t' ∧ I t') t)
    (h : m.Only p) {Q : α → τ → Prop} {t : τ} (ht : I t) (hm : m.wp spec Q t) :
    m.wp spec (fun a t' => Q a t' ∧ I t') t := by
  induction m generalizing t with
  | pure a => exact ⟨hm, ht⟩
  | call o k ih =>
    exact spec.mono (fun r t' hr => ih r (h.2 r) hr.2 hr.1) (hI o _ t h.1 ht hm)

end Only

end Program
