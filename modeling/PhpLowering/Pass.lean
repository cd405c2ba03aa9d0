/-!
# Computations that keep their state when they fail

Both halves of the lowering change a state as they go and may stop with a failure.  What
they did before they stopped stays done: diagnostics stay reported and emitted
instructions stay emitted.  So a computation is a function from a state to a result *and*
a state, in either case.

Two combinators need that: `ensuring` puts something right afterwards, whatever the
outcome, and `attempt` turns a failure into an answer so that the work can go on before
the failure is passed on.
-/

namespace PhpLowering

/-- A computation on a state `σ` that answers with an `α` or fails with an `ε`. -/
def Pass (ε σ α : Type) : Type :=
  σ → Except ε α × σ

namespace Pass

variable {ε σ α β : Type}

/-- The computation that answers without doing anything. -/
@[inline] protected def pure (a : α) : Pass ε σ α :=
  fun s => (.ok a, s)

/-- One computation after another; a failure of the first is the failure of both. -/
@[inline] protected def bind (x : Pass ε σ α) (f : α → Pass ε σ β) : Pass ε σ β :=
  fun s =>
    match x s with
    | (.ok a, s) => f a s
    | (.error e, s) => (.error e, s)

instance : Monad (Pass ε σ) where
  pure := Pass.pure
  bind := Pass.bind

/-- Stops with a failure. -/
@[inline] def fail (e : ε) : Pass ε σ α :=
  fun s => (.error e, s)

/-- Looks at the state. -/
@[inline] def peek (f : σ → α) : Pass ε σ α :=
  fun s => (.ok (f s), s)

/-- Changes the state. -/
@[inline] def update (f : σ → σ) : Pass ε σ Unit :=
  fun s => (.ok (), f s)

/-- Changes the state and answers with what the change found. -/
@[inline] def transform (f : σ → α × σ) : Pass ε σ α :=
  fun s => let (a, s) := f s; (.ok a, s)

/-- Answers with a result that is already there. -/
@[inline] def ofExcept : Except ε α → Pass ε σ α
  | .ok a => Pass.pure a
  | .error e => fail e

/-- Changes the state after a computation, whether it failed or not. -/
@[inline] def ensuring (x : Pass ε σ α) (f : σ → σ) : Pass ε σ α :=
  fun s => let (r, s) := x s; (r, f s)

/-- Answers with the outcome of a computation instead of failing with it. -/
@[inline] def attempt (x : Pass ε σ α) : Pass ε σ (Except ε α) :=
  fun s => let (r, s) := x s; (.ok r, s)

/-! ## How the combinators act on a state -/

@[simp] theorem pure_apply (a : α) (s : σ) : (pure a : Pass ε σ α) s = (.ok a, s) := rfl

theorem bind_apply (x : Pass ε σ α) (f : α → Pass ε σ β) (s : σ) :
    (x >>= f) s =
      match x s with
      | (.ok a, s) => f a s
      | (.error e, s) => (.error e, s) := rfl

@[simp] theorem fail_apply (e : ε) (s : σ) : (fail e : Pass ε σ α) s = (.error e, s) := rfl

@[simp] theorem peek_apply (f : σ → α) (s : σ) : (peek f : Pass ε σ α) s = (.ok (f s), s) := rfl

@[simp] theorem update_apply (f : σ → σ) (s : σ) : (update f : Pass ε σ Unit) s = (.ok (), f s) :=
  rfl

@[simp] theorem ensuring_apply (x : Pass ε σ α) (f : σ → σ) (s : σ) :
    x.ensuring f s = ((x s).1, f (x s).2) := rfl

@[simp] theorem attempt_apply (x : Pass ε σ α) (s : σ) : x.attempt s = (.ok (x s).1, (x s).2) :=
  rfl

/-- A sequence succeeds exactly when both of its parts do. -/
theorem bind_eq_ok_iff (x : Pass ε σ α) (f : α → Pass ε σ β) (s t : σ) (b : β) :
    (x >>= f) s = (.ok b, t) ↔ ∃ a u, x s = (.ok a, u) ∧ f a u = (.ok b, t) := by
  rw [bind_apply]
  rcases h : x s with ⟨r, u⟩
  cases r with
  | error e => simp
  | ok a =>
    constructor
    · intro hf
      exact ⟨a, u, rfl, hf⟩
    · rintro ⟨a', u', hx, hf⟩
      cases hx
      exact hf

/-- A sequence fails when its first part does, and otherwise when its second part does. -/
theorem bind_eq_error_iff (x : Pass ε σ α) (f : α → Pass ε σ β) (s t : σ) (e : ε) :
    (x >>= f) s = (.error e, t) ↔
      x s = (.error e, t) ∨ ∃ a u, x s = (.ok a, u) ∧ f a u = (.error e, t) := by
  rw [bind_apply]
  rcases h : x s with ⟨r, u⟩
  cases r with
  | error e => simp
  | ok a =>
    constructor
    · intro hf
      exact Or.inr ⟨a, u, rfl, hf⟩
    · rintro (hx | ⟨a', u', hx, hf⟩)
      · cases hx
      · cases hx
        exact hf

/-- Doing nothing before or after a computation changes nothing, and sequences associate. -/
instance : LawfulMonad (Pass ε σ) := LawfulMonad.mk' _
  (fun x => by
    funext s
    show (x >>= fun a => pure a) s = x s
    rw [bind_apply]
    rcases x s with ⟨r, u⟩
    cases r <;> rfl)
  (fun _ _ => rfl)
  (fun x f g => by
    funext s
    simp only [bind_apply]
    rcases x s with ⟨r, u⟩
    cases r <;> rfl)

end Pass
end PhpLowering
