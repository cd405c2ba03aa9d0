import PhpLowering.Pass

/-!
# What a computation can end in

A `Pass` ends with an answer or with a failure, and the two are of interest in different
ways: the answer comes with a state from which the work goes on, while of a failure only
its cause matters.  `Ends x s Q E` says both at once.  Started in `s`, the computation `x`
answers and the answer together with the new state satisfies `Q`, or it fails and the
failure satisfies `E`.

`Pass.Agrees R v x y` says that two computations, started in states that `R` relates, end in related states and have
the same outcome, looked at through the view `v`, so that two runs can be followed through the code side by side.

The lemmas follow the combinators of `Pass` one by one, so that a proof about a
computation has the shape of the computation.
-/

namespace PhpLowering
namespace Pass

section Ends

variable {ε σ α β : Type}

/-- Started in a state, a computation answers as `Q` says or fails as `E` says. -/
def Ends (x : Pass ε σ α) (s : σ) (Q : α → σ → Prop) (E : ε → Prop) : Prop :=
  match x s with
  | (.ok a, t) => Q a t
  | (.error e, _) => E e

namespace Ends

variable {x : Pass ε σ α} {s t : σ} {Q Q' : α → σ → Prop} {E : ε → Prop}

theorem of_ok {a : α} (h : Ends x s Q E) (hx : x s = (.ok a, t)) : Q a t := by
  unfold Ends at h
  rwa [hx] at h

theorem of_error {e : ε} (h : Ends x s Q E) (hx : x s = (.error e, t)) : E e := by
  unfold Ends at h
  rwa [hx] at h

/-- A computation of which every outcome is known. -/
theorem intro (hok : ∀ a t, x s = (.ok a, t) → Q a t)
    (herr : ∀ e t, x s = (.error e, t) → E e) : Ends x s Q E := by
  unfold Ends
  rcases hx : x s with ⟨r, t⟩
  cases r with
  | ok a => exact hok a t hx
  | error e => exact herr e t hx

/-- A computation whose outcome is known. -/
theorem of_eq {a : α} (hx : x s = (.ok a, t)) (h : Q a t) : Ends x s Q E := by
  unfold Ends
  rwa [hx]

theorem mono (h : Ends x s Q E) (hQ : ∀ a t, Q a t → Q' a t) : Ends x s Q' E :=
  intro (fun a t hx => hQ a t (h.of_ok hx)) (fun _ _ hx => h.of_error hx)

theorem and (h : Ends x s Q E) (h' : Ends x s Q' E) : Ends x s (fun a t => Q a t ∧ Q' a t) E :=
  intro (fun _ _ hx => ⟨h.of_ok hx, h'.of_ok hx⟩) (fun _ _ hx => h.of_error hx)

theorem pure {a : α} (h : Q a s) : Ends (Pure.pure a) s Q E := h

theorem fail {e : ε} (h : E e) : Ends (Pass.fail e) s Q E := h

theorem peek {f : σ → α} (h : Q (f s) s) : Ends (Pass.peek f) s Q E := h

theorem update {f : σ → σ} {Q : Unit → σ → Prop} (h : Q () (f s)) :
    Ends (Pass.update f) s Q E := h

theorem transform {f : σ → α × σ} (h : Q (f s).1 (f s).2) : Ends (Pass.transform f) s Q E := h

/-- A sequence: what the first part ends in is where the second part starts. -/
theorem bind {f : α → Pass ε σ β} {R : β → σ → Prop}
    (hx : Ends x s Q E) (hf : ∀ a t, Q a t → Ends (f a) t R E) : Ends (x >>= f) s R E := by
  unfold Ends at hx ⊢
  rw [bind_apply]
  rcases h : x s with ⟨r, t⟩
  rw [h] at hx
  cases r with
  | ok a => exact hf a t hx
  | error e => exact hx

theorem ensuring {f : σ → σ} (h : Ends x s (fun a t => Q a (f t)) E) :
    Ends (x.ensuring f) s Q E := by
  refine intro (fun a t hx => ?_) (fun e t hx => ?_)
  · rw [ensuring_apply] at hx
    obtain ⟨h₁, rfl⟩ := Prod.mk.inj hx
    exact h.of_ok (Prod.ext h₁ rfl)
  · rw [ensuring_apply] at hx
    exact h.of_error (Prod.ext (Prod.mk.inj hx).1 rfl)

/-- A computation that cannot fail is not changed by catching its failure. -/
theorem attempt {E' : ε → Prop} (h : Ends x s Q fun _ => False) :
    Ends x.attempt s (fun r t => ∃ a, r = .ok a ∧ Q a t) E' := by
  unfold Ends at h ⊢
  rw [attempt_apply]
  rcases hx : x s with ⟨r, t⟩
  rw [hx] at h
  cases r with
  | ok a => exact ⟨a, rfl, h⟩
  | error e => exact h.elim

/-- A computation that cannot fail answers. -/
theorem exists_ok (h : Ends x s Q fun _ => False) : ∃ a t, x s = (.ok a, t) ∧ Q a t := by
  rcases hx : x s with ⟨r, t⟩
  cases r with
  | ok a => exact ⟨a, t, rfl, h.of_ok hx⟩
  | error e => exact (h.of_error hx).elim

end Ends

end Ends

/-! ## Two runs that agree -/

section Agrees

variable {ε σ α β γ δ : Type} {R : σ → σ → Prop} {v : α → γ} {w : β → δ}
  {a b : α} {x y : Pass ε σ α}

/-- Two steps taken in related states end in related states, and have the same outcome under a view. -/
def Agrees (R : σ → σ → Prop) (v : α → γ) (x y : Pass ε σ α) : Prop :=
  ∀ s s', R s s' → R (x s).2 (y s').2 ∧ (y s').1.map v = (x s).1.map v

namespace Agrees

theorem pure (h : v b = v a) : Agrees R v (Pure.pure a : Pass ε σ α) (Pure.pure b) :=
  fun _ _ hs => ⟨hs, congrArg Except.ok h⟩

theorem fail (e : ε) : Agrees R v (Pass.fail e : Pass ε σ α) (Pass.fail e) :=
  fun _ _ hs => ⟨hs, rfl⟩

theorem peek {f g : σ → α} (h : ∀ s s', R s s' → v (g s') = v (f s)) :
    Agrees R v (Pass.peek f : Pass ε σ α) (Pass.peek g) :=
  fun s s' hs => ⟨hs, congrArg Except.ok (h s s' hs)⟩

theorem update {f g : σ → σ} (h : ∀ s s', R s s' → R (f s) (g s')) :
    Agrees R id (Pass.update f : Pass ε σ Unit) (Pass.update g) :=
  fun s s' hs => ⟨h s s' hs, rfl⟩

theorem transform {f g : σ → α × σ} (h : ∀ s s', R s s' → R (f s).2 (g s').2 ∧ v (g s').1 = v (f s).1) :
    Agrees R v (Pass.transform f : Pass ε σ α) (Pass.transform g) :=
  fun s s' hs => ⟨(h s s' hs).1, congrArg Except.ok (h s s' hs).2⟩

theorem bind {f g : α → Pass ε σ β} (hx : Agrees R v x y) (hf : ∀ a b, v b = v a → Agrees R w (f a) (g b)) :
    Agrees R w (x >>= f) (y >>= g) := by
  intro s s' hs
  obtain ⟨ht, hanswer⟩ := hx s s' hs
  rw [Pass.bind_apply, Pass.bind_apply]
  rcases hrun : x s with ⟨r, t⟩
  rcases hrun' : y s' with ⟨r', t'⟩
  rw [hrun, hrun'] at ht hanswer
  cases r with
  | error e =>
    cases r' with
    | error e' => exact ⟨ht, congrArg Except.error (Except.error.inj hanswer)⟩
    | ok => exact nomatch hanswer
  | ok a =>
    cases r' with
    | error => exact nomatch hanswer
    | ok b => exact hf a b (Except.ok.inj hanswer) t t' ht

/-- A step with the same answer on both sides comes first. -/
theorem before {f g : α → Pass ε σ β} (hx : Agrees R id x y) (hf : ∀ a, Agrees R w (f a) (g a)) :
    Agrees R w (x >>= f) (y >>= g) :=
  hx.bind fun a b hab => (show b = a from hab) ▸ hf a

theorem ensuring {f g : σ → σ} (hx : Agrees R v x y) (h : ∀ s s', R s s' → R (f s) (g s')) :
    Agrees R v (x.ensuring f) (y.ensuring g) :=
  fun s s' hs => ⟨h _ _ (hx s s' hs).1, (hx s s' hs).2⟩

theorem attempt (hx : Agrees R v x y) : Agrees R (Except.map v) x.attempt y.attempt :=
  fun s s' hs => ⟨(hx s s' hs).1, congrArg Except.ok (hx s s' hs).2⟩

theorem ofExcept {r r' : Except ε α} (h : r'.map v = r.map v) :
    Agrees R v (Pass.ofExcept r) (Pass.ofExcept r') := by
  cases r with
  | ok a =>
    cases r' with
    | ok b => exact .pure (Except.ok.inj h)
    | error => exact nomatch h
  | error f =>
    cases r' with
    | ok => exact nomatch h
    | error f' => exact Except.error.inj h ▸ .fail f'

/-- Without a view the outcome is the same. -/
theorem answer (hx : Agrees R id x y) {s s' : σ} (hs : R s s') : (y s').1 = (x s).1 := by
  have hanswer := (hx s s' hs).2
  rcases hrun : (x s).1 with e | a <;> rcases hrun' : (y s').1 with e' | b <;> rw [hrun, hrun'] at hanswer <;>
    exact hanswer

end Agrees

end Agrees

end Pass
end PhpLowering
