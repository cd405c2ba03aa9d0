import PhpLowering.Proofs.Analysis.Steps
import PhpLowering.Proofs.Tree.Effects
import PhpLowering.Proofs.Tree.Value

/-!
# What an evaluation says about an expression

An evaluation is `Faithful` to an expression if it has a value exactly where the expression has
one, the same up to the representation of strings, and if otherwise its node has the effects of
the expression in the same order.  Folding an operator keeps that (`keeps_foldUnary`,
`keeps_foldBinary`).

Without folding only literals have a value, and no condition is decided.  `worth` and `settled`
are what the two settings differ in, so that one argument serves for both.

An evaluation without a value must leave a node without one: the condition of a conditional that
is rebuilt must not be decided by what it was rebuilt from.
-/

namespace PhpLowering
namespace Analysis

open Pass (Ends)
open Expr (effects)

variable {α β : Type} {cfg : Setting} {declared : List (String × Literal)}

/-! ## Computations that declare no constant -/

/-- The table is regular, and the constants declared so far are known. -/
structure Knows (declared : List (String × Literal)) (s : State) : Prop where
  table : s.table.Regular
  constants : s.constants = declared

/-- A computation answers with something that satisfies a predicate, and declares no constant. -/
def Keeps (declared : List (String × Literal)) (x : Analyze α) (Q : α → Prop) : Prop :=
  ∀ s : State, Knows declared s → Ends x s (fun a t => Knows declared t ∧ Q a) fun _ => False

namespace Keeps

variable {x : Analyze α} {Q R : α → Prop}

theorem mono (h : Keeps declared x Q) (hQ : ∀ a, Q a → R a) : Keeps declared x R :=
  fun s hs => (h s hs).mono fun a _ ht => ⟨ht.1, hQ a ht.2⟩

theorem pure {a : α} (h : Q a) : Keeps declared (Pure.pure a) Q :=
  fun _ hs => .pure ⟨hs, h⟩

theorem update {f : State → State} (hf : ∀ s, Knows declared s → Knows declared (f s)) :
    Keeps declared (Pass.update f) fun _ => True :=
  fun s hs => .update ⟨hf s hs, trivial⟩

theorem bind {f : α → Analyze β} {R : β → Prop} (hx : Keeps declared x Q)
    (hf : ∀ a, Q a → Keeps declared (f a) R) : Keeps declared (x >>= f) R :=
  fun s hs => (hx s hs).bind fun a t ht => hf a ht.2 t ht.1

theorem andThen {f : α → Analyze β} {R : β → Prop} (hx : Keeps declared x Q)
    (hf : ∀ a, Keeps declared (f a) R) : Keeps declared (x >>= f) R :=
  hx.bind fun a _ => hf a

theorem ensuring {f : State → State} (h : Keeps declared x Q)
    (hf : ∀ s, Knows declared s → Knows declared (f s)) : Keeps declared (x.ensuring f) Q :=
  fun s hs => .ensuring ((h s hs).mono fun _ t ht => ⟨hf t ht.1, ht.2⟩)

theorem attempt (h : Keeps declared x Q) : Keeps declared x.attempt fun r => ∃ a, r = .ok a ∧ Q a := by
  intro s hs
  refine (h s hs).attempt.mono ?_
  rintro r t ⟨a, rfl, ht, ha⟩
  exact ⟨ht, a, rfl, ha⟩

theorem inConditional (h : Keeps declared x Q) : Keeps declared (inConditional x) Q := by
  have henter : Keeps declared (Pass.update State.enterConditional) fun _ => True :=
    update fun s hs => ⟨hs.table, hs.constants⟩
  have hleave : ∀ s, Knows declared s → Knows declared s.leaveConditional :=
    fun s hs => ⟨hs.table, hs.constants⟩
  exact henter.andThen fun _ => h.ensuring hleave

theorem report (problem : Problem) (span : Span) :
    Keeps declared (Pass.update (State.report problem span)) fun _ => True :=
  update fun _ hs => ⟨hs.table, hs.constants⟩

theorem byRule {Q : Evaluation → Prop} (hcfg : cfg.registry = .standard) {node : Expr}
    {analyzed : Home ExprKind → Analyze Evaluation} (h : ∀ home, Keeps declared (analyzed home) Q) :
    Keeps declared (byRule cfg node analyzed) Q := by
  have htable : Keeps declared (onTable (RuleTable.expr cfg.registry node.kind node.id))
      fun handle => handle.rule = node.kind := by
    intro s hs
    have hends := ends_onTable hs.table (RuleTable.ends_expr s.table node.kind node.id)
    rw [hcfg]
    refine .intro (fun handle t hrun => ?_) (fun f t hrun => hends.of_error hrun)
    obtain ⟨hcalm, hhandle⟩ := hends.of_ok hrun
    have hconstants : t.constants = s.constants := congrArg (·.2.constants) hrun.symm
    refine ⟨⟨hcalm.table hs.table, hconstants.trans hs.constants⟩, ?_⟩
    rw [hhandle]
  refine htable.bind fun handle hhandle => ?_
  rw [if_pos hhandle]
  exact h _

end Keeps

/-! ## Evaluations -/

variable (cfg declared) in
/-- The value of a constant, when these constants are declared. -/
def known (name : String) : Option Literal :=
  match declared.lookup name with
  | some v => some v
  | none => cfg.symbols.constant? name

variable (cfg declared) in
/-- The value that an expression is going to be found to have. -/
def worth (e : Expr) : Option Literal :=
  if cfg.options.foldConstants then e.eval? (known cfg declared) else e.value?

variable (cfg declared) in
/-- What a condition decides ahead of time. -/
def settled (condition : Expr) : Option Bool :=
  if cfg.options.foldConstants then (condition.eval? (known cfg declared)).map Literal.toBool else none

/-- An evaluation finds the value of an expression and leaves its effects. -/
structure Faithful (cfg : Setting) (declared : List (String × Literal)) (e : Expr) (ev : Evaluation) :
    Prop where
  value : Option.Rel Literal.Alike ev.value? (worth cfg declared e)
  /-- A value has no effects. -/
  pure : ev.value?.isSome = true → effects (settled cfg declared) e = []
  /-- What is left to run time has the same effects, and still no value. -/
  residual : ev.value? = none →
    effects (settled cfg declared) ev.node = effects (settled cfg declared) e ∧
      (cfg.options.foldConstants = true → ev.node.eval? (known cfg declared) = none)
  /-- A literal is the value itself. -/
  literal : ∀ v tag w, ev = .value v (.literal tag w) → v = w

/-- A node is kept for an expression that evaluates to `ev`. -/
structure KeptFor (cfg : Setting) (declared : List (String × Literal)) (e : Expr) (ev : Evaluation)
    (node : Expr) : Prop where
  effects : effects (settled cfg declared) node = effects (settled cfg declared) e
  eval : cfg.options.foldConstants = true → node.eval? (known cfg declared) = ev.value?
  literal : ∀ v, ev.value? = some v → ∃ tag, node = .literal tag v

variable {e node left right : Expr} {ev l r : Evaluation} {value : Option Literal}
  {tag tag' : ExprTag}

/-- A node that is built anew, with the value that was computed for it. -/
theorem Faithful.ofParts (hvalue : Option.Rel Literal.Alike value (worth cfg declared e))
    (hpure : value.isSome = true → effects (settled cfg declared) e = [])
    (hresidual : value = none →
      effects (settled cfg declared) node = effects (settled cfg declared) e ∧
        (cfg.options.foldConstants = true → node.eval? (known cfg declared) = none))
    (hnode : node.value? = none) : Faithful cfg declared e (.ofParts node value) := by
  cases value with
  | none => exact ⟨hvalue, hpure, hresidual, nofun⟩
  | some v =>
    refine ⟨hvalue, hpure, nofun, ?_⟩
    rintro w tag w' hw
    cases hw
    exact nomatch hnode

/-- An expression without a value is left to run time with its effects. -/
theorem Faithful.atRunTime
    (heffects : effects (settled cfg declared) node = effects (settled cfg declared) e)
    (he : cfg.options.foldConstants = true → e.eval? (known cfg declared) = none)
    (hnode : cfg.options.foldConstants = true → node.eval? (known cfg declared) = none)
    (he' : e.value? = none) : Faithful cfg declared e (.residual node) where
  value := by
    unfold worth
    split
    · rename_i hfold
      rw [he hfold]
      exact .none
    · rw [he']
      exact .none
  pure := nofun
  residual _ := ⟨heffects, hnode⟩
  literal := nofun

/-- A node that can never have a value, for an expression that can never have one. -/
theorem Faithful.never
    (heffects : effects (settled cfg declared) node = effects (settled cfg declared) e)
    (he : e.eval? (known cfg declared) = none)
    (hnode : node.eval? (known cfg declared) = none)
    (he' : e.value? = none) : Faithful cfg declared e (.residual node) :=
  .atRunTime heffects (fun _ => he) (fun _ => hnode) he'

/-- Without folding a node that is no literal never has a value. -/
theorem Faithful.unfolded (hfold : ¬ cfg.options.foldConstants = true)
    (heffects : effects (settled cfg declared) node = effects (settled cfg declared) e)
    (he' : e.value? = none) : Faithful cfg declared e (.residual node) :=
  .atRunTime heffects (fun h => (hfold h).elim) (fun h => (hfold h).elim) he'

/-- **Whatever is found, the node that is kept has the effects of the expression, and a value that was
found is the literal that is kept.** -/
theorem Faithful.literalize (h : Faithful cfg declared e ev) (nextId : Nat) :
    KeptFor cfg declared e ev (ev.literalize nextId).1 := by
  cases ev with
  | residual node => exact ⟨(h.residual rfl).1, (h.residual rfl).2, nofun⟩
  | value v node =>
    have hliteral : ∃ tag, ((Evaluation.value v node).literalize nextId).1 = .literal tag v := by
      cases node with
      | literal tag w => exact ⟨tag, congrArg (Expr.literal tag) (h.literal v tag w rfl).symm⟩
      | _ => exact ⟨_, rfl⟩
    obtain ⟨tag, heq⟩ := hliteral
    rw [heq]
    refine ⟨(h.pure rfl).symm, fun _ => rfl, ?_⟩
    rintro w hw
    cases hw
    exact ⟨tag, rfl⟩

theorem keeps_keep (h : Faithful cfg declared e ev) :
    Keeps declared (keep ev) (KeptFor cfg declared e ev) :=
  fun s hs => .transform ⟨⟨hs.table, hs.constants⟩, h.literalize s.nextId⟩

theorem keeps_countKey (home : Home ExprKind) (key : Option Expr) :
    Keeps declared (countKey home key) fun _ => True :=
  fun _ hs => .update ⟨⟨hs.table, hs.constants⟩, trivial⟩

theorem Keeps.kept {x : Analyze Evaluation} (h : Keeps declared x (Faithful cfg declared e)) :
    Keeps declared (kept x) fun node =>
      effects (settled cfg declared) node = effects (settled cfg declared) e :=
  h.bind fun _ hev => (keeps_keep hev).mono fun _ hnode => hnode.effects

/-! ## Operators -/

theorem worth_of_fold (hfold : cfg.options.foldConstants = true) (e : Expr) :
    worth cfg declared e = e.eval? (known cfg declared) :=
  if_pos hfold

theorem rel_bind {o o' : Option Literal} {f g : Literal → Option Literal} (h : Option.Rel Literal.Alike o o')
    (hf : ∀ v w, Literal.Alike v w → Option.Rel Literal.Alike (f v) (g w)) :
    Option.Rel Literal.Alike (o.bind f) (o'.bind g) := by
  cases h with
  | none => exact .none
  | some h => exact hf _ _ h

theorem isSome_of_bind {o : Option Literal} {f : Literal → Option Literal}
    (h : (o.bind f).isSome = true) : o.isSome = true := by
  cases o with
  | none => exact nomatch h
  | some v => rfl

theorem evaluate_eq (ev : Evaluation) (fold : Literal → Option Literal) (nextId : Nat) :
    (ev.evaluate fold nextId).1 =
      (if (ev.value?.bind fold).isSome then ev.node else (ev.literalize nextId).1,
        ev.value?.bind fold) := by
  unfold Evaluation.evaluate
  cases ev.value?.bind fold <;> rfl

theorem evaluatePair_eq (l r : Evaluation) (fold : Literal → Literal → Option Literal) (nextId : Nat) :
    (l.evaluatePair r fold nextId).1 =
      if (l.value?.bind fun v => r.value?.bind (fold v)).isSome then
        (l.node, r.node, l.value?.bind fun v => r.value?.bind (fold v))
      else (Evaluation.evaluatePair.literalizeBoth l r nextId).1 := by
  unfold Evaluation.evaluatePair
  cases l.value? with
  | none => rfl
  | some v =>
    cases r.value? with
    | none => rfl
    | some w =>
      cases hfold : fold v w <;> simp [hfold]

theorem keeps_foldUnary {op : UnaryOp} (h : Faithful cfg declared e ev) :
    Keeps declared (foldUnary cfg ev op.fold) fun p =>
      Faithful cfg declared (.unary tag op e) (.ofParts (.unary tag' op p.1) p.2) := by
  intro s hs
  refine .transform ⟨⟨hs.table, hs.constants⟩, ?_⟩
  have hkept := h.literalize s.nextId
  dsimp only
  rw [evaluate_eq]
  by_cases hfold : cfg.options.foldConstants = true
  · simp only [if_pos hfold]
    refine .ofParts ?_ (fun hsome => ?_) (fun hnone => ⟨?_, fun _ => ?_⟩) rfl
    · have hvalue := h.value
      rw [worth_of_fold hfold] at hvalue ⊢
      exact rel_bind hvalue fun v w halike => halike.foldUnary op
    · exact h.pure (isSome_of_bind hsome)
    · simpa [hnone] using hkept.effects
    · simp [hnone, Expr.eval?, hkept.eval hfold]
  · simp only [if_neg hfold, Option.bind_fun_none, Option.isSome_none, Bool.false_eq_true, if_false]
    exact .unfolded hfold hkept.effects rfl

theorem keeps_foldBinary {op : BinaryOp} (hl : Faithful cfg declared left l)
    (hr : Faithful cfg declared right r) :
    Keeps declared (foldBinary cfg l r op.fold) fun p =>
      Faithful cfg declared (.binary tag op left right) (.ofParts (.binary tag' op p.1 p.2.1) p.2.2) := by
  intro s hs
  refine .transform ⟨⟨hs.table, hs.constants⟩, ?_⟩
  have hleft := hl.literalize s.nextId
  have hright := hr.literalize (l.literalize s.nextId).2
  dsimp only
  rw [evaluatePair_eq]
  by_cases hfold : cfg.options.foldConstants = true
  · simp only [if_pos hfold]
    generalize hvalue : (l.value?.bind fun v => r.value?.bind fun w => some (op.fold v w)) = value
    have hworth : Option.Rel Literal.Alike value (worth cfg declared (.binary tag op left right)) := by
      have hlv := hl.value
      have hrv := hr.value
      rw [worth_of_fold hfold] at hlv hrv ⊢
      rw [← hvalue, Expr.eval?]
      refine rel_bind hlv fun v w halike => ?_
      refine rel_bind hrv fun v' w' halike' => ?_
      exact .some (Or.inl (halike.foldBinary halike' op))
    cases value with
    | some v =>
      obtain ⟨v, hv, hrest⟩ := Option.bind_eq_some_iff.mp hvalue
      obtain ⟨w, hw, -⟩ := Option.bind_eq_some_iff.mp hrest
      refine .ofParts hworth (fun _ => ?_) (fun hnone => absurd hnone (Option.some_ne_none _)) rfl
      rw [Expr.effects_binary, hl.pure (by rw [hv]; rfl), hr.pure (by rw [hw]; rfl)]
      rfl
    | none =>
      refine .ofParts hworth (fun hsome => absurd hsome Bool.false_ne_true) (fun _ => ⟨?_, fun _ => ?_⟩) rfl
      · rw [Expr.effects_binary, Expr.effects_binary]
        exact congrArg₂ (· ++ ·) hleft.effects hright.effects
      · refine Eq.trans ?_ hvalue
        exact congrArg₂ (fun x y => Option.bind x fun v => Option.bind y fun w => some (op.fold v w))
          (hleft.eval hfold) (hright.eval hfold)
  · simp only [if_neg hfold, Option.bind_fun_none, Option.isSome_none, Bool.false_eq_true, if_false]
    refine .unfolded hfold ?_ rfl
    rw [Expr.effects_binary, Expr.effects_binary]
    exact congrArg₂ (· ++ ·) hleft.effects hright.effects

end Analysis
end PhpLowering
