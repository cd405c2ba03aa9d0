import Mathlib.Order.Defs.Unbundled
import PhpLowering.Proofs.Analysis.Steps

/-!
# How a step of the analysis changes the state

`Relates R x` says that the states before and behind the step `x` of the analysis are related, whether
the step succeeds or fails.  As this is a property of the form of the code, it is a class with an
instance for every combinator, and nothing is assumed about the registry.

The analysis of an expression numbers nodes, counts keys, asks for rules and reports warnings, though not of
dead code, and what it does in between may stand in brackets: it goes into a conditional and leaves it.  A relation that
goes through all of this is a `Frame`, and it holds around the analysis of every expression
(`relates_analyze`).
-/

namespace PhpLowering
namespace Analysis

set_option synthInstance.maxSize 100000

/-- Two states that only differ in what the analysis of an expression is free to change: the numbers
given out, the rules that are attached, and the keys that are counted. -/
structure Alike (s t : State) : Prop where
  flow : t.flow = s.flow
  scope : t.scope = s.scope
  enclosing : t.enclosing = s.enclosing
  labels : t.memory.labels = s.memory.labels
  referenced : t.memory.referenced = s.memory.referenced
  diagnostics : t.diagnostics = s.diagnostics
  constants : t.constants = s.constants

/-- A relation between states that nothing in the analysis of an expression can break. -/
class Frame (R : State → State → Prop) : Prop extends IsPreorder State R where
  alike {s t : State} : Alike s t → R s t
  warn {p : Problem} (span : Span) (s : State) : p.severity = .warning → p ≠ .unreachableCode → R s (s.report p span)
  conditional {s t : State} : R s.enterConditional t → R s t.leaveConditional

/-- The states around a step are related. -/
class Relates {α : Type} (R : State → State → Prop) (x : Analyze α) : Prop where
  run : ∀ s, R s (x s).2

variable {α β : Type} {R : State → State → Prop} {x y : Analyze α}

/-! ## Combinators -/

theorem relates_update {f : State → State} (h : ∀ s, R s (f s)) : Relates R (Pass.update f : Analyze Unit) where
  run := h

theorem relates_transform {f : State → α × State} (h : ∀ s, R s (f s).2) :
    Relates R (Pass.transform f : Analyze α) where
  run := h

/-- A step in brackets that the relation knows. -/
theorem Relates.within {enter leave : State → State} (hx : Relates R x)
    (h : ∀ {s t : State}, R (enter s) t → R s (leave t)) :
    Relates R (do Pass.update enter; x.ensuring leave) where
  run s := h (hx.run (enter s))

section

variable [IsPreorder State R]

instance relates_pure (a : α) : Relates R (pure a : Analyze α) where
  run s := refl_of R s

theorem Relates.bind {f : α → Analyze β} (hx : Relates R x) (hf : ∀ a, Relates R (f a)) :
    Relates R (x >>= f) where
  run s := by
    have hfirst := hx.run s
    rw [Pass.bind_apply]
    rcases hrun : x s with ⟨r, t⟩
    rw [hrun] at hfirst
    cases r with
    | error e => exact hfirst
    | ok a => exact trans_of R hfirst ((hf a).run t)

instance relates_bind {f : α → Analyze β} [hx : Relates R x] [hf : ∀ a, Relates R (f a)] :
    Relates R (x >>= f) :=
  hx.bind hf

instance relates_ite {c : Prop} [Decidable c] [hx : Relates R x] [hy : Relates R y] :
    Relates R (if c then x else y) := by
  split
  · exact hx
  · exact hy

instance relates_fail (f : Fault) : Relates R (Pass.fail f : Analyze α) where
  run s := refl_of R s

instance relates_peek (f : State → α) : Relates R (Pass.peek f) where
  run s := refl_of R s

instance relates_attempt [h : Relates R x] : Relates R x.attempt where
  run := h.run

instance relates_ofExcept (r : Except Fault α) : Relates R (Pass.ofExcept r : Analyze α) := by
  cases r with
  | ok a => exact relates_pure a
  | error f => exact relates_fail f

theorem Relates.ensuring {f : State → State} (hx : Relates R x) (hf : ∀ s, R s (f s)) :
    Relates R (x.ensuring f) where
  run s := trans_of R (hx.run s) (hf _)

end

/-! ## Expressions -/

variable [Frame R] (cfg : Setting)

theorem relates_warn {p : Problem} (h : p.severity = .warning) (hp : p ≠ .unreachableCode) (span : Span) :
    Relates R (Pass.update (State.report p span)) :=
  relates_update fun s => Frame.warn span s h hp

instance relates_onTable (q : Pass Fault RuleTable α) : Relates R (onTable q) where
  run _ := Frame.alike ⟨rfl, rfl, rfl, rfl, rfl, rfl, rfl⟩

instance relates_keep (e : Evaluation) : Relates R (keep e) :=
  relates_transform fun _ => Frame.alike ⟨rfl, rfl, rfl, rfl, rfl, rfl, rfl⟩

instance relates_kept {x : Analyze Evaluation} [Relates R x] : Relates R (kept x) := by
  unfold kept
  infer_instance

instance relates_foldUnary (e : Evaluation) (fold : Literal → Option Literal) :
    Relates R (foldUnary cfg e fold) :=
  relates_transform fun _ => Frame.alike ⟨rfl, rfl, rfl, rfl, rfl, rfl, rfl⟩

instance relates_foldBinary (l r : Evaluation) (fold : Literal → Literal → Literal) :
    Relates R (foldBinary cfg l r fold) :=
  relates_transform fun _ => Frame.alike ⟨rfl, rfl, rfl, rfl, rfl, rfl, rfl⟩

instance relates_inConditional [h : Relates R x] : Relates R (inConditional x) :=
  h.within Frame.conditional

instance relates_countKey (home : Home ExprKind) (key : Option Expr) : Relates R (countKey home key) :=
  relates_update fun _ => Frame.alike ⟨rfl, rfl, rfl, rfl, rfl, rfl, rfl⟩

instance relates_rebuild (tag : ExprTag) (runs : List Concat.Run) :
    Relates R (joinOperands.rebuild tag runs) :=
  relates_transform fun _ => Frame.alike ⟨rfl, rfl, rfl, rfl, rfl, rfl, rfl⟩

instance relates_joinOperands (tag : ExprTag) (operands : List Evaluation) :
    Relates R (joinOperands cfg tag operands) := by
  unfold joinOperands
  dsimp only
  split
  · split
    · exact relates_transform fun _ => Frame.alike ⟨rfl, rfl, rfl, rfl, rfl, rfl, rfl⟩
    · infer_instance
  · infer_instance

theorem relates_byRule {node : Expr} {analyzed : Home ExprKind → Analyze Evaluation}
    (h : ∀ home, Relates R (analyzed home)) : Relates R (byRule cfg node analyzed) := by
  unfold byRule
  infer_instance

set_option linter.unusedSectionVars false

mutual

/-- **A frame holds around the analysis of every expression.** -/
theorem relates_analyze : ∀ (e : Expr) (access : Access), Relates R (analyze cfg e access)
  | .literal .., _ | .var .., _ => by
    rw [analyze]
    exact relates_byRule cfg fun _ => inferInstance
  | .constant .., _ => by
    rw [analyze]
    exact relates_byRule cfg fun _ => inferInstance
  | .array tag elements, _ => by
    have helements := relates_analyzeElements elements
    rw [analyze]
    exact relates_byRule cfg fun _ => inferInstance
  | .concat tag operands, _ => by
    have hoperands := relates_analyzeOperands operands
    rw [analyze]
    exact relates_byRule cfg fun _ => inferInstance
  | .binary tag op left right, _ => by
    have hleft := relates_analyze left
    have hright := relates_analyze right
    rw [analyze]
    exact relates_byRule cfg fun _ => inferInstance
  | .unary tag op operand, _ => by
    have hoperand := relates_analyze operand
    have hreport := relates_warn (R := R) (p := .deprecatedConstruct "(unset) cast") rfl nofun
    rw [analyze]
    exact relates_byRule cfg fun _ => inferInstance
  | .incDec tag increment post target, _ => by
    have htarget := relates_analyze target
    rw [analyze]
    exact relates_byRule cfg fun _ => inferInstance
  | .conditional tag condition ifTrue ifFalse, _ => by
    have hcondition := relates_analyze condition
    have htrue := relates_analyze ifTrue
    have hfalse := relates_analyze ifFalse
    rw [analyze]
    refine relates_byRule cfg fun _ => Relates.bind inferInstance fun c => ?_
    rcases decided? cfg c with _ | _ | _ <;> dsimp only <;> infer_instance
  | .shortcut tag condition ifFalse, _ => by
    have hcondition := relates_analyze condition
    have hfalse := relates_analyze ifFalse
    rw [analyze]
    refine relates_byRule cfg fun _ => Relates.bind inferInstance fun c => ?_
    rcases decided? cfg c with _ | _ | _ <;> dsimp only <;> infer_instance
  | .list tag targets value, _ => by
    have htargets := relates_analyzeTargets targets
    have hvalue := relates_analyze value
    rw [analyze]
    exact relates_byRule cfg fun _ => inferInstance
  | .item tag container index, _ => by
    have hcontainer := relates_analyze container
    have hindex := relates_analyze index
    rw [analyze]
    exact relates_byRule cfg fun _ => inferInstance
  | .append tag container, _ => by
    have hcontainer := relates_analyze container
    rw [analyze]
    exact relates_byRule cfg fun _ => inferInstance
  | .assign tag target value, _ => by
    have htarget := relates_analyze target
    have hvalue := relates_analyze value
    rw [analyze]
    exact relates_byRule cfg fun _ => inferInstance
  | .call tag name args, _ => by
    have hargs := relates_analyzeArgs (State.function? cfg name) 0 args
    have hreport := relates_warn (R := R) (p := .unknownFunction name) rfl nofun
    rw [analyze]
    exact relates_byRule cfg fun _ => inferInstance
termination_by structural e => e

theorem relates_analyzeOperands : ∀ es : List Expr, Relates R (analyzeOperands cfg es)
  | [] => relates_pure []
  | e :: rest => by
    have he := relates_analyze e .read
    have hnested := relates_nested e
    have hrest := relates_analyzeOperands rest
    by_cases hconcat : ∃ tag operands, e = .concat tag operands
    · obtain ⟨tag, operands, heq⟩ := hconcat
      have hoperands := hnested tag operands heq
      rw [heq, analyzeOperands]
      infer_instance
    · rw [analyzeOperands_cons fun tag operands heq => hconcat ⟨tag, operands, heq⟩]
      infer_instance
termination_by structural es => es

theorem relates_nested : ∀ (e : Expr) (tag : ExprTag) (operands : List Expr),
    e = .concat tag operands → Relates R (analyzeOperands cfg operands)
  | .concat _ operands, _, _, h => (Expr.concat.inj h).2 ▸ relates_analyzeOperands operands
  | .literal .., _, _, h | .array .., _, _, h | .binary .., _, _, h | .unary .., _, _, h
  | .incDec .., _, _, h | .conditional .., _, _, h | .shortcut .., _, _, h | .list .., _, _, h
  | .var .., _, _, h | .item .., _, _, h | .append .., _, _, h | .assign .., _, _, h
  | .call .., _, _, h | .constant .., _, _, h => nomatch h
termination_by structural e => e

theorem relates_analyzeArgs (signature : Option Signature) : ∀ (position : Nat) (es : List Expr),
    Relates R (analyzeArgs cfg signature position es)
  | _, [] => relates_pure []
  | position, arg :: rest => by
    have harg := relates_analyze arg
    have hrest := relates_analyzeArgs signature (position + 1) rest
    rw [analyzeArgs]
    infer_instance
termination_by structural _ es => es

theorem relates_analyzeElements : ∀ (es : List ArrayElement) (home : Home ExprKind),
    Relates R (analyzeElements cfg es home)
  | [], _ => relates_pure []
  | .plain _ value :: rest, home => by
    have hvalue := relates_analyze value
    have hrest := relates_analyzeElements rest home
    rw [analyzeElements]
    infer_instance
  | .keyed _ key value :: rest, home => by
    have hkey := relates_analyze key
    have hvalue := relates_analyze value
    have hrest := relates_analyzeElements rest home
    rw [analyzeElements]
    infer_instance
termination_by structural es => es

theorem relates_analyzeTargets : ∀ ts : List ListTarget, Relates R (analyzeTargets cfg ts)
  | [] => relates_pure []
  | .skip :: rest => by
    have hrest := relates_analyzeTargets rest
    rw [analyzeTargets]
    infer_instance
  | .leaf target :: rest => by
    have htarget := relates_analyze target
    have hrest := relates_analyzeTargets rest
    rw [analyzeTargets]
    infer_instance
  | .nested targets :: rest => by
    have htargets := relates_analyzeTargets targets
    have hrest := relates_analyzeTargets rest
    rw [analyzeTargets]
    infer_instance
termination_by structural ts => ts

end

instance relates_analyzeAll (access : Access) : ∀ es : List Expr, Relates R (analyzeAll cfg access es)
  | [] => relates_pure []
  | e :: rest => by
    have he := relates_analyze (R := R) cfg e
    have hrest := relates_analyzeAll access rest
    rw [analyzeAll]
    infer_instance

end Analysis

/-! ## What the analysis of expressions leaves alone

`Preserves P x` says that the step `x` of the analysis keeps the property `P` of states, whether it
succeeds or fails.  As with the emission this is a property of the form of the code: it is a class
with an instance for every combinator, and nothing is assumed about the registry.

The analysis of an expression numbers nodes, asks for rules, goes into and out of conditionals, and
reports warnings.  A property that none of this breaks is `Robust`.  It survives every step, so that it
is a frame (`frame_of_robust`), and it is preserved (`preserves_analyze`).  A property is `Stable` if it
depends on nothing but the constants and what has been reported, and is not broken by reporting a problem
that the analysis can find.
-/

/-- A problem that the analysis can find. -/
def Problem.Found (p : Problem) : Prop :=
  ∀ message, p ≠ .emissionFailed message

namespace Analysis

set_option synthInstance.maxSize 100000

/-- A property of states that only constants and failures of the emission can break. -/
class Stable (P : State → Prop) : Prop where
  alike {s t : State} : P s → t.diagnostics = s.diagnostics → t.constants = s.constants → P t
  report {p : Problem} (span : Span) {s : State} : p.Found → P s → P (s.report p span)

/-- A property of states that nothing in the analysis of an expression can break. -/
class Robust (P : State → Prop) : Prop where
  alike {s t : State} : P s → t.flow = s.flow → t.scope = s.scope → t.enclosing = s.enclosing →
    t.diagnostics = s.diagnostics → t.constants = s.constants → P t
  enter {s : State} : P s → P s.enterConditional
  leave {s : State} : P s → P s.leaveConditional
  warn {p : Problem} (span : Span) {s : State} : p.severity = .warning → P s → P (s.report p span)

/-- What only depends on constants and problems is not broken by conditionals and warnings. -/
instance robust_of_stable {P : State → Prop} [Stable P] : Robust P where
  alike h _ _ _ := Stable.alike h
  enter h := Stable.alike h rfl rfl
  leave h := Stable.alike h rfl rfl
  warn span _ hp h := Stable.report span (fun _ heq => nomatch heq ▸ hp) h

/-- A step keeps a property of states. -/
class Preserves {α : Type} (P : State → Prop) (x : Analyze α) : Prop where
  keep : ∀ s, P s → P (x s).2

variable {α β : Type} {P : State → Prop} {x y : Analyze α}

/-! ## Combinators -/

instance preserves_pure (a : α) : Preserves P (pure a : Analyze α) where
  keep _ h := h

theorem Preserves.bind {f : α → Analyze β} (hx : Preserves P x) (hf : ∀ a, Preserves P (f a)) :
    Preserves P (x >>= f) where
  keep s h := by
    have hkept := hx.keep s h
    rw [Pass.bind_apply]
    rcases hrun : x s with ⟨r, t⟩
    rw [hrun] at hkept
    cases r with
    | error e => exact hkept
    | ok a => exact (hf a).keep t hkept

instance preserves_bind {f : α → Analyze β} [hx : Preserves P x] [hf : ∀ a, Preserves P (f a)] :
    Preserves P (x >>= f) :=
  hx.bind hf

instance preserves_ite {c : Prop} [Decidable c] [hx : Preserves P x] [hy : Preserves P y] :
    Preserves P (if c then x else y) := by
  split
  · exact hx
  · exact hy

instance preserves_fail (f : Fault) : Preserves P (Pass.fail f : Analyze α) where
  keep _ h := h

instance preserves_peek (f : State → α) : Preserves P (Pass.peek f) where
  keep _ h := h

instance preserves_ofExcept (r : Except Fault α) : Preserves P (Pass.ofExcept r : Analyze α) := by
  cases r with
  | ok a => exact preserves_pure a
  | error f => exact preserves_fail f

theorem preserves_update {f : State → State} (h : ∀ s, P s → P (f s)) :
    Preserves P (Pass.update f : Analyze Unit) where
  keep := h

theorem preserves_transform {f : State → α × State} (h : ∀ s, P s → P (f s).2) :
    Preserves P (Pass.transform f : Analyze α) where
  keep := h

theorem Relates.preserves (h : Relates (fun s t => P s → P t) x) : Preserves P x :=
  ⟨h.run⟩

/-! ## Changes of the state -/

variable [Robust P] {s : State} (cfg : Setting)

instance preserves_onTable (q : Pass Fault RuleTable α) : Preserves P (onTable q) where
  keep _ h := Robust.alike h rfl rfl rfl rfl rfl

instance preserves_keep (e : Evaluation) : Preserves P (keep e) :=
  preserves_transform fun _ h => Robust.alike h rfl rfl rfl rfl rfl

instance preserves_kept {x : Analyze Evaluation} [Preserves P x] : Preserves P (kept x) := by
  unfold kept
  infer_instance

/-- What nothing can break survives every step. -/
instance frame_of_robust (P : State → Prop) [Robust P] : Frame fun s t => P s → P t where
  refl _ := id
  trans _ _ _ h h' hs := h' (h hs)
  alike h hs := Robust.alike hs h.flow h.scope h.enclosing h.diagnostics h.constants
  warn span _ hp _ := Robust.warn span hp
  conditional h hs := Robust.leave (h (Robust.enter hs))

/-- **The analysis of an expression preserves every robust property.** -/
theorem preserves_analyze (e : Expr) (access : Access) : Preserves P (analyze cfg e access) :=
  (relates_analyze cfg e access).preserves

theorem preserves_analyzeAll (access : Access) (es : List Expr) : Preserves P (analyzeAll cfg access es) :=
  (relates_analyzeAll cfg access es).preserves

end Analysis
end PhpLowering
