import PhpLowering.Proofs.Analysis.Becomes
import PhpLowering.Proofs.Analysis.Joining

/-!
# What folding finds and what it leaves

**`keeps_analyze`**: with the standard registry the analysis of an expression is faithful to it.
The induction is on what the rules make of it.  A conditional whose condition has a value is
replaced by what the condition selects; the condition that is kept in all other cases has no value
either, so the same branches count in the node as in the expression.

**`value_iff_eval`** and **`effects_kept`** say what this means for one expression in any state of
the analysis: the values that are found are those that `Expr.eval?` gives, and the node that is
kept has every effect of the expression, once and in its place.
-/

namespace PhpLowering
namespace Analysis

open Expr (effects effectsOf effectsOfElements effectsOfTargets)

variable {cfg : Setting} {declared : List (String × Literal)}

/-! ## Conditionals -/

section Conditionals

variable {e node branch condition ifTrue ifFalse : Expr} {ev c : Evaluation} {tag tag' : ExprTag}

theorem decided?_eq (h : Faithful cfg declared condition c) :
    decided? cfg c = settled cfg declared condition := by
  unfold decided? settled
  by_cases hfold : cfg.options.foldConstants = true
  · rw [if_pos hfold, if_pos hfold]
    have hvalue := h.value
    rw [worth_of_fold hfold] at hvalue
    revert hvalue
    generalize c.value? = o
    generalize condition.eval? (known cfg declared) = o'
    rintro (halike | _)
    · rw [Option.map_some, Option.map_some, halike.toBool]
    · rfl
  · rw [if_neg hfold, if_neg hfold]

/-- A condition that decides nothing decides nothing in the node that is kept for it either. -/
theorem settled_of_keptFor (h : Faithful cfg declared condition c) (hnode : KeptFor cfg declared condition c node)
    (hnone : settled cfg declared condition = none) : settled cfg declared node = none := by
  rw [← decided?_eq h] at hnone
  unfold decided? at hnone
  unfold settled
  by_cases hfold : cfg.options.foldConstants = true
  · rw [if_pos hfold] at hnone ⊢
    rw [hnode.eval hfold]
    exact hnone
  · exact if_neg hfold

theorem eval?_of_settled {b : Bool} (h : settled cfg declared condition = some b) :
    cfg.options.foldConstants = true ∧
      ∃ v, condition.eval? (known cfg declared) = some v ∧ v.toBool = b := by
  unfold settled at h
  split at h
  · rename_i hfold
    exact ⟨hfold, Option.map_eq_some_iff.mp h⟩
  · exact nomatch h

theorem eval?_of_settled_none (h : settled cfg declared condition = none)
    (hfold : cfg.options.foldConstants = true) : condition.eval? (known cfg declared) = none := by
  rw [settled, if_pos hfold] at h
  exact Option.map_eq_none_iff.mp h

/-- The branch that is selected takes the place of the conditional. -/
theorem Faithful.ofBranch (h : Faithful cfg declared branch ev)
    (hworth : worth cfg declared e = worth cfg declared branch)
    (heffects : effects (settled cfg declared) e = effects (settled cfg declared) branch) :
    Faithful cfg declared e ev where
  value := hworth ▸ h.value
  pure hsome := heffects.trans (h.pure hsome)
  residual hnone := ⟨(h.residual hnone).1.trans heffects.symm, (h.residual hnone).2⟩
  literal := h.literal

theorem Faithful.of_true (hdecided : settled cfg declared condition = some true)
    (h : Faithful cfg declared ifTrue ev) :
    Faithful cfg declared (.conditional tag condition ifTrue ifFalse) ev := by
  obtain ⟨hfold, v, hv, hbool⟩ := eval?_of_settled hdecided
  refine h.ofBranch ?_ ?_
  · rw [worth_of_fold hfold, worth_of_fold hfold, Expr.eval?, hv, Option.bind_some, if_pos hbool]
  · rw [Expr.effects_conditional, hdecided]

theorem Faithful.of_false (hdecided : settled cfg declared condition = some false)
    (h : Faithful cfg declared ifFalse ev) :
    Faithful cfg declared (.conditional tag condition ifTrue ifFalse) ev := by
  obtain ⟨hfold, v, hv, hbool⟩ := eval?_of_settled hdecided
  refine h.ofBranch ?_ ?_
  · rw [worth_of_fold hfold, worth_of_fold hfold, Expr.eval?, hv, Option.bind_some,
      if_neg (by rw [hbool]; exact Bool.false_ne_true)]
  · rw [Expr.effects_conditional, hdecided]

/-- A conditional that is not decided is rebuilt from what is kept of its parts. -/
theorem Faithful.of_undecided {condition' ifTrue' ifFalse' : Expr} (hc : Faithful cfg declared condition c)
    (hcondition : KeptFor cfg declared condition c condition')
    (hdecided : settled cfg declared condition = none)
    (htrue : effects (settled cfg declared) ifTrue' = effects (settled cfg declared) ifTrue)
    (hfalse : effects (settled cfg declared) ifFalse' = effects (settled cfg declared) ifFalse) :
    Faithful cfg declared (.conditional tag condition ifTrue ifFalse)
      (.residual (.conditional tag' condition' ifTrue' ifFalse')) := by
  have hdecided' := settled_of_keptFor hc hcondition hdecided
  refine .atRunTime ?_ (fun hfold => ?_) (fun hfold => ?_) rfl
  · rw [Expr.effects_conditional, Expr.effects_conditional, hdecided, hdecided']
    dsimp only
    rw [hcondition.effects, htrue, hfalse]
  · rw [Expr.eval?, eval?_of_settled_none hdecided hfold]
    rfl
  · rw [Expr.eval?, eval?_of_settled_none hdecided' hfold]
    rfl

/-- A condition that holds is the value of its shortcut, and is kept as a literal. -/
theorem Faithful.shortcut_of_true {condition' : Expr} (hc : Faithful cfg declared condition c)
    (hcondition : KeptFor cfg declared condition c condition')
    (hdecided : settled cfg declared condition = some true) (access : Access) :
    Faithful cfg declared (.shortcut tag condition ifFalse)
      (.ofParts (condition'.withAccess access) (condition'.withAccess access).value?) := by
  obtain ⟨hfold, v, hv, hbool⟩ := eval?_of_settled hdecided
  have hvalue := hc.value
  rw [worth_of_fold hfold, hv] at hvalue
  obtain ⟨w, hw, halike⟩ : ∃ w, c.value? = some w ∧ w.Alike v := by
    revert hvalue
    generalize c.value? = o
    rintro (halike | _)
    exact ⟨_, rfl, halike⟩
  obtain ⟨tag', rfl⟩ := hcondition.literal w hw
  refine ⟨?_, fun _ => ?_, nofun, ?_⟩
  · rw [worth_of_fold hfold, Expr.eval?, hv, Option.bind_some, if_pos hbool]
    exact .some halike
  · rw [Expr.effects_shortcut, hdecided]
    exact hc.pure (by rw [hw]; rfl)
  · rintro u tag'' u' hu
    cases hu
    rfl

theorem Faithful.shortcut_of_false (hdecided : settled cfg declared condition = some false)
    (h : Faithful cfg declared ifFalse ev) :
    Faithful cfg declared (.shortcut tag condition ifFalse) ev := by
  obtain ⟨hfold, v, hv, hbool⟩ := eval?_of_settled hdecided
  refine h.ofBranch ?_ ?_
  · rw [worth_of_fold hfold, worth_of_fold hfold, Expr.eval?, hv, Option.bind_some,
      if_neg (by rw [hbool]; exact Bool.false_ne_true)]
  · rw [Expr.effects_shortcut, hdecided]

theorem Faithful.shortcut_of_undecided {condition' ifFalse' : Expr} (hc : Faithful cfg declared condition c)
    (hcondition : KeptFor cfg declared condition c condition')
    (hdecided : settled cfg declared condition = none)
    (hfalse : effects (settled cfg declared) ifFalse' = effects (settled cfg declared) ifFalse) :
    Faithful cfg declared (.shortcut tag condition ifFalse)
      (.residual (.shortcut tag' condition' ifFalse')) := by
  have hdecided' := settled_of_keptFor hc hcondition hdecided
  refine .atRunTime ?_ (fun hfold => ?_) (fun hfold => ?_) rfl
  · rw [Expr.effects_shortcut, Expr.effects_shortcut, hdecided, hdecided']
    dsimp only
    rw [hcondition.effects, hfalse]
  · rw [Expr.eval?, eval?_of_settled_none hdecided hfold]
    rfl
  · rw [Expr.eval?, eval?_of_settled_none hdecided' hfold]
    rfl

end Conditionals

/-! ## The induction -/

/-- An operand that is no concatenation itself. -/
theorem leaves_of_flat {e : Expr} (h : ∀ tag operands, e ≠ .concat tag operands) : Concat.leaves e = [e] := by
  cases e with
  | concat tag operands => exact (h tag operands rfl).elim
  | _ => rfl

theorem Faithful.of_literal {tag : ExprTag} (tag' : ExprTag) (v : Literal) :
    Faithful cfg declared (.literal tag v) (.value v (.literal tag' v)) := by
  have hworth : worth cfg declared (.literal tag v) = some v := by
    unfold worth
    split <;> rfl
  refine ⟨?_, fun _ => rfl, nofun, ?_⟩
  · rw [hworth]
    exact .some (.refl v)
  · rintro u tag'' w hu
    cases hu
    rfl

theorem Faithful.of_constant {tag : ExprTag} (tag' : ExprTag) (name : String) :
    Faithful cfg declared (.constant tag name) (.ofParts (.constant tag' name)
      (if cfg.options.foldConstants then known cfg declared name else none)) := by
  split
  · rename_i hfold
    refine .ofParts ?_ (fun _ => rfl) (fun hnone => ⟨rfl, fun _ => hnone⟩) rfl
    rw [worth_of_fold hfold, Expr.eval?]
    cases known cfg declared name with
    | none => exact .none
    | some v => exact .some (.refl v)
  · rename_i hfold
    exact .unfolded hfold rfl rfl

mutual

theorem Becomes.faithful {e : Expr} {access : Access} {ev : Evaluation} :
    Becomes cfg declared e access ev → Faithful cfg declared e ev
  | .literal => .of_literal _ _
  | .var => .never rfl rfl rfl rfl
  | .constant => .of_constant _ _
  | .array helements => .never (by simp [helements.effects_eq]) rfl rfl rfl
  | .concat hoperands hjoin => (keeps_joinOperands hoperands.faithful).of_answers hjoin
  | .binary hleft hright hfold => (keeps_foldBinary hleft.faithful hright.faithful).of_answers hfold
  | .unary hoperand hfold => (keeps_foldUnary hoperand.faithful).of_answers hfold
  | .incDec htarget => .never (by simp [htarget.effects_eq]) rfl rfl rfl
  | .ifTrue hcondition hdecided htrue =>
    htrue.faithful.of_true ((decided?_eq hcondition.faithful).symm.trans hdecided)
  | .ifFalse hcondition hdecided hfalse =>
    hfalse.faithful.of_false ((decided?_eq hcondition.faithful).symm.trans hdecided)
  | .conditional hcondition hdecided hkeep htrue hfalse => by
    have hc := hcondition.faithful
    have hkept := (keeps_keep hc).of_answers hkeep
    exact .of_undecided hc hkept ((decided?_eq hc).symm.trans hdecided) htrue.effects_eq hfalse.effects_eq
  | .holds hcondition hdecided hkeep => by
    have hc := hcondition.faithful
    have hkept := (keeps_keep hc).of_answers hkeep
    exact hc.shortcut_of_true hkept ((decided?_eq hc).symm.trans hdecided) _
  | .otherwise hcondition hdecided hfalse =>
    hfalse.faithful.shortcut_of_false ((decided?_eq hcondition.faithful).symm.trans hdecided)
  | .shortcut hcondition hdecided hkeep hfalse => by
    have hc := hcondition.faithful
    have hkept := (keeps_keep hc).of_answers hkeep
    exact .shortcut_of_undecided hc hkept ((decided?_eq hc).symm.trans hdecided) hfalse.effects_eq
  | .list hvalue htargets => .never (by simp [hvalue.effects_eq, htargets.effects_eq]) rfl rfl rfl
  | .item hcontainer hindex => .never (by simp [hcontainer.effects_eq, hindex.effects_eq]) rfl rfl rfl
  | .append hcontainer => .never (by simp [hcontainer.effects_eq]) rfl rfl rfl
  | .assign htarget hvalue => .never (by simp [htarget.effects_eq, hvalue.effects_eq]) rfl rfl rfl
  | .call hargs => .never (by simp [hargs.effects_eq]) rfl rfl rfl

theorem BecomesNode.effects_eq {e : Expr} {access : Access} {node : Expr} :
    BecomesNode cfg declared e access node → effects (settled cfg declared) node = effects (settled cfg declared) e
  | .mk h hkeep => ((keeps_keep h.faithful).of_answers hkeep).effects

theorem BecomesOperands.faithful {es : List Expr} {evs : List Evaluation} :
    BecomesOperands cfg declared es evs → List.Forall₂ (Faithful cfg declared) (Concat.flatten es) evs
  | .nil => .nil
  | .nested hoperands hrest => List.rel_append hoperands.faithful hrest.faithful
  | .cons hflat he hrest => by
    rw [Concat.flatten, leaves_of_flat hflat]
    exact .cons he.faithful hrest.faithful

theorem BecomesArgs.effects_eq {signature : Option Signature} {position : Nat} {es es' : List Expr} :
    BecomesArgs cfg declared signature position es es' →
      effectsOf (settled cfg declared) es' = effectsOf (settled cfg declared) es
  | .nil => rfl
  | .cons harg hrest => by simp [harg.effects_eq, hrest.effects_eq]

theorem BecomesElements.effects_eq {es es' : List ArrayElement} : BecomesElements cfg declared es es' →
    effectsOfElements (settled cfg declared) es' = effectsOfElements (settled cfg declared) es
  | .nil => rfl
  | .plain hvalue hrest => by simp [hvalue.effects_eq, hrest.effects_eq]
  | .keyed hkey hvalue hrest => by simp [hkey.effects_eq, hvalue.effects_eq, hrest.effects_eq]

theorem BecomesTargets.effects_eq {ts ts' : List ListTarget} : BecomesTargets cfg declared ts ts' →
    effectsOfTargets (settled cfg declared) ts' = effectsOfTargets (settled cfg declared) ts
  | .nil => rfl
  | .skip hrest => by simp [hrest.effects_eq]
  | .leaf htarget hrest => by simp [htarget.effects_eq, hrest.effects_eq]
  | .nested htargets hrest => by simp [htargets.effects_eq, hrest.effects_eq]

end

/-- **An expression is found to have its value, and what is left of it has its effects.** -/
theorem keeps_analyze (hcfg : cfg.registry = .standard) (e : Expr) (access : Access) :
    Keeps declared (analyze cfg e access) (Faithful cfg declared e) :=
  (keeps_becomes hcfg e access).mono fun _ h => h.faithful

/-! ## One expression in any state -/

variable {s : State}

/-- The constants that a state knows. -/
theorem known_constants (s : State) : known cfg s.constants = fun name => s.constant? cfg name := rfl

theorem exists_faithful (hcfg : cfg.registry = .standard) (hs : s.table.Regular) (e : Expr)
    (access : Access) :
    ∃ ev t, analyze cfg e access s = (.ok ev, t) ∧ Knows s.constants t ∧
      Faithful cfg s.constants e ev :=
  (keeps_analyze hcfg e access s ⟨hs, rfl⟩).exists_ok

/-- **Folding finds a value exactly for the expressions that have one, and it is that value.**  It is
also what the literal carries that takes the place of the expression. -/
theorem value_iff_eval (hcfg : cfg.registry = .standard) (hfold : cfg.options.foldConstants = true)
    (hs : s.table.Regular) (e : Expr) (access : Access) :
    ∃ ev t, analyze cfg e access s = (.ok ev, t) ∧ t.table.Regular ∧
      (ev.value?.isSome = true ↔ (e.eval? fun name => s.constant? cfg name).isSome = true) ∧
      (∀ v, ev.value? = some v → ∃ w, e.eval? (fun name => s.constant? cfg name) = some w ∧ v.Alike w) ∧
      ∀ v, ev.value? = some v → ∀ nextId, ∃ tag, (ev.literalize nextId).1 = .literal tag v := by
  obtain ⟨ev, t, hrun, ht, hev⟩ := exists_faithful hcfg hs e access
  have hvalue := hev.value
  rw [worth_of_fold hfold, known_constants] at hvalue
  refine ⟨ev, t, hrun, ht.table, ?_, ?_, fun v hv nextId => (hev.literalize nextId).literal v hv⟩
  · revert hvalue
    generalize ev.value? = o
    generalize e.eval? (fun name => s.constant? cfg name) = o'
    rintro (halike | _)
    · exact ⟨fun _ => rfl, fun _ => rfl⟩
    · exact ⟨nofun, nofun⟩
  · intro v hv
    rw [hv] at hvalue
    revert hvalue
    generalize e.eval? (fun name => s.constant? cfg name) = o'
    rintro (halike | _)
    exact ⟨_, rfl, halike⟩

/-- The text `a`, the constant `N` and the byte 255, concatenated in two steps. -/
def mixedConcat : Expr :=
  .concat ⟨0, {}, .none⟩
    [.concat ⟨1, {}, .none⟩ [.literal ⟨2, {}, .none⟩ (.string "a"), .constant ⟨3, {}, .none⟩ "N"],
      .literal ⟨4, {}, .none⟩ (.bytes [255])]

/-- A state in which the constant `N` is null. -/
def withNull : State :=
  { nextId := 5, constants := [("N", .null)] }

theorem value_mixedConcat :
    ∃ ev t, analyze {} mixedConcat .read withNull = (.ok ev, t) ∧
      ∃ v, ev.value? = some v ∧ v.Alike (.bytes [97, 255]) := by
  obtain ⟨ev, t, hrun, -, hiff, halike, -⟩ :=
    @value_iff_eval {} withNull rfl rfl RuleTable.regular_empty mixedConcat .read
  have heval : mixedConcat.eval? (fun name => withNull.constant? {} name) = some (.bytes [97, 255]) :=
    rfl
  obtain ⟨v, hv⟩ := Option.isSome_iff_exists.mp (hiff.mpr (by rw [heval]; rfl))
  obtain ⟨w, hw, hvw⟩ := halike v hv
  rw [heval] at hw
  cases hw
  exact ⟨ev, t, hrun, v, hv, hvw⟩

/-- **The node that is kept has the effects of the expression, and what has a value has none.** -/
theorem effects_kept (hcfg : cfg.registry = .standard) (hs : s.table.Regular) (e : Expr)
    (access : Access) :
    (∃ node t, kept (analyze cfg e access) s = (.ok node, t) ∧
      effects (settled cfg s.constants) node = effects (settled cfg s.constants) e) ∧
    ∃ ev t, analyze cfg e access s = (.ok ev, t) ∧ t.table.Regular ∧
      (ev.value?.isSome = true → effects (settled cfg s.constants) e = []) := by
  constructor
  · obtain ⟨node, t, hrun, -, hnode⟩ := ((keeps_analyze hcfg e access).kept s ⟨hs, rfl⟩).exists_ok
    exact ⟨node, t, hrun, hnode⟩
  · obtain ⟨ev, t, hrun, ht, hev⟩ := exists_faithful hcfg hs e access
    exact ⟨ev, t, hrun, ht.table, hev.pure⟩

/-- The text `a` and then `$x[0]` or `f($y)`, as the constant `N` has it. -/
def guardedCall : Expr :=
  .concat ⟨0, {}, .none⟩
    [.literal ⟨1, {}, .none⟩ (.string "a"),
      .conditional ⟨2, {}, .none⟩ (.constant ⟨3, {}, .none⟩ "N")
        (.item ⟨4, {}, .none⟩ (.var ⟨5, {}, .none⟩ "x") (.literal ⟨6, {}, .none⟩ (.int 0)))
        (.call ⟨7, {}, .none⟩ "f" [.var ⟨8, {}, .none⟩ "y"])]

theorem effects_kept_guardedCall :
    ∃ node t, kept (analyze {} guardedCall .read) withNull = (.ok node, t) ∧
      effects (settled {} withNull.constants) node = [7, 8] := by
  obtain ⟨⟨node, t, hrun, heffects⟩, -⟩ :=
    @effects_kept {} withNull rfl RuleTable.regular_empty guardedCall .read
  exact ⟨node, t, hrun, heffects.trans rfl⟩

end Analysis
end PhpLowering
