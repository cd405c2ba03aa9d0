import PhpLowering.Proofs.Analysis.Expr
import PhpLowering.Proofs.Analysis.Frame
import PhpLowering.Proofs.Analysis.Joining
import PhpLowering.Analysis.Stmt

/-!
# Expressions in dead code

The flags for dead code belong to the statements, but the analysis of an expression can change them.  The
branches of a conditional are analysed as something that may be skipped, and whatever has been skipped can be
reached afterwards.  Whether the conditional itself can be reached is forgotten.

**`reachability_analyze`** says exactly when this happens, for any registry and any state: the flags are cleared if
a conditional is left in the node, and otherwise they are as before.  A node whose kind has another rule is not
analysed, so a conditional in it does not count (`Expr.forks`).

So a statement in dead code is kept if there is a conditional in front of it (`echo_kept_behind_conditional`).
-/

namespace PhpLowering

/-- Whether the nodes of a kind are handled by the rule that is made for them. -/
def Registry.owns (r : Registry) (kind : ExprKind) : Bool :=
  (r.expr kind).any fun entry => entry.rule == kind

namespace Expr

variable (own : ExprKind → Bool)

mutual

/-- Whether there is a conditional in an expression.  Only nodes of the kinds in `own` are looked into. -/
def forks : Expr → Bool
  | .literal .. | .var .. | .constant .. => false
  | .conditional .. | .shortcut .. => own .conditional
  | .array _ elements => own .array && forksInElements elements
  | .concat _ operands => own .concat && forksIn operands
  | .call _ _ args => own .call && forksIn args
  | .binary _ _ left right => own .binary && (forks left || forks right)
  | .unary _ _ operand => own .unary && forks operand
  | .incDec _ _ _ target => own .incDec && forks target
  | .list _ targets value => own .list && (forks value || forksInTargets targets)
  | .item _ container index => own .item && (forks container || forks index)
  | .append _ container => own .item && forks container
  | .assign _ target value => own .assign && (forks target || forks value)
termination_by structural e => e

/-- Whether there is a conditional in one of some expressions. -/
def forksIn : List Expr → Bool
  | [] => false
  | e :: rest => forks e || forksIn rest
termination_by structural es => es

/-- Whether there is a conditional in the elements of an array literal. -/
def forksInElements : List ArrayElement → Bool
  | [] => false
  | .plain _ value :: rest => forks value || forksInElements rest
  | .keyed _ key value :: rest => forks key || forks value || forksInElements rest
termination_by structural es => es

/-- Whether there is a conditional in the targets of a destructuring. -/
def forksInTargets : List ListTarget → Bool
  | [] => false
  | .skip :: rest => forksInTargets rest
  | .leaf target :: rest => forks target || forksInTargets rest
  | .nested targets :: rest => forksInTargets targets || forksInTargets rest
termination_by structural es => es

end

variable {own}

/-- A node that is not looked into does not count. -/
theorem forks_eq_false {e : Expr} (h : own e.kind = false) : e.forks own = false := by
  cases e <;> simp_all [forks, kind]

theorem forksIn_append (es es' : List Expr) : forksIn own (es ++ es') = (forksIn own es || forksIn own es') := by
  induction es with
  | nil => rfl
  | cons e rest ih => simp only [List.cons_append, forksIn, ih, Bool.or_assoc]

end Expr

namespace Analysis

open Pass (Ends)

variable {α β : Type} {cfg : Setting} {own : ExprKind → Bool} {x : Analyze α} {f : α → Analyze β}
  {P Q : α → Bool → Prop} {R : β → Bool → Prop} {b : Bool} {ev l r : Evaluation}

/-- The reachability behind a step in which a conditional has been left, or has not. -/
def State.past (forked : Bool) (s : State) : Reachability :=
  if forked then {} else s.reachability

/-! ## Steps and the flags -/

/-- Whenever a step succeeds, it tells with its answer whether it has cleared the flags or left them. -/
def Clears (P : α → Bool → Prop) (x : Analyze α) : Prop :=
  ∀ s, Ends x s (fun a t => ∃ forked, P a forked ∧ t.reachability = s.past forked) fun _ => True

/-- A step clears the flags, whether it succeeds or fails. -/
def Revives (x : Analyze α) : Prop :=
  ∀ s, (x s).2.reachability = {}

namespace Clears

theorem mono (h : Clears P x) (hPQ : ∀ a b, P a b → Q a b) : Clears Q x :=
  fun s => (h s).mono fun a _ ⟨b, hb, ht⟩ => ⟨b, hPQ a b hb, ht⟩

theorem pure {a : α} (h : P a false) : Clears P (Pure.pure a) :=
  fun _ => .pure ⟨false, h, rfl⟩

theorem fail (f : Fault) : Clears P (Pass.fail f) :=
  fun _ => .fail trivial

theorem update {g : State → State} {P : Unit → Bool → Prop} (hg : ∀ s, (g s).reachability = s.reachability)
    (h : P () false) : Clears P (Pass.update g) :=
  fun s => .update ⟨false, h, hg s⟩

theorem transform {g : State → α × State} (hg : ∀ s, (g s).2.reachability = s.reachability ∧ P (g s).1 false) :
    Clears P (Pass.transform g) :=
  fun s => .transform ⟨false, (hg s).2, (hg s).1⟩

/-- The flags are cleared by a sequence if one of its parts clears them. -/
theorem bind (hx : Clears P x) (hf : ∀ a b, P a b → Clears (fun c b' => R c (b || b')) (f a)) :
    Clears R (x >>= f) := by
  intro s
  refine (hx s).bind ?_
  rintro a t ⟨b, hb, ht⟩
  refine (hf a b hb t).mono ?_
  rintro c u ⟨b', hc, hu⟩
  refine ⟨b || b', hc, ?_⟩
  rw [hu]
  cases b' with
  | false => rw [Bool.or_false]; exact ht
  | true => rw [Bool.or_true]; rfl

/-- A step that leaves the flags alone. -/
theorem before (hx : Clears (fun a b => P a b ∧ b = false) x) (hf : ∀ a, P a false → Clears R (f a)) :
    Clears R (x >>= f) := by
  refine hx.bind ?_
  rintro a _ ⟨ha, rfl⟩
  exact (hf a ha).mono fun _ _ hc => hc

end Clears

theorem Revives.attempt (h : Revives x) : Clears (fun _ b => b = true) x.attempt :=
  fun s => Ends.of_eq (Pass.attempt_apply x s) ⟨true, rfl, h s⟩

theorem Revives.clears (h : Revives x) : Clears (fun _ b => b = true) x := by
  intro s
  refine .intro (fun a t hrun => ?_) fun _ _ _ => trivial
  have hrevived := h s
  rw [hrun] at hrevived
  exact ⟨true, rfl, hrevived⟩

/-- What may be skipped can be reached afterwards. -/
theorem revives_inConditional (x : Analyze α) : Revives (inConditional x) :=
  fun _ => rfl

/-! ## Evaluations -/

/-- Whether there is a conditional in the node of an evaluation; there is none in one that has a value. -/
def Forked (own : ExprKind → Bool) (ev : Evaluation) (b : Bool) : Prop :=
  ev.node.forks own = b ∧ (ev.hasValue = true → b = false)

theorem forked_ofParts {node : Expr} {value : Option Literal} (hnode : node.forks own = b)
    (hvalue : value.isSome = true → b = false) : Forked own (.ofParts node value) b := by
  cases value with
  | none => exact ⟨hnode, nofun⟩
  | some v => exact ⟨hnode, hvalue⟩

theorem forked_residual {node : Expr} (hnode : node.forks own = b) : Forked own (.residual node) b :=
  ⟨hnode, nofun⟩

theorem Forked.literalize (h : Forked own ev b) (nextId : Nat) : (ev.literalize nextId).1.forks own = b := by
  cases ev with
  | residual node => exact h.1
  | value v node =>
    obtain rfl := h.2 rfl
    cases node <;> simp [Evaluation.literalize, Expr.forks]

theorem clears_keep (h : Forked own ev b) :
    Clears (fun node b' => node.forks own = b ∧ b' = false) (keep ev) :=
  .transform fun s => ⟨rfl, h.literalize s.nextId, rfl⟩

theorem Clears.kept {x : Analyze Evaluation} (h : Clears (Forked own) x) :
    Clears (fun node b => node.forks own = b) (kept x) := by
  refine h.bind fun ev b hev => (clears_keep hev).mono ?_
  rintro node _ ⟨hnode, rfl⟩
  rw [hnode, Bool.or_false]

theorem clears_countKey (home : Home ExprKind) (key : Option Expr) :
    Clears (fun _ b => True ∧ b = false) (countKey home key) :=
  .update (fun _ => rfl) ⟨trivial, rfl⟩

theorem clears_report (p : Problem) (span : Span) :
    Clears (fun _ b => True ∧ b = false) (Pass.update (State.report p span)) :=
  .update (fun _ => rfl) ⟨trivial, rfl⟩

/-- What has a value is kept as a literal. -/
theorem clears_keep_value (h : ev.hasValue = true) :
    Clears (fun node b' => (∃ tag v, node = .literal tag v) ∧ b' = false) (keep ev) := by
  have hliteral : ∀ nextId, ∃ tag v, (ev.literalize nextId).1 = .literal tag v := by
    intro nextId
    cases ev with
    | residual node => exact nomatch h
    | value v node => cases node <;> exact ⟨_, _, rfl⟩
  exact .transform fun s => ⟨rfl, hliteral s.nextId, rfl⟩

theorem clears_foldUnary (h : Forked own ev b) (fold : Literal → Option Literal) :
    Clears (fun p b' => (p.1.forks own = b ∧ (p.2.isSome = true → b = false)) ∧ b' = false)
      (foldUnary cfg ev fold) := by
  refine .transform fun s => ⟨rfl, ?_, rfl⟩
  generalize (if cfg.options.foldConstants then fold else fun _ => none) = folded
  dsimp only
  rw [evaluate_eq]
  dsimp only
  split
  · rename_i hsome
    exact ⟨h.1, fun _ => h.2 (isSome_of_bind hsome)⟩
  · rename_i hnone
    exact ⟨h.literalize _, fun hsome => absurd hsome hnone⟩

theorem clears_foldBinary {b' : Bool} (hl : Forked own l b) (hr : Forked own r b')
    (fold : Literal → Literal → Literal) :
    Clears (fun p b'' => (p.1.forks own = b ∧ p.2.1.forks own = b' ∧
      (p.2.2.isSome = true → (b || b') = false)) ∧ b'' = false) (foldBinary cfg l r fold) := by
  refine .transform fun s => ⟨rfl, ?_, rfl⟩
  generalize (fun v w => if cfg.options.foldConstants then some (fold v w) else none) = folded
  dsimp only
  rw [evaluatePair_eq]
  split
  · rename_i hsome
    refine ⟨hl.1, hr.1, fun _ => ?_⟩
    obtain ⟨v, hv⟩ := Option.isSome_iff_exists.mp hsome
    obtain ⟨w, hw, hv⟩ := Option.bind_eq_some_iff.mp hv
    obtain ⟨w', hw', -⟩ := Option.bind_eq_some_iff.mp hv
    rw [hl.2 (by rw [Evaluation.hasValue, hw]; rfl), hr.2 (by rw [Evaluation.hasValue, hw']; rfl)]
    rfl
  · exact ⟨hl.literalize _, hr.literalize _, by rintro ⟨⟩⟩

/-! ## Rules -/

/-- The rule that is found is that of the kind. -/
theorem ends_rule (kind : ExprKind) (id : Nat) (s : State) :
    Ends (onTable (RuleTable.expr cfg.registry kind id)) s
      (fun handle t => cfg.registry.owns kind = decide (handle.rule = kind) ∧ t.reachability = s.reachability)
      fun _ => True := by
  have hlookup : Ends (RuleTable.lookup .expr ExprKind.hasMemory (cfg.registry.expr kind) kind id) s.table.exprs
      (fun handle _ => cfg.registry.owns kind = decide (handle.rule = kind)) fun _ => True := by
    unfold RuleTable.lookup Registry.owns
    cases cfg.registry.expr kind with
    | none => exact .fail trivial
    | some entry =>
      have hown : (some entry).any (fun entry => entry.rule == kind) = decide (entry.rule = kind) := rfl
      refine .intro (fun handle seen hrun => ?_) fun _ _ _ => trivial
      dsimp only at hrun
      split at hrun
      · obtain ⟨hhandle, -⟩ := Prod.mk.inj hrun
        rw [hown, ← Except.ok.inj hhandle]
      · split at hrun
        · obtain ⟨hhandle, -⟩ := Prod.mk.inj hrun
          rw [hown, ← Except.ok.inj hhandle]
        · exact nomatch hrun
  refine .intro (fun handle t hrun => ?_) fun _ _ _ => trivial
  obtain ⟨hhandle, rfl⟩ := Prod.mk.inj hrun
  exact ⟨hlookup.of_ok (Prod.ext hhandle rfl), rfl⟩

/-- A node that has a rule of its own is analysed, and one that is let pass does not count. -/
theorem clears_byRule {node : Expr} {analyzed : Home ExprKind → Analyze Evaluation}
    (h : cfg.registry.owns node.kind = true → ∀ home, Clears (Forked cfg.registry.owns) (analyzed home)) :
    Clears (Forked cfg.registry.owns) (byRule cfg node analyzed) := by
  intro s
  refine (ends_rule node.kind node.id s).bind ?_
  rintro handle t ⟨hown, ht⟩
  have hpast : ∀ forked, t.past forked = s.past forked := fun forked => by
    unfold State.past
    rw [ht]
  split
  · rename_i hrule
    refine (h (by rw [hown]; exact decide_eq_true hrule) handle.home t).mono ?_
    rintro ev u ⟨b, hev, hu⟩
    exact ⟨b, hev, hu.trans (hpast b)⟩
  · rename_i hrule
    split
    · have hpassed : cfg.registry.owns node.kind = false := by
        rw [hown]
        exact decide_eq_false hrule
      exact .pure ⟨false, ⟨Expr.forks_eq_false hpassed, nofun⟩, ht⟩
    · exact .fail trivial

/-! ## Concatenations -/

/-- Whether there is a conditional in the nodes of evaluations; there is none in those that have a value. -/
def ForkedAll (own : ExprKind → Bool) (evs : List Evaluation) (b : Bool) : Prop :=
  Expr.forksIn own (residuals evs) = b

theorem ForkedAll.cons {b' : Bool} {rest : List Evaluation} (h : Forked own ev b) (hrest : ForkedAll own rest b') :
    ForkedAll own (ev :: rest) (b || b') := by
  cases ev with
  | value v node => rw [h.2 rfl, Bool.false_or]; exact hrest
  | residual node =>
    rw [← hrest, ← h.1]
    rfl

theorem ForkedAll.append {b' : Bool} {evs evs' : List Evaluation} (h : ForkedAll own evs b)
    (h' : ForkedAll own evs' b') : ForkedAll own (evs ++ evs') (b || b') := by
  unfold ForkedAll at *
  rw [residuals_append, Expr.forksIn_append, h, h']

/-- Literals have no parts. -/
theorem Interspersed.forksIn_eq {es es' : List Expr} (h : Interspersed es es') :
    Expr.forksIn own es = Expr.forksIn own es' := by
  induction h with
  | nil => rfl
  | literal _ _ ih => exact ih
  | cons _ ih => exact congrArg (_ || ·) ih

theorem clears_joinOperands (hown : own .concat = true) (tag : ExprTag) {evs : List Evaluation}
    (h : ForkedAll own evs b) :
    Clears (fun ev b' => Forked own ev b ∧ b' = false) (joinOperands cfg tag evs) := by
  have hrebuild : Clears (fun ev b' => Forked own ev b ∧ b' = false)
      (joinOperands.rebuild tag (Concat.runs evs cfg.options.foldConstants)) := by
    refine .transform fun s => ⟨rfl, ⟨?_, nofun⟩, rfl⟩
    have hoperands : Expr.forksIn own (Concat.operands _ s.nextId).1 = _ :=
      (interspersed_runs evs cfg.options.foldConstants s.nextId).forksIn_eq
    show (own .concat && Expr.forksIn own _) = b
    rw [hown, Bool.true_and, hoperands, h]
  unfold joinOperands
  dsimp only
  split
  · rename_i v span hruns
    rw [hruns] at hrebuild
    split
    · -- Nothing is left to run time, so there is no conditional.
      have hnone : b = false := by
        rw [← h, ← flatMap_runNodes evs cfg.options.foldConstants, hruns]
        rfl
      exact .transform fun s => ⟨rfl, ⟨hnone.symm ▸ rfl, fun _ => hnone⟩, rfl⟩
    · exact hrebuild
  · exact hrebuild

/-! ## Conditionals -/

variable {condition ifTrue ifFalse : Expr} {tag : ExprTag} {access : Access}

/-- A conditional that is left clears the flags. -/
theorem clears_branches {first second : Analyze Expr} (hown : own .conditional = true) (node : Expr → Expr → Expr)
    (hnode : ∀ t f, (node t f).forks own = own .conditional) :
    Clears (fun ev b => Forked own ev b ∧ b = true) (do
      let t ← (inConditional first).attempt
      let f ← (inConditional second).attempt
      let ifTrue ← Pass.ofExcept t
      let ifFalse ← Pass.ofExcept f
      return .residual (node ifTrue ifFalse)) := by
  have hforked : ∀ t f, Forked own (.residual (node t f)) true := fun t f => ⟨(hnode t f).trans hown, nofun⟩
  have hanswer : ∀ r : Except Fault Expr, Clears (fun _ b => b = false) (Pass.ofExcept r : Analyze Expr) := by
    intro r
    cases r with
    | ok a => exact .pure rfl
    | error e => exact .fail e
  refine (revives_inConditional first).attempt.bind ?_
  rintro t _ rfl
  refine (revives_inConditional second).attempt.bind ?_
  rintro f _ rfl
  refine (hanswer t).bind ?_
  rintro ifTrue _ rfl
  refine (hanswer f).bind ?_
  rintro ifFalse _ rfl
  exact .pure ⟨hforked _ _, rfl⟩

/-! ## The rules, one by one -/

section

variable (cfg) in
/-- An expression clears the flags for dead code exactly if a conditional is left of it. -/
def ClearsExpr (e : Expr) (access : Access) : Prop :=
  Clears (Forked cfg.registry.owns) (analyze cfg e access)

variable {left right operand : Expr} {name : String}

theorem clears_constant : ClearsExpr cfg (.constant tag name) access := by
  unfold ClearsExpr
  rw [analyze]
  refine clears_byRule fun _ _ => ?_
  split
  · have hpeek : Clears (fun _ b => True ∧ b = false) (Pass.peek (State.constant? cfg name)) :=
      fun s => .peek ⟨false, ⟨trivial, rfl⟩, rfl⟩
    exact hpeek.before fun value _ => .pure (forked_ofParts rfl fun _ => rfl)
  · exact .pure ⟨rfl, nofun⟩

theorem clears_binary {op : BinaryOp} (hleft : ClearsExpr cfg left .read) (hright : ClearsExpr cfg right .read) :
    ClearsExpr cfg (.binary tag op left right) access := by
  unfold ClearsExpr
  rw [analyze]
  refine clears_byRule fun (hown : cfg.registry.owns .binary = true) _ => hleft.bind fun l b hl =>
    hright.bind fun r b' hr => (clears_foldBinary hl hr op.fold).bind ?_
  rintro ⟨left', right', value⟩ _ ⟨⟨hleft, hright, hvalue⟩, rfl⟩
  refine .pure (forked_ofParts ?_ fun hsome => ?_)
  · simp [Expr.forks, hown, hleft, hright]
  · simpa using hvalue hsome

theorem clears_unary {op : UnaryOp} (h : ClearsExpr cfg operand (operandAccess op access)) :
    ClearsExpr cfg (.unary tag op operand) access := by
  have hfold (tag' : ExprTag) (hown : cfg.registry.owns .unary = true) : Clears (Forked cfg.registry.owns) (do
      let e ← analyze cfg operand (operandAccess op access)
      let p ← foldUnary cfg e op.fold
      return .ofParts (.unary tag' op p.1) p.2) := by
    refine h.bind fun e b he => (clears_foldUnary he op.fold).bind ?_
    rintro ⟨operand', value⟩ _ ⟨⟨hoperand, hvalue⟩, rfl⟩
    refine .pure (forked_ofParts ?_ fun hsome => ?_)
    · simp [Expr.forks, hown, hoperand]
    · simpa using hvalue hsome
  unfold ClearsExpr
  rw [analyze]
  refine clears_byRule fun (hown : cfg.registry.owns .unary = true) _ => ?_
  dsimp only
  split
  · exact (clears_report _ _).before fun _ _ => hfold _ hown
  · exact hfold _ hown

theorem clears_conditional (hcondition : ClearsExpr cfg condition .read)
    (htrue : ClearsExpr cfg ifTrue (branchAccess access)) (hfalse : ClearsExpr cfg ifFalse (branchAccess access)) :
    ClearsExpr cfg (.conditional tag condition ifTrue ifFalse) access := by
  unfold ClearsExpr
  rw [analyze]
  refine clears_byRule fun (hown : cfg.registry.owns .conditional = true) _ => hcondition.bind fun c b hc => ?_
  split
  · rename_i hdecided
    rw [hc.2 (hasValue_of_decided hdecided)]
    exact htrue.mono fun _ _ h => by rwa [Bool.false_or]
  · rename_i hdecided
    rw [hc.2 (hasValue_of_decided hdecided)]
    exact hfalse.mono fun _ _ h => by rwa [Bool.false_or]
  · refine (clears_keep hc).bind fun condition' _ _ => ?_
    refine (clears_branches hown (.conditional _ condition') fun _ _ => by rw [Expr.forks]).mono ?_
    rintro ev _ ⟨hev, rfl⟩
    simpa only [Bool.or_true] using hev

theorem clears_shortcut (hcondition : ClearsExpr cfg condition .read)
    (hfalse : ClearsExpr cfg ifFalse (branchAccess access)) :
    ClearsExpr cfg (.shortcut tag condition ifFalse) access := by
  unfold ClearsExpr
  rw [analyze]
  refine clears_byRule fun (hown : cfg.registry.owns .conditional = true) _ => hcondition.bind fun c b hc => ?_
  split
  · rename_i hdecided
    obtain rfl : b = false := hc.2 (hasValue_of_decided hdecided)
    refine (clears_keep_value (hasValue_of_decided hdecided)).bind ?_
    rintro _ _ ⟨⟨tag', v, rfl⟩, rfl⟩
    exact .pure ⟨rfl, fun _ => rfl⟩
  · rename_i hdecided
    rw [hc.2 (hasValue_of_decided hdecided)]
    exact hfalse.mono fun _ _ h => by rwa [Bool.false_or]
  · refine (clears_keep hc).bind fun condition' _ _ => ?_
    refine (revives_inConditional _).clears.bind ?_
    rintro ifFalse' _ rfl
    refine .pure (forked_residual ?_)
    simp [Expr.forks, hown]

theorem clears_call {args : List Expr}
    (h : Clears (fun args b => Expr.forksIn cfg.registry.owns args = b)
      (analyzeArgs cfg (State.function? cfg name) 0 args)) :
    ClearsExpr cfg (.call tag name args) access := by
  have hcall (tag' : ExprTag) (hown : cfg.registry.owns .call = true) : Clears (Forked cfg.registry.owns) (do
      return .residual (.call tag' name (← analyzeArgs cfg (State.function? cfg name) 0 args))) := by
    refine h.bind fun args' b hargs => .pure (forked_residual ?_)
    simp [Expr.forks, hown, hargs]
  unfold ClearsExpr
  rw [analyze]
  refine clears_byRule fun (hown : cfg.registry.owns .call = true) _ => ?_
  dsimp only
  split
  · exact (clears_report _ _).before fun _ _ => hcall _ hown
  · exact hcall _ hown

end

/-! ## Expressions -/

variable (cfg)

mutual

/-- **An expression clears the flags for dead code exactly if a conditional is left of it.** -/
theorem clears_analyze : ∀ (e : Expr) (access : Access), Clears (Forked cfg.registry.owns) (analyze cfg e access)
  | .literal tag v, access => by
    rw [analyze]
    exact clears_byRule fun _ _ => .pure ⟨rfl, fun _ => rfl⟩
  | .var tag name, access => by
    rw [analyze]
    exact clears_byRule fun _ _ => .pure ⟨rfl, nofun⟩
  | .constant .., _ => clears_constant
  | .array tag elements, access => by
    rw [analyze]
    refine clears_byRule fun (hown : cfg.registry.owns .array = true) home =>
      (clears_analyzeElements elements home).bind fun es b hes => .pure (forked_residual ?_)
    simp [Expr.forks, hown, hes]
  | .concat tag operands, access => by
    rw [analyze]
    refine clears_byRule fun (hown : cfg.registry.owns .concat = true) _ =>
      (clears_analyzeOperands operands).bind fun evs b hevs => ?_
    refine (clears_joinOperands hown _ hevs).mono ?_
    rintro ev _ ⟨hev, rfl⟩
    rwa [Bool.or_false]
  | .binary _ _ left right, _ => clears_binary (clears_analyze left _) (clears_analyze right _)
  | .unary _ _ operand, _ => clears_unary (clears_analyze operand _)
  | .incDec tag increment post target, access => by
    rw [analyze]
    refine clears_byRule fun (hown : cfg.registry.owns .incDec = true) _ =>
      (clears_analyze target _).kept.bind fun node b hnode => .pure (forked_residual ?_)
    simp [Expr.forks, hown, hnode]
  | .conditional _ condition ifTrue ifFalse, _ =>
    clears_conditional (clears_analyze condition _) (clears_analyze ifTrue _) (clears_analyze ifFalse _)
  | .shortcut _ condition ifFalse, _ => clears_shortcut (clears_analyze condition _) (clears_analyze ifFalse _)
  | .list tag targets value, access => by
    rw [analyze]
    refine clears_byRule fun (hown : cfg.registry.owns .list = true) _ =>
      (clears_analyze value .read).kept.bind fun value' b hvalue =>
        (clears_analyzeTargets targets).bind fun targets' b' htargets => .pure (forked_residual ?_)
    simp [Expr.forks, hown, hvalue, htargets]
  | .item tag container index, access => by
    rw [analyze]
    refine clears_byRule fun (hown : cfg.registry.owns .item = true) _ =>
      (clears_analyze container _).kept.bind fun container' b hcontainer =>
        (clears_analyze index .read).kept.bind fun index' b' hindex => .pure (forked_residual ?_)
    simp [Expr.forks, hown, hcontainer, hindex]
  | .append tag container, access => by
    rw [analyze]
    refine clears_byRule fun (hown : cfg.registry.owns .item = true) _ =>
      (clears_analyze container _).kept.bind fun container' b hcontainer => .pure (forked_residual ?_)
    simp [Expr.forks, hown, hcontainer]
  | .assign tag target value, access => by
    rw [analyze]
    refine clears_byRule fun (hown : cfg.registry.owns .assign = true) _ =>
      (clears_analyze target .write).kept.bind fun target' b htarget =>
        (clears_analyze value .read).kept.bind fun value' b' hvalue => .pure (forked_residual ?_)
    simp [Expr.forks, hown, htarget, hvalue]
  | .call _ _ args, _ => clears_call (clears_analyzeArgs _ 0 args)
termination_by structural e => e

theorem clears_analyzeOperands : ∀ es : List Expr, Clears (ForkedAll cfg.registry.owns) (analyzeOperands cfg es)
  | [] => .pure rfl
  | e :: rest => by
    have he := clears_analyze e .read
    have hnested := clears_nested e
    have hrest := clears_analyzeOperands rest
    by_cases hconcat : ∃ tag operands, e = .concat tag operands
    · obtain ⟨tag, operands, heq⟩ := hconcat
      rw [heq, analyzeOperands]
      refine (hnested tag operands heq).bind fun evs b hevs => hrest.bind fun evs' b' hevs' => .pure ?_
      rw [Bool.or_false]
      exact hevs.append hevs'
    · rw [analyzeOperands_cons fun tag operands heq => hconcat ⟨tag, operands, heq⟩]
      refine he.bind fun ev b hev => hrest.bind fun evs b' hevs => .pure ?_
      rw [Bool.or_false]
      exact hevs.cons hev
termination_by structural es => es

theorem clears_nested : ∀ (e : Expr) (tag : ExprTag) (operands : List Expr), e = .concat tag operands →
    Clears (ForkedAll cfg.registry.owns) (analyzeOperands cfg operands)
  | .concat _ operands, _, _, h => (Expr.concat.inj h).2 ▸ clears_analyzeOperands operands
  | .literal .., _, _, h | .array .., _, _, h | .binary .., _, _, h | .unary .., _, _, h
  | .incDec .., _, _, h | .conditional .., _, _, h | .shortcut .., _, _, h | .list .., _, _, h
  | .var .., _, _, h | .item .., _, _, h | .append .., _, _, h | .assign .., _, _, h
  | .call .., _, _, h | .constant .., _, _, h => nomatch h
termination_by structural e => e

theorem clears_analyzeArgs (signature : Option Signature) : ∀ (position : Nat) (es : List Expr),
    Clears (fun args b => Expr.forksIn cfg.registry.owns args = b) (analyzeArgs cfg signature position es)
  | _, [] => .pure rfl
  | position, arg :: rest => by
    rw [analyzeArgs]
    refine (clears_analyze arg _).kept.bind fun node b hnode =>
      (clears_analyzeArgs signature (position + 1) rest).bind fun nodes b' hnodes => .pure ?_
    rw [Expr.forksIn, hnode, hnodes, Bool.or_false]
termination_by structural _ es => es

theorem clears_analyzeElements : ∀ (es : List ArrayElement) (home : Home ExprKind),
    Clears (fun es b => Expr.forksInElements cfg.registry.owns es = b) (analyzeElements cfg es home)
  | [], _ => .pure rfl
  | .plain span value :: rest, home => by
    rw [analyzeElements]
    refine (clears_analyze value .read).kept.bind fun value' b hvalue => (clears_countKey home none).before fun _ _ =>
      (clears_analyzeElements rest home).bind fun rest' b' hrest => .pure ?_
    simp [Expr.forksInElements, hvalue, hrest]
  | .keyed span key value :: rest, home => by
    rw [analyzeElements]
    refine (clears_analyze key .read).kept.bind fun key' b hkey => (clears_analyze value .read).kept.bind
      fun value' b' hvalue => (clears_countKey home (some key')).before fun _ _ =>
        (clears_analyzeElements rest home).bind fun rest' b'' hrest => .pure ?_
    simp [Expr.forksInElements, hkey, hvalue, hrest, Bool.or_assoc]
termination_by structural es => es

theorem clears_analyzeTargets : ∀ ts : List ListTarget,
    Clears (fun ts b => Expr.forksInTargets cfg.registry.owns ts = b) (analyzeTargets cfg ts)
  | [] => .pure rfl
  | .skip :: rest => by
    rw [analyzeTargets]
    refine (clears_analyzeTargets rest).bind fun rest' b hrest => .pure ?_
    simp [Expr.forksInTargets, hrest]
  | .leaf target :: rest => by
    rw [analyzeTargets]
    refine (clears_analyze target .write).kept.bind fun target' b htarget =>
      (clears_analyzeTargets rest).bind fun rest' b' hrest => .pure ?_
    simp [Expr.forksInTargets, htarget, hrest]
  | .nested targets :: rest => by
    rw [analyzeTargets]
    refine (clears_analyzeTargets targets).bind fun targets' b htargets =>
      (clears_analyzeTargets rest).bind fun rest' b' hrest => .pure ?_
    simp [Expr.forksInTargets, htargets, hrest]
termination_by structural ts => ts

end

/-! ## The flags behind an expression -/

/-- The flags are as they were, or they are cleared. -/
def LeftOrCleared (s t : State) : Prop :=
  t.reachability = s.reachability ∨ t.reachability = {}

instance : Frame LeftOrCleared where
  refl _ := Or.inl rfl
  trans _ _ _ hst htu := by
    rcases htu with htu | hcleared
    · exact hst.imp htu.trans htu.trans
    · exact Or.inr hcleared
  alike h := Or.inl (congrArg Flow.reachability h.flow)
  warn _ _ _ _ := Or.inl rfl
  conditional _ := Or.inr rfl

/-- **An expression clears the flags for dead code if there is a conditional in its node, and leaves them alone
otherwise.**  If its analysis fails, they are cleared or left alone. -/
theorem reachability_analyze (e : Expr) (access : Access) (s : State) :
    match analyze cfg e access s with
    | (.ok ev, t) => t.reachability = if ev.node.forks cfg.registry.owns then {} else s.reachability
    | (.error _, t) => t.reachability = s.reachability ∨ t.reachability = {} := by
  rcases hrun : analyze cfg e access s with ⟨_ | ev, t⟩
  · have hframe := (relates_analyze (R := LeftOrCleared) cfg e access).run s
    rw [hrun] at hframe
    exact hframe
  · obtain ⟨forked, ⟨hnode, -⟩, ht⟩ := (clears_analyze cfg e access s).of_ok hrun
    dsimp only
    rw [hnode]
    exact ht

/-! ## An echo in dead code -/

/-- `$c`. -/
def plainCondition : Expr := .var ⟨0, {}, .none⟩ "c"

/-- `$c ? 1 : $d`. -/
def forkedCondition : Expr :=
  .conditional ⟨1, {}, .none⟩ plainCondition (.literal ⟨2, {}, .none⟩ (.int 1)) (.var ⟨3, {}, .none⟩ "d")

/-- Analyses a `return`, a condition, and an `echo` that is behind it. -/
def analyzeDeadEcho (condition : Expr) : Analyze (List Stmt) := do
  let _ ← analyzeStmt {} (.jump ⟨4, {}⟩ .return none)
  let _ ← analyze {} condition .read
  analyzeStmts {} [.echo ⟨5, {}⟩ [.literal ⟨6, {}, .none⟩ (.int 1)]]

/-- **The conditional changes the flags, and what is dead behind `$c` is kept behind `$c ? 1 : $d`.** -/
theorem echo_kept_behind_conditional :
    let start : State := { nextId := 7 }
    let dead := (analyzeStmt {} (.jump ⟨4, {}⟩ .return none) start).2
    let left (condition : Expr) := (analyzeDeadEcho condition start).1.toOption.map (List.map Stmt.kind)
    (analyze {} plainCondition .read dead).2.reachability = dead.reachability ∧
      (analyze {} forkedCondition .read dead).2.reachability ≠ dead.reachability ∧
      left plainCondition = some [.empty] ∧ left forkedCondition = some [.echo] := by
  decide +kernel

end Analysis
end PhpLowering
