import PhpLowering.Proofs.Analysis.Evaluations
import PhpLowering.Proofs.Analysis.Frame

/-!
# How an expression is analysed

With the standard registry an expression is handed to the rule made for its kind, which analyses its parts and
builds the node anew.  `Becomes` has a constructor for each of these rules, with what has become of the parts, and
`keeps_becomes` says that the analysis succeeds and that there is no other way.  What is to be shown about what is
found for an expression is then shown by induction on `Becomes`, without opening `analyze` again.

Between the parts a rule only takes steps that number nodes.  `Answers` says of such a step that it can give an
answer, and whatever holds of all its answers holds of that one (`Keeps.of_answers`, `Finds.of_answers`).
-/

namespace PhpLowering
namespace Analysis

open Pass (Ends)

variable {α β : Type} {cfg : Setting} {declared : List (String × Literal)} {x : Analyze α} {Q : α → Prop} {a : α}

/-! ## Answers -/

/-- A step can give this answer, with these constants declared. -/
def Answers (declared : List (String × Literal)) (x : Analyze α) (a : α) : Prop :=
  ∃ s t, Knows declared s ∧ x s = (.ok a, t)

theorem Keeps.of_answers (h : Keeps declared x Q) (ha : Answers declared x a) : Q a := by
  obtain ⟨s, t, hs, hrun⟩ := ha
  exact ((h s hs).of_ok hrun).2

theorem Finds.of_answers (h : Finds x Q) (ha : Answers declared x a) : Q a := by
  obtain ⟨s, t, hs, hrun⟩ := ha
  exact ((h s hs.table).of_ok hrun).2

/-- A step that only numbers nodes. -/
theorem keeps_transform {f : State → α × State} (hf : ∀ s, Knows declared s → Knows declared (f s).2) :
    Keeps declared (Pass.transform f) (Answers declared (Pass.transform f)) :=
  fun s hs => .transform ⟨hf s hs, s, _, hs, rfl⟩

theorem answers_keep (ev : Evaluation) : Keeps declared (keep ev) (Answers declared (keep ev)) :=
  keeps_transform fun _ hs => ⟨hs.table, hs.constants⟩

theorem answers_foldUnary (ev : Evaluation) (fold : Literal → Option Literal) :
    Keeps declared (foldUnary cfg ev fold) (Answers declared (foldUnary cfg ev fold)) :=
  keeps_transform fun _ hs => ⟨hs.table, hs.constants⟩

theorem answers_foldBinary (l r : Evaluation) (fold : Literal → Literal → Literal) :
    Keeps declared (foldBinary cfg l r fold) (Answers declared (foldBinary cfg l r fold)) :=
  keeps_transform fun _ hs => ⟨hs.table, hs.constants⟩

theorem answers_joinOperands (tag : ExprTag) (evs : List Evaluation) :
    Keeps declared (joinOperands cfg tag evs) (Answers declared (joinOperands cfg tag evs)) := by
  have hrebuild (runs : List Concat.Run) :
      Keeps declared (joinOperands.rebuild tag runs) (Answers declared (joinOperands.rebuild tag runs)) :=
    keeps_transform fun _ hs => ⟨hs.table, hs.constants⟩
  unfold joinOperands
  dsimp only
  split
  · split
    · exact keeps_transform fun _ hs => ⟨hs.table, hs.constants⟩
    · exact hrebuild _
  · exact hrebuild _

theorem Answers.of_transform {f : State → α × State} (h : Answers declared (Pass.transform f) a) :
    ∃ s, a = (f s).1 := by
  obtain ⟨s, t, -, hrun⟩ := h
  exact ⟨s, (Except.ok.inj (Prod.mk.inj hrun).1).symm⟩

/-! ## The node of an evaluation -/

section

variable {ev l r : Evaluation} {node left right : Expr} {value : Option Literal}

/-- A node stands for an evaluation if it is the one that was found, or a literal. -/
def StandsFor (ev : Evaluation) (node : Expr) : Prop :=
  node = ev.node ∨ ∃ tag v, node = .literal tag v

theorem StandsFor.elim {P : Expr → Prop} (h : StandsFor ev node) (hfound : P ev.node)
    (hliteral : ∀ tag v, P (.literal tag v)) : P node := by
  rcases h with rfl | ⟨tag, v, rfl⟩
  · exact hfound
  · exact hliteral tag v

theorem standsFor_literalize (ev : Evaluation) (nextId : Nat) : StandsFor ev (ev.literalize nextId).1 := by
  cases ev with
  | residual node => exact Or.inl rfl
  | value v node =>
    cases node with
    | literal tag w => exact Or.inl rfl
    | _ => exact Or.inr ⟨_, v, rfl⟩

theorem standsFor_evaluate (ev : Evaluation) (fold : Literal → Option Literal) (nextId : Nat) :
    StandsFor ev (ev.evaluate fold nextId).1.1 := by
  rw [evaluate_eq]
  dsimp only
  split
  · exact Or.inl rfl
  · exact standsFor_literalize ev nextId

theorem standsFor_evaluatePair (l r : Evaluation) (fold : Literal → Literal → Option Literal) (nextId : Nat) :
    StandsFor l (l.evaluatePair r fold nextId).1.1 ∧ StandsFor r (l.evaluatePair r fold nextId).1.2.1 := by
  rw [evaluatePair_eq]
  split
  · exact ⟨Or.inl rfl, Or.inl rfl⟩
  · exact ⟨standsFor_literalize l nextId, standsFor_literalize r _⟩

theorem Answers.of_keep (h : Answers declared (keep ev) node) : StandsFor ev node := by
  obtain ⟨s, rfl⟩ := h.of_transform
  exact standsFor_literalize ev s.nextId

/-- Without a value there is nothing to put in the place of a node. -/
theorem Answers.of_keep_residual {residual : Expr} (h : Answers declared (keep (.residual residual)) node) :
    node = residual := by
  obtain ⟨s, rfl⟩ := h.of_transform
  rfl

theorem Answers.of_foldUnary {fold : Literal → Option Literal}
    (h : Answers declared (foldUnary cfg ev fold) (node, value)) : StandsFor ev node := by
  obtain ⟨s, hanswer⟩ := h.of_transform
  obtain rfl : node = _ := congrArg Prod.fst hanswer
  exact standsFor_evaluate ev _ s.nextId

theorem Answers.of_foldBinary {fold : Literal → Literal → Literal}
    (h : Answers declared (foldBinary cfg l r fold) (left, right, value)) :
    StandsFor l left ∧ StandsFor r right := by
  obtain ⟨s, hanswer⟩ := h.of_transform
  obtain rfl : left = _ := congrArg Prod.fst hanswer
  obtain rfl : right = _ := congrArg (·.2.1) hanswer
  exact standsFor_evaluatePair l r _ s.nextId

end

@[simp] theorem node_ofParts (node : Expr) (value : Option Literal) :
    (Evaluation.ofParts node value).node = node := by
  cases value <;> rfl

/-! ## The rules -/

variable (cfg declared) in
mutual

/-- What the rules make of an expression that is analysed for an access. -/
inductive Becomes : Expr → Access → Evaluation → Prop where
  | literal {tag v access} : Becomes (.literal tag v) access (.value v (.literal { tag with access } v))
  | var {tag name access} : Becomes (.var tag name) access (.residual (.var { tag with access } name))
  | constant {tag name access} : Becomes (.constant tag name) access
      (.ofParts (.constant { tag with access } name)
        (if cfg.options.foldConstants then known cfg declared name else none))
  | array {tag elements access elements'} (helements : BecomesElements elements elements') :
    Becomes (.array tag elements) access (.residual (.array { tag with access } elements'))
  | concat {tag operands access evs ev} (hoperands : BecomesOperands operands evs)
    (hjoin : Answers declared (joinOperands cfg { tag with access } evs) ev) :
    Becomes (.concat tag operands) access ev
  | binary {tag op left right access l r left' right' value} (hleft : Becomes left .read l)
    (hright : Becomes right .read r)
    (hfold : Answers declared (foldBinary cfg l r op.fold) (left', right', value)) :
    Becomes (.binary tag op left right) access (.ofParts (.binary { tag with access } op left' right') value)
  | unary {tag op operand access ev operand' value} (hoperand : Becomes operand (operandAccess op access) ev)
    (hfold : Answers declared (foldUnary cfg ev op.fold) (operand', value)) :
    Becomes (.unary tag op operand) access (.ofParts (.unary { tag with access } op operand') value)
  | incDec {tag increment post target access target'} (htarget : BecomesNode target .readAndWrite target') :
    Becomes (.incDec tag increment post target) access
      (.residual (.incDec { tag with access } increment post target'))
  /-- A condition that is known selects a branch. -/
  | ifTrue {tag condition ifTrue ifFalse access c ev} (hcondition : Becomes condition .read c)
    (hdecided : decided? cfg c = some true) (htrue : Becomes ifTrue (branchAccess access) ev) :
    Becomes (.conditional tag condition ifTrue ifFalse) access ev
  | ifFalse {tag condition ifTrue ifFalse access c ev} (hcondition : Becomes condition .read c)
    (hdecided : decided? cfg c = some false) (hfalse : Becomes ifFalse (branchAccess access) ev) :
    Becomes (.conditional tag condition ifTrue ifFalse) access ev
  | conditional {tag condition ifTrue ifFalse access c condition' ifTrue' ifFalse'}
    (hcondition : Becomes condition .read c) (hdecided : decided? cfg c = none)
    (hkeep : Answers declared (keep c) condition') (htrue : BecomesNode ifTrue (branchAccess access) ifTrue')
    (hfalse : BecomesNode ifFalse (branchAccess access) ifFalse') :
    Becomes (.conditional tag condition ifTrue ifFalse) access
      (.residual (.conditional { tag with access } condition' ifTrue' ifFalse'))
  /-- A condition that is known to hold stands for the whole. -/
  | holds {tag condition ifFalse access c node} (hcondition : Becomes condition .read c)
    (hdecided : decided? cfg c = some true) (hkeep : Answers declared (keep c) node) :
    Becomes (.shortcut tag condition ifFalse) access
      (.ofParts (node.withAccess access) (node.withAccess access).value?)
  | otherwise {tag condition ifFalse access c ev} (hcondition : Becomes condition .read c)
    (hdecided : decided? cfg c = some false) (hfalse : Becomes ifFalse (branchAccess access) ev) :
    Becomes (.shortcut tag condition ifFalse) access ev
  | shortcut {tag condition ifFalse access c condition' ifFalse'} (hcondition : Becomes condition .read c)
    (hdecided : decided? cfg c = none) (hkeep : Answers declared (keep c) condition')
    (hfalse : BecomesNode ifFalse (branchAccess access) ifFalse') :
    Becomes (.shortcut tag condition ifFalse) access (.residual (.shortcut { tag with access } condition' ifFalse'))
  | list {tag targets value access targets' value'} (hvalue : BecomesNode value .read value')
    (htargets : BecomesTargets targets targets') :
    Becomes (.list tag targets value) access (.residual (.list { tag with access } targets' value'))
  | item {tag container index access container' index'}
    (hcontainer : BecomesNode container (containerAccess access container) container')
    (hindex : BecomesNode index .read index') :
    Becomes (.item tag container index) access (.residual (.item { tag with access } container' index'))
  | append {tag container access container'}
    (hcontainer : BecomesNode container (containerAccess access container) container') :
    Becomes (.append tag container) access (.residual (.append { tag with access } container'))
  | assign {tag target value access target' value'} (htarget : BecomesNode target .write target')
    (hvalue : BecomesNode value .read value') :
    Becomes (.assign tag target value) access (.residual (.assign { tag with access } target' value'))
  | call {tag name args access args'} (hargs : BecomesArgs (State.function? cfg name) 0 args args') :
    Becomes (.call tag name args) access (.residual (.call { tag with access } name args'))

/-- What is kept of an expression. -/
inductive BecomesNode : Expr → Access → Expr → Prop where
  | mk {e access ev node} (h : Becomes e access ev) (hkeep : Answers declared (keep ev) node) :
    BecomesNode e access node

/-- What the operands of a concatenation become; those of a nested one stand in its place. -/
inductive BecomesOperands : List Expr → List Evaluation → Prop where
  | nil : BecomesOperands [] []
  | nested {tag operands rest evs evs'} (hoperands : BecomesOperands operands evs)
    (hrest : BecomesOperands rest evs') : BecomesOperands (.concat tag operands :: rest) (evs ++ evs')
  | cons {e rest ev evs} (hflat : ∀ tag operands, e ≠ .concat tag operands) (he : Becomes e .read ev)
    (hrest : BecomesOperands rest evs) : BecomesOperands (e :: rest) (ev :: evs)

/-- What the arguments of a call become, the first of which has a position. -/
inductive BecomesArgs : Option Signature → Nat → List Expr → List Expr → Prop where
  | nil {signature position} : BecomesArgs signature position [] []
  | cons {signature position arg rest arg' rest'}
    (harg : BecomesNode arg (argumentAccess signature position arg) arg')
    (hrest : BecomesArgs signature (position + 1) rest rest') :
    BecomesArgs signature position (arg :: rest) (arg' :: rest')

/-- What the elements of an array literal become. -/
inductive BecomesElements : List ArrayElement → List ArrayElement → Prop where
  | nil : BecomesElements [] []
  | plain {span value rest value' rest'} (hvalue : BecomesNode value .read value')
    (hrest : BecomesElements rest rest') : BecomesElements (.plain span value :: rest) (.plain span value' :: rest')
  | keyed {span key value rest key' value' rest'} (hkey : BecomesNode key .read key')
    (hvalue : BecomesNode value .read value') (hrest : BecomesElements rest rest') :
    BecomesElements (.keyed span key value :: rest) (.keyed span key' value' :: rest')

/-- What the targets of a destructuring become. -/
inductive BecomesTargets : List ListTarget → List ListTarget → Prop where
  | nil : BecomesTargets [] []
  | skip {rest rest'} (hrest : BecomesTargets rest rest') : BecomesTargets (.skip :: rest) (.skip :: rest')
  | leaf {target rest target' rest'} (htarget : BecomesNode target .write target')
    (hrest : BecomesTargets rest rest') : BecomesTargets (.leaf target :: rest) (.leaf target' :: rest')
  | nested {targets rest targets' rest'} (htargets : BecomesTargets targets targets')
    (hrest : BecomesTargets rest rest') : BecomesTargets (.nested targets :: rest) (.nested targets' :: rest')

end

theorem Keeps.becomesNode {x : Analyze Evaluation} {e : Expr} {access : Access}
    (h : Keeps declared x (Becomes cfg declared e access)) :
    Keeps declared (Analysis.kept x) (BecomesNode cfg declared e access) :=
  h.bind fun ev hev => (answers_keep ev).mono fun _ hkeep => .mk hev hkeep

theorem keeps_constant? (cfg : Setting) (name : String) :
    Keeps declared (Pass.peek (State.constant? cfg name)) fun value => value = known cfg declared name := by
  intro s hs
  refine .peek ⟨hs, ?_⟩
  rw [← hs.constants]
  rfl

/-! ## The rules, one by one -/

section

variable (cfg declared) in
/-- The analysis of an expression succeeds, and what is found is what its rule makes of it. -/
def KeepsExpr (e : Expr) (access : Access) : Prop :=
  Keeps declared (analyze cfg e access) (Becomes cfg declared e access)

variable {condition ifTrue ifFalse operand : Expr} {tag : ExprTag} {access : Access} {name : String}

theorem keeps_constant (hcfg : cfg.registry = .standard) : KeepsExpr cfg declared (.constant tag name) access := by
  unfold KeepsExpr
  rw [analyze]
  have hrule : Becomes cfg declared (.constant tag name) access _ := .constant
  refine .byRule hcfg fun _ => ?_
  split
  · rename_i hfold
    refine (keeps_constant? cfg name).bind ?_
    rintro value rfl
    rw [if_pos hfold] at hrule
    exact .pure hrule
  · rename_i hfold
    rw [if_neg hfold] at hrule
    exact .pure hrule

theorem keeps_unary (hcfg : cfg.registry = .standard) {op : UnaryOp}
    (h : KeepsExpr cfg declared operand (operandAccess op access)) :
    KeepsExpr cfg declared (.unary tag op operand) access := by
  have hrest : Keeps declared (do
      let e ← analyze cfg operand (operandAccess op access)
      let p ← foldUnary cfg e op.fold
      return .ofParts (.unary { tag with access } op p.1) p.2)
      (Becomes cfg declared (.unary tag op operand) access) :=
    h.bind fun ev hoperand => (answers_foldUnary ev op.fold).bind fun _ hfold => .pure (.unary hoperand hfold)
  unfold KeepsExpr
  rw [analyze]
  refine .byRule hcfg fun _ => ?_
  dsimp only
  split
  · exact (Keeps.report _ _).andThen fun _ => hrest
  · exact hrest

theorem keeps_conditional (hcfg : cfg.registry = .standard) (hcondition : KeepsExpr cfg declared condition .read)
    (htrue : KeepsExpr cfg declared ifTrue (branchAccess access))
    (hfalse : KeepsExpr cfg declared ifFalse (branchAccess access)) :
    KeepsExpr cfg declared (.conditional tag condition ifTrue ifFalse) access := by
  unfold KeepsExpr
  rw [analyze]
  refine .byRule hcfg fun _ => hcondition.bind fun c hcondition => ?_
  split
  · rename_i hdecided
    exact htrue.mono fun _ h => .ifTrue hcondition hdecided h
  · rename_i hdecided
    exact hfalse.mono fun _ h => .ifFalse hcondition hdecided h
  · rename_i hdecided
    refine (answers_keep c).bind fun condition' hkeep => ?_
    refine htrue.becomesNode.inConditional.attempt.bind ?_
    rintro _ ⟨ifTrue', rfl, ht⟩
    refine hfalse.becomesNode.inConditional.attempt.bind ?_
    rintro _ ⟨ifFalse', rfl, hf⟩
    exact .pure (.conditional hcondition hdecided hkeep ht hf)

theorem keeps_shortcut (hcfg : cfg.registry = .standard) (hcondition : KeepsExpr cfg declared condition .read)
    (hfalse : KeepsExpr cfg declared ifFalse (branchAccess access)) :
    KeepsExpr cfg declared (.shortcut tag condition ifFalse) access := by
  unfold KeepsExpr
  rw [analyze]
  refine .byRule hcfg fun _ => hcondition.bind fun c hcondition => ?_
  split
  · rename_i hdecided
    exact (answers_keep c).bind fun _ hkeep => .pure (.holds hcondition hdecided hkeep)
  · rename_i hdecided
    exact hfalse.mono fun _ h => .otherwise hcondition hdecided h
  · rename_i hdecided
    refine (answers_keep c).bind fun condition' hkeep => ?_
    exact hfalse.becomesNode.inConditional.bind fun _ hf => .pure (.shortcut hcondition hdecided hkeep hf)

theorem keeps_call (hcfg : cfg.registry = .standard) {args : List Expr}
    (h : Keeps declared (analyzeArgs cfg (State.function? cfg name) 0 args)
      (BecomesArgs cfg declared (State.function? cfg name) 0 args)) :
    KeepsExpr cfg declared (.call tag name args) access := by
  have hrest : Keeps declared (do
      return .residual (.call { tag with access } name (← analyzeArgs cfg (State.function? cfg name) 0 args)))
      (Becomes cfg declared (.call tag name args) access) :=
    h.bind fun _ hargs => .pure (.call hargs)
  unfold KeepsExpr
  rw [analyze]
  refine .byRule hcfg fun _ => ?_
  dsimp only
  split
  · exact (Keeps.report _ _).andThen fun _ => hrest
  · exact hrest

end

/-! ## The induction -/

/-- If an operand is a concatenation itself, its operands are evaluated as those of the one around. -/
def NestedBecomes (cfg : Setting) (declared : List (String × Literal)) : Expr → Prop
  | .concat _ operands => Keeps declared (analyzeOperands cfg operands) (BecomesOperands cfg declared operands)
  | _ => True

mutual

/-- **The analysis of an expression succeeds, and what is found is what its rule makes of it.** -/
theorem keeps_becomes (hcfg : cfg.registry = .standard) : ∀ (e : Expr) (access : Access),
    Keeps declared (analyze cfg e access) (Becomes cfg declared e access)
  | .literal tag v, access => by
    rw [analyze]
    exact .byRule hcfg fun _ => .pure .literal
  | .var tag name, access => by
    rw [analyze]
    exact .byRule hcfg fun _ => .pure .var
  | .constant .., _ => keeps_constant hcfg
  | .array tag elements, access => by
    rw [analyze]
    exact .byRule hcfg fun home => (keeps_becomesElements hcfg elements home).bind fun _ h => .pure (.array h)
  | .concat tag operands, access => by
    rw [analyze]
    refine .byRule hcfg fun _ => (keeps_becomesOperands hcfg operands).bind fun evs hoperands => ?_
    exact (answers_joinOperands _ evs).mono fun _ hjoin => .concat hoperands hjoin
  | .binary tag op left right, access => by
    rw [analyze]
    refine .byRule hcfg fun _ => (keeps_becomes hcfg left .read).bind fun l hleft => ?_
    refine (keeps_becomes hcfg right .read).bind fun r hright => ?_
    exact (answers_foldBinary l r op.fold).bind fun _ hfold => .pure (.binary hleft hright hfold)
  | .unary _ _ operand, _ => keeps_unary hcfg (keeps_becomes hcfg operand _)
  | .incDec tag increment post target, access => by
    rw [analyze]
    exact .byRule hcfg fun _ => (keeps_becomes hcfg target _).becomesNode.bind fun _ h => .pure (.incDec h)
  | .conditional _ condition ifTrue ifFalse, _ =>
    keeps_conditional hcfg (keeps_becomes hcfg condition _) (keeps_becomes hcfg ifTrue _)
      (keeps_becomes hcfg ifFalse _)
  | .shortcut _ condition ifFalse, _ =>
    keeps_shortcut hcfg (keeps_becomes hcfg condition _) (keeps_becomes hcfg ifFalse _)
  | .list tag targets value, access => by
    rw [analyze]
    refine .byRule hcfg fun _ => (keeps_becomes hcfg value .read).becomesNode.bind fun _ hvalue => ?_
    exact (keeps_becomesTargets hcfg targets).bind fun _ htargets => .pure (.list hvalue htargets)
  | .item tag container index, access => by
    rw [analyze]
    refine .byRule hcfg fun _ => (keeps_becomes hcfg container _).becomesNode.bind fun _ hcontainer => ?_
    exact (keeps_becomes hcfg index .read).becomesNode.bind fun _ hindex => .pure (.item hcontainer hindex)
  | .append tag container, access => by
    rw [analyze]
    exact .byRule hcfg fun _ => (keeps_becomes hcfg container _).becomesNode.bind fun _ h => .pure (.append h)
  | .assign tag target value, access => by
    rw [analyze]
    refine .byRule hcfg fun _ => (keeps_becomes hcfg target .write).becomesNode.bind fun _ htarget => ?_
    exact (keeps_becomes hcfg value .read).becomesNode.bind fun _ hvalue => .pure (.assign htarget hvalue)
  | .call _ _ args, _ => keeps_call hcfg (keeps_becomesArgs hcfg _ 0 args)
termination_by structural e => e

theorem keeps_becomesOperands (hcfg : cfg.registry = .standard) : ∀ es : List Expr,
    Keeps declared (analyzeOperands cfg es) (BecomesOperands cfg declared es)
  | [] => .pure .nil
  | e :: rest => by
    have hrest := keeps_becomesOperands hcfg rest
    have hnested := nestedBecomes hcfg e
    by_cases hconcat : ∃ tag operands, e = .concat tag operands
    · obtain ⟨tag, operands, he⟩ := hconcat
      rw [he] at hnested ⊢
      rw [analyzeOperands]
      exact Keeps.bind hnested fun _ h => hrest.bind fun _ h' => .pure (.nested h h')
    · have hflat := fun tag operands he => hconcat ⟨tag, operands, he⟩
      rw [analyzeOperands_cons hflat]
      exact (keeps_becomes hcfg e .read).bind fun _ h => hrest.bind fun _ h' => .pure (.cons hflat h h')
termination_by structural es => es

theorem nestedBecomes (hcfg : cfg.registry = .standard) : ∀ e : Expr, NestedBecomes cfg declared e
  | .concat _ operands => keeps_becomesOperands hcfg operands
  | .literal .. | .array .. | .binary .. | .unary .. | .incDec .. | .conditional .. | .shortcut ..
  | .list .. | .var .. | .item .. | .append .. | .assign .. | .call .. | .constant .. => trivial
termination_by structural e => e

theorem keeps_becomesArgs (hcfg : cfg.registry = .standard) (signature : Option Signature) :
    ∀ (position : Nat) (es : List Expr),
      Keeps declared (analyzeArgs cfg signature position es) (BecomesArgs cfg declared signature position es)
  | _, [] => .pure .nil
  | position, arg :: rest => by
    rw [analyzeArgs]
    refine (keeps_becomes hcfg arg _).becomesNode.bind fun _ harg => ?_
    exact (keeps_becomesArgs hcfg signature (position + 1) rest).bind fun _ hrest => .pure (.cons harg hrest)
termination_by structural _ es => es

theorem keeps_becomesElements (hcfg : cfg.registry = .standard) : ∀ (es : List ArrayElement) (home : Home ExprKind),
    Keeps declared (analyzeElements cfg es home) (BecomesElements cfg declared es)
  | [], _ => .pure .nil
  | .plain _ value :: rest, home => by
    rw [analyzeElements]
    refine (keeps_becomes hcfg value .read).becomesNode.bind fun _ hvalue => ?_
    refine (keeps_countKey home none).andThen fun _ => ?_
    exact (keeps_becomesElements hcfg rest home).bind fun _ hrest => .pure (.plain hvalue hrest)
  | .keyed _ key value :: rest, home => by
    rw [analyzeElements]
    refine (keeps_becomes hcfg key .read).becomesNode.bind fun key' hkey => ?_
    refine (keeps_becomes hcfg value .read).becomesNode.bind fun _ hvalue => ?_
    refine (keeps_countKey home (some key')).andThen fun _ => ?_
    exact (keeps_becomesElements hcfg rest home).bind fun _ hrest => .pure (.keyed hkey hvalue hrest)
termination_by structural es => es

theorem keeps_becomesTargets (hcfg : cfg.registry = .standard) : ∀ ts : List ListTarget,
    Keeps declared (analyzeTargets cfg ts) (BecomesTargets cfg declared ts)
  | [] => .pure .nil
  | .skip :: rest => by
    rw [analyzeTargets]
    exact (keeps_becomesTargets hcfg rest).bind fun _ hrest => .pure (.skip hrest)
  | .leaf target :: rest => by
    rw [analyzeTargets]
    refine (keeps_becomes hcfg target .write).becomesNode.bind fun _ htarget => ?_
    exact (keeps_becomesTargets hcfg rest).bind fun _ hrest => .pure (.leaf htarget hrest)
  | .nested targets :: rest => by
    rw [analyzeTargets]
    refine (keeps_becomesTargets hcfg targets).bind fun _ htargets => ?_
    exact (keeps_becomesTargets hcfg rest).bind fun _ hrest => .pure (.nested htargets hrest)
termination_by structural ts => ts

end

/-- What is kept of an expression, from the state in which it is analysed. -/
theorem becomesNode_of_kept {s t : State} {e node : Expr} {access : Access} (hcfg : cfg.registry = .standard)
    (hs : s.table.Regular) (hrun : Analysis.kept (analyze cfg e access) s = (.ok node, t)) :
    BecomesNode cfg s.constants e access node :=
  (((keeps_becomes hcfg e access).becomesNode s ⟨hs, rfl⟩).of_ok hrun).2

/-- What is kept of an increment is an increment of what is kept of its target. -/
theorem BecomesNode.incDec {tag : ExprTag} {increment post : Bool} {target node : Expr} {access : Access}
    (h : BecomesNode cfg declared (.incDec tag increment post target) access node) :
    ∃ target', node = .incDec { tag with access } increment post target' ∧
      BecomesNode cfg declared target .readAndWrite target' := by
  obtain ⟨htarget, hkeep⟩ := h
  cases htarget with
  | incDec htarget => exact ⟨_, hkeep.of_keep_residual, htarget⟩

/-! ## Steps that leave the labels alone -/

/-- Nothing happens to labels, routines and loops, whatever happens to the rules. -/
instance frame_calm : Frame fun s t => Calm s { t with table := s.table } where
  refl s := .refl s
  trans _ _ _ hst htu := hst.trans { htu with table := id }
  alike h := ⟨⟨id, h.scope, h.enclosing, h.labels, h.referenced, fun _ hd => h.diagnostics ▸ hd⟩,
    congrArg Flow.loops h.flow⟩
  warn span s _ _ := calm_report _ span s
  conditional h := { h with table := id }

/-- A step of a frame that keeps the table regular. -/
theorem Keeps.finds (h : ∀ declared, Keeps declared x Q)
    (hx : Relates (fun s t => Calm s { t with table := s.table }) x) : Finds x Q := by
  intro s hs
  have hcalm := hx.run s
  refine .intro (fun a t hrun => ?_) fun f t hrun => (h s.constants s ⟨hs, rfl⟩).of_error hrun
  obtain ⟨ht, ha⟩ := (h s.constants s ⟨hs, rfl⟩).of_ok hrun
  rw [hrun] at hcalm
  exact ⟨{ hcalm with table := fun _ => ht.table }, ha⟩

theorem finds_becomes (hcfg : cfg.registry = .standard) (e : Expr) (access : Access) :
    Finds (analyze cfg e access) fun ev => ∃ declared, Becomes cfg declared e access ev :=
  Keeps.finds (fun declared => (keeps_becomes hcfg e access).mono fun _ h => ⟨declared, h⟩)
    (relates_analyze cfg e access)

end Analysis
end PhpLowering
