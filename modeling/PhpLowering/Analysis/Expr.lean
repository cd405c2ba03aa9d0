import PhpLowering.Analysis.Concat
import PhpLowering.Analysis.Fold
import PhpLowering.Analysis.State
import PhpLowering.Pass

/-!
# Analysis of expressions

An expression is analysed for the access that its parent needs.  The node is handed to the
rule that the registry has for its kind; if that is the rule made for the kind, the node's
parts are analysed in turn and the node is built anew from what they became.  Operators on
known values are computed, and a conditional with a known condition is replaced by the
branch it selects.

The recursion follows the tree.  `byRule` is the only place where the registry decides
anything: a rule for another kind refuses the node, except that the rule for variables,
which has nothing to analyse, lets every node pass.
-/

namespace PhpLowering

/-- A step of the analysis. -/
abbrev Analyze := Pass Fault Analysis.State

namespace Analysis

variable (cfg : Setting)

/-- Asks the rule table. -/
def onTable {α : Type} (x : Pass Fault RuleTable α) : Analyze α := fun s =>
  let (r, table) := x s.table
  (r, { s with table })

/-- Hands a node to its rule; `analyzed` is what the rule made for its kind does. -/
def byRule (node : Expr) (analyzed : Home ExprKind → Analyze Evaluation) : Analyze Evaluation := do
  let handle ← onTable (RuleTable.expr cfg.registry node.kind node.id)
  if handle.rule = node.kind then analyzed handle.home
  else if handle.rule = .variable then return .residual node
  else Pass.fail (.wrongRule (.expr handle.rule) (.expr node.kind))

/-- The node to keep of an evaluation that is not folded into its parent. -/
def keep (e : Evaluation) : Analyze Expr :=
  Pass.transform fun s =>
    let (node, nextId) := e.literalize s.nextId
    (node, { s with nextId })

/-- Analyses an expression and keeps its node. -/
def kept (x : Analyze Evaluation) : Analyze Expr := do
  keep (← x)

/-- Folds an operator with one operand, if folding is on. -/
def foldUnary (e : Evaluation) (fold : Literal → Option Literal) : Analyze (Expr × Option Literal) :=
  Pass.transform fun s =>
    let (r, nextId) := e.evaluate (if cfg.options.foldConstants then fold else fun _ => none) s.nextId
    (r, { s with nextId })

/-- Folds an operator with two operands, if folding is on. -/
def foldBinary (left right : Evaluation) (fold : Literal → Literal → Literal) :
    Analyze (Expr × Expr × Option Literal) :=
  Pass.transform fun s =>
    let (r, nextId) := left.evaluatePair right
      (fun l r => if cfg.options.foldConstants then some (fold l r) else none) s.nextId
    (r, { s with nextId })

/-- Analyses something that may be skipped. -/
def inConditional {α : Type} (x : Analyze α) : Analyze α := do
  Pass.update State.enterConditional
  x.ensuring State.leaveConditional

/-- The value of a condition that decides a branch ahead of time. -/
def decided? (condition : Evaluation) : Option Bool :=
  if cfg.options.foldConstants then condition.value?.map Literal.toBool else none

/-- The access of the branches of a conditional. -/
def branchAccess (access : Access) : Access :=
  if access = .none then .none else .read

/-- The access of an item's container: only a storage location can be written through. -/
def containerAccess (access : Access) (container : Expr) : Access :=
  if access.ofContainer = .readAndWrite ∧ container.isPlace then .readAndWrite else .read

/-- The access of an argument.  Without a signature a storage location may turn out to be bound by
reference. -/
def argumentAccess (signature : Option Signature) (position : Nat) (arg : Expr) : Access :=
  if arg.isPlace then
    match signature with
    | some s => if s.paramByRef position then .readRef else .read
    | none => .readUnknown
  else .read

/-- The access of a unary operator's operand; the operator `@` passes its own on. -/
def operandAccess (op : UnaryOp) (access : Access) : Access :=
  if op = .silence then access else .read

/-- Counts the key of an array element that has been analysed. -/
def countKey (home : Home ExprKind) (key : Option Expr) : Analyze Unit :=
  let isInteger := match key with
    | none => true
    | some key =>
      match key.value? with
      | some v => v.isIntegerKey
      | none => false
  Pass.update fun s => { s with memory := s.memory.countKey home isInteger }

/-- The evaluation of a concatenation from those of its operands. -/
def joinOperands (tag : ExprTag) (operands : List Evaluation) : Analyze Evaluation :=
  let fold := cfg.options.foldConstants
  match Concat.runs operands fold with
  | [.value v span] =>
    if fold then
      Pass.transform fun s =>
        (.value v (.literal { tag with id := nodeId s.nextId } v), { s with nextId := s.nextId + 1 })
    else rebuild [.value v span]
  | runs => rebuild runs
where
  /-- The concatenation of the operands that are left. -/
  rebuild (runs : List Concat.Run) : Analyze Evaluation :=
    Pass.transform fun s =>
      let (operands, nextId) := Concat.operands runs s.nextId
      (.residual (.concat tag operands), { s with nextId })

mutual

/-- Analyses an expression for an access. -/
def analyze : Expr → Access → Analyze Evaluation
  | .literal tag v, access =>
    let node := .literal { tag with access } v
    byRule cfg node fun _ => return .value v node
  | .var tag name, access =>
    let node := .var { tag with access } name
    byRule cfg node fun _ => return .residual node
  | .constant tag name, access =>
    let node := .constant { tag with access } name
    byRule cfg node fun _ => do
      if cfg.options.foldConstants then
        return .ofParts node (← Pass.peek (State.constant? cfg name))
      else return .residual node
  | .array tag elements, access =>
    let tag := { tag with access }
    byRule cfg (.array tag elements) fun home => do
      return .residual (.array tag (← analyzeElements elements home))
  | .concat tag operands, access =>
    let tag := { tag with access }
    byRule cfg (.concat tag operands) fun _ => do
      joinOperands cfg tag (← analyzeOperands operands)
  | .binary tag op left right, access =>
    let tag := { tag with access }
    byRule cfg (.binary tag op left right) fun _ => do
      let l ← analyze left .read
      let r ← analyze right .read
      let (left, right, value) ← foldBinary cfg l r op.fold
      return .ofParts (.binary tag op left right) value
  | .unary tag op operand, access =>
    let tag := { tag with access }
    byRule cfg (.unary tag op operand) fun _ => do
      if op = .unsetCast then
        Pass.update (State.report (.deprecatedConstruct "(unset) cast") tag.span)
      let e ← analyze operand (operandAccess op access)
      let (operand, value) ← foldUnary cfg e op.fold
      return .ofParts (.unary tag op operand) value
  | .incDec tag increment post target, access =>
    let tag := { tag with access }
    byRule cfg (.incDec tag increment post target) fun _ => do
      return .residual (.incDec tag increment post (← kept (analyze target .readAndWrite)))
  | .conditional tag condition ifTrue ifFalse, access =>
    let tag := { tag with access }
    byRule cfg (.conditional tag condition ifTrue ifFalse) fun _ => do
      let c ← analyze condition .read
      match decided? cfg c with
      | some true => analyze ifTrue (branchAccess access)
      | some false => analyze ifFalse (branchAccess access)
      | none =>
        let condition ← keep c
        let t ← (inConditional (kept (analyze ifTrue (branchAccess access)))).attempt
        let f ← (inConditional (kept (analyze ifFalse (branchAccess access)))).attempt
        let ifTrue ← Pass.ofExcept t
        let ifFalse ← Pass.ofExcept f
        return .residual (.conditional tag condition ifTrue ifFalse)
  | .shortcut tag condition ifFalse, access =>
    let tag := { tag with access }
    byRule cfg (.shortcut tag condition ifFalse) fun _ => do
      let c ← analyze condition .read
      match decided? cfg c with
      | some true =>
        let node := (← keep c).withAccess access
        return .ofParts node node.value?
      | some false => analyze ifFalse (branchAccess access)
      | none =>
        let condition ← keep c
        let ifFalse ← inConditional (kept (analyze ifFalse (branchAccess access)))
        return .residual (.shortcut tag condition ifFalse)
  | .list tag targets value, access =>
    let tag := { tag with access }
    byRule cfg (.list tag targets value) fun _ => do
      let value ← kept (analyze value .read)
      return .residual (.list tag (← analyzeTargets targets) value)
  | .item tag container index, access =>
    let tag := { tag with access }
    byRule cfg (.item tag container index) fun _ => do
      let container ← kept (analyze container (containerAccess access container))
      return .residual (.item tag container (← kept (analyze index .read)))
  | .append tag container, access =>
    let tag := { tag with access }
    byRule cfg (.append tag container) fun _ => do
      return .residual (.append tag (← kept (analyze container (containerAccess access container))))
  | .assign tag target value, access =>
    let tag := { tag with access }
    byRule cfg (.assign tag target value) fun _ => do
      let target ← kept (analyze target .write)
      return .residual (.assign tag target (← kept (analyze value .read)))
  | .call tag name args, access =>
    let tag := { tag with access }
    byRule cfg (.call tag name args) fun _ => do
      let signature := State.function? cfg name
      if signature.isNone then Pass.update (State.report (.unknownFunction name) tag.span)
      return .residual (.call tag name (← analyzeArgs signature 0 args))
termination_by structural e => e

/-- Analyses the operands of a concatenation, those of nested ones in their places. -/
def analyzeOperands : List Expr → Analyze (List Evaluation)
  | [] => return []
  | .concat _ operands :: rest => do
    let es ← analyzeOperands operands
    return es ++ (← analyzeOperands rest)
  | e :: rest => do
    let e ← analyze e .read
    return e :: (← analyzeOperands rest)
termination_by structural es => es

/-- Analyses the arguments of a call, the first of which has a position. -/
def analyzeArgs (signature : Option Signature) : Nat → List Expr → Analyze (List Expr)
  | _, [] => return []
  | position, arg :: rest => do
    let arg ← kept (analyze arg (argumentAccess signature position arg))
    return arg :: (← analyzeArgs signature (position + 1) rest)
termination_by structural _ es => es

/-- Analyses the elements of an array literal and counts their keys. -/
def analyzeElements : List ArrayElement → Home ExprKind → Analyze (List ArrayElement)
  | [], _ => return []
  | .plain span value :: rest, home => do
    let value ← kept (analyze value .read)
    countKey home none
    return .plain span value :: (← analyzeElements rest home)
  | .keyed span key value :: rest, home => do
    let key ← kept (analyze key .read)
    let value ← kept (analyze value .read)
    countKey home (some key)
    return .keyed span key value :: (← analyzeElements rest home)
termination_by structural es => es

/-- Analyses the targets of a destructuring. -/
def analyzeTargets : List ListTarget → Analyze (List ListTarget)
  | [] => return []
  | .skip :: rest => return .skip :: (← analyzeTargets rest)
  | .leaf target :: rest => do
    let target ← kept (analyze target .write)
    return .leaf target :: (← analyzeTargets rest)
  | .nested targets :: rest => do
    let targets ← analyzeTargets targets
    return .nested targets :: (← analyzeTargets rest)
termination_by structural es => es

end

/-- Analyses expressions in order and keeps their nodes. -/
def analyzeAll (access : Access) : List Expr → Analyze (List Expr)
  | [] => return []
  | e :: rest => do
    let e ← kept (analyze cfg e access)
    return e :: (← analyzeAll access rest)

end Analysis
end PhpLowering
