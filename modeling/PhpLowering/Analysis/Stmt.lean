import PhpLowering.Analysis.Expr

/-!
# Analysis of statements

A statement in dead code is replaced by an empty one, with three exceptions: function
declarations take effect anyway, empty statements are harmless, and a statement that a
`goto` can enter may be alive after all.  A label ends dead code.

Branches and loops with a known condition are reduced to what can run.  The part that
cannot run is analysed all the same, for the declarations in it, but what it becomes is
thrown away.
-/

namespace PhpLowering
namespace Analysis

variable (cfg : Setting)

/-- Hands a statement to its rule; `analyzed` is what the rule made for its kind does.  The rule for
empty statements lets every statement pass. -/
def byStmtRule (s : Stmt) (analyzed : Home StmtKind → Analyze Stmt) : Analyze Stmt := do
  let handle ← onTable (RuleTable.stmt cfg.registry s.kind s.id)
  if handle.rule = s.kind then analyzed handle.home
  else if handle.rule = .empty then return s
  else Pass.fail (.wrongRule (.stmt handle.rule) (.stmt s.kind))

/-- Whether a statement is left out where the code is dead. -/
def isElidable (s : Stmt) : Bool :=
  !s.isDeclaration && !s.isEmpty && !s.hasEntry

/-- An empty statement in the place of another one. -/
def emptyStmt (span : Span) (kind : EmptyKind) : Analyze Stmt :=
  Pass.transform (State.emptyStmt span kind)

/-- Leaves a statement out if it is dead, and hands it to its rule otherwise. -/
def ifAlive (s : Stmt) (analyzed : Home StmtKind → Analyze Stmt) : Analyze Stmt := do
  if s.isLabel then
    Pass.update State.leaveUnreachable
    byStmtRule cfg s analyzed
  else if (← Pass.peek State.unreachable) && isElidable s then
    Pass.update (State.reportUnreachable cfg.options s.span)
    emptyStmt s.span .unreachable
  else byStmtRule cfg s analyzed

/-- Analyses something that can never run, and forgets what it becomes. -/
def asDead {α : Type} (x : Analyze α) : Analyze Unit := do
  let saved ← Pass.peek State.reachability
  Pass.update State.enterDead
  let _ ← x.ensuring (State.restore saved)

/-- Analyses the body of a loop. -/
def inLoop {α : Type} (x : Analyze α) : Analyze α := do
  Pass.update State.enterLoop
  x.ensuring State.leaveLoop

/-- The access of the expression of a jump: a routine that returns a reference needs one. -/
def jumpAccess (kind : JumpKind) (returnsRef : Bool) (expr : Expr) : Access :=
  if kind = .return ∧ returnsRef ∧ expr.isPlace then .readRef else .read

/-- The level of a `break` or `continue`, if it is known: one unless it is written down. -/
def staticLevel? : Option Expr → Option Int64
  | none => some 1
  | some e => e.value?.map Literal.toInt64

/-- Reports a `break` or `continue` out of more loops than there are. -/
def checkLevel (level : Option Expr) (span : Span) (s : State) : State :=
  let invalid := match staticLevel? level with
    | some n => n.toInt < 1 || Int.ofNat s.flow.loops < n.toInt
    | none => s.flow.loops == 0
  if invalid then s.report (.invalidBreakLevel ((staticLevel? level).getD 1)) span else s

/-- Analyses a jump; nothing behind it runs. -/
def analyzeJump (tag : StmtTag) (kind : JumpKind) (expr : Option Expr) : Analyze Stmt := do
  let returnsRef ← Pass.peek fun s => s.scope.returnsRef
  let expr ← match expr with
    | none => pure none
    | some e => do pure (some (← kept (analyze cfg e (jumpAccess kind returnsRef e))))
  if kind ≠ .return then Pass.update (checkLevel expr tag.span)
  Pass.update State.enterUnreachable
  return .jump tag kind expr

/-- Defines a label and gives its rule the cell. -/
def analyzeLabel (tag : StmtTag) (name : String) (home : Home StmtKind) : Analyze Stmt := do
  let cell ← Pass.transform (State.defineLabel name tag.span)
  if let some cell := cell then
    Pass.update fun s => { s with memory := s.memory.setLabel home cell }
  return .label tag name

/-- Analyses an expression statement, which is left out if its value is known. -/
def analyzeExpression (tag : StmtTag) (expr : Expr) : Analyze Stmt := do
  match ← analyze cfg expr .none with
  | .value _ _ => emptyStmt tag.span .skipped
  | .residual node => return .expression tag node

/-- Analyses a constant declaration; a constant with a known value can be folded from here on. -/
def analyzeConstDecl (tag : StmtTag) (name : String) (value : Expr) : Analyze Stmt := do
  let e ← analyze cfg value .read
  if let some v := e.value? then
    let _ ← Pass.transform (State.declareConstant cfg name v tag.span)
  return .constDecl tag name (← keep e)

mutual

/-- Analyses a statement. -/
def analyzeStmt : Stmt → Analyze Stmt
  | .expression tag expr => ifAlive cfg (.expression tag expr) fun _ => analyzeExpression cfg tag expr
  | .echo tag exprs => ifAlive cfg (.echo tag exprs) fun _ => do
    return .echo tag (← analyzeAll cfg .read exprs)
  | .block tag body => ifAlive cfg (.block tag body) fun _ => do
    return .block tag (← analyzeStmts body)
  | .branch tag condition thenBody elseBody =>
    ifAlive cfg (.branch tag condition thenBody elseBody) fun _ => do
      let c ← analyze cfg condition .read
      let decided :=
        if Stmt.anyEntry thenBody || Stmt.optionalEntry elseBody then none else decided? cfg c
      match decided with
      | some true =>
        asDead (analyzeOptional elseBody)
        return .block tag (← analyzeStmts thenBody)
      | some false =>
        asDead (analyzeStmts thenBody)
        match ← analyzeOptional elseBody with
        | some body => return .block tag body
        | none => emptyStmt tag.span .skipped
      | none =>
        let condition ← keep c
        let entry ← Pass.peek State.reachability
        let t ← (inConditional (analyzeStmts thenBody)).attempt
        let elseBody ← analyzeElse entry elseBody
        return .branch tag condition (← Pass.ofExcept t) elseBody
  | .loop tag condition body => ifAlive cfg (.loop tag condition body) fun _ => do
    let c ← analyze cfg condition .read
    if decided? cfg c = some false then
      inLoop (asDead (analyzeStmts body))
      emptyStmt tag.span .skipped
    else
      let condition ← keep c
      return .loop tag condition (← inLoop (analyzeStmts body))
  | .jump tag kind expr => ifAlive cfg (.jump tag kind expr) fun _ => analyzeJump cfg tag kind expr
  | .goto tag label => ifAlive cfg (.goto tag label) fun _ => do
    Pass.update (State.gotoLabel label tag.span)
    Pass.update State.enterUnreachable
    return .goto tag label
  | .label tag name => ifAlive cfg (.label tag name) (analyzeLabel tag name)
  | .tryCatch tag body catches cleanup => ifAlive cfg (.tryCatch tag body catches cleanup) fun _ => do
    let body ← inConditional (analyzeStmts body)
    let catches ← analyzeCatches catches
    return .tryCatch tag body catches (← analyzeOptional cleanup)
  | .throw tag expr => ifAlive cfg (.throw tag expr) fun _ => do
    let expr ← kept (analyze cfg expr .read)
    Pass.update State.enterUnreachable
    return .throw tag expr
  | .unset tag targets => ifAlive cfg (.unset tag targets) fun _ => do
    return .unset tag (← analyzeAll cfg .write targets)
  | .constDecl tag name value => ifAlive cfg (.constDecl tag name value) fun _ =>
    analyzeConstDecl cfg tag name value
  | .function tag head body dead => ifAlive cfg (.function tag head body dead) fun _ => do
    let dead ← Pass.peek State.unreachable
    Pass.update (State.enterRoutine head.byRef)
    let body ← (analyzeStmts body).ensuring State.leaveRoutine
    return .function tag head body dead
  | .empty tag kind => ifAlive cfg (.empty tag kind) fun _ => return .empty tag kind
termination_by structural s => s

/-- Analyses statements in order. -/
def analyzeStmts : List Stmt → Analyze (List Stmt)
  | [] => return []
  | s :: rest => do
    let s ← analyzeStmt s
    return s :: (← analyzeStmts rest)
termination_by structural s => s

/-- Analyses a part that may be missing. -/
def analyzeOptional : Option (List Stmt) → Analyze (Option (List Stmt))
  | none => return none
  | some body => return some (← analyzeStmts body)
termination_by structural s => s

/-- Analyses the second branch, which is entered like the first one was. -/
def analyzeElse (entry : Reachability) : Option (List Stmt) → Analyze (Option (List Stmt))
  | none => return none
  | some body => do
    Pass.update (State.restore entry)
    return some (← inConditional (analyzeStmts body))
termination_by structural s => s

/-- Analyses the clauses of a `try` and looks up their classes. -/
def analyzeCatches : List Catch → Analyze (List Catch)
  | [] => return []
  | .clause span type var body _ :: rest => do
    let resolved ← Pass.transform (State.resolveType cfg type span)
    let body ← inConditional (analyzeStmts body)
    return .clause span type var body (some resolved) :: (← analyzeCatches rest)
termination_by structural s => s

end

end Analysis
end PhpLowering
