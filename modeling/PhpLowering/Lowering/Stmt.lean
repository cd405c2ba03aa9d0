import PhpLowering.Lowering.Branching
import PhpLowering.Lowering.Expr

/-!
# Code of statements

A failure inside a statement is reported at the innermost statement it happened in and
then goes outwards as a reported failure, so it is shown once.  On its way out it undoes
what the statements around it have entered: loops, exception regions and routines.
-/

namespace PhpLowering
namespace Lowering

variable {σ : Type} [Sink σ] (cfg : Setting)

/-- The host exception by which a dying program unwinds.  No clause ever sees it. -/
def uncatchableType : String := "ScriptDiedException"

/-- The root of all host exceptions, in which the exceptions of the program travel. -/
def hostType : String := "HostException"

/-- Changes the routine after something, whether it failed or not. -/
def thenFrame {α : Type} (x : Emit σ α) (f : Frame → Frame) : Emit σ α :=
  x.ensuring fun s => { s with frame := f s.frame }

/-- Reports a failure that has not been reported. -/
def reporting (span : Span) (x : Emit σ Unit) : Emit σ Unit := fun s =>
  match x s with
  | (.error e, s) =>
    if e.isReported then (.error e, s)
    else
      (.error (.reported span e),
        { s with diagnostics := s.diagnostics.push ⟨.emissionFailed e.message, span⟩ })
  | (.ok a, s) => (.ok a, s)

/-- Hands a statement to its rule; `code` is what the rule made for its kind emits.  The rule for
empty statements emits nothing, whatever the statement. -/
def byStmtRule (kind : StmtKind) (tag : StmtTag) (code : Home StmtKind → Emit σ Unit) :
    Emit σ Unit := do
  let handle ← onTable (RuleTable.stmt cfg.registry kind tag.id)
  if handle.rule = kind then code handle.home
  else if handle.rule = .empty then return
  else fault (.wrongRule (.stmt handle.rule) (.stmt kind))

/-- Emits a statement: its place in the source, then its code. -/
def statement (kind : StmtKind) (tag : StmtTag) (code : Home StmtKind → Emit σ Unit) : Emit σ Unit := do
  if cfg.options.sequencePoints && kind ≠ .empty then
    Pass.update fun s => { s with sink := Sink.sequencePoint tag.span s.sink }
  reporting tag.span (byStmtRule cfg kind tag code)

/-- Shows values in order. -/
def echoAll : List Expr → Emit σ Unit
  | [] => return
  | e :: rest => do
    let _ ← boxed (lower cfg e)
    callVoid .echo
    echoAll rest

/-- Removes locations in order. -/
def unsetAll : List Expr → Emit σ Unit
  | [] => return
  | e :: rest => do
    beginChain true
    let _ ← Pass.ensuring (lower cfg e .unset) State.endChain
    unsetAll rest

/-- Pushes the value that a routine returns.  A routine that returns a reference gets one made of
any value; another routine returns a value, and an array goes over to the caller. -/
def returnValue (expr : Option Expr) : Emit σ Unit := do
  let returnsRef := (← frame).returnsRef
  match expr with
  | none =>
    if returnsRef then callVoid .newReferenceEmpty
    else
      let _ ← pushLiteral .null
  | some e =>
    let code ← lower cfg e .value
    if returnsRef then
      if code ≠ .referenceCell then
        let _ ← box code
        callVoid .newReference
    else if code = .referenceCell then callVoid .dereference
    else if code = .arrayHandle then
      emit .dup
      callVoid .markInplaceCopyOnReturn
    else
      let _ ← box code

/-- A `break` or `continue`; a level below one that is known stands for one. -/
def loopJump (kind : BranchKind) (level : Option Expr) : Emit σ Unit :=
  match level with
  | none => staticBranch kind 1
  | some e =>
    match e.value? with
    | some v => staticBranch kind v.toInt64.toInt.toNat
    | none => runtimeBranch kind (lower cfg e)

/-- The code of a jump. -/
def jumpCode (kind : JumpKind) (expr : Option Expr) : Emit σ Unit := do
  match kind with
  | .return =>
    returnValue cfg expr
    returnJump
  | .break => loopJump cfg .break expr
  | .continue => loopJump cfg .continue expr

/-- Marks a label that some `goto` goes to. -/
def labelCode (name : String) (home : Home StmtKind) : Emit σ Unit := do
  if ← Pass.peek fun s => s.memory.labelReferenced home then
    mark (← routineLabel name)

/-- The test of a branch; the answer is the label of what runs if it fails. -/
def branchHead (condition : Expr) : Emit σ Label := do
  let otherwise ← defineLabel
  let _ ← converted (lower cfg condition) .boolean
  emit (.branchIfFalse otherwise)
  return otherwise

/-- What stands between the two parts of a branch; the answer is the label behind both. -/
def elseHead (otherwise : Label) : Emit σ Label := do
  let done ← defineLabel
  emit (.branch done)
  mark otherwise
  return done

/-- The code of a branch, with the code of its parts. -/
def branchCode (condition : Expr) (thenCode : Emit σ Unit) (elseCode : Option (Emit σ Unit)) :
    Emit σ Unit := do
  let otherwise ← branchHead cfg condition
  thenCode
  match elseCode with
  | some elseCode =>
    let done ← elseHead otherwise
    elseCode
    mark done
  | none => mark otherwise

/-- The test of a loop, and the way into it.  A condition that is known to be true is not tested.
The answer is the loop. -/
def loopHead (condition : Expr) : Emit σ Loop := do
  let test ← defineLabel
  let exit ← defineLabel
  mark test
  if (condition.value?.map Literal.toBool) ≠ some true then
    let _ ← converted (lower cfg condition) .boolean
    emit (.branchIfFalse exit)
  let nesting := (← frame).exceptionNesting
  updateFrame (Frame.enterLoop exit test)
  return ⟨exit, test, nesting⟩

/-- The code of a loop. -/
def loopCode (condition : Expr) (body : Emit σ Unit) : Emit σ Unit := do
  let loop ← loopHead cfg condition
  thenFrame body Frame.leaveLoop
  emit (.branch loop.continueLabel)
  mark loop.breakLabel

/-- The end of a routine: a value for when no `return` was met, and the one place where all of them
return. -/
def routineEnd (returnsRef : Bool) : Emit σ Unit := do
  if returnsRef then callVoid .newReferenceEmpty
  else
    let _ ← pushLiteral .null
  let f ← frame
  match f.epilogue, f.returnTemp with
  | some epilogue, some t =>
    emit (.storeTemp t)
    mark epilogue
    emit (.loadTemp t)
    returnTemp t
  | _, _ => pure ()
  emit .ret

/-- A routine around the code of its body. -/
def routineCode (returnsRef : Bool) (body : Emit σ Unit) : Emit σ Unit := do
  let outer ← frame
  updateFrame fun _ => { returnsRef }
  thenFrame (do body; routineEnd returnsRef) fun _ => outer

/-- The test of a clause; the answer is the label of what runs if the exception is not of its
class. -/
def clauseHead (exception : Temp) (type : String) (var : Option String) : Emit σ Label := do
  let next ← defineLabel
  emit (.loadTemp exception)
  emit (.instanceOf type)
  emit (.branchIfFalse next)
  if let some name := var then
    emit (.loadTemp exception)
    emit (.storeVar name)
  return next

/-- A clause: its body runs if the exception is of its class, and nothing after it. -/
def clauseCode (exception : Temp) (regionEnd : Label) (type : String) (var : Option String)
    (body : Emit σ Unit) : Emit σ Unit := do
  let next ← clauseHead exception type var
  body
  emit (.leave regionEnd)
  mark next

/-- What stands in front of the clauses of a region; the answer is the slot of the exception. -/
def handlersHead : Emit σ Temp := do
  toSink (Sink.beginCatch uncatchableType)
  emit .rethrow
  toSink (Sink.beginCatch hostType)
  callVoid .wrapHostException
  let exception ← declareTemp
  emit (.storeTemp exception)
  return exception

/-- The handlers of a region with clauses.  An exception that no clause is for goes on. -/
def handlersCode (clauses : Temp → Emit σ Unit) : Emit σ Unit := do
  let exception ← handlersHead
  clauses exception
  emit .rethrow
  returnTemp exception

/-- The cleanup of a region.  A region needs a handler, so one without any gets an empty cleanup. -/
def cleanupCode (hasClauses : Bool) : Option (Emit σ Unit) → Emit σ Unit
  | some cleanup => do
    toSink Sink.beginFinally
    cleanup
  | none => if hasClauses then return else toSink Sink.beginFinally

/-- An exception region. -/
def regionCode (body : Emit σ Unit) (hasClauses : Bool) (clauses : Label → Temp → Emit σ Unit)
    (cleanup : Option (Emit σ Unit)) : Emit σ Unit := do
  let regionEnd ← toSink Sink.beginTry
  body
  if hasClauses then handlersCode (clauses regionEnd)
  cleanupCode hasClauses cleanup
  toSink Sink.endRegion

/-- The code of a `try`. -/
def tryCode (body : Emit σ Unit) (hasClauses : Bool) (clauses : Label → Temp → Emit σ Unit)
    (cleanup : Option (Emit σ Unit)) : Emit σ Unit := do
  if !hasClauses && cleanup.isNone && cfg.options.elideEmptyTry then body
  else
    updateFrame Frame.enterException
    thenFrame (regionCode body hasClauses clauses cleanup) Frame.leaveException

mutual

/-- Emits a statement. -/
def lowerStmt : Stmt → Emit σ Unit
  | .expression tag e => statement cfg .expression tag fun _ => do
    let _ ← discard (← lower cfg e .value)
  | .echo tag es => statement cfg .echo tag fun _ => echoAll cfg es
  | .block tag body => statement cfg .block tag fun _ => lowerStmts body
  | .branch tag condition thenBody elseBody => statement cfg .branch tag fun _ =>
    branchCode cfg condition (lowerStmts thenBody) (lowerOptional elseBody)
  | .loop tag condition body => statement cfg .loop tag fun _ =>
    loopCode cfg condition (lowerStmts body)
  | .jump tag kind expr => statement cfg .jump tag fun _ => jumpCode cfg kind expr
  | .goto tag label => statement cfg .goto tag fun _ => do
    jump (← routineLabel label) 0
  | .label tag name => statement cfg .label tag (labelCode name)
  | .tryCatch tag body catches cleanup => statement cfg .tryCatch tag fun _ =>
    tryCode cfg (lowerStmts body) (!catches.isEmpty) (lowerClauses catches) (lowerOptional cleanup)
  | .throw tag e => statement cfg .throw tag fun _ => do
    let _ ← boxed (lower cfg e)
    emit .throw
  | .unset tag targets => statement cfg .unset tag fun _ => unsetAll cfg targets
  | .constDecl tag name value => statement cfg .constDecl tag fun _ => do
    let _ ← boxed (lower cfg value)
    emit (.defineConstant name)
  | .function tag head body _ => statement cfg .function tag fun _ => do
    toSink (Sink.beginFunction head)
    routineCode head.byRef (lowerStmts body)
    toSink Sink.endFunction
  | .empty tag _ => statement cfg .empty tag fun _ => return
termination_by structural s => s

/-- Emits statements in order. -/
def lowerStmts : List Stmt → Emit σ Unit
  | [] => return
  | s :: rest => do
    lowerStmt s
    lowerStmts rest
termination_by structural s => s

/-- The code of a part that may be missing. -/
def lowerOptional : Option (List Stmt) → Option (Emit σ Unit)
  | none => none
  | some body => some (lowerStmts body)
termination_by structural s => s

/-- Emits the clauses of a region for the exception in a slot. -/
def lowerClauses : List Catch → Label → Temp → Emit σ Unit
  | [], _, _ => return
  | .clause _ type var body resolved :: rest, regionEnd, exception => do
    clauseCode exception regionEnd (resolved.getD type) var (lowerStmts body)
    lowerClauses rest regionEnd exception
termination_by structural s => s

end

/-- Emits a routine. -/
def lowerRoutine (body : List Stmt) (returnsRef : Bool) : Emit σ Unit :=
  routineCode returnsRef (lowerStmts cfg body)

end Lowering
end PhpLowering
