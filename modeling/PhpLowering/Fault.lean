import PhpLowering.Code.TypeCode
import PhpLowering.Source.Span
import PhpLowering.Tree.Kind

/-!
# Failures

Three causes stop the lowering of a unit.  A `Fault` is a broken promise between the
parts of the lowering: a node without a rule, an access that a node cannot serve.  A
`SinkError` is what the receiver of the code refuses.  A failure that has already been
shown to the user as a diagnostic is wrapped together with the place it was shown at, so
that nobody shows it twice.
-/

namespace PhpLowering

/-- A broken promise between the parts of the lowering. -/
inductive Fault where
  | unregisteredKind (kind : NodeKind)
  | unsupportedAccess (kind : NodeKind) (access : String)
  | unexpectedTypeCode (expected : String) (found : TypeCode)
  | notAPlace (kind : NodeKind)
  | branchOutsideLoop (level depth : Nat)
  | undefinedLabel (name : String)
  /-- The rule for one kind met a node of another. -/
  | wrongRule (kind found : NodeKind)
  deriving DecidableEq, Repr, Inhabited

/-- What a receiver of code can run out of. -/
inductive Resource where
  | temporaries | constantPool | callArguments | concatenationOperands
  deriving DecidableEq, Repr, Inhabited

/-- A call that does not fit the exception regions that are open. -/
inductive RegionFault where
  | noOpenRegion | handlerAfterFinally | handlerOutsideTry | tryWithoutHandlers | routineEndedInside
  deriving DecidableEq, Repr, Inhabited

/-- What a receiver of code refuses. -/
inductive SinkError where
  | resourceExhausted (resource : Resource)
  | invalidLabel (index : Nat)
  | unbalancedRegion (fault : RegionFault)
  | other (message : String)
  deriving DecidableEq, Repr, Inhabited

/-- A failure that stops the lowering of a unit. -/
inductive CompileError where
  | internal (fault : Fault)
  | backend (error : SinkError)
  /-- A failure that a diagnostic at `span` has already shown. -/
  | reported (span : Span) (source : CompileError)
  deriving DecidableEq, Repr, Inhabited

/-- The text of a fault. -/
def Fault.message : Fault → String
  | .unregisteredKind kind => s!"no compiler registered for {kind.name} nodes"
  | .unsupportedAccess kind access => s!"{kind.name} node does not support {access} access"
  | .unexpectedTypeCode expected found =>
    s!"unexpected type code {found.text} (expected {expected})"
  | .notAPlace kind => s!"{kind.name} node is not an l-value"
  | .branchOutsideLoop level depth =>
    s!"break/continue to level {level} with only {depth} enclosing loops"
  | .undefinedLabel name => "label `" ++ name ++ "` was never defined"
  | .wrongRule kind found => s!"compiler for {kind.name} was invoked on a {found.name} node"

/-- The name of a fault's cause, for tools that do not read messages. -/
def Fault.cause : Fault → String
  | .unregisteredKind _ => "UnregisteredKind"
  | .unsupportedAccess .. => "UnsupportedAccess"
  | .unexpectedTypeCode .. => "UnexpectedTypeCode"
  | .notAPlace _ => "NotAnLValue"
  | .branchOutsideLoop .. => "BranchOutsideLoop"
  | .undefinedLabel _ => "UndefinedLabel"
  | .wrongRule .. => "WrongCompilerKind"

/-- The name of a resource in messages. -/
def Resource.text : Resource → String
  | .temporaries => "temporaries"
  | .constantPool => "constant pool"
  | .callArguments => "call arguments"
  | .concatenationOperands => "concatenation operands"

/-- What is wrong with the regions. -/
def RegionFault.text : RegionFault → String
  | .noOpenRegion => "no open region"
  | .handlerAfterFinally => "handler after finally"
  | .handlerOutsideTry => "handler outside of a try block"
  | .tryWithoutHandlers => "try block without handlers"
  | .routineEndedInside => "routine ended inside a region"

/-- The text of a refusal. -/
def SinkError.message : SinkError → String
  | .resourceExhausted resource => s!"backend resource exhausted: {resource.text}"
  | .invalidLabel index => s!"label {index} is not defined in this routine"
  | .unbalancedRegion fault => s!"unbalanced exception region: {fault.text}"
  | .other message => message

/-- The name of a refusal's cause. -/
def SinkError.cause : SinkError → String
  | .resourceExhausted _ => "ResourceExhausted"
  | .invalidLabel _ => "InvalidLabel"
  | .unbalancedRegion _ => "UnbalancedRegion"
  | .other _ => "Other"

namespace CompileError

/-- The text of a failure. -/
def message : CompileError → String
  | .internal fault => s!"internal compiler error: {fault.message}"
  | .backend error => s!"code generation failed: {error.message}"
  | .reported span source =>
    s!"compilation aborted at {span.start}..{span.stop}: {source.message}"

/-- The name of a failure's cause; one that has been shown counts as a cause of its own. -/
def cause : CompileError → String
  | .internal fault => fault.cause
  | .backend error => error.cause
  | .reported .. => "Reported"

/-- Whether a diagnostic has already shown the failure. -/
def isReported : CompileError → Bool
  | .reported .. => true
  | _ => false

/-- The failure that all the wrapping is about. -/
def root : CompileError → CompileError
  | .reported _ source => source.root
  | error => error

end CompileError
end PhpLowering
