import PhpLowering.Diagnostic
import PhpLowering.Symbols
import PhpLowering.Tree.Stmt

/-!
# The functions that a unit declares

Functions can be called before they are declared, so they are collected ahead of the
analysis: all of them, nested ones and those in dead code included.

A declaration inside a branch, a loop, a `try` or another function takes effect only when
that code runs, so one name may be declared in several such places and the first one in
the text speaks for all.  A declaration outside of them is unconditional.  Declaring a
name unconditionally is an error if the name is known from outside or already declared
unconditionally.
-/

namespace PhpLowering
namespace Declarations

/-- What has been found so far. -/
structure Found where
  /-- The functions by folded name, in the order in which they were found. -/
  functions : List (String × Signature) := []
  /-- The folded names that are declared unconditionally. -/
  unconditional : List String := []
  diagnostics : List Diagnostic := []
  deriving Inhabited

/-- The signature that a declaration gives. -/
def signatureOf (head : FunctionHead) : Signature :=
  { name := head.name, returnsRef := head.byRef, byRefParams := head.params.map Param.byRef }

/-- Adds a function unless one of that name is known. -/
def addFunction (symbols : Symbols) (head : FunctionHead) (found : Found) : Found :=
  let key := Text.foldCase head.name
  if (symbols.function? head.name).isNone && (found.functions.lookup key).isNone then
    { found with functions := found.functions ++ [(key, signatureOf head)] }
  else found

/-- Takes a declaration into account. -/
def declare (symbols : Symbols) (conditional : Bool) (head : FunctionHead) (span : Span)
    (found : Found) : Found :=
  let key := Text.foldCase head.name
  if conditional then addFunction symbols head found
  else if (symbols.function? head.name).isSome || found.unconditional.contains key then
    { found with diagnostics := found.diagnostics ++ [⟨.functionRedeclared head.name, span⟩] }
  else addFunction symbols head { found with unconditional := key :: found.unconditional }

section

variable (symbols : Symbols)

mutual

/-- Collects from a statement; `conditional` tells whether it only may run. -/
def ofStmt (conditional : Bool) : Stmt → Found → Found
  | .block _ body, found => ofStmts conditional body found
  | .branch _ _ thenBody elseBody, found => ofOptional true elseBody (ofStmts true thenBody found)
  | .loop _ _ body, found => ofStmts true body found
  | .tryCatch _ body catches cleanup, found =>
    ofOptional true cleanup (ofCatches catches (ofStmts true body found))
  | .function tag head body _, found =>
    ofStmts true body (declare symbols conditional head tag.span found)
  | .expression .., found | .echo .., found | .jump .., found | .goto .., found | .label .., found
  | .throw .., found | .unset .., found | .constDecl .., found | .empty .., found => found
termination_by structural s => s

/-- Collects from statements in order. -/
def ofStmts (conditional : Bool) : List Stmt → Found → Found
  | [], found => found
  | s :: rest, found => ofStmts conditional rest (ofStmt conditional s found)
termination_by structural s => s

/-- Collects from a part that may be missing. -/
def ofOptional (conditional : Bool) : Option (List Stmt) → Found → Found
  | none, found => found
  | some body, found => ofStmts conditional body found
termination_by structural s => s

/-- Collects from the clauses of a `try`. -/
def ofCatches : List Catch → Found → Found
  | [], found => found
  | .clause _ _ _ body _ :: rest, found => ofCatches rest (ofStmts true body found)
termination_by structural s => s

end

end

/-- The functions that a unit declares, and the redeclarations among them. -/
def collect (symbols : Symbols) (statements : List Stmt) : Found :=
  ofStmts symbols false statements {}

end Declarations
end PhpLowering
