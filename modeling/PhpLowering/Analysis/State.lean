import PhpLowering.Diagnostic
import PhpLowering.Options
import PhpLowering.Rule.Memory
import PhpLowering.Symbols
import PhpLowering.Tree.Stmt

/-!
# Where the analysis stands

The analysis walks through a unit once.  Besides the tree that it builds, it knows

* whether the statement it is at can be reached, and whether the dead code it is in has
  already been reported: dead code is reported once for each stretch of it;
* how many conditional constructs and how many loops are around it;
* the labels of the routine it is in, those that are defined and those that a `goto` has
  only mentioned;
* the constants that the unit has declared so far.

Everything here is a function from state to state, so that what the analysis does between
two nodes can be stated without running it.
-/

namespace PhpLowering
namespace Analysis

/-- What an analysis is told and does not change. -/
structure Setting where
  registry : Registry := .standard
  symbols : Symbols := .builtins
  options : Options := {}
  /-- The functions that the unit declares, by folded name. -/
  functions : List (String × Signature) := []

/-- Whether the next statement is dead, and whether that has been reported. -/
structure Reachability where
  unreachable : Bool := false
  reported : Bool := false
  deriving DecidableEq, Repr, Inhabited

/-- The constructs around the next statement. -/
structure Flow where
  reachability : Reachability := {}
  conditionals : Nat := 0
  loops : Nat := 0
  deriving DecidableEq, Repr, Inhabited

/-- What is known of a label. -/
structure LabelEntry where
  /-- The cell that says whether a `goto` goes to it. -/
  cell : Nat
  definedAt : Option Span
  /-- The `goto` that mentioned it before its definition. -/
  firstGoto : Option Span
  deriving DecidableEq, Repr, Inhabited

/-- A routine under analysis. -/
structure Scope where
  returnsRef : Bool := false
  /-- The labels in the order in which they were first mentioned. -/
  labels : List (String × LabelEntry) := []
  deriving Inhabited

/-- The state of an analysis. -/
structure State where
  /-- How many numbers have been handed out to nodes; `nodeId nextId` is the next one. -/
  nextId : Nat
  table : RuleTable := {}
  memory : RuleMemory := {}
  diagnostics : Array Diagnostic := #[]
  flow : Flow := {}
  scope : Scope := {}
  /-- The routines around the current one, the innermost first, each with the place where it was
  left. -/
  enclosing : List (Scope × Flow) := []
  /-- The constants declared so far, the latest first. -/
  constants : List (String × Literal) := []
  deriving Inhabited

namespace State

/-- Reports a problem. -/
def report (problem : Problem) (span : Span) (s : State) : State :=
  { s with diagnostics := s.diagnostics.push ⟨problem, span⟩ }

/-! ## Reachability -/

/-- Whether the next statement is dead. -/
def unreachable (s : State) : Bool :=
  s.flow.reachability.unreachable

/-- The reachability of the next statement. -/
def reachability (s : State) : Reachability :=
  s.flow.reachability

/-- Goes on with another reachability. -/
def restore (r : Reachability) (s : State) : State :=
  { s with flow := { s.flow with reachability := r } }

/-- What follows is dead; in code that is dead already this changes nothing. -/
def enterUnreachable (s : State) : State :=
  if s.unreachable then s else s.restore ⟨true, false⟩

/-- What follows can be reached. -/
def leaveUnreachable (s : State) : State :=
  s.restore ⟨false, false⟩

/-- What follows is dead and known to be. -/
def enterDead (s : State) : State :=
  s.restore ⟨true, true⟩

/-- Reports dead code unless the stretch it is part of has been reported. -/
def reportUnreachable (options : Options) (span : Span) (s : State) : State :=
  if s.flow.reachability.reported then s
  else
    let s := s.restore { s.reachability with reported := true }
    if options.reportUnreachable then s.report .unreachableCode span else s

/-! ## Constructs around a statement -/

/-- Goes into a construct that may be skipped. -/
def enterConditional (s : State) : State :=
  { s with flow := { s.flow with conditionals := s.flow.conditionals + 1 } }

/-- Leaves a construct that may be skipped; what follows can be reached by skipping it. -/
def leaveConditional (s : State) : State :=
  leaveUnreachable { s with flow := { s.flow with conditionals := s.flow.conditionals - 1 } }

/-- Goes into a loop. -/
def enterLoop (s : State) : State :=
  enterConditional { s with flow := { s.flow with loops := s.flow.loops + 1 } }

/-- Leaves a loop. -/
def leaveLoop (s : State) : State :=
  leaveConditional { s with flow := { s.flow with loops := s.flow.loops - 1 } }

/-! ## Labels -/

/-- The labels with one entry replaced, or added behind the others. -/
def putLabel (name : String) (entry : LabelEntry) : List (String × LabelEntry) → List (String × LabelEntry)
  | [] => [(name, entry)]
  | (n, e) :: rest => if n = name then (n, entry) :: rest else (n, e) :: putLabel name entry rest

/-- The entry of a label, which is made if there is none. -/
def labelEntry (name : String) (firstGoto : Option Span) (s : State) : LabelEntry × State :=
  match s.scope.labels.lookup name with
  | some entry => (entry, s)
  | none =>
    let (cell, memory) := s.memory.newCell
    let entry : LabelEntry := { cell, definedAt := none, firstGoto }
    (entry,
      { s with memory, scope := { s.scope with labels := putLabel name entry s.scope.labels } })

/-- Records a `goto`; its label may come later. -/
def gotoLabel (name : String) (span : Span) (s : State) : State :=
  let (entry, s) := s.labelEntry name (some span)
  { s with memory := s.memory.markReferenced entry.cell }

/-- Defines a label and answers with its cell, or reports that it is defined already. -/
def defineLabel (name : String) (span : Span) (s : State) : Option Nat × State :=
  let (entry, s) := s.labelEntry name none
  match entry.definedAt with
  | some earlier =>
    (none, (s.report (.labelRedeclared name) span).report .relatedLocation earlier)
  | none =>
    let entry := { entry with definedAt := some span }
    (some entry.cell, { s with scope := { s.scope with labels := putLabel name entry s.scope.labels } })

/-- Reports the labels that a `goto` mentioned and nobody defined. -/
def reportUndefined (s : State) : State :=
  s.scope.labels.foldl (fun s (name, entry) =>
    if entry.definedAt.isNone then s.report (.undefinedLabel name) (entry.firstGoto.getD {}) else s) s

/-! ## Routines -/

/-- Goes into a routine, where nothing of the outside counts. -/
def enterRoutine (returnsRef : Bool) (s : State) : State :=
  { s with
    enclosing := (s.scope, s.flow) :: s.enclosing
    scope := { returnsRef }
    flow := {} }

/-- Leaves a routine: its labels are final, and the outside is as it was. -/
def leaveRoutine (s : State) : State :=
  match s.enclosing with
  | [] => s
  | (scope, flow) :: enclosing => { s.reportUndefined with scope, flow, enclosing }

/-- Ends the analysis: all routines that are still open are left, and so is the unit itself. -/
def finish (s : State) : State :=
  (s.enclosing.foldl (fun s _ => s.leaveRoutine) s).reportUndefined

/-! ## Symbols -/

/-- The signature of a function: one that the unit declares, or one known from outside. -/
def function? (cfg : Setting) (name : String) : Option Signature :=
  let name := Text.globalName name
  match cfg.functions.lookup (Text.foldCase name) with
  | some signature => some signature
  | none => cfg.symbols.function? name

/-- The value of a constant: one that the unit has declared, or one known from outside. -/
def constant? (cfg : Setting) (name : String) (s : State) : Option Literal :=
  match s.constants.lookup name with
  | some v => some v
  | none => cfg.symbols.constant? name

/-- The canonical name of a class.  An unknown one is reported and goes by the name it was written
with. -/
def resolveType (cfg : Setting) (name : String) (span : Span) (s : State) : String × State :=
  match cfg.symbols.type? name with
  | some resolved => (resolved, s)
  | none => (Text.globalName name, s.report (.unknownType name) span)

/-- Declares a constant, or reports that its name is taken. -/
def declareConstant (cfg : Setting) (name : String) (v : Literal) (span : Span) (s : State) :
    Bool × State :=
  if (s.constant? cfg name).isSome then (false, s.report (.constantRedeclared name) span)
  else (true, { s with constants := (name, v) :: s.constants })

/-! ## New nodes -/

/-- A statement that does nothing, in the place of another one. -/
def emptyStmt (span : Span) (kind : EmptyKind) (s : State) : Stmt × State :=
  (.empty ⟨nodeId s.nextId, span⟩ kind, { s with nextId := s.nextId + 1 })

end State
end Analysis
end PhpLowering
