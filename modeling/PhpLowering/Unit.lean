import PhpLowering.Analysis.Stmt
import PhpLowering.Declarations
import PhpLowering.Lowering.Stmt

/-!
# Compiling a unit

Three steps: the functions that the unit declares are collected, the unit is analysed,
and, unless that brought errors to light, it is emitted into a sink.

Diagnostics come out in the order in which they were found, also when a step fails.
-/

namespace PhpLowering

/-- The circumstances in which units are compiled. -/
structure Compiler where
  registry : Registry := .standard
  options : Options := {}
  symbols : Symbols := .builtins
  /-- The orders in which the chains of a unit give their slots back. -/
  releases : Nat → Lowering.ReleaseOrder := fun _ => .inOrder

/-- A unit after its analysis, ready for emission. -/
structure AnalyzedUnit where
  name : String
  statements : List Stmt
  table : RuleTable
  memory : RuleMemory

/-- A unit that went through all steps. -/
structure CompiledUnit where
  name : String
  /-- The analysed tree. -/
  statements : List Stmt
  /-- Whether code was emitted. -/
  emitted : Bool

/-- What compiling a unit leaves: the unit or a failure, the sink, and all that was reported. -/
structure Outcome (σ : Type) where
  result : Except CompileError CompiledUnit
  sink : σ
  diagnostics : Array Diagnostic

namespace AnalyzedUnit

/-- The unit with what became of its emission. -/
def compiled (unit : AnalyzedUnit) (emitted : Bool) : CompiledUnit :=
  { name := unit.name, statements := unit.statements, emitted }

end AnalyzedUnit

namespace Compiler

/-- The setting of the analysis of a unit. -/
def analysisSetting (c : Compiler) (functions : List (String × Signature)) : Analysis.Setting :=
  { registry := c.registry, symbols := c.symbols, options := c.options, functions }

/-- The setting of the emission. -/
def loweringSetting (c : Compiler) : Lowering.Setting :=
  { registry := c.registry, options := c.options }

/-- Collects the declarations of a unit and analyses it. -/
def analyze (c : Compiler) (unit : SourceUnit) : Except Fault AnalyzedUnit × Array Diagnostic :=
  let found := Declarations.collect c.symbols unit.statements
  let start : Analysis.State :=
    { nextId := unit.nextId, diagnostics := found.diagnostics.toArray }
  match Analysis.analyzeStmts (c.analysisSetting found.functions) unit.statements start with
  | (.error f, s) => (.error f, s.diagnostics)
  | (.ok statements, s) =>
    let s := s.finish
    (.ok { name := unit.name, statements, table := s.table, memory := s.memory }, s.diagnostics)

/-- Whether diagnostics keep a unit from being emitted. -/
def hasErrors (diagnostics : Array Diagnostic) : Bool :=
  diagnostics.any Diagnostic.isError

variable {σ : Type} [Sink σ]

/-- Where the emission of a unit begins. -/
def emissionStart (c : Compiler) (unit : AnalyzedUnit) (diagnostics : Array Diagnostic) (sink : σ) :
    Lowering.State σ :=
  { sink, table := unit.table, memory := unit.memory, diagnostics, releases := c.releases }

/-- Emits an analysed unit into a sink, whatever has been reported about it. -/
def emit (c : Compiler) (unit : AnalyzedUnit) (diagnostics : Array Diagnostic) (sink : σ) : Outcome σ :=
  match Lowering.lowerRoutine c.loweringSetting unit.statements false (c.emissionStart unit diagnostics sink) with
  | (.ok _, s) => { result := .ok (unit.compiled true), sink := s.sink, diagnostics := s.diagnostics }
  | (.error e, s) => { result := .error e, sink := s.sink, diagnostics := s.diagnostics }

/-- Compiles a unit into a sink.  A unit with errors is analysed but not emitted. -/
def compile (c : Compiler) (unit : SourceUnit) (sink : σ) : Outcome σ :=
  match c.analyze unit with
  | (.error f, diagnostics) => { result := .error (.internal f), sink, diagnostics }
  | (.ok analyzed, diagnostics) =>
    if hasErrors diagnostics then { result := .ok (analyzed.compiled false), sink, diagnostics }
    else c.emit analyzed diagnostics sink

end Compiler
end PhpLowering
