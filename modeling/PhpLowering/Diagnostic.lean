import PhpLowering.Source.Span
import PhpLowering.Text.Utf8

/-!
# Diagnostics

What the lowering has to say about a unit: a problem and the place it was found at.
Errors keep code from being emitted; warnings do not.  The problem alone decides which of
the two it is, so a diagnostic does not store its severity.

`Diagnostic.render` shows a diagnostic together with the line that it points into.  The
marker below the line starts at the column of the span and is cut off at the end of
the line, but it is never empty.
-/

namespace PhpLowering

/-- How serious a problem is. -/
inductive Severity where
  | warning | error
  deriving DecidableEq, Repr, Inhabited

/-- The name of a severity. -/
def Severity.name : Severity → String
  | .warning => "Warning"
  | .error => "Error"

/-- A problem in the source. -/
inductive Problem where
  | invalidBreakLevel (level : Int64)
  | labelRedeclared (name : String)
  /-- Points at the earlier definition that the diagnostic before it is about. -/
  | relatedLocation
  | undefinedLabel (name : String)
  | unreachableCode
  | unknownType (name : String)
  | unknownFunction (name : String)
  | deprecatedConstruct (what : String)
  | constantRedeclared (name : String)
  | functionRedeclared (name : String)
  | emissionFailed (message : String)
  deriving DecidableEq, Repr, Inhabited

/-- A problem and its place. -/
structure Diagnostic where
  problem : Problem
  span : Span
  deriving DecidableEq, Repr, Inhabited

namespace Problem

/-- How serious a problem is. -/
def severity : Problem → Severity
  | .unreachableCode | .unknownType _ | .unknownFunction _ | .deprecatedConstruct _
  | .relatedLocation => .warning
  | .invalidBreakLevel _ | .labelRedeclared _ | .undefinedLabel _ | .constantRedeclared _
  | .functionRedeclared _ | .emissionFailed _ => .error

/-- The name of a kind of problem, for tools that do not read messages. -/
def name : Problem → String
  | .invalidBreakLevel _ => "InvalidBreakLevel"
  | .labelRedeclared _ => "LabelRedeclared"
  | .relatedLocation => "RelatedLocation"
  | .undefinedLabel _ => "UndefinedLabel"
  | .unreachableCode => "UnreachableCode"
  | .unknownType _ => "UnknownType"
  | .unknownFunction _ => "UnknownFunction"
  | .deprecatedConstruct _ => "DeprecatedConstruct"
  | .constantRedeclared _ => "ConstantRedeclared"
  | .functionRedeclared _ => "FunctionRedeclared"
  | .emissionFailed _ => "EmissionFailed"

/-- The text of a problem. -/
def message : Problem → String
  | .invalidBreakLevel level => s!"Cannot break/continue {level.toInt} level(s)"
  | .labelRedeclared name => s!"Label '{name}' already defined"
  | .relatedLocation => "Related location"
  | .undefinedLabel name => s!"'goto' to undefined label '{name}'"
  | .unreachableCode => "Unreachable code detected"
  | .unknownType name => s!"Class '{name}' not found"
  | .unknownFunction name => s!"Call to undefined function {name}()"
  | .deprecatedConstruct what => s!"{what} is deprecated"
  | .constantRedeclared name => s!"Constant {name} already defined"
  | .functionRedeclared name => s!"Cannot redeclare {name}()"
  | .emissionFailed message => s!"Code generation failed: {message}"

end Problem

namespace Diagnostic

/-- How serious a diagnostic is. -/
def severity (d : Diagnostic) : Severity :=
  d.problem.severity

/-- Whether a diagnostic keeps code from being emitted. -/
def isError (d : Diagnostic) : Bool :=
  d.severity == .error

/-- The first line of a rendered diagnostic. -/
def headline (d : Diagnostic) : String :=
  let label := match d.severity with
    | .warning => "warning"
    | .error => "error"
  s!"{label}: {d.problem.message}"

/-- The line of carets under a source line: blanks up to the column, then a caret for every byte of
the span that the line still holds, and at least one. -/
def marker (info : LineInfo) (span : Span) : String :=
  let padding := min info.text.length (info.column - 1)
  let width := max 1 (min span.length (info.text.length - padding))
  String.ofList (List.replicate padding ' ' ++ List.replicate width '^')

/-- A diagnostic with the source line it points into, or alone if the source has no such line. -/
def render (d : Diagnostic) (source : List UInt8) (path : Option String) : String :=
  match d.span.lineInfo? source with
  | none => d.headline
  | some info =>
    let line := toString info.line
    let column := toString info.column
    let location := match path with
      | some path => s!"{path}:{line}:{column}"
      | none => s!"line {line}, column {column}"
    let gutter := String.ofList (List.replicate (line.length + 1) ' ')
    d.headline ++ "\n --> " ++ location ++ "\n" ++ gutter ++ "|\n" ++ line ++ " | " ++
      Text.Utf8.decodeLossy info.text ++ "\n" ++ gutter ++ "| " ++ marker info d.span

end Diagnostic
end PhpLowering
