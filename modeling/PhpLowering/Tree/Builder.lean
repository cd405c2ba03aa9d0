import PhpLowering.Tree.Stmt

/-!
# Building trees

A builder hands out the numbers of nodes, and for every part of the tree that needs one a
place in a made-up source in which everything is one byte long.  The two counters are
separate, because the clauses of a `try` have a place but no number.
-/

namespace PhpLowering

/-- The next number and the next place. -/
structure Builder where
  /-- How many numbers have been handed out. -/
  nextId : Nat := 0
  cursor : Nat := 0
  deriving DecidableEq, Repr, Inhabited

namespace Builder

/-- A place of one byte. -/
def place : StateM Builder Span := fun b =>
  (⟨b.cursor, b.cursor + 1⟩, { b with cursor := b.cursor + 1 })

/-- The next number. -/
def number : StateM Builder Nat := fun b =>
  (nodeId b.nextId, { b with nextId := b.nextId + 1 })

/-- Makes an expression with a fresh tag. -/
def expr (make : ExprTag → Expr) : StateM Builder Expr := do
  let id ← number
  let span ← place
  return make { id, span }

/-- Makes a statement with a fresh tag. -/
def stmt (make : StmtTag → Stmt) : StateM Builder Stmt := do
  let id ← number
  let span ← place
  return make { id, span }

/-- An element of an array literal, which covers its parts. -/
def element (key : Option Expr) (value : Expr) : ArrayElement :=
  match key with
  | some key => .keyed (key.span.merge value.span) key value
  | none => .plain value.span value

/-- A clause of a `try`. -/
def clause (type : String) (var : Option String) (body : List Stmt) : StateM Builder Catch := do
  return .clause (← place) type var body none

/-- The unit of the statements that were built. -/
def finish (b : Builder) (name : String) (statements : List Stmt) : SourceUnit :=
  { name, statements, nextId := b.nextId, span := ⟨0, b.cursor⟩ }

end Builder
end PhpLowering
