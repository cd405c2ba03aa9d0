import PhpLowering.Tree.Stmt

/-!
# The nodes of a tree in the order of the text

`Stmt.nodesOf` lists the nodes of a list of statements: every node before its parts, and
the parts in the order in which they are written.  The clauses of a `try` and the targets
of a destructuring are no nodes themselves, but what they contain is.
-/

namespace PhpLowering

/-- A node of a tree. -/
inductive Node where
  | expr (e : Expr)
  | stmt (s : Stmt)

namespace Expr

mutual

/-- An expression and all that it contains. -/
def subexprs : Expr → List Expr
  | e@(.literal ..) => [e]
  | e@(.var ..) => [e]
  | e@(.constant ..) => [e]
  | e@(.array _ elements) => e :: subexprsOfElements elements
  | e@(.concat _ operands) => e :: subexprsOf operands
  | e@(.call _ _ args) => e :: subexprsOf args
  | e@(.binary _ _ left right) => e :: subexprs left ++ subexprs right
  | e@(.unary _ _ operand) => e :: subexprs operand
  | e@(.incDec _ _ _ target) => e :: subexprs target
  | e@(.conditional _ condition ifTrue ifFalse) =>
    e :: subexprs condition ++ subexprs ifTrue ++ subexprs ifFalse
  | e@(.shortcut _ condition ifFalse) => e :: subexprs condition ++ subexprs ifFalse
  | e@(.list _ targets value) => e :: subexprsOfTargets targets ++ subexprs value
  | e@(.item _ container index) => e :: subexprs container ++ subexprs index
  | e@(.append _ container) => e :: subexprs container
  | e@(.assign _ target value) => e :: subexprs target ++ subexprs value
termination_by structural e => e

/-- Expressions and all that they contain. -/
def subexprsOf : List Expr → List Expr
  | [] => []
  | e :: rest => subexprs e ++ subexprsOf rest
termination_by structural e => e

/-- What the elements of an array literal contain. -/
def subexprsOfElements : List ArrayElement → List Expr
  | [] => []
  | .plain _ value :: rest => subexprs value ++ subexprsOfElements rest
  | .keyed _ key value :: rest => subexprs key ++ subexprs value ++ subexprsOfElements rest
termination_by structural e => e

/-- What the targets of a destructuring contain. -/
def subexprsOfTargets : List ListTarget → List Expr
  | [] => []
  | .skip :: rest => subexprsOfTargets rest
  | .leaf target :: rest => subexprs target ++ subexprsOfTargets rest
  | .nested targets :: rest => subexprsOfTargets targets ++ subexprsOfTargets rest
termination_by structural e => e

end

/-- The nodes of an expression. -/
def nodes (e : Expr) : List Node :=
  e.subexprs.map .expr

end Expr

namespace Stmt

mutual

/-- A statement and all that it contains. -/
def nodes : Stmt → List Node
  | s@(.expression _ e) => .stmt s :: e.nodes
  | s@(.throw _ e) => .stmt s :: e.nodes
  | s@(.constDecl _ _ e) => .stmt s :: e.nodes
  | s@(.echo _ es) => .stmt s :: es.flatMap Expr.nodes
  | s@(.unset _ es) => .stmt s :: es.flatMap Expr.nodes
  | s@(.jump _ _ e) => .stmt s :: e.toList.flatMap Expr.nodes
  | s@(.block _ body) => .stmt s :: nodesOf body
  | s@(.branch _ condition thenBody elseBody) =>
    .stmt s :: condition.nodes ++ nodesOf thenBody ++ nodesOfOptional elseBody
  | s@(.loop _ condition body) => .stmt s :: condition.nodes ++ nodesOf body
  | s@(.tryCatch _ body catches cleanup) =>
    .stmt s :: nodesOf body ++ nodesOfCatches catches ++ nodesOfOptional cleanup
  | s@(.function _ _ body _) => .stmt s :: nodesOf body
  | s@(.goto ..) => [.stmt s]
  | s@(.label ..) => [.stmt s]
  | s@(.empty ..) => [.stmt s]
termination_by structural s => s

/-- Statements and all that they contain. -/
def nodesOf : List Stmt → List Node
  | [] => []
  | s :: rest => nodes s ++ nodesOf rest
termination_by structural s => s

/-- The nodes of a part that may be missing. -/
def nodesOfOptional : Option (List Stmt) → List Node
  | none => []
  | some body => nodesOf body
termination_by structural s => s

/-- The nodes in the clauses of a `try`. -/
def nodesOfCatches : List Catch → List Node
  | [] => []
  | .clause _ _ _ body _ :: rest => nodesOf body ++ nodesOfCatches rest
termination_by structural s => s

end

end Stmt

/-- The names of the variables among the nodes. -/
def Node.variables (nodes : List Node) : List String :=
  nodes.filterMap fun
    | .expr (.var _ name) => some name
    | _ => none

end PhpLowering
