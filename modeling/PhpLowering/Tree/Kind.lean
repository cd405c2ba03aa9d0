/-!
# Kinds of nodes

The kind of a node is what the rule registry is keyed by.  Expressions and statements
have kinds of their own, so a rule for the one can never be asked to handle the other;
`NodeKind` joins the two where a message has to name either.
-/

namespace PhpLowering

/-- The kind of an expression. -/
inductive ExprKind where
  | literal | array | concat | binary | unary | incDec | conditional | list | variable | item
  | assign | call | constant
  deriving DecidableEq, Repr, Inhabited

/-- The kind of a statement. -/
inductive StmtKind where
  | expression | echo | block | branch | loop | jump | goto | label | tryCatch | throw | unset
  | constDecl | function | empty
  deriving DecidableEq, Repr, Inhabited

/-- The kind of any node. -/
inductive NodeKind where
  | expr (kind : ExprKind)
  | stmt (kind : StmtKind)
  deriving DecidableEq, Repr, Inhabited

/-- Every kind of expression. -/
def ExprKind.all : List ExprKind :=
  [.literal, .array, .concat, .binary, .unary, .incDec, .conditional, .list, .variable, .item,
   .assign, .call, .constant]

/-- Every kind of statement. -/
def StmtKind.all : List StmtKind :=
  [.expression, .echo, .block, .branch, .loop, .jump, .goto, .label, .tryCatch, .throw, .unset,
   .constDecl, .function, .empty]

/-- Every kind of node, expressions first. -/
def NodeKind.all : List NodeKind :=
  ExprKind.all.map .expr ++ StmtKind.all.map .stmt

/-- The name of a kind in messages. -/
def ExprKind.name : ExprKind → String
  | .literal => "Literal"
  | .array => "Array"
  | .concat => "Concat"
  | .binary => "Binary"
  | .unary => "Unary"
  | .incDec => "IncDec"
  | .conditional => "Conditional"
  | .list => "List"
  | .variable => "Variable"
  | .item => "Item"
  | .assign => "Assign"
  | .call => "Call"
  | .constant => "Constant"

/-- The name of a kind in messages. -/
def StmtKind.name : StmtKind → String
  | .expression => "ExpressionStmt"
  | .echo => "Echo"
  | .block => "Block"
  | .branch => "If"
  | .loop => "While"
  | .jump => "Jump"
  | .goto => "Goto"
  | .label => "Label"
  | .tryCatch => "Try"
  | .throw => "Throw"
  | .unset => "Unset"
  | .constDecl => "ConstDecl"
  | .function => "FunctionDecl"
  | .empty => "Empty"

/-- The name of a kind in messages. -/
def NodeKind.name : NodeKind → String
  | .expr kind => kind.name
  | .stmt kind => kind.name

end PhpLowering
