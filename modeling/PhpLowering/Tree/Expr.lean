import PhpLowering.Access
import PhpLowering.Literal.Basic
import PhpLowering.Source.Span
import PhpLowering.Tree.Kind

/-!
# Expressions

A node carries a tag: the number that identifies it in its unit, its place in the
source, and the access that analysis found for it.  Forms that the source language
writes with a part left out are constructors of their own: `shortcut` is the
conditional without a middle part, `append` the item without an index, and an array
element is `plain` or `keyed`.
-/

namespace PhpLowering

/-- The number of the node that is made after so many others.  Numbers have 32 bits: behind the last one the
first one comes again. -/
def nodeId (made : Nat) : Nat :=
  made % UInt32.size

/-- What every expression carries. -/
structure ExprTag where
  id : Nat
  span : Span
  access : Access := .none
  deriving DecidableEq, Repr, Inhabited

/-- The operators with two operands. -/
inductive BinaryOp where
  | add | sub | mul | identical | notIdentical | lessThan | greaterThan
  deriving DecidableEq, Repr, Inhabited

/-- The operators with one operand. -/
inductive UnaryOp where
  | plus | minus | logicNot | bitNot
  /-- The operator `@`, which silences the notices of its operand. -/
  | silence
  | print | clone | intCast | doubleCast | stringCast | binaryCast | boolCast | unsetCast
  deriving DecidableEq, Repr, Inhabited

/-- Every operator with two operands. -/
def BinaryOp.all : List BinaryOp :=
  [.add, .sub, .mul, .identical, .notIdentical, .lessThan, .greaterThan]

/-- The name of an operator. -/
def BinaryOp.name : BinaryOp → String
  | .add => "Add"
  | .sub => "Sub"
  | .mul => "Mul"
  | .identical => "Identical"
  | .notIdentical => "NotIdentical"
  | .lessThan => "LessThan"
  | .greaterThan => "GreaterThan"

/-- Every operator with one operand. -/
def UnaryOp.all : List UnaryOp :=
  [.plus, .minus, .logicNot, .bitNot, .silence, .print, .clone, .intCast, .doubleCast,
   .stringCast, .binaryCast, .boolCast, .unsetCast]

/-- The name of an operator. -/
def UnaryOp.name : UnaryOp → String
  | .plus => "Plus"
  | .minus => "Minus"
  | .logicNot => "LogicNot"
  | .bitNot => "BitNot"
  | .silence => "Silence"
  | .print => "Print"
  | .clone => "Clone"
  | .intCast => "IntCast"
  | .doubleCast => "DoubleCast"
  | .stringCast => "StringCast"
  | .binaryCast => "BinaryCast"
  | .boolCast => "BoolCast"
  | .unsetCast => "UnsetCast"

mutual

/-- An expression. -/
inductive Expr where
  | literal (tag : ExprTag) (value : Literal)
  | array (tag : ExprTag) (elements : List ArrayElement)
  /-- The operator `.` on any number of operands. -/
  | concat (tag : ExprTag) (operands : List Expr)
  | binary (tag : ExprTag) (op : BinaryOp) (left right : Expr)
  | unary (tag : ExprTag) (op : UnaryOp) (operand : Expr)
  /-- The operators `++` and `--`, before their target or (`post`) after it. -/
  | incDec (tag : ExprTag) (increment post : Bool) (target : Expr)
  | conditional (tag : ExprTag) (condition ifTrue ifFalse : Expr)
  /-- The conditional whose condition is also its value when true. -/
  | shortcut (tag : ExprTag) (condition ifFalse : Expr)
  /-- Destructuring: `value` is an array whose elements go to the targets. -/
  | list (tag : ExprTag) (targets : List ListTarget) (value : Expr)
  | var (tag : ExprTag) (name : String)
  | item (tag : ExprTag) (container index : Expr)
  /-- The location one past the end of an array. -/
  | append (tag : ExprTag) (container : Expr)
  | assign (tag : ExprTag) (target value : Expr)
  | call (tag : ExprTag) (name : String) (args : List Expr)
  | constant (tag : ExprTag) (name : String)

/-- An element of an array literal. -/
inductive ArrayElement where
  | plain (span : Span) (value : Expr)
  | keyed (span : Span) (key value : Expr)

/-- One position of a destructuring. -/
inductive ListTarget where
  | skip
  | leaf (target : Expr)
  | nested (targets : List ListTarget)

end

instance : Inhabited Expr := ⟨.constant default ""⟩

namespace Expr

/-- The tag of an expression. -/
def tag : Expr → ExprTag
  | .literal t _ | .array t _ | .concat t _ | .binary t .. | .unary t .. | .incDec t ..
  | .conditional t .. | .shortcut t .. | .list t .. | .var t _ | .item t .. | .append t _
  | .assign t .. | .call t .. | .constant t _ => t

/-- The same expression with another tag. -/
def withTag (t : ExprTag) : Expr → Expr
  | .literal _ v => .literal t v
  | .array _ es => .array t es
  | .concat _ os => .concat t os
  | .binary _ op l r => .binary t op l r
  | .unary _ op e => .unary t op e
  | .incDec _ inc post e => .incDec t inc post e
  | .conditional _ c a b => .conditional t c a b
  | .shortcut _ c b => .shortcut t c b
  | .list _ ts v => .list t ts v
  | .var _ n => .var t n
  | .item _ a i => .item t a i
  | .append _ a => .append t a
  | .assign _ a b => .assign t a b
  | .call _ n as => .call t n as
  | .constant _ n => .constant t n

/-- The number of a node. -/
def id (e : Expr) : Nat := e.tag.id

/-- The place of a node in the source. -/
def span (e : Expr) : Span := e.tag.span

/-- The use that is made of a node. -/
def access (e : Expr) : Access := e.tag.access

/-- The same expression, used in another way. -/
def withAccess (access : Access) (e : Expr) : Expr :=
  e.withTag { e.tag with access }

/-- The kind of an expression. -/
def kind : Expr → ExprKind
  | .literal .. => .literal
  | .array .. => .array
  | .concat .. => .concat
  | .binary .. => .binary
  | .unary .. => .unary
  | .incDec .. => .incDec
  | .conditional .. | .shortcut .. => .conditional
  | .list .. => .list
  | .var .. => .variable
  | .item .. | .append .. => .item
  | .assign .. => .assign
  | .call .. => .call
  | .constant .. => .constant

/-- The value of a literal node. -/
def value? : Expr → Option Literal
  | .literal _ v => some v
  | _ => none

/-- Whether an expression designates a storage location. -/
def isPlace : Expr → Bool
  | .var .. | .item .. | .append .. => true
  | _ => false

/-- Whether an expression may be evaluated twice without anyone noticing. -/
def isRepeatable : Expr → Bool
  | .literal .. | .var .. => true
  | _ => false

@[simp] theorem tag_withTag (t : ExprTag) (e : Expr) : (e.withTag t).tag = t := by
  cases e <;> rfl

@[simp] theorem kind_withTag (t : ExprTag) (e : Expr) : (e.withTag t).kind = e.kind := by
  cases e <;> rfl

@[simp] theorem kind_withAccess (a : Access) (e : Expr) : (e.withAccess a).kind = e.kind :=
  kind_withTag _ e

end Expr

/-- The span of an element: its key and its value together. -/
def ArrayElement.span : ArrayElement → Span
  | .plain s _ => s
  | .keyed s .. => s

end PhpLowering
