import PhpLowering.Tree.Expr

/-!
# What analysing an expression finds

Either the expression has a value at compile time, or it has to be evaluated at run time.
In the first case the analysed node is kept as well: a parent that cannot fold falls back
to it, with `literalize` putting the value in its place.

New nodes need new numbers, so the functions that make one are told how many have been
handed out, and answer with how many there are then.
-/

namespace PhpLowering

/-- What analysing an expression finds. -/
inductive Evaluation where
  /-- The expression has a value. -/
  | value (value : Literal) (node : Expr)
  /-- The expression is left to run time. -/
  | residual (node : Expr)
  deriving Inhabited

namespace Evaluation

/-- An evaluation from a node and the value that it may have. -/
def ofParts (node : Expr) : Option Literal → Evaluation
  | some v => .value v node
  | none => .residual node

/-- The value, if there is one. -/
def value? : Evaluation → Option Literal
  | .value v _ => some v
  | .residual _ => none

/-- The analysed node. -/
def node : Evaluation → Expr
  | .value _ e => e
  | .residual e => e

/-- Whether there is a value. -/
def hasValue (e : Evaluation) : Bool :=
  e.value?.isSome

/-- The node to keep when the parent does not fold: a literal in place of an expression with a
value.  A node that is a literal already stays as it is. -/
def literalize (e : Evaluation) (nextId : Nat) : Expr × Nat :=
  match e with
  | .residual node => (node, nextId)
  | .value v node =>
    match node with
    | .literal .. => (node, nextId)
    | _ => (.literal { node.tag with id := nodeId nextId } v, nextId + 1)

/-- Folds an operator with one operand: the operand to keep, and the value if there is one.  The
operand is literalized only if the operator could not be folded. -/
def evaluate (e : Evaluation) (fold : Literal → Option Literal) (nextId : Nat) :
    (Expr × Option Literal) × Nat :=
  match e.value?.bind fold with
  | some v => ((e.node, some v), nextId)
  | none => let (node, nextId) := e.literalize nextId; ((node, none), nextId)

/-- Folds an operator with two operands. -/
def evaluatePair (left right : Evaluation) (fold : Literal → Literal → Option Literal) (nextId : Nat) :
    (Expr × Expr × Option Literal) × Nat :=
  match left.value?, right.value? with
  | some l, some r =>
    match fold l r with
    | some v => ((left.node, right.node, some v), nextId)
    | none => literalizeBoth left right nextId
  | _, _ => literalizeBoth left right nextId
where
  /-- Keeps both operands for run time, the left one first. -/
  literalizeBoth (left right : Evaluation) (nextId : Nat) : (Expr × Expr × Option Literal) × Nat :=
    let (l, nextId) := left.literalize nextId
    let (r, nextId) := right.literalize nextId
    ((l, r, none), nextId)

/-- The value of an operator, with no node touched. -/
def peek (e : Evaluation) (fold : Literal → Option Literal) : Option Literal :=
  e.value?.bind fold

end Evaluation
end PhpLowering
