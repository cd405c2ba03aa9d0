import PhpLowering.Lowering.Assignment
import PhpLowering.Lowering.Operator

/-!
# Code of expressions

The code of an expression for every use that can be made of it.  The recursion follows the
tree; what each kind of expression makes of the code of its parts is in the modules this
one imports.  The targets of a destructuring are assigned from the last to the first.
-/

namespace PhpLowering
namespace Lowering

variable {σ : Type} [Sink σ] (cfg : Setting)

mutual

/-- The code of an expression. -/
def lower : Expr → Code σ
  | .literal tag v => byRule cfg .literal tag fun _ => valueCode .literal (literalValue tag.access v)
  | .constant tag name => byRule cfg .constant tag fun _ =>
    valueCode .constant (constantValue tag.access name)
  | .var tag name => byRule cfg .variable tag fun _ =>
    (variablePlace name).code .variable tag.access
  | .item tag container index => byRule cfg .item tag fun _ =>
    (itemPlace (lower container) (chainOperand index (lower index))).code .item tag.access
  | .append tag container => byRule cfg .item tag fun _ =>
    (appendPlace (lower container)).code .item tag.access
  | .array tag elements => byRule cfg .array tag fun home =>
    valueCode .array (arrayValue tag.access home (storeElements elements))
  | .concat tag operands => byRule cfg .concat tag fun _ =>
    valueCode .concat (concatValue tag.access (lowerAll operands))
  | .binary tag op left right => byRule cfg .binary tag fun _ =>
    valueCode .binary (binaryValue tag.access op (lower left) (lower right))
  | .unary tag op operand => byRule cfg .unary tag fun _ =>
    valueCode .unary (unaryValue tag.access op (lower operand))
  | .incDec tag increment post target => byRule cfg .incDec tag fun _ =>
    valueCode .incDec (incDecValue cfg tag.access increment post target (lower target))
  | .conditional tag condition ifTrue ifFalse => byRule cfg .conditional tag fun _ =>
    valueCode .conditional
      (conditionalValue tag.access (lower condition) (lower ifTrue) (lower ifFalse))
  | .shortcut tag condition ifFalse => byRule cfg .conditional tag fun _ =>
    valueCode .conditional (shortcutValue tag.access (lower condition) (lower ifFalse))
  | .list tag targets value => byRule cfg .list tag fun _ =>
    valueCode .list
      (listValue tag.access (lower value) (unpack (assignElements 0 targets) (assignNulls targets)))
  | .assign tag target value => byRule cfg .assign tag fun _ =>
    valueCode .assign (assignValue tag.access (lower target) value (lower value))
  | .call tag name args => byRule cfg .call tag fun _ =>
    valueCode .call (callValue tag.access name (lowerAll args))
termination_by structural e => e

/-- Expressions, each with its code. -/
def lowerAll : List Expr → List (Expr × Code σ)
  | [] => []
  | e :: rest => (e, lower e) :: lowerAll rest
termination_by structural es => es

/-- Stores elements into the array on top of the stack. -/
def storeElements : List ArrayElement → Emit σ Unit
  | [] => return
  | .plain _ value :: rest => do
    storePlain value (lower value)
    storeElements rest
  | .keyed _ key value :: rest => do
    storeKeyed (lower key) value (lower value)
    storeElements rest
termination_by structural es => es

/-- Assigns the elements of the array on top of the stack, from a position on. -/
def assignElements : Nat → List ListTarget → Emit σ Unit
  | _, [] => return
  | index, .skip :: rest => assignElements (index + 1) rest
  | index, .leaf target :: rest => do
    assignElements (index + 1) rest
    assignElement index (lower target)
  | index, .nested targets :: rest => do
    assignElements (index + 1) rest
    fetch index
    unpack (assignElements 0 targets) (assignNulls targets)
termination_by structural _ es => es

/-- Assigns null to all targets. -/
def assignNulls : List ListTarget → Emit σ Unit
  | [] => return
  | .skip :: rest => assignNulls rest
  | .leaf target :: rest => do
    assignNulls rest
    assignNull (lower target)
  | .nested targets :: rest => do
    assignNulls rest
    assignNulls targets
termination_by structural es => es

end

theorem map_lowerAll (es : List Expr) : (lowerAll cfg es : List (Expr × Code σ)).map Prod.fst = es := by
  induction es with
  | nil => rfl
  | cons e rest ih => rw [lowerAll, List.map_cons, ih]

theorem length_lowerAll (es : List Expr) : (lowerAll cfg es : List (Expr × Code σ)).length = es.length := by
  rw [← List.length_map (f := Prod.fst), map_lowerAll]

end Lowering
end PhpLowering
