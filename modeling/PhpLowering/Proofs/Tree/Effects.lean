import PhpLowering.Analysis.Concat
import PhpLowering.Tree.Walk

/-!
# The effects of an expression

A node whose evaluation can be noticed has a number, and the effects of an expression are these
numbers in the order of the text: variables, items, calls, assignments, increments,
destructurings and array literals.  Where a condition is `decided` ahead of time only the part
that it selects can ever run, so the other one does not count (`Expr.selected`).

Nothing is said of operators, conditionals and concatenations themselves: what matters is that
the effects within them are all there, each as often as before and in the same order.
-/

namespace PhpLowering
namespace Expr

/-- The number of a node whose evaluation can be noticed. -/
def effect? : Expr → Option Nat
  | .var tag _ | .item tag .. | .append tag _ | .call tag .. | .assign tag .. | .incDec tag ..
  | .list tag .. | .array tag _ => some tag.id
  | .literal .. | .constant .. | .concat .. | .binary .. | .unary .. | .conditional ..
  | .shortcut .. => none

variable (decided : Expr → Option Bool)

mutual

/-- The expression with every conditional whose condition is decided replaced by the part that is
selected; that of a shortcut with a true condition is the condition itself. -/
def selected : Expr → Expr
  | .conditional tag condition ifTrue ifFalse =>
    match decided condition with
    | some true => selected ifTrue
    | some false => selected ifFalse
    | none => .conditional tag (selected condition) (selected ifTrue) (selected ifFalse)
  | .shortcut tag condition ifFalse =>
    match decided condition with
    | some true => selected condition
    | some false => selected ifFalse
    | none => .shortcut tag (selected condition) (selected ifFalse)
  | .literal tag v => .literal tag v
  | .var tag name => .var tag name
  | .constant tag name => .constant tag name
  | .array tag elements => .array tag (selectedElements elements)
  | .concat tag operands => .concat tag (selectedAll operands)
  | .binary tag op left right => .binary tag op (selected left) (selected right)
  | .unary tag op operand => .unary tag op (selected operand)
  | .incDec tag increment post target => .incDec tag increment post (selected target)
  | .list tag targets value => .list tag (selectedTargets targets) (selected value)
  | .item tag container index => .item tag (selected container) (selected index)
  | .append tag container => .append tag (selected container)
  | .assign tag target value => .assign tag (selected target) (selected value)
  | .call tag name args => .call tag name (selectedAll args)
termination_by structural e => e

/-- Expressions in a row, each with the selected parts only. -/
def selectedAll : List Expr → List Expr
  | [] => []
  | e :: rest => selected e :: selectedAll rest
termination_by structural es => es

/-- The elements of an array literal with the selected parts only. -/
def selectedElements : List ArrayElement → List ArrayElement
  | [] => []
  | .plain span value :: rest => .plain span (selected value) :: selectedElements rest
  | .keyed span key value :: rest =>
    .keyed span (selected key) (selected value) :: selectedElements rest
termination_by structural es => es

/-- The targets of a destructuring with the selected parts only. -/
def selectedTargets : List ListTarget → List ListTarget
  | [] => []
  | .skip :: rest => .skip :: selectedTargets rest
  | .leaf target :: rest => .leaf (selected target) :: selectedTargets rest
  | .nested targets :: rest => .nested (selectedTargets targets) :: selectedTargets rest
termination_by structural es => es

end

/-- The effects of an expression, in the order of the text. -/
def effects (e : Expr) : List Nat :=
  (e.selected decided).subexprs.filterMap effect?

/-- The effects of expressions in a row. -/
def effectsOf (es : List Expr) : List Nat :=
  (subexprsOf (selectedAll decided es)).filterMap effect?

/-- The effects of the elements of an array literal. -/
def effectsOfElements (es : List ArrayElement) : List Nat :=
  (subexprsOfElements (selectedElements decided es)).filterMap effect?

/-- The effects of the targets of a destructuring. -/
def effectsOfTargets (es : List ListTarget) : List Nat :=
  (subexprsOfTargets (selectedTargets decided es)).filterMap effect?

/-! ## The effects of a node by those of its parts -/

variable {decided} {tag : ExprTag} {name : String} {e a b c : Expr} {es es' : List Expr}

@[simp] theorem effects_literal {v : Literal} : effects decided (.literal tag v) = [] := rfl

@[simp] theorem effects_constant : effects decided (.constant tag name) = [] := rfl

@[simp] theorem effects_var : effects decided (.var tag name) = [tag.id] := rfl

@[simp] theorem effects_array {elements : List ArrayElement} :
    effects decided (.array tag elements) = tag.id :: effectsOfElements decided elements := rfl

@[simp] theorem effects_concat : effects decided (.concat tag es) = effectsOf decided es := rfl

@[simp] theorem effects_call : effects decided (.call tag name es) = tag.id :: effectsOf decided es :=
  rfl

@[simp] theorem effects_binary {op : BinaryOp} :
    effects decided (.binary tag op a b) = effects decided a ++ effects decided b :=
  List.filterMap_append

@[simp] theorem effects_unary {op : UnaryOp} :
    effects decided (.unary tag op a) = effects decided a := rfl

@[simp] theorem effects_incDec {increment post : Bool} :
    effects decided (.incDec tag increment post a) = tag.id :: effects decided a := rfl

@[simp] theorem effects_list {targets : List ListTarget} :
    effects decided (.list tag targets a) =
      tag.id :: (effectsOfTargets decided targets ++ effects decided a) :=
  congrArg (tag.id :: ·) List.filterMap_append

@[simp] theorem effects_item :
    effects decided (.item tag a b) = tag.id :: (effects decided a ++ effects decided b) :=
  congrArg (tag.id :: ·) List.filterMap_append

@[simp] theorem effects_append : effects decided (.append tag a) = tag.id :: effects decided a := rfl

@[simp] theorem effects_assign :
    effects decided (.assign tag a b) = tag.id :: (effects decided a ++ effects decided b) :=
  congrArg (tag.id :: ·) List.filterMap_append

theorem effects_conditional :
    effects decided (.conditional tag c a b) =
      match decided c with
      | some true => effects decided a
      | some false => effects decided b
      | none => effects decided c ++ effects decided a ++ effects decided b := by
  rw [effects, selected]
  cases decided c with
  | none => exact List.filterMap_append.trans (congrArg (· ++ _) List.filterMap_append)
  | some t => cases t <;> rfl

theorem effects_shortcut :
    effects decided (.shortcut tag c b) =
      match decided c with
      | some true => effects decided c
      | some false => effects decided b
      | none => effects decided c ++ effects decided b := by
  rw [effects, selected]
  cases decided c with
  | none => exact List.filterMap_append
  | some t => cases t <;> rfl

@[simp] theorem effectsOf_nil : effectsOf decided [] = [] := rfl

@[simp] theorem effectsOf_cons : effectsOf decided (e :: es) = effects decided e ++ effectsOf decided es :=
  List.filterMap_append

@[simp] theorem effectsOf_append :
    effectsOf decided (es ++ es') = effectsOf decided es ++ effectsOf decided es' := by
  induction es with
  | nil => rfl
  | cons e rest ih => rw [List.cons_append, effectsOf_cons, ih, effectsOf_cons, List.append_assoc]

@[simp] theorem effectsOfElements_plain {span : Span} {rest : List ArrayElement} :
    effectsOfElements decided (.plain span a :: rest) =
      effects decided a ++ effectsOfElements decided rest :=
  List.filterMap_append

@[simp] theorem effectsOfElements_keyed {span : Span} {rest : List ArrayElement} :
    effectsOfElements decided (.keyed span a b :: rest) =
      effects decided a ++ effects decided b ++ effectsOfElements decided rest := by
  simp [effectsOfElements, selectedElements, subexprsOfElements, effects]

@[simp] theorem effectsOfTargets_skip {rest : List ListTarget} :
    effectsOfTargets decided (.skip :: rest) = effectsOfTargets decided rest := rfl

@[simp] theorem effectsOfTargets_leaf {rest : List ListTarget} :
    effectsOfTargets decided (.leaf a :: rest) = effects decided a ++ effectsOfTargets decided rest :=
  List.filterMap_append

@[simp] theorem effectsOfTargets_nested {targets rest : List ListTarget} :
    effectsOfTargets decided (.nested targets :: rest) =
      effectsOfTargets decided targets ++ effectsOfTargets decided rest :=
  List.filterMap_append

/-! ## Nested concatenations -/

mutual

theorem effectsOf_leaves : ∀ e : Expr, effectsOf decided (Concat.leaves e) = effects decided e
  | .concat _ operands => effectsOf_flatten operands
  | .literal .. | .array .. | .binary .. | .unary .. | .incDec .. | .conditional .. | .shortcut ..
  | .list .. | .var .. | .item .. | .append .. | .assign .. | .call .. | .constant .. =>
    effectsOf_cons.trans (List.append_nil _)
termination_by structural e => e

/-- **Opening up nested concatenations does not change the effects.** -/
theorem effectsOf_flatten : ∀ es : List Expr,
    effectsOf decided (Concat.flatten es) = effectsOf decided es
  | [] => rfl
  | e :: rest => by
    rw [Concat.flatten, effectsOf_append, effectsOf_leaves e, effectsOf_flatten rest, effectsOf_cons]
termination_by structural es => es

end

end Expr
end PhpLowering
