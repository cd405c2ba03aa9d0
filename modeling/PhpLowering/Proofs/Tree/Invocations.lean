import PhpLowering.Code.Instruction
import PhpLowering.Tree.Walk

/-!
# The calls in an expression

The function calls of an expression are listed in the order in which they are made: what a node
contains comes before the node (`Expr.postorder`), so the arguments of a call come before the call.

Code that addresses a location twice evaluates most of what it finds twice.  Only the indices of
items are kept from the first `Round` to the second one.  `Expr.invoked` lists the calls that an
expression makes in either round.  In the first round these are all its calls, unless there is an
increment or a destructuring in it (`Expr.invoked_first`); in the second round, the calls on the
way to an index are all that is left, and those at the root of a chain of items are made again
(`Expr.invoked_again`).
-/

namespace PhpLowering

/-- A call of a function: its name and the number of its arguments. -/
structure Invocation where
  name : String
  argCount : Nat
  deriving DecidableEq, Repr

/-- The call that an instruction makes. -/
def Instruction.invocation? : Instruction → Option Invocation
  | .callFunction name argCount => some ⟨name, argCount⟩
  | _ => none

namespace Expr

/-- The call that a node is. -/
def invocation? : Expr → Option Invocation
  | .call _ name args => some ⟨name, args.length⟩
  | _ => none

mutual

/-- All that an expression contains, and then the expression. -/
def postorder : Expr → List Expr
  | e@(.literal ..) => [e]
  | e@(.var ..) => [e]
  | e@(.constant ..) => [e]
  | e@(.array _ elements) => postorderOfElements elements ++ [e]
  | e@(.concat _ operands) => postorderOf operands ++ [e]
  | e@(.call _ _ args) => postorderOf args ++ [e]
  | e@(.binary _ _ left right) => postorder left ++ postorder right ++ [e]
  | e@(.unary _ _ operand) => postorder operand ++ [e]
  | e@(.incDec _ _ _ target) => postorder target ++ [e]
  | e@(.conditional _ condition ifTrue ifFalse) =>
    postorder condition ++ postorder ifTrue ++ postorder ifFalse ++ [e]
  | e@(.shortcut _ condition ifFalse) => postorder condition ++ postorder ifFalse ++ [e]
  | e@(.list _ targets value) => postorderOfTargets targets ++ postorder value ++ [e]
  | e@(.item _ container index) => postorder container ++ postorder index ++ [e]
  | e@(.append _ container) => postorder container ++ [e]
  | e@(.assign _ target value) => postorder target ++ postorder value ++ [e]
termination_by structural e => e

/-- Expressions in a row, each behind what it contains. -/
def postorderOf : List Expr → List Expr
  | [] => []
  | e :: rest => postorder e ++ postorderOf rest
termination_by structural es => es

/-- What the elements of an array literal contain. -/
def postorderOfElements : List ArrayElement → List Expr
  | [] => []
  | .plain _ value :: rest => postorder value ++ postorderOfElements rest
  | .keyed _ key value :: rest => postorder key ++ postorder value ++ postorderOfElements rest
termination_by structural es => es

/-- What the targets of a destructuring contain. -/
def postorderOfTargets : List ListTarget → List Expr
  | [] => []
  | .skip :: rest => postorderOfTargets rest
  | .leaf target :: rest => postorder target ++ postorderOfTargets rest
  | .nested targets :: rest => postorderOfTargets targets ++ postorderOfTargets rest
termination_by structural es => es

end

/-- The calls in an expression, arguments before the call and parts in the order of the text. -/
def calls (e : Expr) : List Invocation :=
  e.postorder.filterMap invocation?

/-- There is no increment, no decrement and no destructuring in an expression. -/
def Direct (e : Expr) : Prop :=
  ∀ x ∈ e.subexprs, x.kind ≠ .incDec ∧ x.kind ≠ .list

instance : DecidablePred Direct := fun e =>
  inferInstanceAs (Decidable (∀ x ∈ e.subexprs, x.kind ≠ .incDec ∧ x.kind ≠ .list))

/-! ## The two rounds -/

/-- How often the location at hand has been addressed. -/
inductive Round where
  | first | again
  deriving DecidableEq, Repr

mutual

/-- The calls that an expression makes in a round.  The index of an item is evaluated in the first
round only.  Assignments, increments and the targets of a destructuring address locations of their
own; the latter are emitted twice, for an array and for any other value, from the last to the
first. -/
def invoked : Round → Expr → List Invocation
  | _, .literal .. => []
  | _, .var .. => []
  | _, .constant .. => []
  | round, .array _ elements => invokedElements round elements
  | round, .concat _ operands => invokedAll round operands
  | round, .call _ name args => invokedAll round args ++ [⟨name, args.length⟩]
  | round, .binary _ _ left right => invoked round left ++ invoked round right
  | round, .unary _ _ operand => invoked round operand
  | round, .conditional _ condition ifTrue ifFalse =>
    invoked round condition ++ invoked round ifTrue ++ invoked round ifFalse
  | round, .shortcut _ condition ifFalse => invoked round condition ++ invoked round ifFalse
  | .first, .item _ container index => invoked .first container ++ invoked .first index
  | .again, .item _ container _ => invoked .again container
  | round, .append _ container => invoked round container
  | _, .assign _ target value => invoked .first target ++ invoked .first value
  | _, .incDec _ _ _ target => invoked .first target ++ invoked .again target
  | round, .list _ targets value =>
    invoked round value ++ invokedTargets targets ++ invokedNulls targets
termination_by structural _ e => e

/-- The calls that expressions in a row make in a round. -/
def invokedAll : Round → List Expr → List Invocation
  | _, [] => []
  | round, e :: rest => invoked round e ++ invokedAll round rest
termination_by structural _ es => es

/-- The calls that the elements of an array literal make in a round. -/
def invokedElements : Round → List ArrayElement → List Invocation
  | _, [] => []
  | round, .plain _ value :: rest => invoked round value ++ invokedElements round rest
  | round, .keyed _ key value :: rest =>
    invoked round key ++ invoked round value ++ invokedElements round rest
termination_by structural _ es => es

/-- The calls that the targets of a destructuring make to get the elements of an array. -/
def invokedTargets : List ListTarget → List Invocation
  | [] => []
  | .skip :: rest => invokedTargets rest
  | .leaf target :: rest => invokedTargets rest ++ invoked .first target
  | .nested targets :: rest => invokedTargets rest ++ invokedTargets targets ++ invokedNulls targets
termination_by structural es => es

/-- The calls that the targets of a destructuring make to get nothing. -/
def invokedNulls : List ListTarget → List Invocation
  | [] => []
  | .skip :: rest => invokedNulls rest
  | .leaf target :: rest => invokedNulls rest ++ invoked .first target
  | .nested targets :: rest => invokedNulls rest ++ invokedNulls targets
termination_by structural es => es

end

mutual

/-- **Without increments and destructurings, the first round makes every call once and in order.** -/
theorem invoked_first : ∀ e : Expr, e.Direct → invoked .first e = e.calls
  | .literal .., _ => rfl
  | .var .., _ => rfl
  | .constant .., _ => rfl
  | .array _ elements, h => by
    simp [invoked, calls, postorder, invocation?, invokedElements_first elements fun x hx =>
      h x (List.mem_cons_of_mem _ hx)]
  | .concat _ operands, h => by
    simp [invoked, calls, postorder, invocation?, invokedAll_first operands fun x hx =>
      h x (List.mem_cons_of_mem _ hx)]
  | .call _ _ args, h => by
    simp [invoked, calls, postorder, invocation?, invokedAll_first args fun x hx =>
      h x (List.mem_cons_of_mem _ hx)]
  | .binary _ _ left right, h => by
    obtain ⟨-, hparts⟩ := List.forall_mem_cons.mp h
    obtain ⟨hleft, hright⟩ := List.forall_mem_append.mp hparts
    simp [invoked, invoked_first left hleft, invoked_first right hright, calls, postorder, invocation?]
  | .unary _ _ operand, h => by
    obtain ⟨-, hoperand⟩ := List.forall_mem_cons.mp h
    simp [invoked, invoked_first operand hoperand, calls, postorder, invocation?]
  | .conditional _ condition ifTrue ifFalse, h => by
    obtain ⟨-, hparts⟩ := List.forall_mem_cons.mp h
    obtain ⟨hparts, hfalse⟩ := List.forall_mem_append.mp hparts
    obtain ⟨hcondition, htrue⟩ := List.forall_mem_append.mp hparts
    simp [invoked, invoked_first condition hcondition, invoked_first ifTrue htrue,
      invoked_first ifFalse hfalse, calls, postorder, invocation?]
  | .shortcut _ condition ifFalse, h => by
    obtain ⟨-, hparts⟩ := List.forall_mem_cons.mp h
    obtain ⟨hcondition, hfalse⟩ := List.forall_mem_append.mp hparts
    simp [invoked, invoked_first condition hcondition, invoked_first ifFalse hfalse, calls, postorder,
      invocation?]
  | .item _ container index, h => by
    obtain ⟨-, hparts⟩ := List.forall_mem_cons.mp h
    obtain ⟨hcontainer, hindex⟩ := List.forall_mem_append.mp hparts
    simp [invoked, invoked_first container hcontainer, invoked_first index hindex, calls, postorder,
      invocation?]
  | .append _ container, h => by
    obtain ⟨-, hcontainer⟩ := List.forall_mem_cons.mp h
    simp [invoked, invoked_first container hcontainer, calls, postorder, invocation?]
  | .assign _ target value, h => by
    obtain ⟨-, hparts⟩ := List.forall_mem_cons.mp h
    obtain ⟨htarget, hvalue⟩ := List.forall_mem_append.mp hparts
    simp [invoked, invoked_first target htarget, invoked_first value hvalue, calls, postorder,
      invocation?]
  | .incDec .., h => absurd rfl (h _ List.mem_cons_self).1
  | .list .., h => absurd rfl (h _ List.mem_cons_self).2
termination_by structural e => e

theorem invokedAll_first : ∀ es : List Expr, (∀ x ∈ subexprsOf es, x.kind ≠ .incDec ∧ x.kind ≠ .list) →
    invokedAll .first es = (postorderOf es).filterMap invocation?
  | [], _ => rfl
  | e :: rest, h => by
    obtain ⟨he, hrest⟩ := List.forall_mem_append.mp h
    simp [invokedAll, postorderOf, invoked_first e he, invokedAll_first rest hrest, calls]
termination_by structural es => es

theorem invokedElements_first : ∀ es : List ArrayElement,
    (∀ x ∈ subexprsOfElements es, x.kind ≠ .incDec ∧ x.kind ≠ .list) →
    invokedElements .first es = (postorderOfElements es).filterMap invocation?
  | [], _ => rfl
  | .plain _ value :: rest, h => by
    obtain ⟨hvalue, hrest⟩ := List.forall_mem_append.mp h
    simp [invokedElements, postorderOfElements, invoked_first value hvalue,
      invokedElements_first rest hrest, calls]
  | .keyed _ key value :: rest, h => by
    obtain ⟨hparts, hrest⟩ := List.forall_mem_append.mp h
    obtain ⟨hkey, hvalue⟩ := List.forall_mem_append.mp hparts
    simp [invokedElements, postorderOfElements, invoked_first key hkey, invoked_first value hvalue,
      invokedElements_first rest hrest, calls]
termination_by structural es => es

end

/-- What a chain of items starts with. -/
def root : Expr → Expr
  | .item _ container _ => container.root
  | .append _ container => container.root
  | e => e

/-- **The calls that a chain of items makes again are those that its root makes again.** -/
theorem invoked_again : ∀ e : Expr, invoked .again e = invoked .again e.root
  | .item _ container _ => invoked_again container
  | .append _ container => invoked_again container
  | .literal .. | .array .. | .concat .. | .binary .. | .unary .. | .incDec .. | .conditional ..
  | .shortcut .. | .list .. | .var .. | .assign .. | .call .. | .constant .. => rfl

/-! ## Indices that are kept -/

mutual

/-- The numbers of the indices that are kept once an expression has been evaluated: those that can
be reached without entering another chain. -/
def operands : Expr → List Nat
  | .literal .. => []
  | .var .. => []
  | .constant .. => []
  | .array _ elements => operandsOfElements elements
  | .concat _ es => operandsOf es
  | .call _ _ args => operandsOf args
  | .binary _ _ left right => operands left ++ operands right
  | .unary _ _ operand => operands operand
  | .conditional _ condition ifTrue ifFalse =>
    operands condition ++ operands ifTrue ++ operands ifFalse
  | .shortcut _ condition ifFalse => operands condition ++ operands ifFalse
  | .item _ container index =>
    operands container ++ if index.isRepeatable then [] else [index.id]
  | .append _ container => operands container
  | .assign .. => []
  | .incDec .. => []
  | .list _ _ value => operands value
termination_by structural e => e

/-- The indices that are kept of expressions in a row. -/
def operandsOf : List Expr → List Nat
  | [] => []
  | e :: rest => operands e ++ operandsOf rest
termination_by structural es => es

/-- The indices that are kept of the elements of an array literal. -/
def operandsOfElements : List ArrayElement → List Nat
  | [] => []
  | .plain _ value :: rest => operands value ++ operandsOfElements rest
  | .keyed _ key value :: rest => operands key ++ operands value ++ operandsOfElements rest
termination_by structural es => es

end

end Expr
end PhpLowering
