import PhpLowering.Proofs.Tree.Roles

/-!
# Numbers and targets of nodes

Two things are listed along a tree: the numbers of its nodes, and what its nodes store to.  An
assignment, an increment and a destructuring are there to store to something, and so is the
statement that removes locations.  Literals are left out of the numbers, because analysis puts
literals where other nodes have been and finds numbers for them itself.
-/

namespace PhpLowering
namespace Expr

/-- The number of a node that is no literal. -/
def number? : Expr → Option Nat
  | .literal .. => none
  | e => some e.id

/-- The numbers of the nodes of an expression, those of literals left out. -/
def numbers (e : Expr) : List Nat :=
  e.subexprs.filterMap number?

/-- The numbers of the nodes of expressions in a row. -/
def numbersOf (es : List Expr) : List Nat :=
  (subexprsOf es).filterMap number?

/-- The numbers of the nodes in the elements of an array literal. -/
def numbersOfElements (es : List ArrayElement) : List Nat :=
  (subexprsOfElements es).filterMap number?

/-- The numbers of the nodes in the targets of a destructuring. -/
def numbersOfTargets (es : List ListTarget) : List Nat :=
  (subexprsOfTargets es).filterMap number?

/-- What a node stores to. -/
def targets (e : Expr) : List Expr :=
  (Node.expr e).targets

/-- Whether a node is there to store to something. -/
def stores : Expr → Bool
  | .assign .. | .incDec .. | .list .. => true
  | _ => false

/-- What an expression stores to. -/
def written (e : Expr) : List Expr :=
  e.subexprs.flatMap targets

/-- What expressions in a row store to. -/
def writtenOf (es : List Expr) : List Expr :=
  (subexprsOf es).flatMap targets

/-- What the elements of an array literal store to. -/
def writtenOfElements (es : List ArrayElement) : List Expr :=
  (subexprsOfElements es).flatMap targets

/-- What is stored to within the targets of a destructuring. -/
def writtenOfTargets (es : List ListTarget) : List Expr :=
  (subexprsOfTargets es).flatMap targets

section Parts

variable {tag : ExprTag} {name : String} {span : Span} {v : Literal} {e a b c : Expr} {es : List Expr}
  {elements : List ArrayElement} {ts rest : List ListTarget}

@[simp] theorem numbers_literal : numbers (.literal tag v) = [] := rfl

@[simp] theorem numbers_var : numbers (.var tag name) = [tag.id] := rfl

@[simp] theorem numbers_constant : numbers (.constant tag name) = [tag.id] := rfl

@[simp] theorem numbers_array : numbers (.array tag elements) = tag.id :: numbersOfElements elements := rfl

@[simp] theorem numbers_concat : numbers (.concat tag es) = tag.id :: numbersOf es := rfl

@[simp] theorem numbers_call : numbers (.call tag name es) = tag.id :: numbersOf es := rfl

@[simp] theorem numbers_binary {op : BinaryOp} :
    numbers (.binary tag op a b) = tag.id :: (numbers a ++ numbers b) :=
  congrArg (tag.id :: ·) List.filterMap_append

@[simp] theorem numbers_unary {op : UnaryOp} : numbers (.unary tag op a) = tag.id :: numbers a := rfl

@[simp] theorem numbers_incDec {increment post : Bool} :
    numbers (.incDec tag increment post a) = tag.id :: numbers a := rfl

@[simp] theorem numbers_conditional :
    numbers (.conditional tag c a b) = tag.id :: (numbers c ++ numbers a ++ numbers b) :=
  congrArg (tag.id :: ·) (List.filterMap_append.trans (congrArg (· ++ _) List.filterMap_append))

@[simp] theorem numbers_shortcut :
    numbers (.shortcut tag c b) = tag.id :: (numbers c ++ numbers b) :=
  congrArg (tag.id :: ·) List.filterMap_append

@[simp] theorem numbers_list :
    numbers (.list tag ts a) = tag.id :: (numbersOfTargets ts ++ numbers a) :=
  congrArg (tag.id :: ·) List.filterMap_append

@[simp] theorem numbers_item : numbers (.item tag a b) = tag.id :: (numbers a ++ numbers b) :=
  congrArg (tag.id :: ·) List.filterMap_append

@[simp] theorem numbers_append : numbers (.append tag a) = tag.id :: numbers a := rfl

@[simp] theorem numbers_assign : numbers (.assign tag a b) = tag.id :: (numbers a ++ numbers b) :=
  congrArg (tag.id :: ·) List.filterMap_append

@[simp] theorem numbersOf_nil : numbersOf [] = [] := rfl

@[simp] theorem numbersOf_cons : numbersOf (e :: es) = numbers e ++ numbersOf es :=
  List.filterMap_append

@[simp] theorem numbersOfElements_plain :
    numbersOfElements (.plain span a :: elements) = numbers a ++ numbersOfElements elements :=
  List.filterMap_append

@[simp] theorem numbersOfElements_keyed :
    numbersOfElements (.keyed span a b :: elements) =
      numbers a ++ numbers b ++ numbersOfElements elements :=
  List.filterMap_append.trans (congrArg (· ++ _) List.filterMap_append)

@[simp] theorem numbersOfTargets_skip : numbersOfTargets (.skip :: rest) = numbersOfTargets rest := rfl

@[simp] theorem numbersOfTargets_leaf :
    numbersOfTargets (.leaf a :: rest) = numbers a ++ numbersOfTargets rest :=
  List.filterMap_append

@[simp] theorem numbersOfTargets_nested :
    numbersOfTargets (.nested ts :: rest) = numbersOfTargets ts ++ numbersOfTargets rest :=
  List.filterMap_append

@[simp] theorem written_literal : written (.literal tag v) = [] := rfl

@[simp] theorem written_var : written (.var tag name) = [] := rfl

@[simp] theorem written_constant : written (.constant tag name) = [] := rfl

@[simp] theorem written_array : written (.array tag elements) = writtenOfElements elements := rfl

@[simp] theorem written_concat : written (.concat tag es) = writtenOf es := rfl

@[simp] theorem written_call : written (.call tag name es) = writtenOf es := rfl

@[simp] theorem written_binary {op : BinaryOp} : written (.binary tag op a b) = written a ++ written b :=
  List.flatMap_append

@[simp] theorem written_unary {op : UnaryOp} : written (.unary tag op a) = written a := rfl

@[simp] theorem written_incDec {increment post : Bool} :
    written (.incDec tag increment post a) = a :: written a := rfl

@[simp] theorem written_conditional :
    written (.conditional tag c a b) = written c ++ written a ++ written b :=
  List.flatMap_append.trans (congrArg (· ++ _) List.flatMap_append)

@[simp] theorem written_shortcut : written (.shortcut tag c b) = written c ++ written b :=
  List.flatMap_append

@[simp] theorem written_list :
    written (.list tag ts a) = ListTarget.leavesOf ts ++ (writtenOfTargets ts ++ written a) :=
  congrArg (ListTarget.leavesOf ts ++ ·) List.flatMap_append

@[simp] theorem written_item : written (.item tag a b) = written a ++ written b :=
  List.flatMap_append

@[simp] theorem written_append : written (.append tag a) = written a := rfl

@[simp] theorem written_assign : written (.assign tag a b) = a :: (written a ++ written b) :=
  congrArg (a :: ·) List.flatMap_append

@[simp] theorem writtenOf_nil : writtenOf [] = [] := rfl

@[simp] theorem writtenOf_cons : writtenOf (e :: es) = written e ++ writtenOf es :=
  List.flatMap_append

@[simp] theorem writtenOfElements_plain :
    writtenOfElements (.plain span a :: elements) = written a ++ writtenOfElements elements :=
  List.flatMap_append

@[simp] theorem writtenOfElements_keyed :
    writtenOfElements (.keyed span a b :: elements) =
      written a ++ written b ++ writtenOfElements elements :=
  List.flatMap_append.trans (congrArg (· ++ _) List.flatMap_append)

@[simp] theorem writtenOfTargets_skip : writtenOfTargets (.skip :: rest) = writtenOfTargets rest := rfl

@[simp] theorem writtenOfTargets_leaf :
    writtenOfTargets (.leaf a :: rest) = written a ++ writtenOfTargets rest :=
  List.flatMap_append

@[simp] theorem writtenOfTargets_nested :
    writtenOfTargets (.nested ts :: rest) = writtenOfTargets ts ++ writtenOfTargets rest :=
  List.flatMap_append

theorem id_mem_numbers (h : e.isRepeatable = false) : e.id ∈ e.numbers := by
  cases e with
  | literal | var => exact nomatch h
  | _ => exact List.mem_cons_self

end Parts

end Expr

namespace Node

/-- The kind of a node. -/
def kind : Node → NodeKind
  | .expr e => .expr e.kind
  | .stmt s => .stmt s.kind

/-- Whether a node is there to store to something or to remove it. -/
def stores : Node → Bool
  | .expr e => e.stores
  | .stmt (.unset ..) => true
  | .stmt _ => false

/-- The number of an expression that is no literal. -/
def number? : Node → Option Nat
  | .expr e => e.number?
  | .stmt _ => none

/-- The numbers of the expressions among nodes, those of literals left out. -/
def numbers (nodes : List Node) : List Nat :=
  nodes.filterMap number?

/-- What nodes store to or remove. -/
def written (nodes : List Node) : List Expr :=
  nodes.flatMap targets

variable {nodes nodes' : List Node} {s : Stmt} {e : Expr}

@[simp] theorem numbers_nil : numbers [] = [] := rfl

@[simp] theorem numbers_stmt : numbers (.stmt s :: nodes) = numbers nodes := rfl

@[simp] theorem numbers_append : numbers (nodes ++ nodes') = numbers nodes ++ numbers nodes' :=
  List.filterMap_append

@[simp] theorem numbers_nodes : numbers e.nodes = e.numbers :=
  List.filterMap_map

@[simp] theorem written_nil : written [] = [] := rfl

@[simp] theorem written_stmt : written (.stmt s :: nodes) = (Node.stmt s).targets ++ written nodes := rfl

@[simp] theorem written_append : written (nodes ++ nodes') = written nodes ++ written nodes' :=
  List.flatMap_append

@[simp] theorem written_nodes : written e.nodes = e.written :=
  List.flatMap_map ..

end Node
end PhpLowering
