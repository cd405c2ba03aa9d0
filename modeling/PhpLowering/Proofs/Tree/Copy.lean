import Mathlib.Logic.Basic
import PhpLowering.Proofs.Tree.Paths

/-!
# Copies of a tree

A copy of a tree has the same nodes in the same places, but its nodes may have other numbers, and the
bodies of its functions may be left out.  Literals and empty statements are numbered apart from the other
nodes, because analysis makes new ones.  What analysis records about a function, whether its declaration is
dead, is not copied.

Two trees that have a copy in common are the same but for what the copy leaves out.
-/

namespace PhpLowering

/-- How a tree is copied. -/
structure Copying where
  /-- The number of the copy of a node. -/
  node : Nat → Nat := id
  /-- The number of the copy of a literal or of an empty statement. -/
  idle : Nat → Nat := id
  /-- The bodies of functions are copied too. -/
  bodies : Bool := true

namespace Copying

/-- Numbers that analysis gives are left out. -/
def plain : Copying where
  idle _ := 0

/-- Numbers that analysis gives are left out, and so are the bodies of functions. -/
def hollow : Copying where
  idle _ := 0
  bodies := false

/-- The tag of the copy of a node. -/
abbrev exprTag (c : Copying) (tag : ExprTag) : ExprTag :=
  { tag with id := c.node tag.id }

/-- The tag of the copy of a node. -/
abbrev stmtTag (c : Copying) (tag : StmtTag) : StmtTag :=
  { tag with id := c.node tag.id }

end Copying

namespace Expr

/-- An expression is one of those that it contains. -/
theorem self_mem_subexprs (e : Expr) : e ∈ e.subexprs := by
  cases e <;> simp [subexprs]

variable (c : Copying)

mutual

/-- A copy of an expression. -/
def copy : Expr → Expr
  | .literal tag v => .literal { tag with id := c.idle tag.id } v
  | .var tag name => .var (c.exprTag tag) name
  | .constant tag name => .constant (c.exprTag tag) name
  | .array tag elements => .array (c.exprTag tag) (copyElements elements)
  | .concat tag operands => .concat (c.exprTag tag) (copyAll operands)
  | .call tag name args => .call (c.exprTag tag) name (copyAll args)
  | .binary tag op left right => .binary (c.exprTag tag) op (copy left) (copy right)
  | .unary tag op operand => .unary (c.exprTag tag) op (copy operand)
  | .incDec tag increment post target => .incDec (c.exprTag tag) increment post (copy target)
  | .conditional tag condition ifTrue ifFalse =>
    .conditional (c.exprTag tag) (copy condition) (copy ifTrue) (copy ifFalse)
  | .shortcut tag condition ifFalse => .shortcut (c.exprTag tag) (copy condition) (copy ifFalse)
  | .list tag targets value => .list (c.exprTag tag) (copyTargets targets) (copy value)
  | .item tag container index => .item (c.exprTag tag) (copy container) (copy index)
  | .append tag container => .append (c.exprTag tag) (copy container)
  | .assign tag target value => .assign (c.exprTag tag) (copy target) (copy value)
termination_by structural e => e

/-- Copies of expressions. -/
def copyAll : List Expr → List Expr
  | [] => []
  | e :: rest => copy e :: copyAll rest
termination_by structural es => es

/-- Copies of the elements of an array literal. -/
def copyElements : List ArrayElement → List ArrayElement
  | [] => []
  | .plain span value :: rest => .plain span (copy value) :: copyElements rest
  | .keyed span key value :: rest => .keyed span (copy key) (copy value) :: copyElements rest
termination_by structural es => es

/-- Copies of the targets of a destructuring. -/
def copyTargets : List ListTarget → List ListTarget
  | [] => []
  | .skip :: rest => .skip :: copyTargets rest
  | .leaf target :: rest => .leaf (copy target) :: copyTargets rest
  | .nested targets :: rest => .nested (copyTargets targets) :: copyTargets rest
termination_by structural ts => ts

end

variable {c} {e : Expr}

@[simp] theorem kind_copy (e : Expr) : (e.copy c).kind = e.kind := by
  cases e <;> rfl

@[simp] theorem value?_copy (e : Expr) : (e.copy c).value? = e.value? := by
  cases e <;> rfl

@[simp] theorem isPlace_copy (e : Expr) : (e.copy c).isPlace = e.isPlace := by
  cases e <;> rfl

@[simp] theorem isRepeatable_copy (e : Expr) : (e.copy c).isRepeatable = e.isRepeatable := by
  cases e <;> rfl

/-- What must not be evaluated twice has a number of its own in the copy. -/
theorem id_copy (h : e.isRepeatable = false) : (e.copy c).id = c.node e.id := by
  cases e with
  | literal => exact nomatch h
  | _ => rfl

mutual

/-- A copy with the same numbers is the expression. -/
@[simp] theorem copy_self : ∀ e : Expr, e.copy {} = e
  | .literal .. | .var .. | .constant .. => rfl
  | .array tag elements => congrArg (Expr.array tag) (copyElements_self elements)
  | .concat tag operands => congrArg (Expr.concat tag) (copyAll_self operands)
  | .call tag name args => congrArg (Expr.call tag name) (copyAll_self args)
  | .binary tag op left right => congrArg₂ (Expr.binary tag op) (copy_self left) (copy_self right)
  | .unary tag op operand => congrArg (Expr.unary tag op) (copy_self operand)
  | .incDec tag increment post target => congrArg (Expr.incDec tag increment post) (copy_self target)
  | .conditional tag condition ifTrue ifFalse => by
    rw [copy, copy_self condition, copy_self ifTrue, copy_self ifFalse]
    rfl
  | .shortcut tag condition ifFalse => congrArg₂ (Expr.shortcut tag) (copy_self condition) (copy_self ifFalse)
  | .list tag targets value => congrArg₂ (Expr.list tag) (copyTargets_self targets) (copy_self value)
  | .item tag container index => congrArg₂ (Expr.item tag) (copy_self container) (copy_self index)
  | .append tag container => congrArg (Expr.append tag) (copy_self container)
  | .assign tag target value => congrArg₂ (Expr.assign tag) (copy_self target) (copy_self value)
termination_by structural e => e

theorem copyAll_self : ∀ es : List Expr, copyAll {} es = es
  | [] => rfl
  | e :: rest => congrArg₂ List.cons (copy_self e) (copyAll_self rest)
termination_by structural es => es

theorem copyElements_self : ∀ es : List ArrayElement, copyElements {} es = es
  | [] => rfl
  | .plain span value :: rest =>
    congrArg₂ List.cons (congrArg (ArrayElement.plain span) (copy_self value)) (copyElements_self rest)
  | .keyed span key value :: rest =>
    congrArg₂ List.cons (congrArg₂ (ArrayElement.keyed span) (copy_self key) (copy_self value))
      (copyElements_self rest)
termination_by structural es => es

theorem copyTargets_self : ∀ ts : List ListTarget, copyTargets {} ts = ts
  | [] => rfl
  | .skip :: rest => congrArg (ListTarget.skip :: ·) (copyTargets_self rest)
  | .leaf target :: rest =>
    congrArg₂ List.cons (congrArg ListTarget.leaf (copy_self target)) (copyTargets_self rest)
  | .nested targets :: rest =>
    congrArg₂ List.cons (congrArg ListTarget.nested (copyTargets_self targets)) (copyTargets_self rest)
termination_by structural ts => ts

end

theorem copyAll_eq_map (es : List Expr) : copyAll c es = es.map (copy c) := by
  induction es with
  | nil => rfl
  | cons e rest ih => rw [copyAll, ih, List.map_cons]

mutual

/-- What a copy contains are the copies of what the expression contains. -/
theorem subexprs_copy : ∀ e : Expr, (e.copy c).subexprs = e.subexprs.map (copy c)
  | .literal .. | .var .. | .constant .. => rfl
  | .array _ elements => by simp [copy, subexprs, subexprsOfElements_copy elements]
  | .concat _ operands => by simp [copy, subexprs, subexprsOf_copy operands]
  | .call _ _ args => by simp [copy, subexprs, subexprsOf_copy args]
  | .binary _ _ left right => by simp [copy, subexprs, subexprs_copy left, subexprs_copy right]
  | .unary _ _ operand => by simp [copy, subexprs, subexprs_copy operand]
  | .incDec _ _ _ target => by simp [copy, subexprs, subexprs_copy target]
  | .conditional _ condition ifTrue ifFalse => by
    simp [copy, subexprs, subexprs_copy condition, subexprs_copy ifTrue, subexprs_copy ifFalse]
  | .shortcut _ condition ifFalse => by simp [copy, subexprs, subexprs_copy condition, subexprs_copy ifFalse]
  | .list _ targets value => by simp [copy, subexprs, subexprsOfTargets_copy targets, subexprs_copy value]
  | .item _ container index => by simp [copy, subexprs, subexprs_copy container, subexprs_copy index]
  | .append _ container => by simp [copy, subexprs, subexprs_copy container]
  | .assign _ target value => by simp [copy, subexprs, subexprs_copy target, subexprs_copy value]
termination_by structural e => e

theorem subexprsOf_copy : ∀ es : List Expr, subexprsOf (copyAll c es) = (subexprsOf es).map (copy c)
  | [] => rfl
  | e :: rest => by simp [copyAll, subexprsOf, subexprs_copy e, subexprsOf_copy rest]
termination_by structural es => es

theorem subexprsOfElements_copy : ∀ es : List ArrayElement,
    subexprsOfElements (copyElements c es) = (subexprsOfElements es).map (copy c)
  | [] => rfl
  | .plain _ value :: rest => by
    simp [copyElements, subexprsOfElements, subexprs_copy value, subexprsOfElements_copy rest]
  | .keyed _ key value :: rest => by
    simp [copyElements, subexprsOfElements, subexprs_copy key, subexprs_copy value, subexprsOfElements_copy rest]
termination_by structural es => es

theorem subexprsOfTargets_copy : ∀ ts : List ListTarget,
    subexprsOfTargets (copyTargets c ts) = (subexprsOfTargets ts).map (copy c)
  | [] => rfl
  | .skip :: rest => subexprsOfTargets_copy rest
  | .leaf target :: rest => by
    simp [copyTargets, subexprsOfTargets, subexprs_copy target, subexprsOfTargets_copy rest]
  | .nested targets :: rest => by
    simp [copyTargets, subexprsOfTargets, subexprsOfTargets_copy targets, subexprsOfTargets_copy rest]
termination_by structural ts => ts

end

end Expr

namespace Stmt

variable (c : Copying)

mutual

/-- A copy of a statement. -/
def copy : Stmt → Stmt
  | .expression tag e => .expression (c.stmtTag tag) (e.copy c)
  | .echo tag es => .echo (c.stmtTag tag) (Expr.copyAll c es)
  | .block tag body => .block (c.stmtTag tag) (copyOf body)
  | .branch tag condition thenBody elseBody =>
    .branch (c.stmtTag tag) (condition.copy c) (copyOf thenBody) (copyOptional elseBody)
  | .loop tag condition body => .loop (c.stmtTag tag) (condition.copy c) (copyOf body)
  | .jump tag kind expr => .jump (c.stmtTag tag) kind (expr.map (Expr.copy c))
  | .goto tag name => .goto (c.stmtTag tag) name
  | .label tag name => .label (c.stmtTag tag) name
  | .tryCatch tag body catches cleanup =>
    .tryCatch (c.stmtTag tag) (copyOf body) (copyCatches catches) (copyOptional cleanup)
  | .throw tag e => .throw (c.stmtTag tag) (e.copy c)
  | .unset tag targets => .unset (c.stmtTag tag) (Expr.copyAll c targets)
  | .constDecl tag name value => .constDecl (c.stmtTag tag) name (value.copy c)
  | .function tag head body _ => .function (c.stmtTag tag) head (if c.bodies then copyOf body else []) false
  | .empty tag kind => .empty { tag with id := c.idle tag.id } kind
termination_by structural s => s

/-- Copies of statements. -/
def copyOf : List Stmt → List Stmt
  | [] => []
  | s :: rest => copy s :: copyOf rest
termination_by structural s => s

/-- A copy of a part that may be missing. -/
def copyOptional : Option (List Stmt) → Option (List Stmt)
  | none => none
  | some body => some (copyOf body)
termination_by structural s => s

/-- Copies of the clauses of a `try`. -/
def copyCatches : List Catch → List Catch
  | [] => []
  | .clause span type var body resolved :: rest =>
    .clause span type var (copyOf body) resolved :: copyCatches rest
termination_by structural s => s

end

@[simp] theorem isEmpty_copyCatches (catches : List Catch) : (copyCatches c catches).isEmpty = catches.isEmpty := by
  cases catches with
  | nil => rfl
  | cons clause rest =>
    cases clause
    rfl

@[simp] theorem isNone_copyOptional (part : Option (List Stmt)) : (copyOptional c part).isNone = part.isNone := by
  cases part <;> rfl

variable {c}

theorem exprs_copy (x : Stmt) : (x.copy c).exprs = x.exprs.map (Expr.copy c) := by
  cases x with
  | echo | unset => exact Expr.copyAll_eq_map _
  | jump _ _ expr => cases expr <;> rfl
  | _ => rfl

mutual

theorem own_copy : ∀ x : Stmt, (x.copy c).own = x.own.map (copy c)
  | .block _ body => by simp [copy, own, ownOf_copyOf body]
  | .branch _ _ thenBody elseBody => by simp [copy, own, ownOf_copyOf thenBody, ownOfOptional_copyOptional elseBody]
  | .loop _ _ body => by simp [copy, own, ownOf_copyOf body]
  | .tryCatch _ body catches cleanup => by
    simp [copy, own, ownOf_copyOf body, ownOfCatches_copyCatches catches, ownOfOptional_copyOptional cleanup]
  | .expression .. | .echo .. | .jump .. | .goto .. | .label .. | .throw .. | .unset .. | .constDecl ..
  | .function .. | .empty .. => rfl
termination_by structural x => x

/-- What belongs to the routine of a copy are the copies of what belongs to the routine. -/
theorem ownOf_copyOf : ∀ body : List Stmt, ownOf (copyOf c body) = (ownOf body).map (copy c)
  | [] => rfl
  | x :: rest => by simp [copyOf, ownOf, own_copy x, ownOf_copyOf rest]
termination_by structural body => body

theorem ownOfOptional_copyOptional : ∀ part : Option (List Stmt),
    ownOfOptional (copyOptional c part) = (ownOfOptional part).map (copy c)
  | none => rfl
  | some body => ownOf_copyOf body
termination_by structural part => part

theorem ownOfCatches_copyCatches : ∀ catches : List Catch,
    ownOfCatches (copyCatches c catches) = (ownOfCatches catches).map (copy c)
  | [] => rfl
  | .clause _ _ _ body _ :: rest => by
    simp [copyCatches, ownOfCatches, ownOf_copyOf body, ownOfCatches_copyCatches rest]
termination_by structural catches => catches

end

end Stmt

/-- A copy of a node. -/
def Node.copy (c : Copying) : Node → Node
  | .expr e => .expr (e.copy c)
  | .stmt s => .stmt (s.copy c)

theorem Expr.nodes_copy {c : Copying} (e : Expr) : (e.copy c).nodes = e.nodes.map (Node.copy c) := by
  rw [nodes, nodes, subexprs_copy, List.map_map, List.map_map]
  rfl

theorem Expr.nodes_copyAll {c : Copying} (es : List Expr) :
    (copyAll c es).flatMap nodes = (es.flatMap nodes).map (Node.copy c) := by
  induction es with
  | nil => rfl
  | cons e rest ih => rw [copyAll, List.flatMap_cons, List.flatMap_cons, nodes_copy, ih, List.map_append]

namespace Stmt

variable {c : Copying}

mutual

theorem nodes_copy (hc : c.bodies = true) : ∀ x : Stmt, (x.copy c).nodes = x.nodes.map (Node.copy c)
  | .expression _ e | .throw _ e | .constDecl _ _ e => by simp [copy, nodes, Node.copy, e.nodes_copy]
  | .echo _ es | .unset _ es => by simp [copy, nodes, Node.copy, Expr.nodes_copyAll es]
  | .jump _ _ none => rfl
  | .jump _ _ (some e) => by simp [copy, nodes, Node.copy, e.nodes_copy]
  | .block _ body => by simp [copy, nodes, Node.copy, nodesOf_copyOf hc body]
  | .branch _ condition thenBody elseBody => by
    simp [copy, nodes, Node.copy, condition.nodes_copy, nodesOf_copyOf hc thenBody,
      nodesOfOptional_copyOptional hc elseBody]
  | .loop _ condition body => by simp [copy, nodes, Node.copy, condition.nodes_copy, nodesOf_copyOf hc body]
  | .tryCatch _ body catches cleanup => by
    simp [copy, nodes, Node.copy, nodesOf_copyOf hc body, nodesOfCatches_copyCatches hc catches,
      nodesOfOptional_copyOptional hc cleanup]
  | .function _ _ body _ => by simp [copy, nodes, Node.copy, hc, nodesOf_copyOf hc body]
  | .goto .. | .label .. | .empty .. => rfl
termination_by structural x => x

/-- **If the bodies of functions are copied, the nodes of a copy are the copies of the nodes.** -/
theorem nodesOf_copyOf (hc : c.bodies = true) : ∀ xs : List Stmt, nodesOf (copyOf c xs) = (nodesOf xs).map (Node.copy c)
  | [] => rfl
  | x :: rest => by simp [copyOf, nodesOf, nodes_copy hc x, nodesOf_copyOf hc rest]
termination_by structural xs => xs

theorem nodesOfOptional_copyOptional (hc : c.bodies = true) : ∀ part : Option (List Stmt),
    nodesOfOptional (copyOptional c part) = (nodesOfOptional part).map (Node.copy c)
  | none => rfl
  | some body => nodesOf_copyOf hc body
termination_by structural part => part

theorem nodesOfCatches_copyCatches (hc : c.bodies = true) : ∀ catches : List Catch,
    nodesOfCatches (copyCatches c catches) = (nodesOfCatches catches).map (Node.copy c)
  | [] => rfl
  | .clause _ _ _ body _ :: rest => by
    simp [copyCatches, nodesOfCatches, nodesOf_copyOf hc body, nodesOfCatches_copyCatches hc rest]
termination_by structural catches => catches

end

/-! ## Moving a declaration -/

/-- A function declaration stands in front of some statements in one tree and behind them in another one.  Otherwise
the trees are the same, but for the numbers that the analysis gives, and for whether the declaration is dead. -/
inductive Moved : List Stmt → List Stmt → Prop where
  | mk (before : List Stmt) (tag : StmtTag) (head : FunctionHead) (dead dead' : Bool)
    {body body' between between' behind behind' : List Stmt} (hbody : copyOf .plain body' = copyOf .plain body)
    (hbetween : copyOf .plain between' = copyOf .plain between) (hbehind : copyOf .plain behind' = copyOf .plain behind) :
    Moved (before ++ .function tag head body dead :: (between ++ behind))
      (before ++ (between' ++ .function tag head body' dead' :: behind'))

/-!
## Shapes

The shape of a statement is a copy that keeps what analysis records: the bodies of functions, and whether
their declarations are dead.  If nothing is numbered anew the shape is the statement (`Stmt.shapeOf_self`), and
in any case it says what the copy is (`Stmt.copyOf_shapeOf`).
-/

section Shapes

variable (c)

mutual

/-- The shape of a statement. -/
def shape : Stmt → Stmt
  | .expression tag e => .expression (c.stmtTag tag) (e.copy c)
  | .echo tag es => .echo (c.stmtTag tag) (Expr.copyAll c es)
  | .block tag body => .block (c.stmtTag tag) (shapeOf body)
  | .branch tag condition thenBody elseBody =>
    .branch (c.stmtTag tag) (condition.copy c) (shapeOf thenBody) (shapeOfOptional elseBody)
  | .loop tag condition body => .loop (c.stmtTag tag) (condition.copy c) (shapeOf body)
  | .jump tag kind expr => .jump (c.stmtTag tag) kind (expr.map (Expr.copy c))
  | .goto tag name => .goto (c.stmtTag tag) name
  | .label tag name => .label (c.stmtTag tag) name
  | .tryCatch tag body catches cleanup =>
    .tryCatch (c.stmtTag tag) (shapeOf body) (shapeOfCatches catches) (shapeOfOptional cleanup)
  | .throw tag e => .throw (c.stmtTag tag) (e.copy c)
  | .unset tag targets => .unset (c.stmtTag tag) (Expr.copyAll c targets)
  | .constDecl tag name value => .constDecl (c.stmtTag tag) name (value.copy c)
  | .function tag head body dead => .function (c.stmtTag tag) head (shapeOf body) dead
  | .empty tag kind => .empty { tag with id := c.idle tag.id } kind
termination_by structural s => s

/-- The shapes of statements. -/
def shapeOf : List Stmt → List Stmt
  | [] => []
  | s :: rest => shape s :: shapeOf rest
termination_by structural s => s

/-- The shape of a part that may be missing. -/
def shapeOfOptional : Option (List Stmt) → Option (List Stmt)
  | none => none
  | some body => some (shapeOf body)
termination_by structural s => s

/-- The shapes of the clauses of a `try`. -/
def shapeOfCatches : List Catch → List Catch
  | [] => []
  | .clause span type var body resolved :: rest =>
    .clause span type var (shapeOf body) resolved :: shapeOfCatches rest
termination_by structural s => s

end

mutual

theorem shape_self : ∀ x : Stmt, x.shape {} = x
  | .expression tag e => congrArg (Stmt.expression tag) e.copy_self
  | .echo tag es => congrArg (Stmt.echo tag) (Expr.copyAll_self es)
  | .block tag body => congrArg (Stmt.block tag) (shapeOf_self body)
  | .branch tag condition thenBody elseBody => by
    rw [shape, condition.copy_self, shapeOf_self thenBody, shapeOfOptional_self elseBody]
    rfl
  | .loop tag condition body => congrArg₂ (Stmt.loop tag) condition.copy_self (shapeOf_self body)
  | .jump tag kind none => rfl
  | .jump tag kind (some e) => congrArg (fun e => Stmt.jump tag kind (some e)) e.copy_self
  | .tryCatch tag body catches cleanup => by
    rw [shape, shapeOf_self body, shapeOfCatches_self catches, shapeOfOptional_self cleanup]
    rfl
  | .throw tag e => congrArg (Stmt.throw tag) e.copy_self
  | .unset tag targets => congrArg (Stmt.unset tag) (Expr.copyAll_self targets)
  | .constDecl tag name value => congrArg (Stmt.constDecl tag name) value.copy_self
  | .function tag head body dead => congrArg (fun body => Stmt.function tag head body dead) (shapeOf_self body)
  | .goto .. | .label .. | .empty .. => rfl
termination_by structural x => x

/-- **If nothing is numbered anew, the shapes of statements are the statements.** -/
theorem shapeOf_self : ∀ xs : List Stmt, shapeOf {} xs = xs
  | [] => rfl
  | x :: rest => congrArg₂ List.cons (shape_self x) (shapeOf_self rest)
termination_by structural xs => xs

theorem shapeOfOptional_self : ∀ part : Option (List Stmt), shapeOfOptional {} part = part
  | none => rfl
  | some body => congrArg some (shapeOf_self body)
termination_by structural part => part

theorem shapeOfCatches_self : ∀ catches : List Catch, shapeOfCatches {} catches = catches
  | [] => rfl
  | .clause span type var body resolved :: rest => by
    rw [shapeOfCatches, shapeOf_self body, shapeOfCatches_self rest]
termination_by structural catches => catches

end

variable {c}

mutual

theorem copy_shape (hc : c.bodies = true) : ∀ x : Stmt, (x.shape c).copy {} = x.copy c
  | .expression tag e | .throw tag e | .constDecl tag _ e => by
    simp only [shape, copy, Expr.copy_self]
    rfl
  | .echo tag es | .unset tag es => by
    simp only [shape, copy, Expr.copyAll_self]
    rfl
  | .jump tag kind expr => by
    have hexpr : (expr.map (Expr.copy c)).map (Expr.copy {}) = expr.map (Expr.copy c) := by
      cases expr with
      | none => rfl
      | some e => exact congrArg some (Expr.copy_self _)
    simp only [shape, copy, hexpr]
    rfl
  | .block tag body => congrArg (Stmt.block _) (copyOf_shapeOf hc body)
  | .branch tag condition thenBody elseBody => by
    simp only [shape, copy, Expr.copy_self, copyOf_shapeOf hc thenBody, copyOptional_shapeOfOptional hc elseBody]
    rfl
  | .loop tag condition body => by
    simp only [shape, copy, Expr.copy_self, copyOf_shapeOf hc body]
    rfl
  | .tryCatch tag body catches cleanup => by
    simp only [shape, copy, copyOf_shapeOf hc body, copyCatches_shapeOfCatches hc catches,
      copyOptional_shapeOfOptional hc cleanup]
    rfl
  | .function tag head body dead => by
    simp only [shape, copy, if_pos hc, if_pos, copyOf_shapeOf hc body]
    rfl
  | .goto .. | .label .. | .empty .. => rfl
termination_by structural x => x

/-- **The shapes of statements say what the copies are.** -/
theorem copyOf_shapeOf (hc : c.bodies = true) : ∀ xs : List Stmt, copyOf {} (shapeOf c xs) = copyOf c xs
  | [] => rfl
  | x :: rest => congrArg₂ List.cons (copy_shape hc x) (copyOf_shapeOf hc rest)
termination_by structural xs => xs

theorem copyOptional_shapeOfOptional (hc : c.bodies = true) : ∀ part : Option (List Stmt),
    copyOptional {} (shapeOfOptional c part) = copyOptional c part
  | none => rfl
  | some body => congrArg some (copyOf_shapeOf hc body)
termination_by structural part => part

theorem copyCatches_shapeOfCatches (hc : c.bodies = true) : ∀ catches : List Catch,
    copyCatches {} (shapeOfCatches c catches) = copyCatches c catches
  | [] => rfl
  | .clause span type var body resolved :: rest => by
    rw [shapeOfCatches, copyCatches, copyCatches, copyOf_shapeOf hc body, copyCatches_shapeOfCatches hc rest]
termination_by structural catches => catches

end

end Shapes

end Stmt
end PhpLowering
