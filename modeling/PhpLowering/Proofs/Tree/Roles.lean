import PhpLowering.Fault
import PhpLowering.Literal.Conversion
import PhpLowering.Proofs.Tree.Routine
import PhpLowering.Tree.Walk

/-!
# Expressions in their roles

The code of an expression is asked for in a role: for whatever its access wants, for a value,
for a container of items, or for a location that is stored to, updated or removed.  Not every
expression can serve in every role, and an expression can serve only if its parts can serve
in the roles that it gives them.

Two refusals are not a matter of the tree being well formed.  What is written to or removed
need not be a location, and the location past the end of an array can only be written.  So
`Expr.Serves` has the failures `E` that are accepted as a parameter: where one of the two
would come up, it asks whether it is accepted.
-/

namespace PhpLowering

/-- What a parent makes of an expression. -/
inductive Role where
  /-- Whatever the access of the expression asks for. -/
  | value
  /-- A value that is used. -/
  | operand
  /-- A container of items. -/
  | container
  /-- A location that is stored to. -/
  | target
  /-- A location that is read and then stored to. -/
  | updated
  /-- A location that is removed. -/
  | removed
  deriving DecidableEq, Repr

/-- The role of the branches of a conditional. -/
def Role.ofBranch (access : Access) : Role :=
  if access = .none then .value else .operand

namespace Expr

variable (E : CompileError → Prop)

/-- Whether the access of an expression can be served by its code; references are taken of
locations only. -/
def Evaluates (e : Expr) : Prop :=
  e.access = .none ∨ e.access = .read ∨
    e.isPlace = true ∧ (e.access = .readRef ∨ e.access = .readUnknown)

/-- A read or removal of the location past the end of an array. -/
def appendFault (use : String) : CompileError :=
  .internal (.unsupportedAccess (.expr .item) s!"{use} of an append item")

/-- Whether an expression is the location past the end of an array. -/
def isAppend : Expr → Bool
  | .append .. => true
  | _ => false

/-- Whether an expression may be read. -/
def Readable (e : Expr) : Prop :=
  e.isAppend = true → E (appendFault "read")

/-- Whether a location may be removed. -/
def Removable (e : Expr) : Prop :=
  e.isAppend = true → E (appendFault "unset")

/-- A condition on a location; what is no location is refused. -/
def AsPlace (e : Expr) (condition : Prop) : Prop :=
  if e.isPlace then condition else E (.internal (.notAPlace (.expr e.kind)))

/-- Whether an expression can serve in a role, provided that its parts are as they should be. -/
def Usable (e : Expr) (parts : Prop) : Role → Prop
  | .value => (e.Evaluates ∧ e.Readable E) ∧ parts
  | .operand => ((e.Evaluates ∧ e.Readable E) ∧ e.access ≠ .none) ∧ parts
  | .container => ((e.isPlace = true ∨ e.access = .read) ∧ e.Readable E) ∧ parts
  | .target => e.AsPlace E parts
  | .updated => e.AsPlace E (e.Readable E ∧ parts)
  | .removed => e.AsPlace E (e.Removable E ∧ parts)

mutual

/-- Whether the parts of an expression can serve in the roles that it gives them. -/
def Parts : Expr → Prop
  | .literal .. | .var .. | .constant .. => True
  | .array _ elements => PartsOfElements elements
  | .concat _ operands | .call _ _ operands => PartsOf operands
  | .binary _ _ left right =>
    left.Usable E (Parts left) .operand ∧ right.Usable E (Parts right) .operand
  | .unary tag op operand =>
    if op = .silence then
      operand.Usable E (Parts operand) .value ∧ (operand.access = .none → tag.access = .none)
    else operand.Usable E (Parts operand) .operand
  | .incDec _ _ _ target => target.Usable E (Parts target) .updated
  | .conditional tag condition ifTrue ifFalse =>
    condition.Usable E (Parts condition) .operand ∧
      ifTrue.Usable E (Parts ifTrue) (.ofBranch tag.access) ∧
      ifFalse.Usable E (Parts ifFalse) (.ofBranch tag.access)
  | .shortcut tag condition ifFalse =>
    condition.Usable E (Parts condition) .operand ∧
      ifFalse.Usable E (Parts ifFalse) (.ofBranch tag.access)
  | .list _ targets value =>
    PartsOfTargets targets ∧ value.Usable E (Parts value) .operand
  | .item _ container index =>
    container.Usable E (Parts container) .container ∧ index.Usable E (Parts index) .operand
  | .append _ container => container.Usable E (Parts container) .container
  | .assign _ target value =>
    target.Usable E (Parts target) .target ∧ value.Usable E (Parts value) .operand
termination_by structural e => e

/-- Whether expressions can serve as operands. -/
def PartsOf : List Expr → Prop
  | [] => True
  | e :: rest => e.Usable E (Parts e) .operand ∧ PartsOf rest
termination_by structural es => es

/-- Whether keys and values can serve as operands. -/
def PartsOfElements : List ArrayElement → Prop
  | [] => True
  | .plain _ value :: rest => value.Usable E (Parts value) .operand ∧ PartsOfElements rest
  | .keyed _ key value :: rest =>
    key.Usable E (Parts key) .operand ∧ value.Usable E (Parts value) .operand ∧
      PartsOfElements rest
termination_by structural es => es

/-- Whether the targets of a destructuring can serve as such. -/
def PartsOfTargets : List ListTarget → Prop
  | [] => True
  | .skip :: rest => PartsOfTargets rest
  | .leaf target :: rest => target.Usable E (Parts target) .target ∧ PartsOfTargets rest
  | .nested targets :: rest => PartsOfTargets targets ∧ PartsOfTargets rest
termination_by structural es => es

end

/-- Whether an expression can serve in a role. -/
def Serves (e : Expr) (role : Role) : Prop :=
  e.Usable E (e.Parts E) role

variable {E} {e : Expr}

/-- An operand is a value that is used. -/
theorem serves_operand_iff : e.Serves E .operand ↔ e.Serves E .value ∧ e.access ≠ .none := by
  constructor
  · rintro ⟨⟨h, hne⟩, hparts⟩
    exact ⟨⟨h, hparts⟩, hne⟩
  · rintro ⟨⟨h, hparts⟩, hne⟩
    exact ⟨⟨h, hne⟩, hparts⟩

theorem Serves.parts_of_value (h : e.Serves E .value) : e.Parts E := h.2

theorem asPlace_iff {P : Prop} (hplace : e.isPlace = true) : e.AsPlace E P ↔ P := by
  rw [AsPlace, if_pos hplace]

/-- What is no location cannot be stored to, updated or removed. -/
theorem AsPlace.refused {P : Prop} (h : e.AsPlace E P) (hplace : ¬ e.isPlace = true) :
    E (.internal (.notAPlace (.expr e.kind))) := by
  rwa [AsPlace, if_neg hplace] at h

theorem AsPlace.imp {P Q : Prop} (h : e.AsPlace E P) (hPQ : P → Q) : e.AsPlace E Q := by
  unfold AsPlace at h ⊢
  split
  · rename_i hplace
    rw [if_pos hplace] at h
    exact hPQ h
  · rename_i hplace
    rwa [if_neg hplace] at h

/-- A container that is no location is an operand. -/
theorem Serves.operand_of_container (h : e.Serves E .container) (hplace : ¬ e.isPlace = true) :
    e.Serves E .operand := by
  have hread : e.access = .read := h.1.1.resolve_left hplace
  exact ⟨⟨⟨Or.inr (Or.inl hread), h.1.2⟩, by rw [hread]; nofun⟩, h.2⟩

end Expr

/-! ## Statements -/

namespace Stmt

variable (E : CompileError → Prop)

/-- Whether a `break` or `continue` can be emitted where so many loops are around it: there is a
loop of that level, or a level that is computed at run time and some loop. -/
def LevelServes (level : Option Expr) (depth : Nat) : Prop :=
  match level with
  | none => 1 ≤ depth
  | some e =>
    match e.value? with
    | some v => max v.toInt64.toInt.toNat 1 ≤ depth
    | none => e.Serves E .operand ∧ 1 ≤ depth

/-- Whether a jump can be emitted where so many loops are around it. -/
def JumpServes (kind : JumpKind) (expr : Option Expr) (depth : Nat) : Prop :=
  match kind with
  | .return => ∀ e, expr = some e → e.Serves E .operand
  | .break | .continue => LevelServes E expr depth

mutual

/-- Whether a statement can be emitted where so many loops are around it.  The labels of a function
have to have different names. -/
def Serves : Stmt → Nat → Prop
  | .expression _ e, _ => e.Serves E .value
  | .echo _ es, _ => ∀ e ∈ es, e.Serves E .operand
  | .block _ body, depth => ServesAll body depth
  | .branch _ condition thenBody elseBody, depth =>
    condition.Serves E .operand ∧ ServesAll thenBody depth ∧ ServesOptional elseBody depth
  | .loop _ condition body, depth => condition.Serves E .operand ∧ ServesAll body (depth + 1)
  | .jump _ kind expr, depth => JumpServes E kind expr depth
  | .tryCatch _ body catches cleanup, depth =>
    ServesAll body depth ∧ ServesCatches catches depth ∧ ServesOptional cleanup depth
  | .throw _ e, _ | .constDecl _ _ e, _ => e.Serves E .operand
  | .unset _ targets, _ => ∀ e ∈ targets, e.Serves E .removed
  | .function _ _ body _, _ => ServesAll body 0 ∧ ((ownOf body).filterMap label?).Nodup
  | .goto .., _ | .label .., _ | .empty .., _ => True
termination_by structural s => s

/-- Whether statements can be emitted. -/
def ServesAll : List Stmt → Nat → Prop
  | [], _ => True
  | s :: rest, depth => Serves s depth ∧ ServesAll rest depth
termination_by structural s => s

/-- Whether a part that may be missing can be emitted. -/
def ServesOptional : Option (List Stmt) → Nat → Prop
  | none, _ => True
  | some body, depth => ServesAll body depth
termination_by structural s => s

/-- Whether the clauses of a `try` can be emitted. -/
def ServesCatches : List Catch → Nat → Prop
  | [], _ => True
  | .clause _ _ _ body _ :: rest, depth => ServesAll body depth ∧ ServesCatches rest depth
termination_by structural s => s

end

end Stmt

/-! ## What a tree can be refused for

A tree that is well formed can still be refused: because something is written to or removed
that is no location, because the location past the end of an array is read or removed, or
because a resource runs out.  `Refusal nodes e` says that the nodes of a tree give cause for
the failure `e`.

`Expr.Formed` and `Expr.Fits` say of an expression that nothing else stands in its way.  They
speak of all trees that the expression may be part of, because it is the whole tree that
gives cause for a failure in the end.
-/

mutual

/-- The locations that a position of a destructuring assigns to. -/
def ListTarget.leaves : ListTarget → List Expr
  | .skip => []
  | .leaf target => [target]
  | .nested targets => leavesOf targets
termination_by structural t => t

/-- The locations that a destructuring assigns to. -/
def ListTarget.leavesOf : List ListTarget → List Expr
  | [] => []
  | t :: rest => leaves t ++ leavesOf rest
termination_by structural ts => ts

end

/-- What a node writes to or removes. -/
def Node.targets : Node → List Expr
  | .expr (.assign _ target _) => [target]
  | .expr (.incDec _ _ _ target) => [target]
  | .expr (.list _ targets _) => ListTarget.leavesOf targets
  | .stmt (.unset _ targets) => targets
  | _ => []

/-- The nodes of a tree give cause for a failure. -/
inductive Refusal (nodes : List Node) : CompileError → Prop where
  /-- Something is written to or removed that is no location. -/
  | target {n : Node} {t : Expr} (hn : n ∈ nodes) (ht : t ∈ n.targets) (hplace : t.isPlace = false) :
    Refusal nodes (.internal (.notAPlace (.expr t.kind)))
  /-- The location past the end of an array is not just written. -/
  | read {e : Expr} (he : .expr e ∈ nodes) (happend : e.isAppend = true) (haccess : e.access ≠ .write) :
    Refusal nodes (Expr.appendFault "read")
  /-- The location past the end of an array is removed. -/
  | unset {tag : StmtTag} {targets : List Expr} {t : Expr} (hs : .stmt (.unset tag targets) ∈ nodes)
    (ht : t ∈ targets) (happend : t.isAppend = true) : Refusal nodes (Expr.appendFault "unset")
  | resource (resource : Resource) : Refusal nodes (.backend (.resourceExhausted resource))

/-- The nodes of a tree give cause for a failure, whoever reported it. -/
def Refuses (nodes : List Node) (e : CompileError) : Prop :=
  Refusal nodes e.root

namespace Expr

variable {nodes : List Node} {e : Expr} {role : Role}

/-- Expressions are among the nodes of a tree. -/
def Among (nodes : List Node) (es : List Expr) : Prop :=
  ∀ e ∈ es, Node.expr e ∈ nodes

@[simp] theorem among_cons {es : List Expr} :
    Among nodes (e :: es) ↔ .expr e ∈ nodes ∧ Among nodes es :=
  List.forall_mem_cons

@[simp] theorem among_append {es es' : List Expr} :
    Among nodes (es ++ es') ↔ Among nodes es ∧ Among nodes es' :=
  List.forall_mem_append

/-- The parts of an expression can serve in their roles, refusals of the tree apart. -/
def Formed (e : Expr) : Prop :=
  ∀ nodes, Among nodes e.subexprs → e.Parts (Refuses nodes)

/-- An expression can serve in a role, refusals of the tree apart. -/
def Fits (e : Expr) (role : Role) : Prop :=
  ∀ nodes, Among nodes e.subexprs → e.Serves (Refuses nodes) role

/-- An expression is a node of the trees that it is part of. -/
theorem Among.self (h : Among nodes e.subexprs) : .expr e ∈ nodes := by
  refine h e ?_
  cases e <;> exact List.mem_cons_self

/-- What is not just written may be read, refusals apart. -/
theorem readable_of_among (h : Among nodes e.subexprs) (haccess : e.access ≠ .write) :
    e.Readable (Refuses nodes) :=
  fun happend => Refusal.read h.self happend haccess

/-- The targets of a node may be refused for not being locations. -/
theorem asPlace_of_mem {n : Node} {P : Prop} (hn : n ∈ nodes) (he : e ∈ n.targets)
    (h : e.isPlace = true → P) : e.AsPlace (Refuses nodes) P := by
  unfold AsPlace
  split
  · rename_i hplace
    exact h hplace
  · rename_i hplace
    exact Refusal.target hn he (by simpa using hplace)

end Expr
end PhpLowering
