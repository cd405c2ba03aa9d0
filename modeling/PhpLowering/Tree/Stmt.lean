import PhpLowering.Tree.Expr

/-!
# Statements

A unit is a list of statements.  A function declaration is a statement too; its body is
a routine of its own, with its own labels, loops and return value.
-/

namespace PhpLowering

/-- What every statement carries. -/
structure StmtTag where
  id : Nat
  span : Span
  deriving DecidableEq, Repr, Inhabited

/-- The statements that leave the place they stand at. -/
inductive JumpKind where
  | break | continue | return
  deriving DecidableEq, Repr, Inhabited

/-- The keyword of a jump. -/
def JumpKind.keyword : JumpKind → String
  | .break => "break"
  | .continue => "continue"
  | .return => "return"

/-- Why a statement is empty. -/
inductive EmptyKind where
  /-- It stands for a statement in dead code. -/
  | unreachable
  /-- It stands for a statement without effect. -/
  | skipped
  /-- It is empty in the source. -/
  | source
  deriving DecidableEq, Repr, Inhabited

/-- Every reason. -/
def EmptyKind.all : List EmptyKind :=
  [.unreachable, .skipped, .source]

/-- The name of a reason. -/
def EmptyKind.name : EmptyKind → String
  | .unreachable => "Unreachable"
  | .skipped => "Skipped"
  | .source => "Source"

/-- A parameter of a function. -/
structure Param where
  name : String
  byRef : Bool
  deriving DecidableEq, Repr, Inhabited

/-- The head of a function declaration. -/
structure FunctionHead where
  name : String
  byRef : Bool
  params : List Param
  deriving DecidableEq, Repr, Inhabited

mutual

/-- A statement. -/
inductive Stmt where
  | expression (tag : StmtTag) (expr : Expr)
  | echo (tag : StmtTag) (exprs : List Expr)
  | block (tag : StmtTag) (body : List Stmt)
  | branch (tag : StmtTag) (condition : Expr) (thenBody : List Stmt) (elseBody : Option (List Stmt))
  | loop (tag : StmtTag) (condition : Expr) (body : List Stmt)
  /-- A jump, with the level of a `break` or `continue` or the value of a `return`. -/
  | jump (tag : StmtTag) (kind : JumpKind) (expr : Option Expr)
  | goto (tag : StmtTag) (label : String)
  | label (tag : StmtTag) (name : String)
  | tryCatch (tag : StmtTag) (body : List Stmt) (catches : List Catch)
      (cleanup : Option (List Stmt))
  | throw (tag : StmtTag) (expr : Expr)
  | unset (tag : StmtTag) (targets : List Expr)
  | constDecl (tag : StmtTag) (name : String) (value : Expr)
  /-- A function; analysis records in `dead` whether the declaration stands in dead code. -/
  | function (tag : StmtTag) (head : FunctionHead) (body : List Stmt) (dead : Bool)
  | empty (tag : StmtTag) (kind : EmptyKind)

/-- A clause that handles the exceptions of one class; `resolved` is the class's canonical name,
once analysis has looked it up. -/
inductive Catch where
  | clause (span : Span) (type : String) (var : Option String) (body : List Stmt)
      (resolved : Option String)

end

instance : Inhabited Stmt := ⟨.empty default .source⟩

namespace Stmt

/-- The tag of a statement. -/
def tag : Stmt → StmtTag
  | .expression t _ | .echo t _ | .block t _ | .branch t .. | .loop t .. | .jump t .. | .goto t _
  | .label t _ | .tryCatch t .. | .throw t _ | .unset t _ | .constDecl t .. | .function t ..
  | .empty t _ => t

/-- The same statement with another tag. -/
def withTag (t : StmtTag) : Stmt → Stmt
  | .expression _ e => .expression t e
  | .echo _ es => .echo t es
  | .block _ b => .block t b
  | .branch _ c a b => .branch t c a b
  | .loop _ c b => .loop t c b
  | .jump _ k e => .jump t k e
  | .goto _ l => .goto t l
  | .label _ n => .label t n
  | .tryCatch _ b cs f => .tryCatch t b cs f
  | .throw _ e => .throw t e
  | .unset _ es => .unset t es
  | .constDecl _ n v => .constDecl t n v
  | .function _ h b d => .function t h b d
  | .empty _ k => .empty t k

/-- The number of a node. -/
def id (s : Stmt) : Nat := s.tag.id

/-- The place of a node in the source. -/
def span (s : Stmt) : Span := s.tag.span

/-- The kind of a statement. -/
def kind : Stmt → StmtKind
  | .expression .. => .expression
  | .echo .. => .echo
  | .block .. => .block
  | .branch .. => .branch
  | .loop .. => .loop
  | .jump .. => .jump
  | .goto .. => .goto
  | .label .. => .label
  | .tryCatch .. => .tryCatch
  | .throw .. => .throw
  | .unset .. => .unset
  | .constDecl .. => .constDecl
  | .function .. => .function
  | .empty .. => .empty

/-- Declarations are analysed in dead code too, so that a call in front of them finds them. -/
def isDeclaration : Stmt → Bool
  | .function .. => true
  | _ => false

/-- Whether a statement is empty. -/
def isEmpty : Stmt → Bool
  | .empty .. => true
  | _ => false

/-- Whether a statement is a label. -/
def isLabel : Stmt → Bool
  | .label .. => true
  | _ => false

mutual

/-- Whether a `goto` can enter a statement: it is a label, or a block or branch that holds one.
There is no way into a loop, a `try` or a function. -/
def hasEntry : Stmt → Bool
  | .label .. => true
  | .block _ body => anyEntry body
  | .branch _ _ thenBody elseBody => anyEntry thenBody || optionalEntry elseBody
  | .expression .. | .echo .. | .loop .. | .jump .. | .goto .. | .tryCatch .. | .throw ..
  | .unset .. | .constDecl .. | .function .. | .empty .. => false
termination_by structural s => s

/-- Whether a `goto` can enter one of the statements. -/
def anyEntry : List Stmt → Bool
  | [] => false
  | s :: rest => s.hasEntry || anyEntry rest
termination_by structural s => s

/-- Whether a `goto` can enter a part that may be missing. -/
def optionalEntry : Option (List Stmt) → Bool
  | none => false
  | some body => anyEntry body
termination_by structural s => s

end

@[simp] theorem tag_withTag (t : StmtTag) (s : Stmt) : (s.withTag t).tag = t := by
  cases s <;> rfl

@[simp] theorem kind_withTag (t : StmtTag) (s : Stmt) : (s.withTag t).kind = s.kind := by
  cases s <;> rfl

end Stmt

/-- A unit as it comes from the parser: its statements, and where the numbering of its nodes stands. -/
structure SourceUnit where
  name : String
  statements : List Stmt
  /-- How many numbers have been handed out; `nodeId nextId` is the next one. -/
  nextId : Nat
  span : Span
  deriving Inhabited

end PhpLowering
