import PhpLowering.Analysis.Stmt

/-!
# Breaks and continues of a tree

A `LoopJump` is a `break` or `continue` with its level and the number of loops around it.  Only the
loops of its own routine count: in the body of a function there are none to begin with.
`Stmt.loopJumps` lists them in the order of the text, those in functions included.

A level that is known has to be that of a loop around, counted from the innermost, which is the first;
if the level is computed at run time there has to be some loop (`LoopJump.Valid`).
-/

namespace PhpLowering

/-- A `break` or `continue`, with its level and the number of loops around it in its routine. -/
structure LoopJump where
  tag : StmtTag
  kind : JumpKind
  level : Option Expr
  depth : Nat

namespace LoopJump

/-- There is a loop of that level. -/
def Valid (j : LoopJump) : Prop :=
  match Analysis.staticLevel? j.level with
  | some n => 1 ≤ n.toInt ∧ n.toInt ≤ j.depth
  | none => 0 < j.depth

instance : DecidablePred Valid := fun j => by
  unfold Valid
  split <;> infer_instance

theorem valid_of_static {j : LoopJump} {n : Int64} (h : Analysis.staticLevel? j.level = some n) :
    j.Valid ↔ 1 ≤ n.toInt ∧ n.toInt ≤ j.depth := by
  rw [Valid, h]

/-- What is reported of a level that no loop has.  One stands for a level that is not known. -/
def complaint (j : LoopJump) : Diagnostic :=
  ⟨.invalidBreakLevel ((Analysis.staticLevel? j.level).getD 1), j.tag.span⟩

/-- What is reported of several jumps. -/
def complaints (js : List LoopJump) : List Diagnostic :=
  (js.filter fun j => ¬ j.Valid).map complaint

theorem complaints_append (js js' : List LoopJump) :
    complaints (js ++ js') = complaints js ++ complaints js' := by
  simp only [complaints, List.filter_append, List.map_append]

/-- Where nothing is reported all levels are those of loops. -/
theorem valid_of_complaints_eq_nil {js : List LoopJump} (h : complaints js = []) : ∀ j ∈ js, j.Valid := by
  intro j hj
  have hnot := List.filter_eq_nil_iff.mp (List.map_eq_nil_iff.mp h) j hj
  simpa using hnot

/-- Which jump it is and how many loops are around it, whatever the level. -/
def place (j : LoopJump) : StmtTag × JumpKind × Nat :=
  (j.tag, j.kind, j.depth)

/-- A `return` goes out of no loop. -/
def ofJump (tag : StmtTag) (kind : JumpKind) (level : Option Expr) (depth : Nat) : List LoopJump :=
  if kind = .return then [] else [⟨tag, kind, level, depth⟩]

theorem place_ofJump (tag : StmtTag) (kind : JumpKind) (level level' : Option Expr) (depth : Nat) :
    (ofJump tag kind level depth).map place = (ofJump tag kind level' depth).map place := by
  unfold ofJump
  split <;> rfl

end LoopJump

/-- Whether something is said of the level of a `break` or `continue`. -/
def Diagnostic.isBreakLevel (d : Diagnostic) : Bool :=
  match d.problem with
  | .invalidBreakLevel _ => true
  | _ => false

theorem Diagnostic.isError_of_isBreakLevel {d : Diagnostic} (h : d.isBreakLevel = true) : d.isError = true := by
  unfold isBreakLevel at h
  split at h
  · rename_i hproblem
    rw [isError, severity, hproblem]
    rfl
  · exact nomatch h

namespace Stmt

/-- Whether a statement is a loop. -/
def isLoop : Stmt → Bool
  | .loop .. => true
  | _ => false

mutual

/-- The breaks and continues in a statement with so many loops around. -/
def loopJumps : Stmt → Nat → List LoopJump
  | .block _ body, depth => loopJumpsOf body depth
  | .branch _ _ thenBody elseBody, depth => loopJumpsOf thenBody depth ++ loopJumpsOfOptional elseBody depth
  | .loop _ _ body, depth => loopJumpsOf body (depth + 1)
  | .jump tag kind level, depth => LoopJump.ofJump tag kind level depth
  | .tryCatch _ body catches cleanup, depth =>
    loopJumpsOf body depth ++ (loopJumpsOfCatches catches depth ++ loopJumpsOfOptional cleanup depth)
  | .function _ _ body _, _ => loopJumpsOf body 0
  | .expression .., _ | .echo .., _ | .goto .., _ | .label .., _ | .throw .., _ | .unset .., _
  | .constDecl .., _ | .empty .., _ => []
termination_by structural s => s

/-- The breaks and continues in statements. -/
def loopJumpsOf : List Stmt → Nat → List LoopJump
  | [], _ => []
  | s :: rest, depth => loopJumps s depth ++ loopJumpsOf rest depth
termination_by structural s => s

/-- The breaks and continues in a part that may be missing. -/
def loopJumpsOfOptional : Option (List Stmt) → Nat → List LoopJump
  | none, _ => []
  | some body, depth => loopJumpsOf body depth
termination_by structural s => s

/-- The breaks and continues in the clauses of a `try`. -/
def loopJumpsOfCatches : List Catch → Nat → List LoopJump
  | [], _ => []
  | .clause _ _ _ body _ :: rest, depth => loopJumpsOf body depth ++ loopJumpsOfCatches rest depth
termination_by structural s => s

end

end Stmt
end PhpLowering
