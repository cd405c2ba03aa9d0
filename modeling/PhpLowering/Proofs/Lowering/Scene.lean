import Mathlib.Data.List.Forall2
import PhpLowering.Code.Chunk
import PhpLowering.Lowering.Basic
import PhpLowering.Proofs.Code.Stack
import PhpLowering.Proofs.Outcome
import PhpLowering.Proofs.Rule.Standard
import PhpLowering.Proofs.Tree.Routine

/-!
# What is known in the middle of an emission

A proof about emitted code goes along with the emission.  At every point of it something is
known of the routine at hand: the stack at the end of the code, the stack at the labels that
are in use, which labels still wait for their mark, which regions are open.  A `Scene` is
that knowledge, apart from the stack, and `Ready E c S s` says that the state `s` is as the
scene `c` has it, with the stack `S` at the end of the code.

The map of all stacks of the routine is not part of a scene.  It grows with the code, and no
construct has to know more of it than the stack at hand and the stacks of the labels it uses
itself.

The labels that wait for a mark come from three sources: those that the constructs around
have made (`pending`), the label of the code that returns, and the targets of `goto`
statements.  Of the latter a scene records by name which have been gone to and which have
been marked.

`E` is what is accepted as a failure.  If that is every failure, nothing has to be known of
the tree that is emitted; otherwise the tree has to be such that the other failures cannot
occur.  `Granted E P` is the statement `P` with that exception.
-/

namespace PhpLowering

namespace Chunk

/-- What a chunk holds besides the active routine and the complete functions. -/
def outside : Chunk → Option (Routine × List Routine)
  | ⟨_, _, []⟩ => none
  | ⟨main, _, _ :: outer⟩ => some (main, outer)

/-- The chunk with another active routine. -/
def withActive (r : Routine) : Chunk → Chunk
  | ⟨_, functions, []⟩ => ⟨r, functions, []⟩
  | ⟨main, functions, _ :: outer⟩ => ⟨main, functions, r :: outer⟩

@[simp] theorem active_withActive (r : Routine) (c : Chunk) : (c.withActive r).active = r := by
  rcases c with ⟨_, _, _ | _⟩ <;> rfl

theorem withActive_active (c : Chunk) : c.withActive c.active = c := by
  rcases c with ⟨_, _, _ | _⟩ <;> rfl

@[simp] theorem outside_withActive (r : Routine) (c : Chunk) :
    (c.withActive r).outside = c.outside := by
  rcases c with ⟨_, _, _ | _⟩ <;> rfl

@[simp] theorem functions_withActive (r : Routine) (c : Chunk) :
    (c.withActive r).functions = c.functions := by
  rcases c with ⟨_, _, _ | _⟩ <;> rfl

theorem outside_withFunctions (functions : Array Routine) (c : Chunk) :
    outside ⟨c.main, functions, c.pending⟩ = c.outside := by
  rcases c with ⟨_, _, _ | _⟩ <;> rfl

theorem onActive_eq {α : Type} (f : Routine → α × Routine) (c : Chunk) :
    onActive f c = ((f c.active).1, c.withActive (f c.active).2) := by
  rcases c with ⟨_, _, _ | _⟩ <;> rfl

/-- A chunk in the middle of no function. -/
theorem active_of_outside {c : Chunk} (h : c.outside = none) : c.active = c.main := by
  rcases c with ⟨main, functions, _ | _⟩
  · rfl
  · exact nomatch h

/-- A chunk in the middle of a function. -/
theorem eq_of_outside {c : Chunk} {main : Routine} {outer : List Routine}
    (h : c.outside = some (main, outer)) : c = ⟨main, c.functions, c.active :: outer⟩ := by
  rcases c with ⟨main', functions, _ | ⟨r, outer'⟩⟩
  · exact nomatch h
  · obtain ⟨rfl, rfl⟩ := Prod.mk.inj (Option.some.inj h)
    rfl

end Chunk

namespace Routine

/-- Every label that an instruction mentions is marked. -/
def AllMarked (r : Routine) : Prop :=
  ∀ {pc : Nat} {i : Instruction} {l : Label}, r.code[pc]? = some i → l ∈ i.labels →
    ∃ p, r.labelPosition? l = some p ∧ p ≤ r.code.size

/-- A routine is the code of a list of statements. -/
structure CodeOf (memory : RuleMemory) (body : List Stmt) (r : Routine) : Prop where
  stackSafe : r.StackSafe
  allMarked_iff : r.AllMarked ↔
    ∀ name ∈ (Stmt.ownOf body).filterMap Stmt.goto?,
      name ∈ (Stmt.ownOf body).filterMap (Stmt.mark? memory)

end Routine

namespace Lowering

/-- The routine that is being emitted into a chunk. -/
def State.active (s : State Chunk) : Routine :=
  s.sink.active

/-- The state with another routine being emitted. -/
def State.withActive (r : Routine) (s : State Chunk) : State Chunk :=
  { s with sink := s.sink.withActive r }

@[simp] theorem State.active_withActive (r : Routine) (s : State Chunk) :
    (s.withActive r).active = r :=
  s.sink.active_withActive r

/-- A statement, unless every failure is accepted. -/
def Granted (E : CompileError → Prop) (P : Prop) : Prop :=
  (∀ e, E e) ∨ P

namespace Granted

variable {E : CompileError → Prop} {P Q R : Prop}

theorem mk (h : P) : Granted E P := Or.inr h

theorem imp (h : Granted E P) (hPQ : P → Q) : Granted E Q := h.imp_right hPQ

theorem imp₂ (hP : Granted E P) (hQ : Granted E Q) (h : P → Q → R) : Granted E R := by
  rcases hP with hE | hP
  · exact Or.inl hE
  · exact hQ.imp (h hP)

/-- What follows from the statement that a failure is accepted is that it is accepted. -/
theorem error {e : CompileError} (h : Granted E P) (hP : P → E e) : E e :=
  h.elim (fun hE => hE e) hP

end Granted

/-- Failures that no tree can avoid are accepted, and it does not matter who reports one. -/
structure Tolerates (E : CompileError → Prop) : Prop where
  resource : ∀ resource, E (.backend (.resourceExhausted resource))
  reported : ∀ span e, E e → E (.reported span e)

/-- Every failure is accepted. -/
def anyFailure (_ : CompileError) : Prop := True

theorem tolerates_anyFailure : Tolerates anyFailure :=
  ⟨fun _ => trivial, fun _ _ _ => trivial⟩

theorem Granted.any {P : Prop} : Granted anyFailure P :=
  Or.inl fun _ => trivial

/-! ## Scenes -/

/-- What is known besides the routine at hand. -/
structure Surroundings where
  outside : Option (Routine × List Routine)
  /-- The functions that are complete. -/
  finished : List (FunctionHead × List Stmt)
  /-- The functions that were complete at some earlier point. -/
  earlier : List Routine
  memory : RuleMemory
  loops : List Loop
  nesting : Nat
  returnsRef : Bool

/-- What is known in the middle of an emission, apart from the stack. -/
structure Scene extends Surroundings where
  /-- The routine at some earlier point. -/
  base : Routine
  /-- The stacks at labels in use. -/
  typed : List (Label × List Slot)
  /-- The labels that the constructs around have yet to mark. -/
  pending : List Label
  opened : List OpenRegion
  /-- The targets of `goto` statements that have been marked. -/
  marked : List String
  /-- The targets that a `goto` has gone to. -/
  gone : List String
  /-- The targets whose label is there but has not been used. -/
  called : List String
  /-- The label of the code that returns, if it is known. -/
  returnLabel : Option Label

/-- The state around the routine is as expected. -/
structure Around (E : CompileError → Prop) (c : Surroundings) (s : State Chunk) : Prop where
  outside : s.sink.outside = c.outside
  finished : List.Forall₂ (fun p f => Routine.CodeOf c.memory p.2 f) c.finished
    s.sink.functions.toList
  earlier : c.earlier <+: s.sink.functions.toList
  memory : s.memory = c.memory
  loops : s.frame.loops = c.loops
  nesting : s.frame.exceptionNesting = c.nesting
  returnsRef : s.frame.returnsRef = c.returnsRef
  table : Granted E s.table.Regular

/-- What is known of the label of a `goto` target. -/
structure NamedLabel (m : StackMap) (c : Scene) (f : Frame) (r : Routine) (name : String)
    (l : Label) : Prop where
  types : m.Types r l []
  notPending : l ∉ c.pending
  notEpilogue : f.epilogue ≠ some l
  unmarked : name ∉ c.marked → r.mark? l = some none
  marked : name ∈ c.marked → ∃ p, r.mark? l = some (some p)
  seen : name ∈ c.marked ∨ name ∈ c.gone ∨ name ∈ c.called

/-- The labels of the routine are as expected. -/
structure Labelled (m : StackMap) (c : Scene) (f : Frame) (r : Routine) : Prop where
  pending : ∀ l ∈ c.pending, r.mark? l = some none
  nodup : c.pending.Nodup
  epilogue : ∀ l, f.epilogue = some l → r.mark? l = some none ∧ l ∉ c.pending ∧ m.Types r l [] ∧
    f.returnTemp.isSome
  named : ∀ name l, f.labels.lookup name = some l → NamedLabel m c f r name l
  named_inj : ∀ name name' l, f.labels.lookup name = some l → f.labels.lookup name' = some l →
    name = name'
  marked : ∀ name ∈ c.marked, ∃ l, f.labels.lookup name = some l
  gone : ∀ name ∈ c.gone, ∃ l, f.labels.lookup name = some l ∧
    ∃ (pc : Nat) (i : Instruction), r.code[pc]? = some i ∧ l ∈ i.labels
  unmarked : ∀ l, r.mark? l = some none →
    l ∈ c.pending ∨ f.epilogue = some l ∨ ∃ name, f.labels.lookup name = some l
  returnLabel : ∀ l, c.returnLabel = some l → f.epilogue = some l

/-- The ways out of a loop around the code at hand. -/
structure LoopOpen (m : StackMap) (c : Scene) (r : Routine) (l : Loop) : Prop where
  breakTypes : m.Types r l.breakLabel []
  breakPending : l.breakLabel ∈ c.pending
  continueTypes : m.Types r l.continueLabel []
  continueMarked : ∃ p, r.mark? l.continueLabel = some (some p)
  level : l.exceptionLevel ≤ c.nesting

/-- The routine is as the scene has it, with the stacks of a map. -/
structure Holds (m : StackMap) (c : Scene) (S : List Slot) (f : Frame) (r : Routine) : Prop where
  fits : m.Fits r
  start : m.before 0 = []
  top : m.before r.position = S
  grows : c.base.Grows r
  opened : r.openRegions = c.opened
  typed : ∀ {l K}, (l, K) ∈ c.typed → m.Types r l K
  loops : ∀ l ∈ c.loops, LoopOpen m c r l
  labelled : Labelled m c f r

/-- The state is as the scene has it, with a stack at the end of the code. -/
def Ready (E : CompileError → Prop) (c : Scene) (S : List Slot) (s : State Chunk) : Prop :=
  Around E c.toSurroundings s ∧ ∃ m, Holds m c S s.frame s.active

end Lowering
end PhpLowering
