import PhpLowering.Proofs.Code.Talk
import PhpLowering.Proofs.Lowering.Scene

/-!
# What a call does to a chunk

A chunk passes the calls that it gets to the active routine, and a routine is changed in a few ways
only: its `Operation`s.  None of them touches the head of the routine (`Operation.head`).

A relation between routines that no operation can see through makes them `Twins`: each operation has the
same answer for both and leaves twins again.  Equality is such a relation, and so is `SameCode`, which
lets the routines differ in the places of the source that their instructions come from.

A chunk does one of three things with a call: it performs an operation on the active routine, it begins a
routine, or it ends one.  A routine that must not end yet is dropped.  These are the changes of a chunk
(`Chunk.Change`), whether the call is accepted or not.

So what every operation preserves, and a routine has at its beginning, holds of all routines of a chunk
after any calls (`Chunk.Every.after`).
-/

namespace PhpLowering

/-! ## Operations on a routine -/

namespace Routine

/-- What a routine is given at its beginning. -/
structure Head where
  name : String
  filePath : Option String
  returnsRef : Bool
  params : List Param
  tempLimit : Option Nat
  deriving DecidableEq

/-- The head of a routine. -/
def head (r : Routine) : Head :=
  { name := r.name, filePath := r.filePath, returnsRef := r.returnsRef, params := r.params,
    tempLimit := r.tempLimit }

/-- What calls to a chunk can do to the active routine. -/
inductive Operation : {α : Type} → (Routine → α × Routine) → Prop where
  | emit (i : Instruction) : Operation (Routine.emit i)
  | addConstant (v : Literal) : Operation (Routine.addConstant v)
  | defineLabel : Operation Routine.defineLabel
  | markLabel (l : Label) : Operation (Routine.markLabel l)
  | declareTemp : Operation Routine.declareTemp
  | returnTemp (t : Temp) : Operation fun r => ((), r.returnTemp t)
  | beginTry : Operation fun r => ((.ok r.beginTry.1 : Except SinkError Label), r.beginTry.2)
  | beginHandler (kind : HandlerKind) : Operation (Routine.beginHandler kind)
  | endRegion : Operation Routine.endRegion
  | sequencePoint (span : Span) : Operation fun r => ((), { r with currentSpan := span })

theorem head_markLabel (l : Label) (r : Routine) : (r.markLabel l).2.head = r.head := by
  unfold markLabel
  split <;> rfl

/-- **No operation touches the head of a routine.** -/
theorem Operation.head {α : Type} {f : Routine → α × Routine} (h : Operation f) (r : Routine) :
    (f r).2.head = r.head := by
  cases h with
  | emit i =>
    unfold Routine.emit
    split
    · split <;> rfl
    · rfl
  | addConstant v =>
    unfold Routine.addConstant
    split
    · rfl
    · split <;> rfl
  | markLabel l => exact head_markLabel l r
  | declareTemp =>
    unfold Routine.declareTemp
    split
    · rfl
    · split <;> rfl
  | returnTemp t =>
    dsimp only
    unfold Routine.returnTemp
    split <;> rfl
  | beginHandler kind =>
    unfold Routine.beginHandler
    split
    · rfl
    · split <;> rfl
  | endRegion =>
    unfold Routine.endRegion
    split
    · rfl
    · split
      · rfl
      · exact head_markLabel _ _
  | defineLabel | beginTry | sequencePoint => rfl

/-- No operation can tell two routines apart, and it leaves them so. -/
class Twins (S : Routine → Routine → Prop) : Prop where
  refl (r : Routine) : S r r
  openRegions {r r' : Routine} : S r r' → r'.openRegions = r.openRegions
  operation {α : Type} {f : Routine → α × Routine} {r r' : Routine} :
    Operation f → S r r' → (f r').1 = (f r).1 ∧ S (f r).2 (f r').2

instance twins_eq : Twins Eq where
  refl _ := rfl
  openRegions h := by rw [h]
  operation _ h := by
    rw [h]
    exact ⟨rfl, rfl⟩

/-- Two routines differ at most in the places of the source that their instructions come from. -/
def SameCode (r r' : Routine) : Prop :=
  ∃ spans currentSpan, r' = { r with spans, currentSpan }

theorem sameCode_markLabel {r r' : Routine} (l : Label) (h : SameCode r r') :
    (r'.markLabel l).1 = (r.markLabel l).1 ∧ SameCode (r.markLabel l).2 (r'.markLabel l).2 := by
  obtain ⟨spans, span, rfl⟩ := h
  unfold markLabel
  dsimp only
  split <;> exact ⟨rfl, spans, span, rfl⟩

instance twins_sameCode : Twins SameCode where
  refl r := ⟨r.spans, r.currentSpan, rfl⟩
  openRegions h := by
    obtain ⟨spans, span, rfl⟩ := h
    rfl
  operation hf h := by
    cases hf with
    | markLabel l => exact sameCode_markLabel l h
    | endRegion =>
      obtain ⟨spans, span, rfl⟩ := h
      unfold Routine.endRegion
      dsimp only
      split
      · exact ⟨rfl, spans, span, rfl⟩
      · split
        · exact ⟨rfl, spans, span, rfl⟩
        · exact sameCode_markLabel _ ⟨_, span, rfl⟩
    | emit i =>
      obtain ⟨spans, span, rfl⟩ := h
      unfold Routine.emit
      dsimp only
      split
      · split <;> exact ⟨rfl, _, span, rfl⟩
      · exact ⟨rfl, _, span, rfl⟩
    | addConstant v =>
      obtain ⟨spans, span, rfl⟩ := h
      unfold Routine.addConstant
      dsimp only
      split
      · exact ⟨rfl, spans, span, rfl⟩
      · split <;> exact ⟨rfl, spans, span, rfl⟩
    | declareTemp =>
      obtain ⟨spans, span, rfl⟩ := h
      unfold Routine.declareTemp
      dsimp only
      split
      · exact ⟨rfl, spans, span, rfl⟩
      · split <;> exact ⟨rfl, spans, span, rfl⟩
    | returnTemp t =>
      obtain ⟨spans, span, rfl⟩ := h
      unfold Routine.returnTemp
      dsimp only
      split <;> exact ⟨rfl, spans, span, rfl⟩
    | beginHandler kind =>
      obtain ⟨spans, span, rfl⟩ := h
      unfold Routine.beginHandler
      dsimp only
      split
      · exact ⟨rfl, spans, span, rfl⟩
      · split <;> exact ⟨rfl, _, span, rfl⟩
    | defineLabel | beginTry | sequencePoint =>
      obtain ⟨spans, span, rfl⟩ := h
      exact ⟨rfl, spans, _, rfl⟩

end Routine

/-! ## Changes of a chunk -/

/-- A sink after some calls, whether it accepted them or not. -/
def Sink.after {σ : Type} [Sink σ] (k : σ) (calls : List Sink.Call) : σ :=
  calls.foldl (fun k call => (call.make k).2) k

namespace Chunk

open Routine (Operation)
open Sink (Call)

/-- A routine that has just been begun. -/
def begun (c : Chunk) (head : FunctionHead) : Routine :=
  { name := head.name, filePath := c.main.filePath, returnsRef := head.byRef, params := head.params,
    tempLimit := c.main.tempLimit }

/-- How a call can change a chunk. -/
inductive Change (c : Chunk) : Chunk → Prop where
  | operation {α : Type} {f : Routine → α × Routine} (hf : Operation f) :
    Change c (c.withActive (f c.active).2)
  | began (head : FunctionHead) : Change c { c with pending := c.begun head :: c.pending }
  | ended {r : Routine} {outer : List Routine} (h : c.pending = r :: outer) :
    Change c { c with pending := outer, functions := c.functions.push r }
  | dropped {r : Routine} {outer : List Routine} (h : c.pending = r :: outer) :
    Change c { c with pending := outer }
  | nothing : Change c c

variable {c c' : Chunk}

theorem change_endFunction (c : Chunk) : Change c (endFunction c).2 := by
  unfold endFunction
  split
  · exact .nothing
  · rename_i hpending
    dsimp only
    split
    · exact .ended hpending
    · exact .dropped hpending

/-- **Every call changes a chunk in one of these ways.** -/
theorem change_make (call : Call) (c : Chunk) : Change c (call.make c).2 := by
  have hoperation : ∀ {α : Type} {f : Routine → α × Routine}, Operation f → Change c (onActive f c).2 := by
    intro α f hf
    rw [onActive_eq]
    exact .operation hf
  cases call with
  | emit i => exact hoperation (.emit i)
  | addConstant v => exact hoperation (.addConstant v)
  | defineLabel => exact hoperation .defineLabel
  | markLabel l => exact hoperation (.markLabel l)
  | declareTemp => exact hoperation .declareTemp
  | returnTemp t => exact hoperation (.returnTemp t)
  | beginTry => exact hoperation .beginTry
  | beginCatch type => exact hoperation (.beginHandler (.catching type))
  | beginFinally => exact hoperation (.beginHandler .cleanup)
  | endRegion => exact hoperation .endRegion
  | sequencePoint span => exact hoperation (.sequencePoint span)
  | beginFunction head => exact .began head
  | endFunction => exact change_endFunction c

/-! ## Properties of all routines -/

/-- All routines of a chunk, those that are not complete among them, have a property. -/
structure Every (P : Routine → Prop) (c : Chunk) : Prop where
  main : P c.main
  functions : ∀ r ∈ c.functions, P r
  pending : ∀ r ∈ c.pending, P r

variable {P : Routine → Prop}

theorem Every.active (h : c.Every P) : P c.active := by
  rcases c with ⟨main, functions, _ | ⟨r, outer⟩⟩
  · exact h.main
  · exact h.pending r List.mem_cons_self

theorem Every.withActive (h : c.Every P) {r : Routine} (hr : P r) : (c.withActive r).Every P := by
  rcases c with ⟨main, functions, _ | ⟨r', outer⟩⟩
  · exact ⟨hr, h.functions, h.pending⟩
  · exact ⟨h.main, h.functions, List.forall_mem_cons.mpr ⟨hr, (List.forall_mem_cons.mp h.pending).2⟩⟩

section
variable (hbegun : ∀ c head, P (begun c head))
  (hoperation : ∀ {α : Type} {f : Routine → α × Routine} {r : Routine}, Operation f → P r → P (f r).2)
include hbegun hoperation

theorem Every.change (h : c.Every P) (hchange : Change c c') : c'.Every P := by
  cases hchange with
  | operation hf => exact h.withActive (hoperation hf h.active)
  | began head => exact ⟨h.main, h.functions, List.forall_mem_cons.mpr ⟨hbegun c head, h.pending⟩⟩
  | nothing => exact h
  | ended hpending =>
    obtain ⟨hr, houter⟩ := List.forall_mem_cons.mp (hpending ▸ h.pending)
    exact ⟨h.main, Array.forall_mem_push.mpr ⟨hr, h.functions⟩, houter⟩
  | dropped hpending =>
    exact ⟨h.main, h.functions, (List.forall_mem_cons.mp (hpending ▸ h.pending)).2⟩

/-- **What every operation preserves holds of all routines after any calls.** -/
theorem Every.after (h : c.Every P) (calls : List Call) : (Sink.after c calls).Every P := by
  induction calls generalizing c with
  | nil => exact h
  | cons call calls ih => exact ih (h.change hbegun hoperation (change_make call c))

end

end Chunk
end PhpLowering
