import PhpLowering.Code.Sink
import PhpLowering.Diagnostic
import PhpLowering.Options
import PhpLowering.Rule.Memory

/-!
# Where the emission stands

Emission goes through the analysed tree once and talks to a sink.  It knows the routine it
is in, with its loops and exception regions, and the member-access chains it is in the
middle of.
-/

namespace PhpLowering
namespace Lowering

/-- What an emission is told and does not change. -/
structure Setting where
  registry : Registry := .standard
  options : Options := {}

/-- The ways out of a loop. -/
structure Loop where
  breakLabel : Label
  continueLabel : Label
  /-- The number of exception regions around the loop. -/
  exceptionLevel : Nat
  deriving DecidableEq, Repr, Inhabited

/-- Which way out of a loop is taken. -/
inductive BranchKind where
  | break | continue
  deriving DecidableEq, Repr, Inhabited

/-- The label of a way out of a loop. -/
def Loop.target (l : Loop) : BranchKind → Label
  | .break => l.breakLabel
  | .continue => l.continueLabel

/-- The routine that is being emitted. -/
structure Frame where
  returnsRef : Bool := false
  /-- The label of the code that returns, once a `return` needs it. -/
  epilogue : Option Label := none
  /-- The slot of the value to return, once a `return` needs it. -/
  returnTemp : Option Temp := none
  /-- The labels of `goto` targets by name. -/
  labels : List (String × Label) := []
  /-- The loops around, the innermost first. -/
  loops : List Loop := []
  /-- The number of exception regions around. -/
  exceptionNesting : Nat := 0
  deriving Inhabited

/-- The order in which slots are given back when a chain is closed. -/
structure ReleaseOrder where
  /-- The slots, listed in the order in which they have been taken. -/
  arrange : List Temp → List Temp
  perm (slots : List Temp) : (arrange slots).Perm slots

namespace ReleaseOrder

/-- The slot that was taken first is given back first. -/
def inOrder : ReleaseOrder :=
  ⟨id, fun _ => .refl _⟩

/-- The slot that was taken last is given back first. -/
def reversed : ReleaseOrder :=
  ⟨List.reverse, List.reverse_perm⟩

instance : Inhabited ReleaseOrder := ⟨inOrder⟩

end ReleaseOrder

/-- A member-access chain.  A location may be addressed twice, once to read and once to write; what
has an effect is evaluated the first time only and kept in a slot. -/
structure Chain where
  /-- Whether missing items are read without a notice. -/
  quiet : Bool
  /-- The operands kept so far, by node number, in the order in which they were evaluated. -/
  kept : List (Nat × Temp × TypeCode) := []
  deriving Inhabited

/-- The slots that a chain has taken. -/
def Chain.slots (c : Chain) : List Temp :=
  c.kept.map fun (_, t, _) => t

/-- The state of an emission into a sink. -/
structure State (σ : Type) where
  sink : σ
  table : RuleTable := {}
  memory : RuleMemory := {}
  diagnostics : Array Diagnostic := #[]
  /-- The chains that are open, the innermost first. -/
  chains : List Chain := []
  frame : Frame := {}
  /-- The orders in which the chains still to be closed give their slots back, that of the next one first.  A chain
  is a hash map, which yields its entries in an order of its own: nothing is known of the order, and that of one
  chain says nothing about that of the next one. -/
  releases : Nat → ReleaseOrder := fun _ => .inOrder

end Lowering
end PhpLowering
