import PhpLowering.Code.Instruction
import PhpLowering.Fault
import PhpLowering.Pass
import PhpLowering.Tree.Stmt

/-!
# Receivers of code

The lowering does not build code; it talks to a sink.  What a sink is made of is its own
business, and it may refuse any call that answers with a result.

Exception regions are bracketed.  `beginTry` opens a guarded block and answers with the
label that follows the whole region.  Every handler closes the block before it with a
branch to that label, and `endRegion` closes the last one and marks the label.  Routines
are bracketed as well: between `beginFunction` and `endFunction` all calls concern the
function, and its labels and slots are its own.
-/

namespace PhpLowering

/-- The calls that a receiver of code answers. -/
class Sink (σ : Type) where
  emit : Instruction → Pass SinkError σ Unit
  /-- Files a literal and answers with its place in the constant pool. -/
  addConstant : Literal → Pass SinkError σ Nat
  defineLabel : σ → Label × σ
  markLabel : Label → Pass SinkError σ Unit
  declareTemp : Pass SinkError σ Temp
  returnTemp : Temp → σ → σ
  beginTry : Pass SinkError σ Label
  /-- Starts a handler for host exceptions of a type; the exception is on the stack. -/
  beginCatch : String → Pass SinkError σ Unit
  beginFinally : Pass SinkError σ Unit
  endRegion : Pass SinkError σ Unit
  /-- Says which part of the source the next instructions come from. -/
  sequencePoint : Span → σ → σ
  beginFunction : FunctionHead → Pass SinkError σ Unit
  endFunction : Pass SinkError σ Unit

end PhpLowering
