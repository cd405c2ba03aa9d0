import PhpLowering.Code.Instruction

/-!
# Exception regions

A region is a guarded stretch of code followed by its handlers, each of them a stretch
of its own.  While a region is being emitted it is an `OpenRegion`: the handlers that are
complete, and the block that is still growing.
-/

namespace PhpLowering

/-- What a handler does. -/
inductive HandlerKind where
  /-- It handles the host exceptions of one type. -/
  | catching (type : String)
  /-- It runs whenever the guarded code is left. -/
  | cleanup
  deriving DecidableEq, Repr, Inhabited

/-- A handler and its stretch of code, the end not included. -/
structure Handler where
  kind : HandlerKind
  start : Nat
  stop : Nat
  deriving DecidableEq, Repr, Inhabited

/-- A complete exception region. -/
structure Region where
  tryStart : Nat
  tryStop : Nat
  handlers : List Handler
  stop : Nat
  deriving DecidableEq, Repr, Inhabited

namespace Region

/-- The first handler that runs on every way out. -/
def cleanup? (r : Region) : Option Handler :=
  r.handlers.find? fun h => h.kind == .cleanup

/-- Whether a position lies in the guarded code or in a handler. -/
def covers (r : Region) (position : Nat) : Bool :=
  r.tryStart ≤ position && position < r.stop

end Region

/-- The block of a region that is still growing. -/
inductive Block where
  | guarded
  | handler (kind : HandlerKind)
  deriving DecidableEq, Repr, Inhabited

/-- A region that is not complete. -/
structure OpenRegion where
  tryStart : Nat
  tryStop : Option Nat
  /-- The complete handlers, the last one first. -/
  handlers : List Handler
  block : Block
  blockStart : Nat
  endLabel : Label
  deriving DecidableEq, Repr, Inhabited

namespace OpenRegion

/-- A region that begins at a position. -/
def begin (position : Nat) (endLabel : Label) : OpenRegion :=
  { tryStart := position, tryStop := none, handlers := [], block := .guarded,
    blockStart := position, endLabel }

/-- The region after its growing block ends at a position. -/
def close (r : OpenRegion) (position : Nat) : OpenRegion :=
  match r.block with
  | .guarded => { r with tryStop := some position }
  | .handler kind =>
    { r with handlers := ⟨kind, r.blockStart, position⟩ :: r.handlers, block := .guarded }

/-- The region with a new growing block that begins at a position. -/
def enter (r : OpenRegion) (kind : HandlerKind) (position : Nat) : OpenRegion :=
  { r with block := .handler kind, blockStart := position }

/-- The complete region, which ends at a position. -/
def complete (r : OpenRegion) (position : Nat) : Region :=
  { tryStart := r.tryStart, tryStop := r.tryStop.getD position, handlers := r.handlers.reverse,
    stop := position }

end OpenRegion
end PhpLowering
