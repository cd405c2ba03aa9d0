import PhpLowering.Code.Chunk
import PhpLowering.Literal.Conversion

/-!
# Listings

The text form of a chunk: the main routine, then each function under a heading.  A
routine is listed with one instruction per line, every label on a line of its own in
front of the instruction it marks, and its regions at the end.
-/

namespace PhpLowering
namespace Listing

/-- A position, filled up with zeros to four digits. -/
def position (n : Nat) : String :=
  let digits := Nat.toDigits 10 n
  String.ofList (List.replicate (4 - digits.length) '0' ++ digits)

/-- The lines of the labels that are marked at a position. -/
def labelLines (r : Routine) (n : Nat) : List String :=
  (List.range r.labels.size).filterMap fun l =>
    if r.labelPosition? ⟨l⟩ = some n then some s!"L{l}:" else none

/-- The line of an instruction; a constant is shown by its value if the pool has one. -/
def instructionLine (r : Routine) (n : Nat) (i : Instruction) : String :=
  let text := match i with
    | .const index =>
      match r.constants[index]? with
      | some v => "const " ++ v.listing
      | none => i.text
    | _ => i.text
  "  " ++ position n ++ " " ++ text

/-- The part of a region's line about one handler. -/
def handlerText (h : Handler) : String :=
  match h.kind with
  | .catching type => s!" catch({type}) {h.start}..{h.stop}"
  | .cleanup => s!" finally {h.start}..{h.stop}"

/-- The line of a region. -/
def regionLine (r : Region) : String :=
  s!"try {r.tryStart}..{r.tryStop}" ++ String.join (r.handlers.map handlerText) ++ s!" end {r.stop}"

/-- The lines of a routine. -/
def routineLines (r : Routine) : List String :=
  (List.range r.code.size).flatMap (fun n =>
      labelLines r n ++ (r.code[n]?.map (instructionLine r n)).toList) ++
    labelLines r r.code.size ++ r.regions.toList.map regionLine

/-- The heading of a function. -/
def heading (r : Routine) : String :=
  let params := r.params.map fun p => (if p.byRef then "&" else "") ++ "$" ++ p.name
  "function " ++ (if r.returnsRef then "&" else "") ++ r.name ++ "(" ++ ", ".intercalate params ++ "):"

end Listing

/-- The text form of a chunk. -/
def Chunk.listing (c : Chunk) : String :=
  let lines := Listing.routineLines c.main ++
    c.functions.toList.flatMap fun f => "" :: Listing.heading f :: Listing.routineLines f
  String.join (lines.map (· ++ "\n"))

end PhpLowering
