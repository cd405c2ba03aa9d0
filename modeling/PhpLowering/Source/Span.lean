/-!
# Places in the source

A span is a range of byte offsets.  Nothing keeps its ends in order: spans come from
outside, so every question about the source answers `none` for a span that does not lie
in it.
-/

namespace PhpLowering

/-- A range of byte offsets, the end not included. -/
structure Span where
  start : Nat := 0
  stop : Nat := 0
  deriving DecidableEq, Repr, Inhabited

/-- Where a span begins, in the terms of an editor. -/
structure LineInfo where
  /-- The number of the line, from 1. -/
  line : Nat
  /-- The column in bytes, from 1. -/
  column : Nat
  /-- The bytes of the line, without its newline. -/
  text : List UInt8
  deriving DecidableEq, Repr

namespace Span

/-- The number of bytes of a span whose ends are in order. -/
def length (s : Span) : Nat :=
  s.stop - s.start

/-- Whether the two ends are the same. -/
def isEmpty (s : Span) : Bool :=
  s.start == s.stop

/-- The least span that covers both. -/
def merge (a b : Span) : Span :=
  ⟨min a.start b.start, max a.stop b.stop⟩

/-- Whether a span lies in a source. -/
def fits (s : Span) (source : List UInt8) : Bool :=
  s.start ≤ s.stop && s.stop ≤ source.length

/-- The newline byte. -/
def newline : UInt8 := 0x0A

/-- The bytes after the last newline. -/
def lastLine (bytes : List UInt8) : List UInt8 :=
  (bytes.reverse.takeWhile (· != newline)).reverse

/-- The line, the column and the text of the line that a span begins on. -/
def lineInfo? (s : Span) (source : List UInt8) : Option LineInfo :=
  if s.fits source then
    let before := source.take s.start
    let after := source.drop s.start
    some
      { line := before.count newline + 1
        column := (lastLine before).length + 1
        text := lastLine before ++ after.takeWhile (· != newline) }
  else none

/-- The bytes that a span covers. -/
def bytes? (s : Span) (source : List UInt8) : Option (List UInt8) :=
  if s.fits source then some ((source.drop s.start).take s.length) else none

end Span
end PhpLowering
