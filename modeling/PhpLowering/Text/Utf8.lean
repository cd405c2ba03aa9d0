/-!
# Bytes and text

Text is stored as characters and binary strings as bytes, and the two meet in UTF-8.
`encode` goes from text to bytes.  The way back is one scan, `scan`, that reads a byte
at a time and remembers how much of a character it has seen.  It answers with a list of
pieces: `some c` for a character, `none` for a stretch of bytes that no character can
begin with.  The two readings of a byte string that the library needs are views of that
list:

* `chars?` is the strict reading: the characters, if every piece is one;
* `decodeLossy` is the forgiving one: every broken stretch becomes U+FFFD.

A broken stretch is as long as the bytes could still have become a character, and the
byte that ruled this out is read again from the start.  This is what makes the number
of replacement characters well defined.
-/

namespace PhpLowering
namespace Text
namespace Utf8

/-- The bytes of a text. -/
def encode (text : String) : List UInt8 :=
  text.toUTF8.data.toList

/-- What the scan has seen of a character. -/
inductive Pending where
  /-- Between characters. -/
  | idle
  /-- Inside a character: `owed + 1` bytes are still to come, the next of which lies in
  `[lo, hi]`, and the bits read so far are `bits`. -/
  | owing (owed : Nat) (lo hi : UInt8) (bits : Nat)
  deriving DecidableEq, Repr

/-- Reads a byte between characters.  The bounds on the second byte keep out overlong forms,
surrogates and everything beyond U+10FFFF. -/
def start (b : UInt8) : List (Option Char) × Pending :=
  if b < 0x80 then ([some (Char.ofNat b.toNat)], .idle)
  else if b < 0xC2 then ([none], .idle)
  else if b < 0xE0 then ([], .owing 0 0x80 0xBF (b.toNat - 0xC0))
  else if b < 0xF0 then
    ([], .owing 1 (if b = 0xE0 then 0xA0 else 0x80) (if b = 0xED then 0x9F else 0xBF) (b.toNat - 0xE0))
  else if b < 0xF5 then
    ([], .owing 2 (if b = 0xF0 then 0x90 else 0x80) (if b = 0xF4 then 0x8F else 0xBF) (b.toNat - 0xF0))
  else ([none], .idle)

/-- Reads one byte: the pieces that it completes and what is pending after it. -/
def step : Pending → UInt8 → List (Option Char) × Pending
  | .idle, b => start b
  | .owing owed lo hi bits, b =>
    if lo ≤ b ∧ b ≤ hi then
      let bits := bits * 64 + (b.toNat - 0x80)
      match owed with
      | 0 => ([some (Char.ofNat bits)], .idle)
      | owed + 1 => ([], .owing owed 0x80 0xBF bits)
    else
      (none :: (start b).1, (start b).2)

/-- Reads all bytes.  Input that ends inside a character leaves one broken piece. -/
def scan : Pending → List UInt8 → List (Option Char)
  | .idle, [] => []
  | .owing .., [] => [none]
  | p, b :: rest => (step p b).1 ++ scan (step p b).2 rest

/-- The characters of well-formed bytes. -/
def chars? (bytes : List UInt8) : Option (List Char) :=
  (scan .idle bytes).mapM id

/-- The text that the bytes spell, with U+FFFD for every broken stretch. -/
def decodeLossy (bytes : List UInt8) : String :=
  String.ofList ((scan .idle bytes).map fun piece => piece.getD '\uFFFD')

end Utf8
end Text
end PhpLowering
