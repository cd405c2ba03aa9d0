import PhpLowering.Decimal.Numeral
import PhpLowering.Decimal.Positional
import PhpLowering.Literal.Basic
import PhpLowering.Text.Blank
import PhpLowering.Text.Quoted
import PhpLowering.Text.Utf8

/-!
# Conversions between literal values

How a value is read as text, bytes, a truth value or a number.

The number in a string is found in three attempts, after the blanks in front of it are
gone: the whole of the rest is an integer numeral; or it is a float numeral; or the
digits it starts with are taken, with the sign before them.  The blanks behind the
number are dropped for the first two attempts only.  A string that is not well-formed
text is zero, and so is one whose leading digits overflow.
-/

namespace PhpLowering

/-- A number as arithmetic sees it. -/
inductive Numeric where
  | int (value : Int64)
  | float (value : Float)

/-- A number as a double. -/
def Numeric.toFloat : Numeric → Float
  | .int n => n.toFloat
  | .float x => x

namespace NumericText

/-- The characters that an attempt to find a number starts from. -/
def body? (bytes : List UInt8) : Option (List Char) :=
  Text.Utf8.chars? (Text.dropLeadingBlanks bytes)

/-- The digits that a text starts with, after an optional sign. -/
def leadingDigits : List Char → List Char
  | [] => []
  | c :: rest =>
    if c.isDigit ∨ c = '-' ∨ c = '+' then c :: rest.takeWhile Char.isDigit else []

/-- The number in a string. -/
def read (bytes : List UInt8) : Numeric :=
  match body? bytes with
  | none => .int 0
  | some chars =>
    let trimmed := Text.dropTrailingBlanks chars
    match Decimal.integer? trimmed with
    | some n => .int n
    | none =>
      match Decimal.float? trimmed with
      | some x => .float x
      | none => .int ((Decimal.integer? (leadingDigits chars)).getD 0)

/-- Whether a string as a whole is a number. -/
def isWhole (bytes : List UInt8) : Bool :=
  match body? bytes with
  | none => false
  | some chars => (Decimal.float? (Text.dropTrailingBlanks chars)).isSome

/-- Whether a string is the decimal form of a 64-bit integer, spelled as the integer itself would
be: no plus sign, no leading zero, no blanks. -/
def isCanonicalInteger (bytes : List UInt8) : Bool :=
  match Text.Utf8.chars? bytes with
  | none => false
  | some chars =>
    match Decimal.integer? chars with
    | some n => (toString n.toInt).toList == chars
    | none => false

end NumericText

namespace Literal

/-- The text that printing a value shows. -/
def toText : Literal → String
  | .null => ""
  | .bool b => if b then "1" else ""
  | .int n => toString n.toInt
  | .long n => toString n.toInt
  | .double x => Decimal.floatText x
  | .string text => text
  | .bytes data => Text.Utf8.decodeLossy data

/-- The bytes of a value's text; a binary string has them already. -/
def toBytes : Literal → List UInt8
  | .bytes data => data
  | other => Text.Utf8.encode other.toText

/-- The truth of a value.  Of the strings, the empty one and `0` are false. -/
def toBool : Literal → Bool
  | .null => false
  | .bool b => b
  | .int n => n != 0
  | .long n => n != 0
  | .double x => x != 0 && !x.isNaN
  | .string text => !(text.isEmpty || text == "0")
  | .bytes data => !(data.isEmpty || data == [0x30])

/-- The number that arithmetic takes a value for. -/
def toNumeric : Literal → Numeric
  | .null => .int 0
  | .bool b => .int (if b then 1 else 0)
  | .int n => .int n.toInt64
  | .long n => .int n
  | .double x => .float x
  | .string text => NumericText.read (Text.Utf8.encode text)
  | .bytes data => NumericText.read data

/-- The integer that a value is cast to: a double is truncated, and one beyond the range of 64 bits
becomes the nearest end of it. -/
def toInt64 (v : Literal) : Int64 :=
  match v.toNumeric with
  | .int n => n
  | .float x => x.toInt64

/-- The double that a value is cast to. -/
def toFloat (v : Literal) : Float :=
  v.toNumeric.toFloat

/-- Whether a value used as an array key addresses the integer part of the array. -/
def isIntegerKey : Literal → Bool
  | .int _ | .long _ | .bool _ | .double _ => true
  | .string text => NumericText.isCanonicalInteger (Text.Utf8.encode text)
  | .bytes data => NumericText.isCanonicalInteger data
  | .null => false

/-- How a listing shows a value. -/
def listing : Literal → String
  | .null => "null"
  | .bool b => if b then "true" else "false"
  | .string text => Text.Quoted.encode text
  | .bytes data => "b" ++ Text.Quoted.encode (Text.Utf8.decodeLossy data)
  | other => other.toText

end Literal
end PhpLowering
