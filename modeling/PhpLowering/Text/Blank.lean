/-!
# Blanks

Two sets of blanks surround a number in a string.  In front of it only the six ASCII
blanks of the source language count, and they are dropped while the string is still
bytes.  Behind it every character with the Unicode property `White_Space` counts,
because that end is trimmed as text.
-/

namespace PhpLowering
namespace Text

/-- The bytes that may precede a number: space, tab, line feed, vertical tab, form feed and
carriage return. -/
def isLeadingBlank (b : UInt8) : Bool :=
  b == 0x20 || (0x09 ≤ b && b ≤ 0x0D)

/-- The Unicode property `White_Space`. -/
def isBlank (c : Char) : Bool :=
  let n := c.toNat
  (0x09 ≤ n && n ≤ 0x0D) || n == 0x20 || n == 0x85 || n == 0xA0 || n == 0x1680 ||
    (0x2000 ≤ n && n ≤ 0x200A) || n == 0x2028 || n == 0x2029 || n == 0x202F || n == 0x205F ||
    n == 0x3000

/-- The bytes from the first one that is not a leading blank. -/
def dropLeadingBlanks (bytes : List UInt8) : List UInt8 :=
  bytes.dropWhile isLeadingBlank

/-- The characters up to the last one that is not a blank. -/
def dropTrailingBlanks (chars : List Char) : List Char :=
  (chars.reverse.dropWhile isBlank).reverse

end Text
end PhpLowering
