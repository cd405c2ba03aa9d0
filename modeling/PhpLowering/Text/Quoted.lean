import PhpLowering.Text.Hidden

/-!
# Quoted text

Listings show a string between double quotes on one line.  A quote and a backslash
are preceded by a backslash, the usual controls have a letter of their own, and every
other character that would not show as itself is written by its code point in
hexadecimal.
-/

namespace PhpLowering
namespace Text
namespace Quoted

/-- The written form of one character. -/
def encodeChar (c : Char) : List Char :=
  if c = '"' then ['\\', '"']
  else if c = '\\' then ['\\', '\\']
  else if c = '\n' then ['\\', 'n']
  else if c = '\r' then ['\\', 'r']
  else if c = '\t' then ['\\', 't']
  else if c = '\x00' then ['\\', '0']
  else if isHidden c then ['\\', 'u', '\x7b'] ++ Nat.toDigits 16 c.toNat ++ ['\x7d']
  else [c]

/-- A text between quotes, fit to stand in one line of a listing. -/
def encode (text : String) : String :=
  String.ofList ('"' :: text.toList.flatMap encodeChar ++ ['"'])

end Quoted
end Text
end PhpLowering
