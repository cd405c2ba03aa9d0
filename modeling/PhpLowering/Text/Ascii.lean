/-!
# Names without case

Function and class names of the source language are compared without regard to
case, but only the letters `A` to `Z` take part: every other character, accented
letters included, stands for itself.  Folding both sides with `foldCase` and
comparing the results is therefore the whole of the rule, and it is the key under
which every symbol table of this library files a name.

A name may be written with one leading backslash, which names the global
namespace and is dropped before a lookup (`globalName`).
-/

namespace PhpLowering
namespace Text

/-- The spelling of a name that all its case variants share. -/
def foldCase (name : String) : String :=
  name.map Char.toLower

/-- Two names are the same symbol when they differ in the case of ASCII letters at most. -/
def sameName (a b : String) : Bool :=
  foldCase a == foldCase b

/-- A name without the backslash that may lead it.  Only one backslash is dropped, so a
doubled one still leaves a name that no table holds. -/
def globalName (name : String) : String :=
  match name.toList with
  | '\\' :: rest => String.ofList rest
  | _ => name

@[simp] theorem sameName_iff (a b : String) : sameName a b = true ↔ foldCase a = foldCase b := by
  simp [sameName]

end Text
end PhpLowering
