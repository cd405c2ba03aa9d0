import PhpLowering.Literal.Basic
import PhpLowering.Text.Ascii

/-!
# Symbols known from outside

The classes, constants and functions that a unit may use without declaring them.  Classes
and functions are found whatever the case of their name, with or without a leading
backslash; constants are found by their exact name, but `true`, `false` and `null` are
always known in any case.
-/

namespace PhpLowering

/-- What is known of a function that can be called. -/
structure Signature where
  name : String
  returnsRef : Bool := false
  /-- For every parameter, whether it is bound by reference. -/
  byRefParams : List Bool := []
  deriving DecidableEq, Repr, Inhabited

/-- Whether the argument at a position is bound by reference; arguments beyond the parameters are
not. -/
def Signature.paramByRef (s : Signature) (position : Nat) : Bool :=
  s.byRefParams.getD position false

/-- The symbols known from outside, the latest entry first. -/
structure Symbols where
  types : List (String × String) := []
  constants : List (String × Literal) := []
  functions : List (String × Signature) := []
  deriving Inhabited

namespace Symbols

/-- The symbols with one more class. -/
def withType (s : Symbols) (name : String) : Symbols :=
  { s with types := (Text.foldCase name, name) :: s.types }

/-- The symbols with one more constant. -/
def withConstant (s : Symbols) (name : String) (value : Literal) : Symbols :=
  { s with constants := (name, value) :: s.constants }

/-- The symbols with one more function. -/
def withFunction (s : Symbols) (signature : Signature) : Symbols :=
  { s with functions := (Text.foldCase signature.name, signature) :: s.functions }

/-- The canonical name of a class. -/
def type? (s : Symbols) (name : String) : Option String :=
  s.types.lookup (Text.foldCase (Text.globalName name))

/-- The value of a constant. -/
def constant? (s : Symbols) (name : String) : Option Literal :=
  let folded := Text.foldCase name
  if folded = "true" then some (.bool true)
  else if folded = "false" then some (.bool false)
  else if folded = "null" then some .null
  else s.constants.lookup name

/-- The signature of a function. -/
def function? (s : Symbols) (name : String) : Option Signature :=
  s.functions.lookup (Text.foldCase (Text.globalName name))

/-- The exception classes, constants and functions that every unit may use. -/
def builtins : Symbols :=
  let types := ["Throwable", "Exception", "Error", "ErrorException", "RuntimeException",
    "LogicException", "InvalidArgumentException", "TypeError"]
  let functions : List Signature :=
    [{ name := "strlen", byRefParams := [false] },
     { name := "count", byRefParams := [false, false] },
     { name := "sort", byRefParams := [true, false] },
     { name := "array_push", byRefParams := [true] },
     { name := "preg_match", byRefParams := [false, false, true] }]
  let s := types.foldl withType {}
  let s := s.withConstant "PHP_EOL" (.string "\n")
  let s := s.withConstant "PHP_INT_MAX" (.long Int64.maxValue)
  let s := s.withConstant "PHP_INT_SIZE" (.int 8)
  functions.foldl withFunction s

end Symbols
end PhpLowering
