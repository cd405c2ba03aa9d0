import PhpLowering.Code.TypeCode

/-!
# Primitives of the run time

Emitted code calls these for everything that depends on values.  Each pops a fixed number
of operands and pushes one result, or none if the result is `void`; the two tables `arity`
and `result` are all that the lowering knows about them.
-/

namespace PhpLowering

/-- A primitive that emitted code may call. -/
inductive RuntimeOp where
  | concatStrStr
  | concatStrObj
  | concatObjStr
  | concatObjObj
  | concatBytesBytes
  | concatBytesObj
  | concatObjBytes
  /-- Concatenates the elements of a value array. -/
  | concatN
  | toText
  | toBytes
  | toBool
  | toLong
  | toDouble
  /-- Copies an array, so that the copy can be stored without sharing. -/
  | deepCopy
  | increment
  | decrement
  | clone
  | plus
  | negate
  | bitNot
  | logicNot
  | add
  | sub
  | mul
  | identical
  | notIdentical
  | lessThan
  | greaterThan
  | getItem
  /-- Like `getItem`, without a notice for a missing key. -/
  | getItemQuiet
  /-- Fetches a nested array for writing; a missing one is created. -/
  | getItemForWrite
  | getItemRef
  /-- Appends a fresh array and pushes it for writing. -/
  | appendArray
  /-- Appends a fresh slot and pushes a reference to it. -/
  | appendReference
  /-- Takes an array, a key and a value. -/
  | setItem
  /-- Takes an array and a value. -/
  | append
  | unsetItem
  | isArrayLike
  | isBytes
  | dereference
  | newReference
  | newReferenceEmpty
  /-- Marks a returned array, so that the caller takes it over instead of copying it. -/
  | markInplaceCopyOnReturn
  /-- Unwraps a caught host exception into the exception that the program sees. -/
  | wrapHostException
  | throwInvalidBreakLevel
  | echo
  | print
  | beginSilence
  | endSilence
  deriving DecidableEq, Repr, Inhabited

namespace RuntimeOp

/-- Every primitive. -/
def all : List RuntimeOp :=
  [.concatStrStr, .concatStrObj, .concatObjStr, .concatObjObj, .concatBytesBytes,
   .concatBytesObj, .concatObjBytes, .concatN, .toText, .toBytes, .toBool, .toLong, .toDouble,
   .deepCopy, .increment, .decrement, .clone, .plus, .negate, .bitNot, .logicNot, .add, .sub,
   .mul, .identical, .notIdentical, .lessThan, .greaterThan, .getItem, .getItemQuiet,
   .getItemForWrite, .getItemRef, .appendArray, .appendReference, .setItem, .append, .unsetItem,
   .isArrayLike, .isBytes, .dereference, .newReference, .newReferenceEmpty,
   .markInplaceCopyOnReturn, .wrapHostException, .throwInvalidBreakLevel, .echo, .print,
   .beginSilence, .endSilence]

/-- The number of operands that a primitive pops. -/
def arity : RuntimeOp → Nat
  | .newReferenceEmpty | .beginSilence | .endSilence => 0
  | .concatStrStr | .concatStrObj | .concatObjStr | .concatObjObj | .concatBytesBytes
  | .concatBytesObj | .concatObjBytes | .add | .sub | .mul | .identical | .notIdentical
  | .lessThan | .greaterThan | .getItem | .getItemQuiet | .getItemForWrite | .getItemRef
  | .append | .unsetItem => 2
  | .setItem => 3
  | _ => 1

/-- What a primitive pushes. -/
def result : RuntimeOp → TypeCode
  | .concatStrStr | .toText => .string
  | .concatBytesBytes | .concatBytesObj | .concatObjBytes | .toBytes => .bytes
  | .toBool | .logicNot | .identical | .notIdentical | .lessThan | .greaterThan | .isArrayLike
  | .isBytes => .boolean
  | .toLong => .longInteger
  | .toDouble => .double
  | .print => .integer
  | .getItemForWrite | .appendArray => .arrayHandle
  | .getItemRef | .appendReference | .newReference | .newReferenceEmpty => .referenceCell
  | .setItem | .append | .unsetItem | .markInplaceCopyOnReturn | .throwInvalidBreakLevel
  | .echo | .beginSilence | .endSilence => .void
  | .concatStrObj | .concatObjStr | .concatObjObj | .concatN | .deepCopy | .increment
  | .decrement | .clone | .plus | .negate | .bitNot | .add | .sub | .mul | .getItem
  | .getItemQuiet | .dereference | .wrapHostException => .object

/-- The name of a primitive in listings. -/
def name : RuntimeOp → String
  | .concatStrStr => "concat_str_str"
  | .concatStrObj => "concat_str_obj"
  | .concatObjStr => "concat_obj_str"
  | .concatObjObj => "concat_obj_obj"
  | .concatBytesBytes => "concat_bytes_bytes"
  | .concatBytesObj => "concat_bytes_obj"
  | .concatObjBytes => "concat_obj_bytes"
  | .concatN => "concat_n"
  | .toText => "to_string"
  | .toBytes => "to_bytes"
  | .toBool => "to_bool"
  | .toLong => "to_long"
  | .toDouble => "to_double"
  | .deepCopy => "deep_copy"
  | .increment => "increment"
  | .decrement => "decrement"
  | .clone => "clone"
  | .plus => "plus"
  | .negate => "negate"
  | .bitNot => "bit_not"
  | .logicNot => "logic_not"
  | .add => "add"
  | .sub => "sub"
  | .mul => "mul"
  | .identical => "identical"
  | .notIdentical => "not_identical"
  | .lessThan => "less_than"
  | .greaterThan => "greater_than"
  | .getItem => "get_item"
  | .getItemQuiet => "get_item_quiet"
  | .getItemForWrite => "get_item_for_write"
  | .getItemRef => "get_item_ref"
  | .appendArray => "append_array"
  | .appendReference => "append_reference"
  | .setItem => "set_item"
  | .append => "append"
  | .unsetItem => "unset_item"
  | .isArrayLike => "is_array_like"
  | .isBytes => "is_bytes"
  | .dereference => "dereference"
  | .newReference => "new_reference"
  | .newReferenceEmpty => "new_reference_empty"
  | .markInplaceCopyOnReturn => "mark_inplace_copy_on_return"
  | .wrapHostException => "wrap_host_exception"
  | .throwInvalidBreakLevel => "throw_invalid_break_level"
  | .echo => "echo"
  | .print => "print"
  | .beginSilence => "begin_silence"
  | .endSilence => "end_silence"

end RuntimeOp
end PhpLowering
