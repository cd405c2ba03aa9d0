import PhpLowering.Analysis.Fold
import PhpLowering.Literal.Conversion
import PhpLowering.Lowering.Place

/-!
# Code of operators

The code of the expressions whose parts are only evaluated: operators, concatenations,
calls and conditionals.  Every definition takes the code of the parts and puts it together;
none of them looks into a part further than its kind or value.
-/

namespace PhpLowering

/-- The primitive of a binary operator. -/
def BinaryOp.runtimeOp : BinaryOp → RuntimeOp
  | .add => .add
  | .sub => .sub
  | .mul => .mul
  | .identical => .identical
  | .notIdentical => .notIdentical
  | .lessThan => .lessThan
  | .greaterThan => .greaterThan

namespace Lowering

variable {σ : Type} [Sink σ]

/-- The code of a literal. -/
def literalValue (access : Access) (v : Literal) : Emit σ TypeCode :=
  if access = .none then return .void
  else if access.isWrite then fault (.unsupportedAccess (.expr .literal) access.name)
  else pushLiteral v

/-- The code of a constant that is looked up at run time. -/
def constantValue (access : Access) (name : String) : Emit σ TypeCode := do
  emit (.loadConstant name)
  unlessDropped access .object

/-- The code of a binary operator. -/
def binaryValue (access : Access) (op : BinaryOp) (left right : Code σ) : Emit σ TypeCode := do
  let _ ← boxed left
  let _ ← boxed right
  unlessDropped access (← call op.runtimeOp)

/-- A primitive applied to the value of an operand. -/
def callOn (op : RuntimeOp) (operand : Code σ) : Emit σ TypeCode := do
  let _ ← boxed operand
  call op

/-- The value of a unary operator other than `@`. -/
def unaryResult (op : UnaryOp) (operand : Code σ) : Emit σ TypeCode := do
  match op with
  | .plus => callOn .plus operand
  | .minus => callOn .negate operand
  | .logicNot => callOn .logicNot operand
  | .bitNot => callOn .bitNot operand
  | .clone => callOn .clone operand
  | .print => callOn .print operand
  | .intCast => converted operand .longInteger
  | .doubleCast => converted operand .double
  | .stringCast => converted operand .string
  | .binaryCast => converted operand .bytes
  | .boolCast => converted operand .boolean
  | .unsetCast =>
    let _ ← discard (← operand .value)
    pushLiteral .null
  | .silence => operand .value

/-- The code of a unary operator.  The operator `@` is transparent: its operand has the access of
the whole expression, so there is nothing left to drop. -/
def unaryValue (access : Access) (op : UnaryOp) (operand : Code σ) : Emit σ TypeCode := do
  if op = .silence then
    callVoid .beginSilence
    let code ← operand .value
    callVoid .endSilence
    return code
  else unlessDropped access (← unaryResult op operand)

/-! ## Concatenations

The code depends on the number of operands.  One operand is turned into a string, two are
joined by a primitive that fits their representations, more are collected in an array
first. -/

/-- The representation of an operand of a concatenation. -/
inductive Operand where
  | text | bytes | object
  deriving DecidableEq, Repr

/-- A literal as an operand of a concatenation, which is always a string. -/
def pushOperand (v : Literal) : Emit σ TypeCode :=
  match v with
  | .bytes _ => pushLiteral v
  | _ => pushLiteral (.string v.toText)

/-- Pushes one of two operands in the representation that costs least. -/
def concatOperand (e : Expr) (code : Code σ) : Emit σ Operand := do
  match e.value? with
  | some v =>
    let code ← pushOperand v
    return if code = .bytes then .bytes else .text
  | none =>
    match ← code .value with
    | .string => return .text
    | .bytes => return .bytes
    | code =>
      let _ ← box code
      if code.isPrimitive then
        callVoid .toText
        return .text
      else return .object

/-- The primitive that joins two operands. -/
def joinOp : Operand → Operand → RuntimeOp
  | .text, .text => .concatStrStr
  | .text, .object => .concatStrObj
  | .object, .text => .concatObjStr
  | .object, .object => .concatObjObj
  | .bytes, .bytes => .concatBytesBytes
  | .bytes, _ => .concatBytesObj
  | _, .bytes => .concatObjBytes

/-- A concatenation of one operand: a string stays what it is, and so does a binary string that only
turns up at run time. -/
def concatSingle (e : Expr) (code : Code σ) : Emit σ TypeCode := do
  match e.value? with
  | some v => pushOperand v
  | none =>
    let code ← code .value
    if code = .string ∨ code = .bytes then return code
    else
      let _ ← box code
      let done ← defineLabel
      emit .dup
      callVoid .isBytes
      emit (.branchIfTrue done)
      callVoid .toText
      mark done
      return .object

/-- Pushes values in order, in general form. -/
def pushBoxed : List (Expr × Code σ) → Emit σ Unit
  | [] => return
  | (_, code) :: rest => do
    let _ ← boxed code
    pushBoxed rest

/-- The most operands that a value array can have. -/
def maxOperands : Nat := 65535

/-- The value of a concatenation. -/
def concatResult : List (Expr × Code σ) → Emit σ TypeCode
  | [] => pushLiteral (.string "")
  | [(e, code)] => concatSingle e code
  | [(left, leftCode), (right, rightCode)] => do
    let l ← concatOperand left leftCode
    let r ← concatOperand right rightCode
    call (joinOp l r)
  | operands => do
    if operands.length ≤ maxOperands then
      pushBoxed operands
      emit (.newValueArray operands.length)
      call .concatN
    else Pass.fail (.backend (.resourceExhausted .concatenationOperands))

/-- The code of a concatenation. -/
def concatValue (access : Access) (operands : List (Expr × Code σ)) : Emit σ TypeCode := do
  unlessDropped access (← concatResult operands)

/-! ## Calls -/

/-- The most arguments that a call can have. -/
def maxArguments : Nat := 255

/-- Pushes arguments in order; references stay references. -/
def pushArguments : List (Expr × Code σ) → Emit σ Unit
  | [] => return
  | (_, code) :: rest => do
    let code ← code .value
    if code ≠ .referenceCell then
      let _ ← box code
    pushArguments rest

/-- The code of a call. -/
def callValue (access : Access) (name : String) (args : List (Expr × Code σ)) : Emit σ TypeCode := do
  if args.length ≤ maxArguments then
    pushArguments args
    emit (.callFunction name args.length)
    unlessDropped access .object
  else Pass.fail (.backend (.resourceExhausted .callArguments))

/-! ## Conditionals -/

/-- A branch of a conditional: its value in general form, or nothing if it is not used. -/
def branchValue (used : Bool) (code : Code σ) : Emit σ Unit := do
  let code ← code .value
  let _ ← if used then box code else discard code

/-- What a conditional leaves on the stack. -/
def conditionalResult (access : Access) : TypeCode :=
  if access = .none then .void else .object

/-- The code of a conditional. -/
def conditionalValue (access : Access) (condition ifTrue ifFalse : Code σ) : Emit σ TypeCode := do
  let used := access ≠ .none
  let done ← defineLabel
  let otherwise ← defineLabel
  let _ ← converted condition .boolean
  emit (.branchIfFalse otherwise)
  branchValue used ifTrue
  emit (.branch done)
  mark otherwise
  branchValue used ifFalse
  mark done
  return conditionalResult access

/-- The code of a conditional whose condition is its value when true. -/
def shortcutValue (access : Access) (condition ifFalse : Code σ) : Emit σ TypeCode := do
  let used := access ≠ .none
  let done ← defineLabel
  if used then
    let _ ← boxed condition
    emit .dup
    callVoid .toBool
    emit (.branchIfTrue done)
    emit .pop
  else
    let _ ← converted condition .boolean
    emit (.branchIfTrue done)
  branchValue used ifFalse
  mark done
  return conditionalResult access

end Lowering
end PhpLowering
