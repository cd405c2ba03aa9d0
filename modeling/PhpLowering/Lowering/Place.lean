import PhpLowering.Lowering.Basic
import PhpLowering.Tree.Expr

/-!
# Storage locations

A location is lowered in two halves.  The addressing half pushes what the location is
found by: nothing for a variable, an array and a key for an item.  The other half uses it
to load, to store, to bind a reference, and so on.  Between the halves there is room for
the code of the value that is to be stored.

So the code of an expression is not one piece of code: it is one for every `Use` that can
be made of the expression.  Expressions that are no locations have only their value; as a
container they are evaluated, and what is written to them is lost.
-/

namespace PhpLowering
namespace Lowering

/-- What an addressed location is going to be used for. -/
inductive Half where
  | read | write
  deriving DecidableEq, Repr, Inhabited

/-- A use of an expression. -/
inductive Use where
  /-- Its value, or whatever its access asks for. -/
  | value
  /-- The addressing half. -/
  | prepare (half : Half)
  /-- The value of a location addressed for reading. -/
  | load
  /-- Stores the value on top of a location addressed for writing. -/
  | store
  /-- A reference to the location. -/
  | loadRef
  /-- The array at the location, to be written to. -/
  | arrayForWrite
  /-- The value as a container of items. -/
  | containerRead
  /-- Removes the location. -/
  | unset
  deriving DecidableEq, Repr, Inhabited

/-- The code of an expression. -/
abbrev Code (σ : Type) := Use → Emit σ TypeCode

/-- The code of a location. -/
structure Place (σ : Type) where
  prepare : Half → Emit σ Unit
  load : Emit σ TypeCode
  store : Emit σ Unit
  loadRef : Emit σ TypeCode
  arrayForWrite : Emit σ TypeCode
  unset : Emit σ Unit

variable {σ : Type} [Sink σ]

/-- The value of an expression in general form. -/
def boxed (code : Code σ) : Emit σ TypeCode := do
  box (← code .value)

/-- The value of an expression in a certain representation. -/
def converted (code : Code σ) (target : TypeCode) : Emit σ TypeCode := do
  convert (← code .value) target

/-- A location used as an expression: its access decides between value and reference. -/
def Place.value (kind : ExprKind) (access : Access) (p : Place σ) : Emit σ TypeCode := do
  match access with
  | .read =>
    p.prepare .read
    p.load
  | .readRef | .readUnknown => p.loadRef
  | .none =>
    p.prepare .read
    let _ ← p.load
    emit .pop
    return .void
  | other => fault (.unsupportedAccess (.expr kind) other.name)

/-- The code of an expression that is a location. -/
def Place.code (kind : ExprKind) (access : Access) (p : Place σ) : Code σ
  | .value => p.value kind access
  | .prepare half => do p.prepare half; return .void
  | .load => p.load
  | .store => do p.store; return .void
  | .loadRef => p.loadRef
  | .arrayForWrite => p.arrayForWrite
  | .containerRead => do p.prepare .read; p.load
  | .unset => do p.unset; return .void

/-- The code of an expression that is no location. -/
def valueCode (kind : ExprKind) (value : Emit σ TypeCode) : Code σ
  | .value => value
  | .arrayForWrite | .containerRead => do box (← value)
  | .prepare _ | .load | .store | .loadRef | .unset => fault (.notAPlace (.expr kind))

/-- The code of a node whose rule is made for another kind.  The rules for locations look at the
access first and at the node afterwards. -/
def wrongRuleCode (rule kind : ExprKind) (access : Access) : Code σ := fun use =>
  let wrong := fault (.wrongRule (.expr rule) (.expr kind))
  match use with
  | .value =>
    if rule.isPlaceRule && access ≠ .read && access ≠ .none && access ≠ .readRef && access ≠ .readUnknown
    then fault (.unsupportedAccess (.expr kind) access.name)
    else wrong
  | .arrayForWrite | .containerRead => wrong
  | .prepare _ | .load | .store | .loadRef | .unset =>
    if rule.isPlaceRule then wrong else fault (.notAPlace (.expr kind))

/-- Hands a node to its rule; `code` is the code that the rule made for its kind gives it. -/
def byRule (cfg : Setting) (kind : ExprKind) (tag : ExprTag) (code : Home ExprKind → Code σ) : Code σ :=
  fun use => do
    let handle ← onTable (RuleTable.expr cfg.registry kind tag.id)
    if handle.rule = kind then code handle.home use
    else wrongRuleCode handle.rule kind tag.access use

/-- Whether the rule of an expression takes it for a location. -/
def isPlace (cfg : Setting) (e : Expr) : Emit σ Bool := do
  let handle ← onTable (RuleTable.expr cfg.registry e.kind e.id)
  return handle.rule.isPlaceRule

/-! ## Variables, items and appended items -/

/-- A variable needs no addressing. -/
def variablePlace (name : String) : Place σ where
  prepare _ := return
  load := do emit (.loadVar name); return .object
  store := emit (.storeVar name)
  loadRef := do emit (.loadVarRef name); return .referenceCell
  arrayForWrite := do emit (.loadVarArray name); return .arrayHandle
  unset := emit (.unsetVar name)

/-- Calls a primitive that leaves nothing. -/
def callVoid (op : RuntimeOp) : Emit σ Unit :=
  emit (.call op)

/-- Whether missing items are read without a notice. -/
def chainIsQuiet : Emit σ Bool :=
  Pass.peek fun s => (s.chains.head?.map Chain.quiet).getD false

/-- An item is addressed by its container and its key. -/
def itemPlace (container : Code σ) (key : Emit σ TypeCode) : Place σ where
  prepare := prepare
  load := do call (if ← chainIsQuiet then .getItemQuiet else .getItem)
  store := callVoid .setItem
  loadRef := do prepare .write; call .getItemRef
  arrayForWrite := do prepare .write; call .getItemForWrite
  unset := do prepare .read; callVoid .unsetItem
where
  /-- Pushes the container for the half at hand, and the key. -/
  prepare (half : Half) : Emit σ Unit := do
    let _ ← match half with
      | .write => container .arrayForWrite
      | .read => container .containerRead
    let _ ← key

/-- The location past the end of an array can only be written. -/
def appendPlace (container : Code σ) : Place σ where
  prepare
    | .write => prepareWrite
    | .read => refuse "read"
  load := refuse "read"
  store := callVoid .append
  loadRef := do prepareWrite; call .appendReference
  arrayForWrite := do prepareWrite; call .appendArray
  unset := refuse "unset"
where
  /-- Pushes the array to append to. -/
  prepareWrite : Emit σ Unit := do
    let _ ← container .arrayForWrite
  /-- Stops, because there is nothing past the end. -/
  refuse {α : Type} (access : String) : Emit σ α :=
    fault (.unsupportedAccess (.expr .item) s!"{access} of an append item")

/-! ## Chains -/

/-- Opens a chain. -/
def beginChain (quiet : Bool) : Emit σ Unit :=
  Pass.update fun s => { s with chains := { quiet } :: s.chains }

/-- Closes the innermost chain and gives its slots back, in the next one of the orders. -/
def State.endChain (s : State σ) : State σ :=
  match s.chains with
  | [] => s
  | chain :: chains =>
    { s with
      chains
      releases := fun n => s.releases (n + 1)
      sink := ((s.releases 0).arrange chain.slots).foldl (fun k t => Sink.returnTemp t k) s.sink }

/-- Keeps an operand of the innermost chain. -/
def State.keepOperand (id : Nat) (t : Temp) (code : TypeCode) (s : State σ) : State σ :=
  match s.chains with
  | [] => s
  | chain :: chains =>
    let others := chain.kept.filter fun (kept, _) => kept ≠ id
    { s with chains := { chain with kept := others ++ [(id, t, code)] } :: chains }

/-- The operand of a chain, in general form.  Unless it may be evaluated twice, it is evaluated once
and loaded from its slot the next time. -/
def chainOperand (e : Expr) (code : Code σ) : Emit σ TypeCode := do
  match ← Pass.peek (fun s => s.chains.head?) with
  | none => boxed code
  | some chain =>
    if e.isRepeatable then boxed code
    else
      match chain.kept.lookup e.id with
      | some (t, code) =>
        emit (.loadTemp t)
        return code
      | none =>
        let code ← boxed code
        let t ← declareTemp
        saveTo t
        Pass.update (State.keepOperand e.id t code)
        return code

end Lowering
end PhpLowering
