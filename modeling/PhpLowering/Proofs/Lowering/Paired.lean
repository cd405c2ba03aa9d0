import Mathlib.Data.List.Forall2
import PhpLowering.Lowering.Stmt
import PhpLowering.Proofs.Tree.Copy
import PhpLowering.Proofs.Tree.Invocations

/-!
# What the emission of a routine is composed of

Everything between two function declarations is done by a few steps: the calls to the sink, a look at
the routine and a change of it, operands that are kept in chains, a rule that is asked for, and a question
to what the rules remember.  `Paired A x y` says that the steps `x` and `y` are put together from these in
the same way, one after another; where a node is looked at, `x` and `y` may look at different ones.
Nothing is assumed about the sink, so it is a property of the form of the code alone, and whatever is
true of the few steps is true of the code of every expression and its copies (`paired_lower`).

Which registries are asked, which functions are called, which questions are put to the memory, for the keys of
which literals arrays are created and which nodes stand for each other is up to the `Allowance` `A`.
-/

namespace PhpLowering

/-- The keys that an instruction creates an array for. -/
def Instruction.capacity? : Instruction → Option KeyCount
  | .newArray integers others => some ⟨integers, others⟩
  | _ => none

/-- What an entry of a registry gives to a node. -/
def RuleEntry.handle {κ : Type} (entry : RuleEntry κ) (hasMemory : κ → Bool) (kind : κ) (id : Nat) : Handle κ :=
  ⟨entry.rule, RuleTable.homeOf (hasMemory entry.rule) entry.shared kind id⟩

/-- What an entry for expressions gives to a node. -/
abbrev RuleEntry.exprHandle (entry : RuleEntry ExprKind) (kind : ExprKind) (id : Nat) : Handle ExprKind :=
  entry.handle ExprKind.hasMemory kind id

/-- The rule that the table answers with is one that the registry gives. -/
theorem RuleTable.exists_entry_of_ok {r : Registry} {kind : ExprKind} {id : Nat} {handle : Handle ExprKind}
    {t : RuleTable} (h : (RuleTable.expr r kind id t).1 = .ok handle) :
    ∃ entry, r.expr kind = some entry ∧ handle = entry.exprHandle kind id := by
  unfold RuleTable.expr RuleTable.lookup at h
  cases hentry : r.expr kind with
  | none =>
    rw [hentry] at h
    exact nomatch h
  | some entry =>
    refine ⟨entry, rfl, ?_⟩
    rw [hentry] at h
    dsimp only at h
    split at h
    · exact (Except.ok.inj h).symm
    · split at h
      · exact (Except.ok.inj h).symm
      · exact nomatch h

namespace Lowering

-- The instance for a function is a term with a node for every line of the function.
set_option synthInstance.maxSize 100000

/-- What the code of a routine may ask for besides the sink. -/
structure Allowance where
  registry : Registry → Prop
  /-- The functions that may be called, and with how many arguments. -/
  calls : Invocation → Prop
  /-- The questions to what the rules remember. -/
  memory : {α : Type} → (RuleMemory → α) → (RuleMemory → α) → Prop
  /-- The places of array literals in the memory, whose keys decide how large a new array is. -/
  keys : Home ExprKind → Home ExprKind → Prop
  /-- The numbers of nodes that stand for each other. -/
  number : Nat → Nat → Prop

/-- Everything may be asked for. -/
def Allowance.all : Allowance where
  registry _ := True
  calls _ := True
  memory _ _ := True
  keys _ _ := True
  number _ _ := True

/-- Two expressions are of the same nature. -/
class Matches (A : Allowance) (e e' : Expr) : Prop where
  kind : e'.kind = e.kind
  value : e'.value? = e.value?
  isPlace : e'.isPlace = e.isPlace
  isRepeatable : e'.isRepeatable = e.isRepeatable
  number : e.isRepeatable = false → A.number e.id e'.id

/-- An instruction may be emitted by itself: if it is a call, it is one that may be made, and it creates no array
with room for elements. -/
class MayEmit (A : Allowance) (i : Instruction) : Prop where
  call : ∀ v, i.invocation? = some v → A.calls v
  array : i.capacity? = none

section MayEmit

variable {A : Allowance}

instance : MayEmit A .pop := ⟨nofun, rfl⟩
instance : MayEmit A .dup := ⟨nofun, rfl⟩
instance : MayEmit A .ret := ⟨nofun, rfl⟩
instance : MayEmit A .throw := ⟨nofun, rfl⟩
instance : MayEmit A .rethrow := ⟨nofun, rfl⟩
instance (k : Nat) : MayEmit A (.const k) := ⟨nofun, rfl⟩
instance (t : Temp) : MayEmit A (.loadTemp t) := ⟨nofun, rfl⟩
instance (t : Temp) : MayEmit A (.storeTemp t) := ⟨nofun, rfl⟩
instance (name : String) : MayEmit A (.loadVar name) := ⟨nofun, rfl⟩
instance (name : String) : MayEmit A (.loadVarRef name) := ⟨nofun, rfl⟩
instance (name : String) : MayEmit A (.loadVarArray name) := ⟨nofun, rfl⟩
instance (name : String) : MayEmit A (.storeVar name) := ⟨nofun, rfl⟩
instance (name : String) : MayEmit A (.unsetVar name) := ⟨nofun, rfl⟩
instance (name : String) : MayEmit A (.loadConstant name) := ⟨nofun, rfl⟩
instance (name : String) : MayEmit A (.defineConstant name) := ⟨nofun, rfl⟩
instance (type : String) : MayEmit A (.instanceOf type) := ⟨nofun, rfl⟩
instance (code : TypeCode) : MayEmit A (.box code) := ⟨nofun, rfl⟩
instance (op : RuntimeOp) : MayEmit A (.call op) := ⟨nofun, rfl⟩
instance (n : Nat) : MayEmit A (.newValueArray n) := ⟨nofun, rfl⟩
instance (l : Label) : MayEmit A (.branch l) := ⟨nofun, rfl⟩
instance (l : Label) : MayEmit A (.branchIfTrue l) := ⟨nofun, rfl⟩
instance (l : Label) : MayEmit A (.branchIfFalse l) := ⟨nofun, rfl⟩
instance (l : Label) : MayEmit A (.leave l) := ⟨nofun, rfl⟩
instance (ls : List Label) : MayEmit A (.switch ls) := ⟨nofun, rfl⟩

theorem mayEmit_callFunction {name : String} {argCount : Nat} (h : A.calls ⟨name, argCount⟩) :
    MayEmit A (.callFunction name argCount) :=
  ⟨fun _ hv => Option.some.inj hv ▸ h, rfl⟩

end MayEmit

variable {σ α β : Type} [Sink σ]

/-- A step in a chain of its own. -/
def inChain (quiet : Bool) (x : Emit σ α) : Emit σ α := do
  beginChain quiet
  let a ← x
  Pass.update State.endChain
  return a

/-- A step in a chain of its own, which is closed whether the step fails or not. -/
def inClosedChain (quiet : Bool) (x : Emit σ α) : Emit σ α := do
  beginChain quiet
  x.ensuring State.endChain

/-- Creates an array with room for the keys of a literal. -/
def newArray (home : Home ExprKind) : Emit σ Unit := do
  let keys ← Pass.peek fun s => s.memory.keyCount home
  emit (.newArray keys.integers keys.others)

/-- Two steps are put together in the same way from what the emission of a routine can do by itself. -/
class inductive Paired (A : Allowance) : {α : Type} → Emit σ α → Emit σ α → Prop where
  | pure {α : Type} (a : α) : Paired A (pure a) (pure a)
  | bind {α β : Type} {x y : Emit σ α} {f g : α → Emit σ β} (hx : Paired A x y)
      (hf : ∀ a, Paired A (f a) (g a)) : Paired A (x >>= f) (y >>= g)
  | fail {α : Type} {e : CompileError} (he : e.isReported = false) :
      Paired A (Pass.fail e : Emit σ α) (Pass.fail e)
  | frame : Paired A frame frame
  | updateFrame (f : Frame → Frame) : Paired A (updateFrame f) (updateFrame f)
  | rule {α : Type} {registry : Registry} (hregistry : A.registry registry) (kind : ExprKind) (id id' : Nat)
      {f g : Handle ExprKind → Emit σ α} (hf : ∀ entry, registry.expr kind = some entry →
        Paired A (f (entry.exprHandle kind id)) (g (entry.exprHandle kind id'))) :
      Paired A (onTable (RuleTable.expr registry kind id) >>= f) (onTable (RuleTable.expr registry kind id') >>= g)
  | memory {α : Type} {f g : RuleMemory → α} (hf : A.memory f g) :
      Paired A (Pass.peek fun s => f s.memory) (Pass.peek fun s => g s.memory)
  | newArray {home home' : Home ExprKind} (hkeys : A.keys home home') : Paired A (newArray home) (newArray home')
  | chainIsQuiet : Paired A chainIsQuiet chainIsQuiet
  | chainOperand {e e' : Expr} {x y : Code σ} (he : Matches A e e') (hx : Paired A (boxed x) (boxed y)) :
      Paired A (chainOperand e x) (chainOperand e' y)
  | inChain {α : Type} (quiet : Bool) {x y : Emit σ α} (hx : Paired A x y) :
      Paired A (inChain quiet x) (inChain quiet y)
  | inClosedChain {α : Type} (quiet : Bool) {x y : Emit σ α} (hx : Paired A x y) :
      Paired A (inClosedChain quiet x) (inClosedChain quiet y)
  | emit (i : Instruction) [hi : MayEmit A i] : Paired A (emit i) (emit i)
  | addConstant (v : Literal) : Paired A (toSink (Sink.addConstant v)) (toSink (Sink.addConstant v))
  | defineLabel : Paired A defineLabel defineLabel
  | mark (l : Label) : Paired A (mark l) (mark l)
  | declareTemp : Paired A declareTemp declareTemp
  | returnTemp (t : Temp) : Paired A (returnTemp t) (returnTemp t)
  | beginTry : Paired A (toSink Sink.beginTry) (toSink Sink.beginTry)
  | beginCatch (type : String) : Paired A (toSink (Sink.beginCatch type)) (toSink (Sink.beginCatch type))
  | beginFinally : Paired A (toSink Sink.beginFinally) (toSink Sink.beginFinally)
  | endRegion : Paired A (toSink Sink.endRegion) (toSink Sink.endRegion)

attribute [instance] Paired.pure Paired.frame Paired.updateFrame Paired.chainIsQuiet Paired.emit
  Paired.addConstant Paired.defineLabel Paired.mark Paired.declareTemp Paired.returnTemp Paired.beginTry
  Paired.beginCatch Paired.beginFinally Paired.endRegion

/-- A step is composed of what the emission of a routine can do by itself. -/
abbrev Composed (x : Emit σ α) : Prop :=
  Paired .all x x

variable {A : Allowance} {x x' y y' : Emit σ α}

instance paired_bind {f g : α → Emit σ β} [hx : Paired A x x'] [hf : ∀ a, Paired A (f a) (g a)] :
    Paired A (x >>= f) (x' >>= g) :=
  .bind hx hf

instance paired_inChain (quiet : Bool) [hx : Paired A x x'] : Paired A (inChain quiet x) (inChain quiet x') :=
  .inChain quiet hx

instance paired_inClosedChain (quiet : Bool) [hx : Paired A x x'] :
    Paired A (inClosedChain quiet x) (inClosedChain quiet x') :=
  .inClosedChain quiet hx

instance paired_ite {c : Prop} [Decidable c] [hx : Paired A x x'] [hy : Paired A y y'] :
    Paired A (if c then x else y) (if c then x' else y') := by
  split
  · exact hx
  · exact hy

instance paired_fault (f : Fault) : Paired A (fault f : Emit σ α) (fault f) :=
  .fail rfl

instance paired_refusal (e : SinkError) : Paired A (Pass.fail (.backend e) : Emit σ α) (Pass.fail (.backend e)) :=
  .fail rfl

instance paired_defineLabels : ∀ n : Nat, Paired A (defineLabels n : Emit σ (List Label)) (defineLabels n)
  | 0 => .pure []
  | n + 1 => by
    have := paired_defineLabels n
    unfold defineLabels
    infer_instance

instance paired_call (op : RuntimeOp) : Paired A (call op : Emit σ TypeCode) (call op) := by
  unfold call
  infer_instance

instance paired_callVoid (op : RuntimeOp) : Paired A (callVoid op : Emit σ Unit) (callVoid op) :=
  .emit _

instance paired_pushLiteral (v : Literal) : Paired A (pushLiteral v : Emit σ TypeCode) (pushLiteral v) := by
  unfold pushLiteral
  infer_instance

instance paired_saveTo (t : Temp) : Paired A (saveTo t : Emit σ Unit) (saveTo t) := by
  unfold saveTo
  infer_instance

instance paired_jump (target : Label) (exceptionLevel : Nat) :
    Paired A (jump target exceptionLevel : Emit σ Unit) (jump target exceptionLevel) := by
  unfold jump
  infer_instance

/-! ## Representations -/

instance paired_box (code : TypeCode) : Paired A (box code : Emit σ TypeCode) (box code) := by
  unfold box
  infer_instance

instance paired_convert (code target : TypeCode) :
    Paired A (convert code target : Emit σ TypeCode) (convert code target) := by
  unfold convert
  cases converter? target <;> infer_instance

instance paired_discard (code : TypeCode) : Paired A (discard code : Emit σ TypeCode) (discard code) := by
  unfold discard
  infer_instance

instance paired_unlessDropped (access : Access) (code : TypeCode) :
    Paired A (unlessDropped access code : Emit σ TypeCode) (unlessDropped access code) := by
  unfold unlessDropped
  infer_instance

/-! ## Locations -/

section Parts

variable {container operand condition ifTrue ifFalse left right target stored : Code σ}
  {container' operand' condition' ifTrue' ifFalse' left' right' target' stored' : Code σ}
  {key key' : Emit σ TypeCode} {elements nulls unpacked elements' nulls' unpacked' : Emit σ Unit}
  {p p' : Place σ} {e e' : Expr}

instance paired_boxed [∀ use, Paired A (operand use) (operand' use)] : Paired A (boxed operand) (boxed operand') := by
  unfold boxed
  infer_instance

instance paired_converted [∀ use, Paired A (operand use) (operand' use)] (code : TypeCode) :
    Paired A (converted operand code) (converted operand' code) := by
  unfold converted
  infer_instance

variable (A) in
/-- Every use of two locations is put together in the same way. -/
structure Place.ArePaired (p p' : Place σ) : Prop where
  prepare : ∀ half, Paired A (p.prepare half) (p'.prepare half)
  load : Paired A p.load p'.load
  store : Paired A p.store p'.store
  loadRef : Paired A p.loadRef p'.loadRef
  arrayForWrite : Paired A p.arrayForWrite p'.arrayForWrite
  unset : Paired A p.unset p'.unset

theorem Place.ArePaired.code (h : p.ArePaired A p') (kind : ExprKind) (access : Access) (use : Use) :
    Paired A (p.code kind access use) (p'.code kind access use) := by
  obtain ⟨hprepare, hload, hstore, hloadRef, harray, hunset⟩ := h
  cases use with
  | value =>
    unfold Place.code Place.value
    cases access <;> infer_instance
  | _ =>
    unfold Place.code
    infer_instance

theorem paired_valueCode {value value' : Emit σ TypeCode} [Paired A value value'] (kind : ExprKind) (use : Use) :
    Paired A (valueCode kind value use) (valueCode kind value' use) := by
  cases use <;> unfold valueCode <;> infer_instance

instance paired_wrongRuleCode (rule kind : ExprKind) (access : Access) (use : Use) :
    Paired A (wrongRuleCode rule kind access use : Emit σ TypeCode) (wrongRuleCode rule kind access use) := by
  cases use <;> unfold wrongRuleCode <;> infer_instance

/-- Two nodes are treated alike if the code that their own rule gives them is. -/
theorem paired_byRule {cfg : Setting} (hregistry : A.registry cfg.registry)
    {code code' : Home ExprKind → Code σ} (kind : ExprKind) {tag tag' : ExprTag}
    (h : ∀ entry, cfg.registry.expr kind = some entry → ∀ use,
      Paired A (code (entry.exprHandle kind tag.id).home use) (code' (entry.exprHandle kind tag'.id).home use))
    (use : Use) (haccess : tag'.access = tag.access) :
    Paired A (byRule cfg kind tag code use) (byRule cfg kind tag' code' use) := by
  unfold byRule
  rw [haccess]
  refine .rule hregistry kind tag.id tag'.id fun entry hentry => ?_
  have hcode := h entry hentry use
  show Paired A (if entry.rule = kind then _ else wrongRuleCode entry.rule kind tag.access use)
    (if entry.rule = kind then _ else wrongRuleCode entry.rule kind tag.access use)
  infer_instance

theorem paired_isPlace {cfg : Setting} (hregistry : A.registry cfg.registry) (e e' : Expr) [h : Matches A e e'] :
    Paired A (isPlace cfg e : Emit σ Bool) (isPlace cfg e') := by
  unfold isPlace
  rw [h.kind]
  exact .rule hregistry e.kind e.id e'.id fun _ _ => .pure _

theorem arePaired_variablePlace (name : String) : (variablePlace name : Place σ).ArePaired A (variablePlace name) := by
  constructor <;> unfold variablePlace <;> infer_instance

theorem arePaired_itemPlace [∀ use, Paired A (container use) (container' use)] [Paired A key key'] :
    (itemPlace container key).ArePaired A (itemPlace container' key') := by
  have hprepare : ∀ half, Paired A (itemPlace.prepare container key half)
      (itemPlace.prepare container' key' half) := by
    intro half
    unfold itemPlace.prepare
    cases half <;> infer_instance
  constructor
  case prepare => exact hprepare
  all_goals
    unfold itemPlace
    infer_instance

theorem arePaired_appendPlace [∀ use, Paired A (container use) (container' use)] :
    (appendPlace container).ArePaired A (appendPlace container') := by
  have hprepare : Paired A (appendPlace.prepareWrite container) (appendPlace.prepareWrite container') := by
    unfold appendPlace.prepareWrite
    infer_instance
  have hrefuse : ∀ (α : Type) (access : String),
      Paired A (appendPlace.refuse access : Emit σ α) (appendPlace.refuse access) :=
    fun _ _ => paired_fault _
  constructor
  case prepare =>
    intro half
    cases half with
    | read => exact hrefuse _ _
    | write => exact hprepare
  all_goals
    unfold appendPlace
    infer_instance

instance paired_chainOperand [he : Matches A e e'] [∀ use, Paired A (operand use) (operand' use)] :
    Paired A (chainOperand e operand) (chainOperand e' operand') :=
  .chainOperand he inferInstance

/-! ## Operators -/

instance paired_literalValue (access : Access) (v : Literal) :
    Paired A (literalValue access v : Emit σ TypeCode) (literalValue access v) := by
  unfold literalValue
  infer_instance

instance paired_constantValue (access : Access) (name : String) :
    Paired A (constantValue access name : Emit σ TypeCode) (constantValue access name) := by
  unfold constantValue
  infer_instance

instance paired_binaryValue (access : Access) (op : BinaryOp) [∀ use, Paired A (left use) (left' use)]
    [∀ use, Paired A (right use) (right' use)] :
    Paired A (binaryValue access op left right) (binaryValue access op left' right') := by
  unfold binaryValue
  infer_instance

instance paired_unaryResult (op : UnaryOp) [∀ use, Paired A (operand use) (operand' use)] :
    Paired A (unaryResult op operand) (unaryResult op operand') := by
  unfold unaryResult callOn
  cases op <;> infer_instance

instance paired_unaryValue (access : Access) (op : UnaryOp) [∀ use, Paired A (operand use) (operand' use)] :
    Paired A (unaryValue access op operand) (unaryValue access op operand') := by
  unfold unaryValue
  infer_instance

instance paired_pushOperand (v : Literal) : Paired A (pushOperand v : Emit σ TypeCode) (pushOperand v) := by
  unfold pushOperand
  cases v <;> infer_instance

instance paired_concatOperand [he : Matches A e e'] [∀ use, Paired A (operand use) (operand' use)] :
    Paired A (concatOperand e operand) (concatOperand e' operand') := by
  unfold concatOperand
  rw [he.value]
  cases e.value? with
  | some v => infer_instance
  | none =>
    refine Paired.bind inferInstance fun code => ?_
    cases code <;> infer_instance

instance paired_concatSingle [he : Matches A e e'] [∀ use, Paired A (operand use) (operand' use)] :
    Paired A (concatSingle e operand) (concatSingle e' operand') := by
  unfold concatSingle
  rw [he.value]
  cases e.value? <;> dsimp only <;> infer_instance

/-! ## Conditionals -/

instance paired_branchValue (used : Bool) [∀ use, Paired A (operand use) (operand' use)] :
    Paired A (branchValue used operand) (branchValue used operand') := by
  unfold branchValue
  infer_instance

instance paired_conditionalValue (access : Access) [∀ use, Paired A (condition use) (condition' use)]
    [∀ use, Paired A (ifTrue use) (ifTrue' use)] [∀ use, Paired A (ifFalse use) (ifFalse' use)] :
    Paired A (conditionalValue access condition ifTrue ifFalse)
      (conditionalValue access condition' ifTrue' ifFalse') := by
  unfold conditionalValue
  dsimp only
  infer_instance

instance paired_shortcutValue (access : Access) [∀ use, Paired A (condition use) (condition' use)]
    [∀ use, Paired A (ifFalse use) (ifFalse' use)] :
    Paired A (shortcutValue access condition ifFalse) (shortcutValue access condition' ifFalse') := by
  unfold shortcutValue
  dsimp only
  infer_instance

/-! ## Assignments -/

instance paired_valueToStore [he : Matches A e e'] [∀ use, Paired A (stored use) (stored' use)] :
    Paired A (valueToStore e stored) (valueToStore e' stored') := by
  unfold valueToStore
  rw [he.isPlace]
  infer_instance

instance paired_loadSaved (saved : Option Temp) : Paired A (loadSaved saved : Emit σ TypeCode) (loadSaved saved) := by
  unfold loadSaved
  cases saved <;> dsimp only <;> infer_instance

theorem assignValue_inChain (access : Access) (target : Code σ) (e : Expr) (stored : Code σ) :
    assignValue access target e stored = inChain false (do
      let _ ← target (.prepare .write)
      valueToStore e stored
      let saved ← (if access = .none then pure none
        else do
          let t ← declareTemp
          saveTo t
          pure (some t) : Emit σ (Option Temp))
      let _ ← target .store
      return saved) >>= loadSaved := by
  unfold assignValue
  by_cases haccess : access = .none
  · simp only [haccess, if_true, inChain, bind_assoc, pure_bind]
  · simp only [haccess, if_false, inChain, bind_assoc, pure_bind]

instance paired_assignValue (access : Access) [Matches A e e'] [∀ use, Paired A (target use) (target' use)]
    [∀ use, Paired A (stored use) (stored' use)] :
    Paired A (assignValue access target e stored) (assignValue access target' e' stored') := by
  rw [assignValue_inChain, assignValue_inChain]
  infer_instance

instance paired_incDecUsed (access : Access) : Paired A (incDecUsed access : Emit σ Bool) (incDecUsed access) := by
  unfold incDecUsed
  cases access <;> dsimp only <;> infer_instance

instance paired_saveResult (saved : Option Temp) :
    Paired A (incDecValue.saveResult saved : Emit σ Unit) (incDecValue.saveResult saved) := by
  unfold incDecValue.saveResult
  cases saved <;> dsimp only <;> infer_instance

theorem incDecValue_inChain (cfg : Setting) (access : Access) (increment post : Bool) (e : Expr) (target : Code σ) :
    incDecValue cfg access increment post e target = (do
      if !(← isPlace cfg e) then fault (.notAPlace (.expr e.kind))
      else
        let used ← incDecUsed access
        let saved ← inChain false do
          let _ ← target (.prepare .write)
          let _ ← target (.prepare .read)
          let _ ← box (← target .load)
          let saved ← if used then some <$> declareTemp else pure none
          if post then incDecValue.saveResult saved
          callVoid (if increment then .increment else .decrement)
          if !post then incDecValue.saveResult saved
          let _ ← target .store
          return saved
        loadSaved saved) := by
  unfold incDecValue
  congr 1
  funext place
  cases place with
  | false => rfl
  | true =>
    simp only [Bool.not_true, Bool.false_eq_true, if_false]
    congr 1
    funext used
    cases used <;> cases post <;>
      simp only [inChain, bind_assoc, pure_bind, map_eq_pure_bind, Bool.not_true, Bool.not_false,
        Bool.false_eq_true, if_true, if_false]

instance paired_map {f : α → β} [Paired A x x'] : Paired A (f <$> x) (f <$> x') := by
  rw [map_eq_pure_bind, map_eq_pure_bind]
  infer_instance

theorem paired_incDecValue {cfg : Setting} (hregistry : A.registry cfg.registry) (access : Access)
    (increment post : Bool) [he : Matches A e e'] [∀ use, Paired A (target use) (target' use)] :
    Paired A (incDecValue cfg access increment post e target)
      (incDecValue cfg access increment post e' target') := by
  have hplace : Paired A (isPlace cfg e : Emit σ Bool) (isPlace cfg e') := paired_isPlace hregistry e e'
  rw [incDecValue_inChain, incDecValue_inChain, he.kind]
  infer_instance

instance paired_storeKeyed [Matches A e e'] [∀ use, Paired A (operand use) (operand' use)]
    [∀ use, Paired A (stored use) (stored' use)] :
    Paired A (storeKeyed operand e stored) (storeKeyed operand' e' stored') := by
  unfold storeKeyed
  infer_instance

instance paired_storePlain [Matches A e e'] [∀ use, Paired A (stored use) (stored' use)] :
    Paired A (storePlain e stored) (storePlain e' stored') := by
  unfold storePlain
  infer_instance

theorem arrayValue_eq (access : Access) (home : Home ExprKind) (elements : Emit σ Unit) :
    arrayValue access home elements = (do
      newArray home
      elements
      unlessDropped access .arrayHandle) := by
  simp only [arrayValue, newArray, bind_assoc]

theorem paired_arrayValue (access : Access) {home home' : Home ExprKind} (hkeys : A.keys home home')
    (helements : Paired A elements elements') :
    Paired A (arrayValue access home elements) (arrayValue access home' elements') := by
  have harray : Paired A (newArray home : Emit σ Unit) (newArray home') := .newArray hkeys
  rw [arrayValue_eq, arrayValue_eq]
  infer_instance

instance paired_fetch (index : Nat) : Paired A (fetch index : Emit σ Unit) (fetch index) := by
  unfold fetch
  infer_instance

theorem assignElement_inChain (index : Nat) (target : Code σ) : assignElement index target = (do
    fetch index
    callVoid .deepCopy
    let t ← declareTemp
    emit (.storeTemp t)
    let _ ← inChain false do
      let _ ← target (.prepare .write)
      emit (.loadTemp t)
      target .store
    returnTemp t) := by
  simp only [assignElement, inChain, bind_assoc, pure_bind]

instance paired_assignElement (index : Nat) [∀ use, Paired A (target use) (target' use)] :
    Paired A (assignElement index target) (assignElement index target') := by
  rw [assignElement_inChain, assignElement_inChain]
  infer_instance

theorem assignNull_inChain (target : Code σ) : assignNull target = inChain false (do
    let _ ← target (.prepare .write)
    let _ ← pushLiteral .null
    let _ ← target .store
    return ()) := by
  simp only [assignNull, inChain, bind_assoc, pure_bind, bind_pure_unit]

instance paired_assignNull [∀ use, Paired A (target use) (target' use)] :
    Paired A (assignNull target) (assignNull target') := by
  rw [assignNull_inChain, assignNull_inChain]
  infer_instance

instance paired_unpack [Paired A elements elements'] [Paired A nulls nulls'] :
    Paired A (unpack elements nulls) (unpack elements' nulls') := by
  unfold unpack
  infer_instance

instance paired_listValue (access : Access) [∀ use, Paired A (operand use) (operand' use)]
    [Paired A unpacked unpacked'] :
    Paired A (listValue access operand unpacked) (listValue access operand' unpacked') := by
  unfold listValue
  infer_instance

end Parts

variable (A) in
/-- Expressions are of the same nature, one by one, and every use of them is put together alike. -/
abbrev AllPaired (operands operands' : List (Expr × Code σ)) : Prop :=
  List.Forall₂ (fun o o' => Matches A o.1 o'.1 ∧ ∀ use, Paired A (o.2 use) (o'.2 use)) operands operands'

variable {operands operands' : List (Expr × Code σ)}

theorem paired_pushBoxed (h : AllPaired A operands operands') :
    Paired A (pushBoxed operands) (pushBoxed operands') := by
  induction h with
  | nil => exact .pure ()
  | cons ho _ ih =>
    obtain ⟨-, hcode⟩ := ho
    unfold pushBoxed
    infer_instance

theorem paired_pushArguments (h : AllPaired A operands operands') :
    Paired A (pushArguments operands) (pushArguments operands') := by
  induction h with
  | nil => exact .pure ()
  | cons ho _ ih =>
    obtain ⟨-, hcode⟩ := ho
    unfold pushArguments
    infer_instance

theorem paired_concatResult (h : AllPaired A operands operands') :
    Paired A (concatResult operands) (concatResult operands') := by
  have hboxed := paired_pushBoxed h
  have hlength := h.length_eq
  rcases h with _ | ⟨⟨hleft, hleftCode⟩, _ | ⟨⟨hright, hrightCode⟩, _ | _⟩⟩
  · exact paired_pushLiteral _
  · exact paired_concatSingle
  · unfold concatResult
    infer_instance
  · unfold concatResult
    dsimp only
    rw [← hlength]
    infer_instance

theorem paired_concatValue (access : Access) (h : AllPaired A operands operands') :
    Paired A (concatValue access operands) (concatValue access operands') := by
  have hresult := paired_concatResult h
  unfold concatValue
  infer_instance

theorem paired_callValue (access : Access) (name : String) (h : AllPaired A operands operands')
    (hcall : A.calls ⟨name, operands.length⟩) :
    Paired A (callValue access name operands) (callValue access name operands') := by
  have harguments := paired_pushArguments h
  have hemit := mayEmit_callFunction hcall
  unfold callValue
  rw [← h.length_eq]
  infer_instance

/-! ## Expressions -/

/-- What expressions and their copies ask for may be asked: a rule for each of them, the functions that they
call, the number of keys of an array literal, and an operand by its number. -/
structure Allowance.Permits (A : Allowance) (c : Copying) (r : Registry) (es : List Expr) : Prop where
  registry : A.registry r
  calls : ∀ {tag : ExprTag} {name : String} {args : List Expr}, .call tag name args ∈ es →
    A.calls ⟨name, args.length⟩
  number : ∀ {e : Expr}, e ∈ es → A.number e.id (c.node e.id)
  keys : ∀ {tag : ExprTag} {elements : List ArrayElement} {entry : RuleEntry ExprKind},
    .array tag elements ∈ es → r.expr .array = some entry →
      A.keys (entry.exprHandle .array tag.id).home (entry.exprHandle .array (c.node tag.id)).home

namespace Allowance

variable {c : Copying} {r : Registry} {e : Expr} {es es' : List Expr}

theorem permits_all (r : Registry) (es : List Expr) : Allowance.all.Permits c r es :=
  ⟨trivial, fun _ => trivial, fun _ => trivial, fun _ _ => trivial⟩

theorem Permits.mono (h : A.Permits c r es) (hes : es' ⊆ es) : A.Permits c r es' :=
  ⟨h.registry, fun hmem => h.calls (hes hmem), fun hmem => h.number (hes hmem), fun hmem => h.keys (hes hmem)⟩

theorem permits_append : A.Permits c r (es ++ es') ↔ A.Permits c r es ∧ A.Permits c r es' :=
  ⟨fun h => ⟨h.mono (List.subset_append_left _ _), h.mono (List.subset_append_right _ _)⟩,
    fun ⟨h, h'⟩ => ⟨h.registry, fun hmem => (List.mem_append.mp hmem).elim h.calls h'.calls,
      fun hmem => (List.mem_append.mp hmem).elim h.number h'.number,
      fun hmem => (List.mem_append.mp hmem).elim h.keys h'.keys⟩⟩

theorem permits_cons : A.Permits c r (e :: es) ↔ A.Permits c r [e] ∧ A.Permits c r es :=
  show A.Permits c r ([e] ++ es) ↔ _ from permits_append

/-- An expression and its copy are of the same nature. -/
theorem Permits.matches (h : A.Permits c r e.subexprs) : Matches A e (e.copy c) where
  kind := e.kind_copy
  value := e.value?_copy
  isPlace := e.isPlace_copy
  isRepeatable := e.isRepeatable_copy
  number he := by
    rw [Expr.id_copy he]
    exact h.number (e.self_mem_subexprs)

end Allowance

open Allowance (permits_append permits_cons)

variable (cfg : Setting) (c : Copying)

mutual

/-- **The code of an expression and the code of a copy are put together in the same way, whatever they are used
for.** -/
theorem paired_lower : ∀ (e : Expr) (_ : A.Permits c cfg.registry e.subexprs) (use : Use),
    Paired A (lower cfg e use : Emit σ TypeCode) (lower cfg (e.copy c) use)
  | .literal .., h, use => by
    rw [Expr.copy, lower, lower]
    exact paired_byRule h.registry _ (fun _ _ => paired_valueCode _) use rfl
  | .constant .., h, use => by
    rw [Expr.copy, lower, lower]
    exact paired_byRule h.registry _ (fun _ _ => paired_valueCode _) use rfl
  | .var tag name, h, use => by
    rw [Expr.copy, lower, lower]
    exact paired_byRule h.registry _ (fun _ _ => (arePaired_variablePlace name).code _ _) use rfl
  | .item tag container index, h, use => by
    rw [Expr.subexprs, List.cons_append, permits_cons, permits_append] at h
    obtain ⟨hnode, hcontainer, hindex⟩ := h
    have := hindex.matches
    have hcontainer := paired_lower container hcontainer
    have hindex := paired_lower index hindex
    rw [Expr.copy, lower, lower]
    exact paired_byRule hnode.registry _ (fun _ _ => arePaired_itemPlace.code _ _) use rfl
  | .append tag container, h, use => by
    rw [Expr.subexprs, permits_cons] at h
    have hcontainer := paired_lower container h.2
    rw [Expr.copy, lower, lower]
    exact paired_byRule h.1.registry _ (fun _ _ => arePaired_appendPlace.code _ _) use rfl
  | .array tag elements, h, use => by
    have hkeys (entry) (hentry : cfg.registry.expr .array = some entry) := h.keys List.mem_cons_self hentry
    rw [Expr.subexprs, permits_cons] at h
    have helements : Paired A (storeElements cfg elements : Emit σ Unit)
        (storeElements cfg (Expr.copyElements c elements)) :=
      paired_storeElements elements h.2
    rw [Expr.copy, lower, lower]
    refine paired_byRule h.1.registry _ (fun entry hentry => ?_) use rfl
    have harray := paired_arrayValue tag.access (hkeys entry hentry) helements
    exact paired_valueCode _
  | .concat tag operands, h, use => by
    rw [Expr.subexprs, permits_cons] at h
    have hconcat := paired_concatValue tag.access (allPaired_lowerAll operands h.2)
    rw [Expr.copy, lower, lower]
    exact paired_byRule h.1.registry _ (fun _ _ => paired_valueCode _) use rfl
  | .binary tag op left right, h, use => by
    rw [Expr.subexprs, List.cons_append, permits_cons, permits_append] at h
    obtain ⟨hnode, hleft, hright⟩ := h
    have hleft := paired_lower left hleft
    have hright := paired_lower right hright
    rw [Expr.copy, lower, lower]
    exact paired_byRule hnode.registry _ (fun _ _ => paired_valueCode _) use rfl
  | .unary tag op operand, h, use => by
    rw [Expr.subexprs, permits_cons] at h
    have hoperand := paired_lower operand h.2
    rw [Expr.copy, lower, lower]
    exact paired_byRule h.1.registry _ (fun _ _ => paired_valueCode _) use rfl
  | .incDec tag increment post target, h, use => by
    rw [Expr.subexprs, permits_cons] at h
    have := h.2.matches
    have htarget := paired_lower target h.2
    have hincDec : Paired A
        (incDecValue cfg tag.access increment post target (lower cfg target) : Emit σ TypeCode)
        (incDecValue cfg tag.access increment post (target.copy c) (lower cfg (target.copy c))) :=
      paired_incDecValue h.1.registry tag.access increment post
    rw [Expr.copy, lower, lower]
    exact paired_byRule h.1.registry _ (fun _ _ => paired_valueCode _) use rfl
  | .conditional tag condition ifTrue ifFalse, h, use => by
    rw [Expr.subexprs, List.cons_append, List.cons_append, permits_cons, permits_append, permits_append] at h
    obtain ⟨hnode, ⟨hcondition, htrue⟩, hfalse⟩ := h
    have hcondition := paired_lower condition hcondition
    have htrue := paired_lower ifTrue htrue
    have hfalse := paired_lower ifFalse hfalse
    rw [Expr.copy, lower, lower]
    exact paired_byRule hnode.registry _ (fun _ _ => paired_valueCode _) use rfl
  | .shortcut tag condition ifFalse, h, use => by
    rw [Expr.subexprs, List.cons_append, permits_cons, permits_append] at h
    obtain ⟨hnode, hcondition, hfalse⟩ := h
    have hcondition := paired_lower condition hcondition
    have hfalse := paired_lower ifFalse hfalse
    rw [Expr.copy, lower, lower]
    exact paired_byRule hnode.registry _ (fun _ _ => paired_valueCode _) use rfl
  | .list tag targets value, h, use => by
    rw [Expr.subexprs, List.cons_append, permits_cons, permits_append] at h
    obtain ⟨hnode, htargets, hvalue⟩ := h
    have hvalue := paired_lower value hvalue
    have helements := paired_assignElements 0 targets htargets
    have hnulls := paired_assignNulls targets htargets
    rw [Expr.copy, lower, lower]
    exact paired_byRule hnode.registry _ (fun _ _ => paired_valueCode _) use rfl
  | .assign tag target value, h, use => by
    rw [Expr.subexprs, List.cons_append, permits_cons, permits_append] at h
    obtain ⟨hnode, htarget, hvalue⟩ := h
    have := hvalue.matches
    have htarget := paired_lower target htarget
    have hvalue := paired_lower value hvalue
    rw [Expr.copy, lower, lower]
    exact paired_byRule hnode.registry _ (fun _ _ => paired_valueCode _) use rfl
  | .call tag name args, h, use => by
    have hargs : A.calls ⟨name, args.length⟩ := h.calls List.mem_cons_self
    rw [Expr.subexprs, permits_cons] at h
    rw [← length_lowerAll (σ := σ) cfg args] at hargs
    have hcall := paired_callValue tag.access name (allPaired_lowerAll args h.2) hargs
    rw [Expr.copy, lower, lower]
    exact paired_byRule h.1.registry _ (fun _ _ => paired_valueCode _) use rfl
termination_by structural e => e

theorem allPaired_lowerAll : ∀ (es : List Expr) (_ : A.Permits c cfg.registry (Expr.subexprsOf es)),
    AllPaired A (lowerAll cfg es : List (Expr × Code σ)) (lowerAll cfg (Expr.copyAll c es))
  | [], _ => .nil
  | e :: rest, h => by
    rw [Expr.subexprsOf, permits_append] at h
    exact .cons ⟨h.1.matches, paired_lower e h.1⟩ (allPaired_lowerAll rest h.2)
termination_by structural es => es

theorem paired_storeElements : ∀ (es : List ArrayElement)
    (_ : A.Permits c cfg.registry (Expr.subexprsOfElements es)),
    Paired A (storeElements cfg es : Emit σ Unit) (storeElements cfg (Expr.copyElements c es))
  | [], _ => .pure ()
  | .plain _ value :: rest, h => by
    rw [Expr.subexprsOfElements, permits_append] at h
    have := h.1.matches
    have hvalue := paired_lower value h.1
    have hrest := paired_storeElements rest h.2
    rw [Expr.copyElements, storeElements, storeElements]
    infer_instance
  | .keyed _ key value :: rest, h => by
    rw [Expr.subexprsOfElements, permits_append, permits_append] at h
    have := h.1.2.matches
    have hkey := paired_lower key h.1.1
    have hvalue := paired_lower value h.1.2
    have hrest := paired_storeElements rest h.2
    rw [Expr.copyElements, storeElements, storeElements]
    infer_instance
termination_by structural es => es

theorem paired_assignElements : ∀ (index : Nat) (ts : List ListTarget)
    (_ : A.Permits c cfg.registry (Expr.subexprsOfTargets ts)),
    Paired A (assignElements cfg index ts : Emit σ Unit) (assignElements cfg index (Expr.copyTargets c ts))
  | _, [], _ => .pure ()
  | index, .skip :: rest, h => paired_assignElements (index + 1) rest h
  | index, .leaf target :: rest, h => by
    rw [Expr.subexprsOfTargets, permits_append] at h
    have htarget := paired_lower target h.1
    have hrest := paired_assignElements (index + 1) rest h.2
    rw [Expr.copyTargets, assignElements, assignElements]
    infer_instance
  | index, .nested targets :: rest, h => by
    rw [Expr.subexprsOfTargets, permits_append] at h
    have helements := paired_assignElements 0 targets h.1
    have hnulls := paired_assignNulls targets h.1
    have hrest := paired_assignElements (index + 1) rest h.2
    rw [Expr.copyTargets, assignElements, assignElements]
    infer_instance
termination_by structural _ ts => ts

theorem paired_assignNulls : ∀ (ts : List ListTarget)
    (_ : A.Permits c cfg.registry (Expr.subexprsOfTargets ts)),
    Paired A (assignNulls cfg ts : Emit σ Unit) (assignNulls cfg (Expr.copyTargets c ts))
  | [], _ => .pure ()
  | .skip :: rest, h => paired_assignNulls rest h
  | .leaf target :: rest, h => by
    rw [Expr.subexprsOfTargets, permits_append] at h
    have htarget := paired_lower target h.1
    have hrest := paired_assignNulls rest h.2
    rw [Expr.copyTargets, assignNulls, assignNulls]
    infer_instance
  | .nested targets :: rest, h => by
    rw [Expr.subexprsOfTargets, permits_append] at h
    have htargets := paired_assignNulls targets h.1
    have hrest := paired_assignNulls rest h.2
    rw [Expr.copyTargets, assignNulls, assignNulls]
    infer_instance
termination_by structural ts => ts

end

/-! ## Ways out of loops and routines -/

instance paired_leaveTo (kind : BranchKind) (l : Loop) :
    Paired A (leaveTo kind l : Emit σ Unit) (leaveTo kind l) :=
  paired_jump _ _

instance paired_staticBranch (kind : BranchKind) (level : Nat) :
    Paired A (staticBranch kind level : Emit σ Unit) (staticBranch kind level) := by
  unfold staticBranch
  refine Paired.bind inferInstance fun f => ?_
  dsimp only
  cases f.loops[max level 1 - 1]? <;> dsimp only <;> infer_instance

instance paired_tableEntries (kind : BranchKind) : ∀ entries : List (Label × Loop),
    Paired A (tableEntries kind entries : Emit σ Unit) (tableEntries kind entries)
  | [] => .pure ()
  | (label, l) :: rest => by
    have hrest := paired_tableEntries kind rest
    unfold tableEntries
    infer_instance

instance paired_runtimeBranch (kind : BranchKind) {level level' : Code σ}
    [∀ use, Paired A (level use) (level' use)] :
    Paired A (runtimeBranch kind level) (runtimeBranch kind level') := by
  unfold runtimeBranch
  refine Paired.bind inferInstance fun f => ?_
  cases f.loops <;> dsimp only <;> infer_instance

instance paired_returnSlot : Paired A (returnSlot : Emit σ Temp) returnSlot := by
  unfold returnSlot
  refine Paired.bind inferInstance fun f => ?_
  cases f.returnTemp <;> dsimp only <;> infer_instance

instance paired_epilogue : Paired A (epilogue : Emit σ Label) epilogue := by
  unfold epilogue
  refine Paired.bind inferInstance fun f => ?_
  cases f.epilogue <;> dsimp only <;> infer_instance

instance paired_returnJump : Paired A (returnJump : Emit σ Unit) returnJump := by
  unfold returnJump
  infer_instance

instance paired_routineLabel (name : String) :
    Paired A (routineLabel name : Emit σ Label) (routineLabel name) := by
  unfold routineLabel
  refine Paired.bind inferInstance fun f => ?_
  cases f.labels.lookup name <;> dsimp only <;> infer_instance

/-! ## Code between statements -/

section Between

variable {cfg} {condition condition' : Expr} {e e' : Expr} {es es' : List Expr} {expr expr' : Option Expr}

variable (A σ cfg) in
/-- Two expressions are of the same nature, and every use of them is put together alike. -/
structure Alike (e e' : Expr) : Prop where
  nature : Matches A e e'
  code : ∀ use, Paired A (lower cfg e use : Emit σ TypeCode) (lower cfg e' use)

theorem paired_echoAll (h : List.Forall₂ (Alike σ A cfg) es es') :
    Paired A (echoAll cfg es : Emit σ Unit) (echoAll cfg es') := by
  induction h with
  | nil => exact .pure ()
  | cons he _ ih =>
    have hcode := he.code
    unfold echoAll
    infer_instance

theorem unsetAll_inChain (cfg : Setting) (e : Expr) (rest : List Expr) :
    (unsetAll cfg (e :: rest) : Emit σ Unit) = (do
      let _ ← inClosedChain true (lower cfg e .unset)
      unsetAll cfg rest) := by
  simp only [unsetAll, inClosedChain, bind_assoc]

theorem paired_unsetAll (h : List.Forall₂ (Alike σ A cfg) es es') :
    Paired A (unsetAll cfg es : Emit σ Unit) (unsetAll cfg es') := by
  induction h with
  | nil => exact .pure ()
  | cons he _ ih =>
    have hcode := he.code
    rw [unsetAll_inChain, unsetAll_inChain]
    infer_instance

theorem paired_returnValue (h : Option.Rel (Alike σ A cfg) expr expr') :
    Paired A (returnValue cfg expr : Emit σ Unit) (returnValue cfg expr') := by
  unfold returnValue
  refine Paired.bind inferInstance fun f => ?_
  cases h with
  | none => dsimp only; infer_instance
  | some he =>
    have hcode := he.code
    dsimp only
    infer_instance

theorem paired_loopJump (kind : BranchKind) (h : Option.Rel (Alike σ A cfg) expr expr') :
    Paired A (loopJump cfg kind expr : Emit σ Unit) (loopJump cfg kind expr') := by
  unfold loopJump
  cases h with
  | none => exact paired_staticBranch _ _
  | @some e e' he =>
    have hcode := he.code
    dsimp only
    rw [he.nature.value]
    cases e.value? <;> dsimp only <;> infer_instance

theorem paired_jumpCode (kind : JumpKind) (h : Option.Rel (Alike σ A cfg) expr expr') :
    Paired A (jumpCode cfg kind expr : Emit σ Unit) (jumpCode cfg kind expr') := by
  have hvalue := paired_returnValue h
  have hloop := fun kind => paired_loopJump kind h
  unfold jumpCode
  cases kind <;> dsimp only <;> infer_instance

theorem paired_labelCode (name : String) {home home' : Home StmtKind}
    (h : A.memory (fun m => m.labelReferenced home) fun m => m.labelReferenced home') :
    Paired A (labelCode name home : Emit σ Unit) (labelCode name home') := by
  have hreferenced : Paired A (Pass.peek fun s : State σ => s.memory.labelReferenced home)
      (Pass.peek fun s : State σ => s.memory.labelReferenced home') := .memory h
  unfold labelCode
  infer_instance

theorem paired_branchHead (h : Alike σ A cfg condition condition') :
    Paired A (branchHead cfg condition : Emit σ Label) (branchHead cfg condition') := by
  have hcode := h.code
  unfold branchHead
  infer_instance

instance paired_elseHead (otherwise : Label) :
    Paired A (elseHead otherwise : Emit σ Label) (elseHead otherwise) := by
  unfold elseHead
  infer_instance

theorem paired_loopHead (h : Alike σ A cfg condition condition') :
    Paired A (loopHead cfg condition : Emit σ Loop) (loopHead cfg condition') := by
  have hcode := h.code
  unfold loopHead
  rw [h.nature.value]
  infer_instance

instance paired_routineEnd (returnsRef : Bool) :
    Paired A (routineEnd returnsRef : Emit σ Unit) (routineEnd returnsRef) := by
  unfold routineEnd
  cases returnsRef
  all_goals
    refine Paired.bind inferInstance fun _ => Paired.bind inferInstance fun f => ?_
    cases f.epilogue <;> cases f.returnTemp <;> dsimp only <;> infer_instance

instance paired_clauseHead (exception : Temp) (type : String) (var : Option String) :
    Paired A (clauseHead exception type var : Emit σ Label) (clauseHead exception type var) := by
  unfold clauseHead
  cases var <;> dsimp only <;> infer_instance

instance paired_handlersHead : Paired A (handlersHead : Emit σ Temp) handlersHead := by
  unfold handlersHead
  infer_instance

end Between

end Lowering
end PhpLowering
