import PhpLowering.Proofs.Lowering.Rounds

/-!
# How items are read

An item that is read gets one of two primitives: the one that gives a notice if the item is missing, or the
quiet one.  Which of them it is depends on the chain at hand.  Assignments, increments and the targets of a destructuring
open chains of their own, which are not quiet; everything else in an expression is emitted in the chain that is at
hand already.

`Expr.reads quiet e use` says which primitives the code for a use of an expression may read items with, in their order,
if the chain at hand is quiet or not.  The only choice is that an index may have been evaluated in the chain before.
**`hears_lower`** says so of every expression and every use.  Therefore the chain at hand decides about all items
outside of chains of their own (`uniform_reads`).
-/

namespace PhpLowering

/-- The primitive that an item is read with. -/
def RuntimeOp.readItem (quiet : Bool) : RuntimeOp :=
  if quiet then .getItemQuiet else .getItem

/-- The primitive that an instruction reads an item with. -/
def Instruction.read? : Instruction → Option RuntimeOp
  | .call .getItem => some .getItem
  | .call .getItemQuiet => some .getItemQuiet
  | _ => none

/-! ## Orders of reading -/

/-- In which orders items may be read. -/
abbrev ReadOrder := List RuntimeOp → Prop

namespace ReadOrder

/-- Nothing is read. -/
def none : ReadOrder := fun ops => ops = []

/-- A single item is read. -/
def one (op : RuntimeOp) : ReadOrder := fun ops => ops = [op]

/-- One after the other. -/
def andThen (R S : ReadOrder) : ReadOrder := fun ops => ∃ before after, ops = before ++ after ∧ R before ∧ S after

/-- What has been read before is not read again. -/
def unlessKept (R : ReadOrder) : ReadOrder := fun ops => R ops ∨ ops = []

/-- The uses of an item whose container and index are read in some order. -/
def item (quiet : Bool) (access : Access) (container : Lowering.Use → ReadOrder) (index : ReadOrder) :
    Lowering.Use → ReadOrder
  | .prepare .read | .unset => (container .containerRead).andThen index
  | .prepare .write | .arrayForWrite | .loadRef => (container .arrayForWrite).andThen index
  | .load => .one (.readItem quiet)
  | .containerRead => ((container .containerRead).andThen index).andThen (.one (.readItem quiet))
  | .value =>
    if access = .readRef ∨ access = .readUnknown then (container .arrayForWrite).andThen index
    else ((container .containerRead).andThen index).andThen (.one (.readItem quiet))
  | .store => .none

end ReadOrder

namespace Expr

open ReadOrder (none one)

mutual

/-- How the code for a use of an expression reads items, if the chain at hand is quiet or not. -/
def reads (quiet : Bool) : Expr → Lowering.Use → ReadOrder
  | .literal .., _ | .var .., _ | .constant .., _ => none
  | .item tag container index, use =>
    ReadOrder.item quiet tag.access (reads quiet container) (reads quiet index .value).unlessKept use
  | .append _ _, .store => none
  | .append _ container, _ => reads quiet container .arrayForWrite
  | .array _ elements, _ => readsElements quiet elements
  | .concat _ operands, _ | .call _ _ operands, _ => readsAll quiet operands
  | .binary _ _ left right, _ => (reads quiet left .value).andThen (reads quiet right .value)
  | .unary _ _ operand, _ => reads quiet operand .value
  | .conditional _ condition ifTrue ifFalse, _ =>
    (reads quiet condition .value).andThen ((reads quiet ifTrue .value).andThen (reads quiet ifFalse .value))
  | .shortcut _ condition ifFalse, _ => (reads quiet condition .value).andThen (reads quiet ifFalse .value)
  | .list _ targets value, _ =>
    (reads quiet value .value).andThen ((readsTargets targets).andThen (readsNulls targets))
  -- The chain of its own is not quiet, whatever the one at hand is.
  | .assign _ target value, _ => (reads false target (.prepare .write)).andThen (reads false value .value)
  | .incDec _ _ _ target, _ => (reads false target (.prepare .write)).andThen
      ((reads false target (.prepare .read)).andThen (reads false target .load))
termination_by structural e => e

/-- How the values of expressions in a row read items. -/
def readsAll (quiet : Bool) : List Expr → ReadOrder
  | [] => none
  | e :: rest => (reads quiet e .value).andThen (readsAll quiet rest)
termination_by structural es => es

/-- How the elements of an array literal read items. -/
def readsElements (quiet : Bool) : List ArrayElement → ReadOrder
  | [] => none
  | .plain _ value :: rest => (reads quiet value .value).andThen (readsElements quiet rest)
  | .keyed _ key value :: rest =>
    (reads quiet key .value).andThen ((reads quiet value .value).andThen (readsElements quiet rest))
termination_by structural es => es

/-- How the targets of a destructuring read items, those of the array among them: missing ones are no error. -/
def readsTargets : List ListTarget → ReadOrder
  | [] => none
  | .skip :: rest => readsTargets rest
  | .leaf target :: rest =>
    (readsTargets rest).andThen ((one .getItemQuiet).andThen (reads false target (.prepare .write)))
  | .nested targets :: rest =>
    (readsTargets rest).andThen ((one .getItemQuiet).andThen ((readsTargets targets).andThen (readsNulls targets)))
termination_by structural es => es

/-- How the targets of a destructuring read items if there is no array. -/
def readsNulls : List ListTarget → ReadOrder
  | [] => none
  | .skip :: rest => readsNulls rest
  | .leaf target :: rest => (readsNulls rest).andThen (reads false target (.prepare .write))
  | .nested targets :: rest => (readsNulls rest).andThen (readsNulls targets)
termination_by structural es => es

end

end Expr

namespace Lowering

open Pass (Ends)

variable {α β : Type} {s t u : State Chunk} {ops ops' : List RuntimeOp}

/-! ## What is heard of a step -/

/-- Which of the open chains are quiet. -/
def State.quietness (s : State Chunk) : List Bool :=
  s.chains.map Chain.quiet

/-- Whether the chain at hand is quiet. -/
def State.isQuiet (s : State Chunk) : Bool :=
  s.quietness.head?.getD false

/-- The items that are read in the code that has been emitted since an earlier state. -/
def Fetched (s t : State Chunk) (ops : List RuntimeOp) : Prop :=
  ∃ added, t.active.code.toList = s.active.code.toList ++ added ∧ added.filterMap Instruction.read? = ops

theorem Fetched.of_eq (h : t.active.code = s.active.code) : Fetched s t [] :=
  ⟨[], by rw [h, List.append_nil], rfl⟩

theorem Fetched.trans (h : Fetched s t ops) (h' : Fetched t u ops') : Fetched s u (ops ++ ops') := by
  obtain ⟨added, hcode, rfl⟩ := h
  obtain ⟨added', hcode', rfl⟩ := h'
  exact ⟨added ++ added', by rw [hcode', hcode, List.append_assoc], List.filterMap_append⟩

/-- A step reads items in some order, depending on whether the chain at hand is quiet.  When it is done, the
same chains are open. -/
def Hears (R : Bool → ReadOrder) (x : Emit Chunk α) : Prop :=
  ∀ s, Ends x s (fun _ t => t.quietness = s.quietness ∧ ∃ ops, Fetched s t ops ∧ R s.isQuiet ops) anyFailure

/-- A step that reads no item. -/
class Mute (x : Emit Chunk α) : Prop where
  hears : Hears (fun _ => .none) x

section Steps

variable {R S : Bool → ReadOrder} {x y : Emit Chunk α} {f : α → Emit Chunk β}

namespace Hears

theorem seq (hx : Hears R x) (hf : ∀ a, Hears S (f a)) : Hears (fun q => (R q).andThen (S q)) (x >>= f) := by
  refine fun s => (hx s).bind ?_
  rintro a t ⟨hquiet, ops, hops, hR⟩
  refine (hf a t).mono ?_
  rintro _ u ⟨hquiet', ops', hops', hS⟩
  have hsame : t.isQuiet = s.isQuiet := by unfold State.isQuiet; rw [hquiet]
  exact ⟨hquiet'.trans hquiet, ops ++ ops', hops.trans hops', ops, ops', rfl, hR, hsame ▸ hS⟩

theorem mono (hx : Hears R x) (h : ∀ q ops, R q ops → S q ops) : Hears S x :=
  fun s => (hx s).mono fun _ _ ⟨hquiet, ops, hops, hR⟩ => ⟨hquiet, ops, hops, h _ _ hR⟩

/-- A mute step in front. -/
theorem before [hx : Mute x] (hf : ∀ a, Hears R (f a)) : Hears R (x >>= f) :=
  (hx.hears.seq hf).mono fun _ _ ⟨_, _, heq, hnone, hR⟩ => by
    obtain rfl := hnone
    exact heq ▸ hR

/-- A mute step behind. -/
theorem behind (hx : Hears R x) [hf : ∀ a, Mute (f a)] : Hears R (x >>= f) :=
  (hx.seq fun a => (hf a).hears).mono fun _ _ ⟨_, _, heq, hR, hnone⟩ => by
    obtain rfl := hnone
    rw [List.append_nil] at heq
    exact heq ▸ hR

theorem beforeMute (hx : Hears R x) (hf : ∀ a, Mute (f a)) : Hears R (x >>= f) :=
  hx.behind

theorem fail (e : CompileError) : Hears R (Pass.fail e : Emit Chunk α) :=
  fun _ => .fail trivial

theorem of_eq (h : ∀ s, Ends x s (fun _ t => t.quietness = s.quietness ∧ t.active.code = s.active.code) anyFailure) :
    Hears (fun _ => .none) x :=
  fun s => (h s).mono fun _ _ ht => ⟨ht.1, [], .of_eq ht.2, rfl⟩

end Hears

instance mute_pure (a : α) : Mute (pure a : Emit Chunk α) :=
  ⟨.of_eq fun _ => .pure ⟨rfl, rfl⟩⟩

instance mute_bind [Mute x] [hf : ∀ a, Mute (f a)] : Mute (x >>= f) :=
  ⟨.before fun a => (hf a).hears⟩

instance mute_ite {c : Prop} [Decidable c] [hx : Mute x] [hy : Mute y] : Mute (if c then x else y) := by
  split
  · exact hx
  · exact hy

instance mute_fail (e : CompileError) : Mute (Pass.fail e : Emit Chunk α) :=
  ⟨.fail e⟩

instance mute_fault (f : Fault) : Mute (fault f : Emit Chunk α) :=
  mute_fail _

instance mute_peek (f : State Chunk → α) : Mute (Pass.peek f) :=
  ⟨.of_eq fun _ => .peek ⟨rfl, rfl⟩⟩

instance mute_onTable (q : Pass Fault RuleTable α) : Mute (onTable q : Emit Chunk α) := by
  refine ⟨.of_eq fun s => .intro (fun a t hrun => ?_) fun _ _ _ => trivial⟩
  unfold onTable at hrun
  split at hrun
  · obtain rfl := (Prod.mk.inj hrun).2
    exact ⟨rfl, rfl⟩
  · cases hrun

/-- A call to the sink that adds no code. -/
theorem mute_toSink {q : Pass SinkError Routine α}
    (h : ∀ r a r', q r = (.ok a, r') → r'.code = r.code) : Mute (toSink (Chunk.onActive q)) := by
  refine ⟨.of_eq fun s => ends_toSink (.intro (fun a r hrun => ?_) fun _ _ _ => trivial)⟩
  rw [State.active_withActive]
  exact ⟨rfl, h _ _ _ hrun⟩

/-- An instruction reads an item or none. -/
theorem fetched_push (i : Instruction) (s : State Chunk) :
    Fetched s (s.withActive (s.active.push i)) i.read?.toList := by
  refine ⟨[i], ?_, ?_⟩
  · rw [State.active_withActive]
    exact Array.toList_push ..
  · cases h : i.read? <;> simp [h]

theorem hears_emit (i : Instruction) : Hears (fun _ ops => ops = i.read?.toList) (emit i) := by
  refine fun s => (ends_emit i s).mono ?_
  rintro _ _ rfl
  exact ⟨rfl, _, fetched_push i s, rfl⟩

theorem mute_emit {i : Instruction} (h : i.read? = none) : Mute (emit i) :=
  ⟨(hears_emit i).mono fun _ ops hops => by rw [hops, h]; rfl⟩

instance : Mute (emit .pop) := mute_emit rfl
instance : Mute (emit .dup) := mute_emit rfl
instance (k : Nat) : Mute (emit (.const k)) := mute_emit rfl
instance (k : Temp) : Mute (emit (.loadTemp k)) := mute_emit rfl
instance (k : Temp) : Mute (emit (.storeTemp k)) := mute_emit rfl
instance (name : String) : Mute (emit (.loadVar name)) := mute_emit rfl
instance (name : String) : Mute (emit (.loadVarRef name)) := mute_emit rfl
instance (name : String) : Mute (emit (.loadVarArray name)) := mute_emit rfl
instance (name : String) : Mute (emit (.storeVar name)) := mute_emit rfl
instance (name : String) : Mute (emit (.unsetVar name)) := mute_emit rfl
instance (name : String) : Mute (emit (.loadConstant name)) := mute_emit rfl
instance (code : TypeCode) : Mute (emit (.box code)) := mute_emit rfl
instance (m n : Nat) : Mute (emit (.newArray m n)) := mute_emit rfl
instance (n : Nat) : Mute (emit (.newValueArray n)) := mute_emit rfl
instance (name : String) (n : Nat) : Mute (emit (.callFunction name n)) := mute_emit rfl
instance (l : Label) : Mute (emit (.branch l)) := mute_emit rfl
instance (l : Label) : Mute (emit (.branchIfTrue l)) := mute_emit rfl
instance (l : Label) : Mute (emit (.branchIfFalse l)) := mute_emit rfl

instance mute_addConstant (v : Literal) : Mute (toSink (Sink.addConstant v) : Emit Chunk Nat) := by
  refine mute_toSink (q := Routine.addConstant v) fun r k r' hrun => ?_
  unfold Routine.addConstant at hrun
  split at hrun
  · exact ((Prod.mk.inj hrun).2 ▸ rfl)
  · split at hrun
    · exact ((Prod.mk.inj hrun).2 ▸ rfl)
    · cases hrun

instance mute_mark (l : Label) : Mute (mark l : Emit Chunk Unit) := by
  refine mute_toSink (q := Routine.markLabel l) fun r k r' hrun => ?_
  unfold Routine.markLabel at hrun
  split at hrun
  · exact ((Prod.mk.inj hrun).2 ▸ rfl)
  · exact nomatch hrun

instance mute_declareTemp : Mute (declareTemp : Emit Chunk Temp) := by
  refine mute_toSink (q := Routine.declareTemp) fun r k r' hrun => ?_
  unfold Routine.declareTemp at hrun
  split at hrun
  · exact ((Prod.mk.inj hrun).2 ▸ rfl)
  · split at hrun
    · exact ((Prod.mk.inj hrun).2 ▸ rfl)
    · exact nomatch hrun

instance mute_returnTemp (k : Temp) : Mute (returnTemp k : Emit Chunk Unit) := by
  refine ⟨.of_eq fun s => .update ⟨rfl, ?_⟩⟩
  show (Sink.returnTemp k s.sink).active.code = _
  rw [active_returnTemp, code_returnTemp]
  rfl

instance mute_defineLabel : Mute (defineLabel : Emit Chunk Label) := by
  refine ⟨.of_eq fun s => .transform ⟨rfl, ?_⟩⟩
  show (Chunk.onActive Routine.defineLabel s.sink).2.active.code = s.sink.active.code
  rw [Chunk.onActive_eq, Chunk.active_withActive]
  rfl

end Steps

/-! ### Primitives that read no item -/

/-- A primitive that reads no item. -/
class Unread (op : RuntimeOp) : Prop where
  read? : Instruction.read? (.call op) = none

instance : Unread .deepCopy := ⟨rfl⟩
instance : Unread .setItem := ⟨rfl⟩
instance : Unread .append := ⟨rfl⟩
instance : Unread .getItemRef := ⟨rfl⟩
instance : Unread .getItemForWrite := ⟨rfl⟩
instance : Unread .unsetItem := ⟨rfl⟩
instance : Unread .appendReference := ⟨rfl⟩
instance : Unread .appendArray := ⟨rfl⟩
instance : Unread .toText := ⟨rfl⟩
instance : Unread .toBool := ⟨rfl⟩
instance : Unread .isBytes := ⟨rfl⟩
instance : Unread .isArrayLike := ⟨rfl⟩
instance : Unread .concatN := ⟨rfl⟩
instance : Unread .beginSilence := ⟨rfl⟩
instance : Unread .endSilence := ⟨rfl⟩
instance : Unread .plus := ⟨rfl⟩
instance : Unread .negate := ⟨rfl⟩
instance : Unread .logicNot := ⟨rfl⟩
instance : Unread .bitNot := ⟨rfl⟩
instance : Unread .clone := ⟨rfl⟩
instance : Unread .print := ⟨rfl⟩

instance (increment : Bool) : Unread (if increment then .increment else .decrement) := by
  cases increment <;> exact ⟨rfl⟩

instance (op : BinaryOp) : Unread op.runtimeOp := by
  cases op <;> exact ⟨rfl⟩

instance (l r : Operand) : Unread (joinOp l r) := by
  cases l <;> cases r <;> exact ⟨rfl⟩

section Functions

variable {op : RuntimeOp}

instance mute_emitCall [h : Unread op] : Mute (emit (.call op)) :=
  mute_emit h.read?

instance mute_call [Unread op] : Mute (call op : Emit Chunk TypeCode) := by
  unfold call
  infer_instance

instance mute_callVoid [Unread op] : Mute (callVoid op : Emit Chunk Unit) := by
  unfold callVoid
  infer_instance

instance mute_pushLiteral (v : Literal) : Mute (pushLiteral v : Emit Chunk TypeCode) := by
  unfold pushLiteral
  infer_instance

instance mute_saveTo (k : Temp) : Mute (saveTo k : Emit Chunk Unit) := by
  unfold saveTo
  infer_instance

instance mute_box (code : TypeCode) : Mute (box code : Emit Chunk TypeCode) := by
  unfold box
  infer_instance

theorem unread_converter {target : TypeCode} (h : converter? target = some op) : Unread op := by
  cases target <;> simp only [converter?, reduceCtorEq, Option.some.injEq] at h <;> subst h <;> exact ⟨rfl⟩

instance mute_convert (code target : TypeCode) : Mute (convert code target : Emit Chunk TypeCode) := by
  unfold convert
  cases h : converter? target with
  | none => infer_instance
  | some op =>
    have := unread_converter h
    infer_instance

instance mute_discard (code : TypeCode) : Mute (discard code : Emit Chunk TypeCode) := by
  unfold discard
  infer_instance

instance mute_unlessDropped (access : Access) (code : TypeCode) :
    Mute (unlessDropped access code : Emit Chunk TypeCode) := by
  unfold unlessDropped
  infer_instance

instance mute_isPlace (cfg : Setting) (e : Expr) : Mute (isPlace cfg e : Emit Chunk Bool) := by
  unfold isPlace
  infer_instance

instance mute_wrongRuleCode (rule kind : ExprKind) (access : Access) (use : Use) :
    Mute (wrongRuleCode rule kind access use : Emit Chunk TypeCode) := by
  cases use <;> unfold wrongRuleCode <;> infer_instance

instance mute_literalValue (access : Access) (v : Literal) :
    Mute (literalValue access v : Emit Chunk TypeCode) := by
  unfold literalValue
  infer_instance

instance mute_constantValue (access : Access) (name : String) :
    Mute (constantValue access name : Emit Chunk TypeCode) := by
  unfold constantValue
  infer_instance

instance mute_pushOperand (v : Literal) : Mute (pushOperand v : Emit Chunk TypeCode) := by
  unfold pushOperand
  cases v <;> infer_instance

instance mute_loadSaved (saved : Option Temp) : Mute (loadSaved saved : Emit Chunk TypeCode) := by
  unfold loadSaved
  cases saved <;> dsimp only <;> infer_instance

instance mute_incDecUsed (access : Access) : Mute (incDecUsed access : Emit Chunk Bool) := by
  unfold incDecUsed
  cases access <;> dsimp only <;> infer_instance

instance mute_saveResult (saved : Option Temp) :
    Mute (incDecValue.saveResult saved : Emit Chunk Unit) := by
  unfold incDecValue.saveResult
  cases saved <;> dsimp only <;> infer_instance

instance mute_saveUsed (access : Access) : Mute (saveUsed access) := by
  unfold saveUsed
  infer_instance

instance mute_resultSlot (used : Bool) : Mute (resultSlot used) := by
  unfold resultSlot
  infer_instance

instance mute_changeValue (increment post : Bool) (saved : Option Temp) :
    Mute (changeValue increment post saved) := by
  unfold changeValue
  infer_instance

end Functions

/-! ## Codes -/

section Codes

variable {R K : Bool → ReadOrder} {C : Bool → Use → ReadOrder} {code container : Code Chunk}
  {key : Emit Chunk TypeCode} {use : Use}

theorem Hears.boxed (h : Hears R (code .value)) : Hears R (boxed code) :=
  h.behind

theorem Hears.converted (h : Hears R (code .value)) (target : TypeCode) : Hears R (converted code target) :=
  h.behind

/-- An expression that is no location has only its value. -/
theorem hears_valueCode {kind : ExprKind} {value : Emit Chunk TypeCode} (h : Hears R value) (use : Use) :
    Hears R (valueCode kind value use) := by
  cases use with
  | value => exact h
  | arrayForWrite | containerRead => exact h.behind
  | prepare _ | load | store | loadRef | unset => exact .fail _

theorem hears_wrongRuleCode (rule kind : ExprKind) (access : Access) (use : Use) :
    Hears R (wrongRuleCode rule kind access use : Emit Chunk TypeCode) := by
  unfold wrongRuleCode
  cases use <;> dsimp only <;> (try split) <;> exact .fail _

theorem hears_byRule {cfg : Setting} {kind : ExprKind} {tag : ExprTag} {code : Home ExprKind → Code Chunk}
    (h : ∀ home, Hears R (code home use)) : Hears R (byRule cfg kind tag code use) := by
  refine .before fun handle => ?_
  split
  · exact h _
  · exact hears_wrongRuleCode _ _ _ _

theorem mute_byRule {cfg : Setting} {kind : ExprKind} {tag : ExprTag} {code : Home ExprKind → Code Chunk}
    (h : ∀ home, Mute (code home use)) : Mute (byRule cfg kind tag code use) :=
  ⟨hears_byRule fun home => (h home).hears⟩

/-! ### Locations -/

theorem mute_variablePlace (name : String) (kind : ExprKind) (access : Access) (use : Use) :
    Mute ((variablePlace name).code kind access use) := by
  unfold variablePlace
  cases use with
  | value =>
    show Mute (Place.value kind access _)
    unfold Place.value
    cases access <;> dsimp only <;> infer_instance
  | _ =>
    unfold Place.code
    dsimp only
    infer_instance

/-- **An item is read as the chain at hand says.** -/
theorem hears_load : Hears (fun q => .one (.readItem q)) (do
    call (if ← chainIsQuiet then .getItemQuiet else .getItem) : Emit Chunk TypeCode) := by
  intro s
  refine .peek_bind ?_
  have hquiet : (s.chains.head?.map Chain.quiet).getD false = s.isQuiet := by
    unfold State.isQuiet State.quietness
    rw [List.head?_map]
  rw [hquiet]
  have hcall : ∀ quiet : Bool, Hears (fun _ => .one (.readItem quiet))
      (call (if quiet then .getItemQuiet else .getItem) : Emit Chunk TypeCode) := by
    intro quiet
    refine ((hears_emit _).mono fun _ ops hops => ?_).behind
    cases quiet <;> exact hops
  exact hcall s.isQuiet s

theorem hears_itemPrepare (half : Half) {c : Use} (hcontainer : Hears R (container c)) (hkey : Hears K key)
    (hc : c = match half with | .write => .arrayForWrite | .read => .containerRead) :
    Hears (fun q => (R q).andThen (K q)) (itemPlace.prepare container key half) := by
  subst hc
  cases half <;> exact hcontainer.seq fun _ => hkey.behind

/-- An item reads what its container and its index do, and then itself where its value is needed. -/
theorem hears_itemCode (hcontainer : ∀ use, Hears (fun q => C q use) (container use)) (hkey : Hears K key)
    (access : Access) (use : Use) :
    Hears (fun q => .item q access (C q) (K q) use) ((itemPlace container key).code .item access use) := by
  have hwrite := hears_itemPrepare .write (hcontainer .arrayForWrite) hkey rfl
  have hread := hears_itemPrepare .read (hcontainer .containerRead) hkey rfl
  have hloaded := hread.seq fun _ => hears_load
  cases use with
  | value =>
    show Hears _ (Place.value .item access _)
    unfold Place.value
    cases access with
    | read => exact hloaded
    | none => exact hread.seq fun _ => hears_load.behind
    | readRef | readUnknown => exact hwrite.behind
    | _ => exact .fail _
  | prepare half =>
    cases half with
    | read => exact hread.behind
    | write => exact hwrite.behind
  | load => exact hears_load
  | store => exact (inferInstance : Mute (callVoid .setItem)).hears.behind
  | loadRef | arrayForWrite => exact hwrite.behind
  | containerRead => exact hloaded
  | unset => exact (hread.behind (f := fun _ => callVoid .unsetItem)).behind

theorem hears_appendCode (hcontainer : Hears R (container .arrayForWrite)) (access : Access) (huse : use ≠ .store) :
    Hears R ((appendPlace container).code .item access use) := by
  have hprepare : Hears R (appendPlace.prepareWrite container) := hcontainer.behind
  cases use with
  | value =>
    show Hears _ (Place.value .item access _)
    unfold Place.value
    cases access with
    | readRef | readUnknown => exact hprepare.behind
    | _ => exact .fail _
  | prepare half =>
    cases half with
    | read => exact .fail _
    | write => exact hprepare.behind
  | loadRef | arrayForWrite => exact hprepare.behind
  | store => exact absurd rfl huse
  | load | containerRead | unset => exact .fail _

/-! ### Chains -/

instance mute_keepOperand (i : Nat) (k : Temp) (kind : TypeCode) :
    Mute (Pass.update (State.keepOperand i k kind) : Emit Chunk Unit) := by
  refine ⟨.of_eq fun s => .update ?_⟩
  unfold State.keepOperand
  split
  · exact ⟨rfl, rfl⟩
  · rename_i chain chains hs
    refine ⟨?_, rfl⟩
    unfold State.quietness
    rw [hs, List.map_cons, List.map_cons]

/-- The operand of a chain is evaluated unless the chain keeps it. -/
theorem hears_chainOperand {e : Expr} (h : Hears R (code .value)) :
    Hears (fun q => (R q).unlessKept) (chainOperand e code) := by
  have hboxed : Hears (fun q => (R q).unlessKept) (boxed code) := h.boxed.mono fun _ _ => Or.inl
  refine .before fun chain => ?_
  cases chain with
  | none => exact hboxed
  | some chain =>
    dsimp only
    split
    · exact hboxed
    · split
      · exact mute_bind.hears.mono fun _ _ => Or.inr
      · exact hboxed.behind

/-- **In a chain of its own, nothing depends on the chain at hand.** -/
theorem Hears.inChain {α β : Type} {x : Emit Chunk α} {f : α → Emit Chunk β} (hx : Hears R x) (quiet : Bool)
    [hf : ∀ a, Mute (f a)] :
    Hears (fun _ => R quiet) (do
      beginChain quiet
      let a ← x
      Pass.update State.endChain
      f a) := by
  refine fun s => .update_bind ((hx _).bind ?_)
  rintro a t ⟨hquiet, ops, hops, hR⟩
  refine .update_bind (((hf a).hears t.endChain).mono ?_)
  rintro _ u ⟨hquiet', ops', hops', hnone⟩
  obtain rfl := hnone
  have hclosed : t.endChain.quietness = s.quietness := by
    unfold State.quietness at hquiet ⊢
    cases hchains : t.chains with
    | nil => rw [hchains] at hquiet; exact nomatch hquiet
    | cons chain chains =>
      rw [chains_endChain hchains]
      rw [hchains] at hquiet
      exact (List.cons.inj hquiet).2
  have hall := (hops.trans (.of_eq (code_endChain t))).trans hops'
  rw [List.append_nil, List.append_nil] at hall
  exact ⟨hquiet'.trans hclosed, ops, hall, hR⟩

end Codes

/-! ## Constructs -/

section Constructs

-- The instance for a mute function is a term with a node for every line of the function.
set_option synthInstance.maxSize 10000

variable {R S T : Bool → ReadOrder} {e : Expr} {code left right condition ifTrue ifFalse target stored : Code Chunk}

theorem ReadOrder.andThen_none (R : ReadOrder) : R.andThen .none = R := by
  funext ops
  apply propext
  constructor
  · rintro ⟨_, _, rfl, hR, rfl⟩
    rwa [List.append_nil]
  · exact fun hR => ⟨ops, [], (List.append_nil ops).symm, hR, rfl⟩

theorem hears_binaryValue (access : Access) (op : BinaryOp) (hl : Hears R (left .value))
    (hr : Hears S (right .value)) :
    Hears (fun q => (R q).andThen (S q)) (binaryValue access op left right) :=
  hl.boxed.seq fun _ => hr.boxed.behind

theorem hears_unaryValue (access : Access) (op : UnaryOp) (h : Hears R (code .value)) :
    Hears R (unaryValue access op code) := by
  have hresult : Hears R (unaryResult op code) := by
    cases op with
    | plus | minus | logicNot | bitNot | clone | print => exact h.boxed.behind
    | intCast | doubleCast | stringCast | binaryCast | boolCast => exact h.converted _
    | unsetCast => exact h.behind
    | silence => exact h
  unfold unaryValue
  split
  · exact .before fun _ => h.behind
  · exact hresult.behind

theorem hears_branchValue (used : Bool) (h : Hears R (code .value)) : Hears R (branchValue used code) :=
  h.behind

theorem hears_conditionalValue (access : Access) (hc : Hears R (condition .value))
    (hl : Hears S (ifTrue .value)) (hr : Hears T (ifFalse .value)) :
    Hears (fun q => (R q).andThen ((S q).andThen (T q)))
      (conditionalValue access condition ifTrue ifFalse) := by
  refine .before fun done => .before fun otherwise => (hc.converted _).seq fun _ => .before fun _ => ?_
  refine (hears_branchValue _ hl).seq fun _ => .before fun _ => .before fun _ => ?_
  exact (hears_branchValue _ hr).behind

theorem hears_shortcutValue (access : Access) (hc : Hears R (condition .value))
    (hr : Hears S (ifFalse .value)) :
    Hears (fun q => (R q).andThen (S q)) (shortcutValue access condition ifFalse) := by
  refine .before fun done => ?_
  dsimp only
  split
  · refine hc.boxed.seq fun _ => .before fun _ => .before fun _ => .before fun _ => .before fun _ => ?_
    exact (hears_branchValue _ hr).behind
  · refine (hc.converted _).seq fun _ => .before fun _ => ?_
    exact (hears_branchValue _ hr).behind

/-! ### Operands and arguments -/

/-- The value of every expression reads items in its order. -/
def AllHear (operands : List (Expr × Code Chunk)) : Prop :=
  ∀ o ∈ operands, Hears (fun q => o.1.reads q .value) (o.2 .value)

/-- A literal reads nothing. -/
theorem reads_literal {v : Literal} (h : e.value? = some v) (q : Bool) : e.reads q .value = .none := by
  cases e with
  | literal => rfl
  | _ => exact nomatch h

theorem hears_concatOperand (h : Hears (fun q => e.reads q .value) (code .value)) :
    Hears (fun q => e.reads q .value) (concatOperand e code) := by
  unfold concatOperand
  split
  · rename_i v hv
    simp only [reads_literal hv]
    exact mute_bind.hears
  · refine h.beforeMute fun kind => ?_
    split <;> infer_instance

theorem hears_concatSingle (h : Hears (fun q => e.reads q .value) (code .value)) :
    Hears (fun q => e.reads q .value) (concatSingle e code) := by
  unfold concatSingle
  split
  · rename_i v hv
    simp only [reads_literal hv]
    exact (mute_pushOperand v).hears
  · exact h.behind

theorem hears_pushBoxed {operands : List (Expr × Code Chunk)} (h : AllHear operands) :
    Hears (fun q => Expr.readsAll q (operands.map Prod.fst)) (pushBoxed operands) := by
  induction operands with
  | nil => exact (mute_pure ()).hears
  | cons o rest ih =>
    obtain ⟨ho, hrest⟩ := List.forall_mem_cons.mp h
    exact ho.boxed.seq fun _ => ih hrest

theorem hears_pushArguments {args : List (Expr × Code Chunk)} (h : AllHear args) :
    Hears (fun q => Expr.readsAll q (args.map Prod.fst)) (pushArguments args) := by
  induction args with
  | nil => exact (mute_pure ()).hears
  | cons arg rest ih =>
    obtain ⟨harg, hrest⟩ := List.forall_mem_cons.mp h
    refine harg.seq fun kind => ?_
    dsimp only
    split
    · exact .before fun _ => ih hrest
    · exact ih hrest

theorem hears_concatValue (access : Access) {operands : List (Expr × Code Chunk)} (h : AllHear operands) :
    Hears (fun q => Expr.readsAll q (operands.map Prod.fst)) (concatValue access operands) := by
  have hresult : Hears (fun q => Expr.readsAll q (operands.map Prod.fst)) (concatResult operands) := by
    unfold concatResult
    split
    · exact (mute_pushLiteral _).hears
    · simp only [List.map_cons, List.map_nil, Expr.readsAll, ReadOrder.andThen_none]
      exact hears_concatSingle (h _ List.mem_cons_self)
    · simp only [List.map_cons, List.map_nil, Expr.readsAll, ReadOrder.andThen_none]
      refine (hears_concatOperand (h _ List.mem_cons_self)).seq fun _ => ?_
      exact (hears_concatOperand (h _ (List.mem_cons_of_mem _ List.mem_cons_self))).behind
    · split
      · exact (hears_pushBoxed h).behind
      · exact .fail _
  exact hresult.behind

theorem hears_callValue (access : Access) (name : String) {args : List (Expr × Code Chunk)}
    (h : AllHear args) :
    Hears (fun q => Expr.readsAll q (args.map Prod.fst)) (callValue access name args) := by
  unfold callValue
  split
  · exact (hears_pushArguments h).behind
  · exact .fail _

/-! ### Assignments -/

theorem hears_valueToStore (h : Hears R (code .value)) : Hears R (valueToStore e code) :=
  h.boxed.behind

theorem hears_assignValue (access : Access) (ht : Hears R (target (.prepare .write)))
    [Mute (target .store)] (hv : Hears S (stored .value)) :
    Hears (fun _ => (R false).andThen (S false)) (assignValue access target e stored) := by
  rw [assignValue_eq]
  exact Hears.inChain (R := fun q => (R q).andThen (S q))
    (ht.seq fun _ => (hears_valueToStore hv).behind) false

/-- **An increment addresses its location twice, and reads it.** -/
theorem hears_incDecValue (cfg : Setting) (access : Access) (increment post : Bool)
    (hwrite : Hears R (target (.prepare .write))) (hread : Hears S (target (.prepare .read)))
    (hload : Hears T (target .load)) [Mute (target .store)] :
    Hears (fun _ => (R false).andThen ((S false).andThen (T false)))
      (incDecValue cfg access increment post e target) := by
  rw [incDecValue_eq]
  refine .before fun isPlace => ?_
  split
  · exact .fail _
  · refine .before fun used => Hears.inChain (R := fun q => (R q).andThen ((S q).andThen (T q))) ?_ false
    exact hwrite.seq fun _ => hread.seq fun _ => hload.behind

theorem hears_storePlain (h : Hears R (stored .value)) : Hears R (storePlain e stored) :=
  .before fun _ => (hears_valueToStore h).behind

theorem hears_storeKeyed (hk : Hears R (code .value)) (hv : Hears S (stored .value)) :
    Hears (fun q => (R q).andThen (S q)) (storeKeyed code e stored) :=
  .before fun _ => hk.boxed.seq fun _ => (hears_valueToStore hv).behind

theorem hears_arrayValue (access : Access) (home : Home ExprKind) {elements : Emit Chunk Unit}
    (h : Hears R elements) : Hears R (arrayValue access home elements) :=
  .before fun _ => .before fun _ => h.behind

/-! ### Destructurings -/

theorem hears_fetch (index : Nat) : Hears (fun _ => .one .getItemQuiet) (fetch index : Emit Chunk Unit) :=
  .before fun _ => .before fun _ => .before fun _ => hears_emit _

theorem hears_assignElement (index : Nat) (ht : Hears R (target (.prepare .write))) [Mute (target .store)] :
    Hears (fun _ => (ReadOrder.one .getItemQuiet).andThen (R false)) (assignElement index target) := by
  refine (hears_fetch index).seq fun _ => .before fun _ => .before fun k => .before fun _ => ?_
  have hstore : Hears R (do
      let _ ← target (.prepare .write)
      emit (.loadTemp k)
      target .store) := ht.behind
  have hchain := hstore.inChain false (f := fun _ => returnTemp k)
  simp only [bind_assoc] at hchain
  exact hchain

theorem hears_assignNull (ht : Hears R (target (.prepare .write))) [Mute (target .store)] :
    Hears (fun _ => R false) (assignNull target) := by
  have hstore : Hears R (do
      let _ ← target (.prepare .write)
      let _ ← pushLiteral .null
      target .store) := ht.behind
  have hchain := hstore.inChain false (f := fun _ => pure ())
  simp only [bind_assoc, bind_pure_unit] at hchain
  exact hchain

theorem hears_unpack {elements nulls : Emit Chunk Unit} (he : Hears R elements) (hn : Hears S nulls) :
    Hears (fun q => (R q).andThen (S q)) (unpack elements nulls) := by
  refine .before fun _ => .before fun _ => .before fun _ => .before fun _ => .before fun _ => ?_
  refine he.seq fun _ => .before fun _ => .before fun _ => .before fun _ => .before fun _ => ?_
  exact hn.behind

theorem hears_listValue (access : Access) (hv : Hears R (code .value)) {unpacked : Emit Chunk Unit}
    (hu : Hears S unpacked) : Hears (fun q => (R q).andThen (S q)) (listValue access code unpacked) := by
  refine hv.boxed.seq fun _ => ?_
  by_cases h : access = .none
  · rw [if_neg (not_not.mpr h)]
    exact hu.behind
  · rw [if_pos h]
    exact .before fun _ => hu.behind

end Constructs

/-! ## Expressions -/

variable (cfg : Setting)

/-- Nothing is read for storing to what has been addressed. -/
instance mute_store (e : Expr) : Mute (lower cfg e .store) := by
  cases e with
  | var tag name =>
    rw [lower]
    exact mute_byRule fun _ => mute_variablePlace name _ _ _
  | item tag container index =>
    rw [lower]
    exact mute_byRule fun _ => mute_bind (x := callVoid .setItem)
  | append tag container =>
    rw [lower]
    exact mute_byRule fun _ => mute_bind (x := callVoid .append)
  | _ =>
    rw [lower]
    exact mute_byRule fun _ => mute_fault _

mutual

/-- **The code for a use of an expression reads items in the order that the chain at hand decides.** -/
theorem hears_lower : ∀ (e : Expr) (use : Use), Hears (fun q => e.reads q use) (lower cfg e use)
  | .literal tag v, use => by
    rw [lower]
    exact hears_byRule fun _ => hears_valueCode (mute_literalValue _ _).hears _
  | .constant tag name, use => by
    rw [lower]
    exact hears_byRule fun _ => hears_valueCode (mute_constantValue _ _).hears _
  | .var tag name, use => by
    rw [lower]
    exact hears_byRule fun _ => (mute_variablePlace name _ _ _).hears
  | .item tag container index, use => by
    rw [lower]
    exact hears_byRule fun _ => hears_itemCode (fun use => hears_lower container use)
      (hears_chainOperand (hears_lower index .value)) tag.access use
  | .append tag container, use => by
    by_cases huse : use = .store
    · subst huse
      exact (mute_store cfg (.append tag container)).hears
    · have hreads : ∀ q, (Expr.append tag container).reads q use = container.reads q .arrayForWrite := by
        intro q
        cases use <;> first | rfl | exact absurd rfl huse
      simp only [hreads]
      rw [lower]
      exact hears_byRule fun _ => hears_appendCode (hears_lower container .arrayForWrite) _ huse
  | .array tag elements, use => by
    rw [lower]
    exact hears_byRule fun _ => hears_valueCode (hears_arrayValue _ _ (hears_storeElements elements)) _
  | .concat tag operands, use => by
    have hvalue := hears_concatValue tag.access (allHear_lowerAll operands)
    rw [map_lowerAll] at hvalue
    rw [lower]
    exact hears_byRule fun _ => hears_valueCode hvalue _
  | .call tag name args, use => by
    have hvalue := hears_callValue tag.access name (allHear_lowerAll args)
    rw [map_lowerAll] at hvalue
    rw [lower]
    exact hears_byRule fun _ => hears_valueCode hvalue _
  | .binary tag op left right, use => by
    rw [lower]
    exact hears_byRule fun _ => hears_valueCode
      (hears_binaryValue _ _ (hears_lower left .value) (hears_lower right .value)) _
  | .unary tag op operand, use => by
    rw [lower]
    exact hears_byRule fun _ => hears_valueCode (hears_unaryValue _ _ (hears_lower operand .value)) _
  | .incDec tag increment post target, use => by
    rw [lower]
    exact hears_byRule fun _ => hears_valueCode (hears_incDecValue cfg _ _ _
      (hears_lower target (.prepare .write)) (hears_lower target (.prepare .read)) (hears_lower target .load)) _
  | .conditional tag condition ifTrue ifFalse, use => by
    rw [lower]
    exact hears_byRule fun _ => hears_valueCode (hears_conditionalValue _
      (hears_lower condition .value) (hears_lower ifTrue .value) (hears_lower ifFalse .value)) _
  | .shortcut tag condition ifFalse, use => by
    rw [lower]
    exact hears_byRule fun _ => hears_valueCode (hears_shortcutValue _
      (hears_lower condition .value) (hears_lower ifFalse .value)) _
  | .list tag targets value, use => by
    rw [lower]
    exact hears_byRule fun _ => hears_valueCode (hears_listValue _ (hears_lower value .value)
      (hears_unpack (hears_assignElements 0 targets) (hears_assignNulls targets))) _
  | .assign tag target value, use => by
    rw [lower]
    exact hears_byRule fun _ => hears_valueCode (hears_assignValue _
      (hears_lower target (.prepare .write)) (hears_lower value .value)) _
termination_by structural e => e

theorem allHear_lowerAll : ∀ es : List Expr, AllHear (lowerAll cfg es)
  | [] => nofun
  | e :: rest => List.forall_mem_cons.mpr ⟨hears_lower e .value, allHear_lowerAll rest⟩
termination_by structural es => es

theorem hears_storeElements : ∀ es : List ArrayElement,
    Hears (fun q => Expr.readsElements q es) (storeElements cfg es)
  | [] => (mute_pure ()).hears
  | .plain _ value :: rest => by
    rw [storeElements]
    exact (hears_storePlain (hears_lower value .value)).seq fun _ => hears_storeElements rest
  | .keyed _ key value :: rest => by
    rw [storeElements]
    have hstore := hears_storeKeyed (e := value) (hears_lower key .value) (hears_lower value .value)
    refine (hstore.seq fun _ => hears_storeElements rest).mono ?_
    rintro q _ ⟨_, after, rfl, ⟨kops, vops, rfl, hkey, hvalue⟩, hrest⟩
    exact ⟨kops, vops ++ after, List.append_assoc .., hkey, vops, after, rfl, hvalue, hrest⟩
termination_by structural es => es

theorem hears_assignElements : ∀ (index : Nat) (ts : List ListTarget),
    Hears (fun _ => Expr.readsTargets ts) (assignElements cfg index ts)
  | _, [] => (mute_pure ()).hears
  | index, .skip :: rest => hears_assignElements (index + 1) rest
  | index, .leaf target :: rest => by
    rw [assignElements]
    exact (hears_assignElements (index + 1) rest).seq fun _ =>
      hears_assignElement index (hears_lower target (.prepare .write))
  | index, .nested targets :: rest => by
    rw [assignElements]
    exact (hears_assignElements (index + 1) rest).seq fun _ => (hears_fetch index).seq fun _ =>
      hears_unpack (hears_assignElements 0 targets) (hears_assignNulls targets)
termination_by structural _ ts => ts

theorem hears_assignNulls : ∀ ts : List ListTarget,
    Hears (fun _ => Expr.readsNulls ts) (assignNulls cfg ts)
  | [] => (mute_pure ()).hears
  | .skip :: rest => hears_assignNulls rest
  | .leaf target :: rest => by
    rw [assignNulls]
    exact (hears_assignNulls rest).seq fun _ => hears_assignNull (hears_lower target (.prepare .write))
  | .nested targets :: rest => by
    rw [assignNulls]
    exact (hears_assignNulls rest).seq fun _ => hears_assignNulls targets
termination_by structural ts => ts

end

end Lowering
end PhpLowering
