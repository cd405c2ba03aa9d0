import Mathlib.Data.List.Nodup
import PhpLowering.Proofs.Code.Machine
import PhpLowering.Proofs.Lowering.Account
import PhpLowering.Proofs.Tree.Steady

/-!
# The outline of the code of an expression

Whatever an expression is, its code is put together in a few ways.  There are instructions that only
work on the stack, one step after another, code that is skipped, two alternatives, an operand of a
chain, and a chain of its own, whose result may go through a slot.  `Outline strict A x` says that the
step `x` is put together so.  It is a statement about the text of the step: it holds for any sink, and
what is true of all steps is shown by going through the ways once.

Slots change hands between the parts, which is what the `Custody` `A` is about: the operands that the
step takes to be new, those that it takes to be there, those that are there afterwards, and those of
them that are there whatever way control takes.  In a chain that is gone through twice, what the second
round takes to be there has been kept in the first one.  If the outline is `strict`, it has been kept
whatever way control took.

**`outlines_lower`**: the code of every expression has an outline, provided that no two nodes have the
same number; and if increments are steady, it has a strict one.
-/

namespace PhpLowering

/-- The slot that an instruction reads or writes. -/
def Instruction.slot? : Instruction → Option Temp
  | .loadTemp t | .storeTemp t => some t
  | _ => none

namespace Lowering

/-! ## Custody -/

/-- What is to be known of a step about the operands of the chain at hand. -/
structure Custody where
  /-- The operands that are not kept before the step; no others are kept by it. -/
  fresh : List Nat := []
  /-- Operands that are kept before the step. -/
  known : List Nat := []
  /-- Operands that are kept after the step, if it is taken in a chain. -/
  gained : List Nat := []
  /-- Operands whose value has been stored if they are kept after the step, whatever way control took. -/
  sure : List Nat := []

namespace Custody

/-- One step after another. -/
def seq (A B : Custody) : Custody where
  fresh := A.fresh ++ B.fresh
  known := A.known ++ B.known
  gained := A.gained ++ B.gained
  sure := A.sure ++ B.sure

/-- A step that control may not go through. -/
def unsure (A : Custody) : Custody :=
  { A with sure := [] }

/-- The second custody says less than the first one. -/
structure Covers (A B : Custody) : Prop where
  fresh : A.fresh ⊆ B.fresh
  known : A.known ⊆ B.known
  gained : B.gained ⊆ A.gained
  sure : B.sure ⊆ A.sure

end Custody

/-- The custody of something that is evaluated in a round. -/
def Custody.of (numbers operands sure : List Nat) : Expr.Round → Custody
  | .first => { fresh := numbers, gained := operands, sure }
  | .again => { known := operands }

end Lowering

namespace Expr

open Lowering (Custody)

/-- What the emission of an expression in a round has to do with operands. -/
def custody (round : Round) (e : Expr) : Custody :=
  .of e.numbers e.operands e.sure round

/-- The same without the expression itself, which is no operand of its own code. -/
def inner (round : Round) (e : Expr) : Custody :=
  .of e.numbers.tail e.operands e.sure round

/-- What the emission of expressions in a row has to do with operands. -/
def custodyOf (round : Round) (es : List Expr) : Custody :=
  .of (numbersOf es) (operandsOf es) (sureOf es) round

/-- What the emission of the elements of an array literal has to do with operands. -/
def custodyOfElements (round : Round) (es : List ArrayElement) : Custody :=
  .of (numbersOfElements es) (operandsOfElements es) (sureOfElements es) round

end Expr

namespace Lowering

/-! ## Ways of putting code together -/

section Ways

variable {σ α β γ δ : Type} [Sink σ]

/-- Code that is skipped if what is on top of the stack is true. -/
def skipped (head : Emit σ α) (body : Emit σ β) : Emit σ Unit := do
  let done ← defineLabel
  let _ ← head
  emit (.branchIfTrue done)
  let _ ← body
  mark done

/-- Two alternatives, one of which is taken; the label behind both may be defined first. -/
def forked (doneFirst : Bool) (head : Emit σ α) (first : Emit σ β) (second : Emit σ γ) : Emit σ Unit := do
  let one ← defineLabel
  let other ← defineLabel
  let otherwise := if doneFirst then other else one
  let done := if doneFirst then one else other
  let _ ← head
  emit (.branchIfFalse otherwise)
  let _ ← first
  emit (.branch done)
  mark otherwise
  let _ ← second
  mark done

/-- Two pieces of work in a chain of their own. -/
def chained (quiet : Bool) (x : Emit σ α) (y : Emit σ β) : Emit σ Unit := do
  beginChain quiet
  let _ ← x
  let _ ← y
  Pass.update State.endChain

/-- Work in a chain of its own, of which a value is left that has been in a slot meanwhile. -/
def chainedSaving (quiet : Bool) (x : Emit σ α) (y : Emit σ β) (z : Emit σ γ) (w : Emit σ δ) :
    Emit σ Unit := do
  beginChain quiet
  let _ ← x
  let _ ← y
  let t ← declareTemp
  let _ ← z
  saveTo t
  let _ ← w
  Pass.update State.endChain
  emit (.loadTemp t)
  returnTemp t

/-- Work in a chain of its own on a value that is in a slot while the chain is begun. -/
def chainedLoading (quiet : Bool) (x : Emit σ α) (y : Emit σ β) : Emit σ Unit := do
  let t ← declareTemp
  emit (.storeTemp t)
  beginChain quiet
  let _ ← x
  emit (.loadTemp t)
  let _ ← y
  Pass.update State.endChain
  returnTemp t

end Ways

/-! ## Outlines -/

variable {σ : Type} [Sink σ]

/-- A step of the emission is put together in the ways that the code of an expression is. -/
inductive Outline (strict : Prop) : {α : Type} → Custody → Emit σ α → Prop where
  | pure {α : Type} (a : α) : Outline strict {} (pure a)
  | fail {α : Type} {A : Custody} (e : CompileError) : Outline strict A (Pass.fail e : Emit σ α)
  | peek {α : Type} (f : State σ → α) : Outline strict {} (Pass.peek f)
  | onTable {α : Type} (q : Pass Fault RuleTable α) : Outline strict {} (Lowering.onTable q)
  | addConstant (v : Literal) : Outline strict {} (toSink (Sink.addConstant v) : Emit σ Nat)
  | emit {i : Instruction} (hplain : i.isPlain = true) (hslot : i.slot? = none) :
      Outline strict {} (Lowering.emit i)
  | mono {α : Type} {A B : Custody} {x : Emit σ α} (hx : Outline strict A x) (hAB : A.Covers B) :
      Outline strict B x
  | seq {α β : Type} {A B : Custody} {x : Emit σ α} {f : α → Emit σ β} (hx : Outline strict A x)
      (hf : ∀ a, Outline strict B (f a)) (hd : A.fresh.Disjoint B.fresh) :
      Outline strict (A.seq B) (x >>= f)
  /-- An operand that is evaluated and kept. -/
  | operand {A : Custody} {e : Expr} {code : Code σ} (hcode : Outline strict A (boxed code))
      (hrepeatable : e.isRepeatable = false) (hnew : e.id ∉ A.fresh) :
      Outline strict { fresh := e.id :: A.fresh, known := A.known, gained := [e.id], sure := [e.id] }
        (chainOperand e code)
  /-- An operand that is there. -/
  | again {e : Expr} (code : Code σ) (hrepeatable : e.isRepeatable = false) :
      Outline strict { known := [e.id] } (chainOperand e code)
  | skip {α β : Type} {A B : Custody} {head : Emit σ α} {body : Emit σ β} (hhead : Outline strict A head)
      (hbody : Outline strict B body) (hd : A.fresh.Disjoint B.fresh) :
      Outline strict (A.seq B.unsure) (skipped head body)
  | fork {α β γ : Type} {A B C : Custody} {head : Emit σ α} {first : Emit σ β} {second : Emit σ γ}
      (doneFirst : Bool) (hhead : Outline strict A head) (hfirst : Outline strict B first)
      (hsecond : Outline strict C second) (hAB : A.fresh.Disjoint B.fresh)
      (hABC : (A.fresh ++ B.fresh).Disjoint C.fresh) :
      Outline strict ((A.seq B.unsure).seq C.unsure) (forked doneFirst head first second)
  | chain {α β : Type} {A B : Custody} {x : Emit σ α} {y : Emit σ β} (quiet : Bool)
      (hx : Outline strict A x) (hy : Outline strict B y) (hA : A.known = [])
      (hd : A.fresh.Disjoint B.fresh) (hgained : B.known ⊆ A.gained) (hsure : strict → B.known ⊆ A.sure) :
      Outline strict {} (chained quiet x y)
  | saving {α β γ δ : Type} {A B : Custody} {x : Emit σ α} {y : Emit σ β} {z : Emit σ γ} {w : Emit σ δ}
      (quiet : Bool) (hx : Outline strict A x) (hy : Outline strict B y) (hz : Outline strict {} z)
      (hw : Outline strict {} w) (hA : A.known = []) (hd : A.fresh.Disjoint B.fresh)
      (hgained : B.known ⊆ A.gained) (hsure : strict → B.known ⊆ A.sure) :
      Outline strict {} (chainedSaving quiet x y z w)
  | loading {α β : Type} {A : Custody} {x : Emit σ α} {y : Emit σ β} (quiet : Bool)
      (hx : Outline strict A x) (hy : Outline strict {} y) (hA : A.known = []) :
      Outline strict {} (chainedLoading quiet x y)

/-- A step that has to do with no operand, whatever is asked of it. -/
class Idle {α : Type} (x : Emit σ α) : Prop where
  outline : ∀ strict, Outline strict {} x

variable {α β : Type} {strict : Prop} {A B C : Custody}

section Idle

variable {x y : Emit σ α}

instance idle_pure (a : α) : Idle (pure a : Emit σ α) :=
  ⟨fun _ => .pure a⟩

instance idle_bind {f : α → Emit σ β} [hx : Idle x] [hf : ∀ a, Idle (f a)] : Idle (x >>= f) :=
  ⟨fun strict => (hx.outline strict).seq (fun a => (hf a).outline strict) (List.disjoint_nil_left _)⟩

instance idle_ite {c : Prop} [Decidable c] [hx : Idle x] [hy : Idle y] : Idle (if c then x else y) := by
  split
  · exact hx
  · exact hy

instance idle_fail (e : CompileError) : Idle (Pass.fail e : Emit σ α) :=
  ⟨fun _ => .fail e⟩

instance idle_fault (f : Fault) : Idle (fault f : Emit σ α) :=
  idle_fail _

instance idle_peek (f : State σ → α) : Idle (Pass.peek f) :=
  ⟨fun _ => .peek f⟩

instance idle_onTable (q : Pass Fault RuleTable α) : Idle (onTable q : Emit σ α) :=
  ⟨fun _ => .onTable q⟩

instance idle_addConstant (v : Literal) : Idle (toSink (Sink.addConstant v) : Emit σ Nat) :=
  ⟨fun _ => .addConstant v⟩

theorem idle_emit {i : Instruction} (hplain : i.isPlain = true) (hslot : i.slot? = none) :
    Idle (emit i : Emit σ Unit) :=
  ⟨fun _ => .emit hplain hslot⟩

instance : Idle (emit .pop : Emit σ Unit) := idle_emit rfl rfl
instance : Idle (emit .dup : Emit σ Unit) := idle_emit rfl rfl
instance (k : Nat) : Idle (emit (.const k) : Emit σ Unit) := idle_emit rfl rfl
instance (name : String) : Idle (emit (.loadVar name) : Emit σ Unit) := idle_emit rfl rfl
instance (name : String) : Idle (emit (.loadVarRef name) : Emit σ Unit) := idle_emit rfl rfl
instance (name : String) : Idle (emit (.loadVarArray name) : Emit σ Unit) := idle_emit rfl rfl
instance (name : String) : Idle (emit (.storeVar name) : Emit σ Unit) := idle_emit rfl rfl
instance (name : String) : Idle (emit (.unsetVar name) : Emit σ Unit) := idle_emit rfl rfl
instance (name : String) : Idle (emit (.loadConstant name) : Emit σ Unit) := idle_emit rfl rfl
instance (code : TypeCode) : Idle (emit (.box code) : Emit σ Unit) := idle_emit rfl rfl
instance (op : RuntimeOp) : Idle (emit (.call op) : Emit σ Unit) := idle_emit rfl rfl
instance (name : String) (n : Nat) : Idle (emit (.callFunction name n) : Emit σ Unit) := idle_emit rfl rfl
instance (m n : Nat) : Idle (emit (.newArray m n) : Emit σ Unit) := idle_emit rfl rfl
instance (n : Nat) : Idle (emit (.newValueArray n) : Emit σ Unit) := idle_emit rfl rfl

end Idle

instance idle_call (op : RuntimeOp) : Idle (call op : Emit σ TypeCode) := by
  unfold call
  infer_instance

instance idle_callVoid (op : RuntimeOp) : Idle (callVoid op : Emit σ Unit) := by
  unfold callVoid
  infer_instance

instance idle_pushLiteral (v : Literal) : Idle (pushLiteral v : Emit σ TypeCode) := by
  unfold pushLiteral
  infer_instance

instance idle_box (code : TypeCode) : Idle (box code : Emit σ TypeCode) := by
  unfold box
  infer_instance

instance idle_convert (code target : TypeCode) : Idle (convert code target : Emit σ TypeCode) := by
  unfold convert
  cases converter? target <;> infer_instance

instance idle_discard (code : TypeCode) : Idle (discard code : Emit σ TypeCode) := by
  unfold discard
  infer_instance

instance idle_unlessDropped (access : Access) (code : TypeCode) :
    Idle (unlessDropped access code : Emit σ TypeCode) := by
  unfold unlessDropped
  infer_instance

instance idle_chainIsQuiet : Idle (chainIsQuiet : Emit σ Bool) :=
  idle_peek _

instance idle_isPlace (cfg : Setting) (e : Expr) : Idle (isPlace cfg e : Emit σ Bool) := by
  unfold isPlace
  infer_instance

instance idle_literalValue (access : Access) (v : Literal) :
    Idle (literalValue access v : Emit σ TypeCode) := by
  unfold literalValue
  infer_instance

instance idle_constantValue (access : Access) (name : String) :
    Idle (constantValue access name : Emit σ TypeCode) := by
  unfold constantValue
  infer_instance

instance idle_pushOperand (v : Literal) : Idle (pushOperand v : Emit σ TypeCode) := by
  unfold pushOperand
  cases v <;> infer_instance

instance idle_incDecUsed (access : Access) : Idle (incDecUsed access : Emit σ Bool) := by
  unfold incDecUsed
  cases access <;> dsimp only <;> infer_instance

instance idle_fetch (index : Nat) : Idle (fetch index : Emit σ Unit) := by
  unfold fetch
  infer_instance

section Sequences

variable {x : Emit σ α} {f : α → Emit σ β}

theorem Outline.idle [h : Idle x] : Outline strict {} x :=
  h.outline strict

theorem Outline.fault (f : Fault) : Outline strict A (Lowering.fault f : Emit σ α) :=
  .fail _

/-- An idle step before the one that counts. -/
theorem Outline.before [Idle x] (hf : ∀ a, Outline strict A (f a)) : Outline strict A (x >>= f) :=
  Outline.idle.seq hf (List.disjoint_nil_left _)

/-- A step behind the one that counts. -/
theorem Outline.then (hx : Outline strict A x) (hf : ∀ a, Outline strict {} (f a)) :
    Outline strict A (x >>= f) := by
  refine (hx.seq hf (List.disjoint_nil_right _)).mono ?_
  constructor <;> simp [Custody.seq]

/-- An idle step behind the one that counts. -/
theorem Outline.behind (hx : Outline strict A x) [∀ a, Idle (f a)] : Outline strict A (x >>= f) :=
  hx.then fun _ => .idle

end Sequences

/-! ## Codes -/

open Expr (Round)

/-- What a use of an expression has to do with operands: the halves that follow the addressing one have
nothing of the expression in them. -/
def Custody.forUse (A : Custody) : Use → Custody
  | .load | .store => {}
  | .value | .prepare _ | .loadRef | .arrayForWrite | .containerRead | .unset => A

/-- Every use of a code has an outline. -/
def Outlines (strict : Prop) (A : Custody) (code : Code σ) : Prop :=
  ∀ use, Outline strict (A.forUse use) (code use)

section Codes

variable {code container : Code σ} {key : Emit σ TypeCode}

theorem Outlines.mono (h : Outlines strict A code) (hAB : A.Covers B) : Outlines strict B code := by
  intro use
  cases use with
  | load => exact h .load
  | store => exact h .store
  | value | prepare _ | loadRef | arrayForWrite | containerRead | unset => exact (h _).mono hAB

theorem Outlines.value (h : Outlines strict A code) : Outline strict A (code .value) := h .value

theorem Outlines.boxed (h : Outlines strict A code) : Outline strict A (boxed code) :=
  h.value.behind

theorem Outlines.converted (h : Outlines strict A code) (target : TypeCode) :
    Outline strict A (converted code target) :=
  h.value.behind

/-- An expression that is no location has only its value. -/
theorem outlines_valueCode {value : Emit σ TypeCode} (h : Outline strict A value) (kind : ExprKind) :
    Outlines strict A (valueCode kind value) := by
  intro use
  cases use with
  | value => exact h
  | arrayForWrite | containerRead => exact h.behind
  | prepare _ | load | store | loadRef | unset => exact .fault _

/-- A node whose rule is made for another kind is not emitted. -/
theorem outline_wrongRuleCode (rule kind : ExprKind) (access : Access) (use : Use) :
    Outline strict A (wrongRuleCode rule kind access use : Emit σ TypeCode) := by
  unfold wrongRuleCode
  cases use <;> dsimp only <;> (try split) <;> exact .fault _

theorem outlines_byRule {cfg : Setting} {kind : ExprKind} {tag : ExprTag} {code : Home ExprKind → Code σ}
    (h : ∀ home, Outlines strict A (code home)) : Outlines strict A (byRule cfg kind tag code) := by
  intro use
  refine .before fun handle => ?_
  split
  · exact h _ use
  · exact outline_wrongRuleCode _ _ _ _

/-! ### Locations -/

/-- Every use of a location has an outline. -/
structure Place.Outlined (strict : Prop) (A : Custody) (p : Place σ) : Prop where
  prepare : ∀ half, Outline strict A (p.prepare half)
  load : Outline strict {} p.load
  store : Outline strict {} p.store
  loadRef : Outline strict A p.loadRef
  arrayForWrite : Outline strict A p.arrayForWrite
  unset : Outline strict A p.unset

theorem Place.Outlined.outlines {p : Place σ} (h : p.Outlined strict A) (kind : ExprKind)
    (access : Access) : Outlines strict A (p.code kind access) := by
  intro use
  cases use with
  | value =>
    unfold Place.code Place.value
    cases access with
    | read => exact (h.prepare _).then fun _ => h.load
    | readRef | readUnknown => exact h.loadRef
    | none => exact (h.prepare _).then fun _ => h.load.behind
    | _ => exact .fault _
  | prepare half => exact (h.prepare half).behind
  | load => exact h.load
  | store => exact h.store.behind
  | loadRef => exact h.loadRef
  | arrayForWrite => exact h.arrayForWrite
  | containerRead => exact (h.prepare _).then fun _ => h.load
  | unset => exact h.unset.behind

theorem outlined_variablePlace (name : String) : (variablePlace name : Place σ).Outlined strict {} := by
  constructor <;> intros <;> unfold variablePlace <;> dsimp only <;> exact .idle

theorem outlined_itemPlace (hcontainer : Outlines strict A container) (hkey : Outline strict B key)
    (hd : A.fresh.Disjoint B.fresh) : (itemPlace container key).Outlined strict (A.seq B) := by
  have hprepare : ∀ half, Outline strict (A.seq B) (itemPlace.prepare container key half) := by
    intro half
    cases half with
    | write => exact (hcontainer .arrayForWrite).seq (fun _ => hkey.behind) hd
    | read => exact (hcontainer .containerRead).seq (fun _ => hkey.behind) hd
  exact
    { prepare := hprepare
      load := .before fun _ => .idle
      store := .idle (x := callVoid _)
      loadRef := (hprepare .write).behind
      arrayForWrite := (hprepare .write).behind
      unset := (hprepare .read).behind }

theorem outlined_appendPlace (hcontainer : Outlines strict A container) :
    (appendPlace container).Outlined strict A := by
  have hprepare : Outline strict A (appendPlace.prepareWrite container) :=
    (hcontainer .arrayForWrite).behind
  exact
    { prepare := fun half => by
        cases half with
        | write => exact hprepare
        | read => exact .fault _
      load := .fault _
      store := .idle (x := callVoid _)
      loadRef := hprepare.behind
      arrayForWrite := hprepare.behind
      unset := .fault _ }

end Codes

/-! ## Rounds -/

section Rounds

variable {round : Round} {e : Expr} {code : Code σ} {n n' o o' m m' : List Nat}

theorem Custody.disjoint_of (h : n.Disjoint n') :
    (Custody.of n o m round).fresh.Disjoint (Custody.of n' o' m' round).fresh := by
  cases round with
  | first => exact h
  | again => exact List.disjoint_nil_left _

theorem Custody.of_seq :
    (Custody.of n o m round).seq (.of n' o' m' round) = .of (n ++ n') (o ++ o') (m ++ m') round := by
  cases round <;> rfl

theorem Custody.covers_of (hn : n ⊆ n') (hm : m' ⊆ m) :
    (Custody.of n o m round).Covers (.of n' o m' round) := by
  cases round with
  | first => exact ⟨hn, List.Subset.refl _, List.Subset.refl _, hm⟩
  | again => exact ⟨List.Subset.refl _, List.Subset.refl _, List.Subset.refl _, List.Subset.refl _⟩

theorem Custody.Covers.empty : Custody.Covers {} (.of n [] [] round) := by
  cases round <;> exact ⟨nofun, nofun, nofun, nofun⟩

/-- The code of an expression and the expression itself. -/
theorem Outlines.whole (h : Outlines strict (e.inner round) code) :
    Outlines strict (e.custody round) code :=
  h.mono (Custody.covers_of (List.tail_sublist _).subset (List.Subset.refl _))

/-- The custody of the operand of a chain: in the second round it is there. -/
def Custody.ofOperand (e : Expr) (round : Round) : Custody :=
  let kept := if e.isRepeatable then [] else [e.id]
  .of e.numbers kept kept round

/-- What may be evaluated twice keeps nothing. -/
theorem inner_of_isRepeatable (h : e.isRepeatable = true) : e.inner round = .of [] [] [] round := by
  cases e with
  | literal | var => rfl
  | _ => exact nomatch h

theorem numbers_eq_cons (h : e.isRepeatable = false) : e.numbers = e.id :: e.numbers.tail := by
  cases e with
  | literal | var => exact nomatch h
  | _ => rfl

/-- **The operand of a chain is kept in the first round, and there in the second one.** -/
theorem outline_chainOperand (hnodup : e.numbers.Nodup) (h : Outlines strict (e.inner round) code) :
    Outline strict (Custody.ofOperand e round) (chainOperand e code) := by
  cases hrepeatable : e.isRepeatable with
  | true =>
    have hboxed : Outline strict (Custody.ofOperand e round) (boxed code) := by
      refine h.boxed.mono ?_
      rw [inner_of_isRepeatable hrepeatable, Custody.ofOperand, hrepeatable, if_pos rfl]
      exact Custody.covers_of (List.nil_subset _) (List.Subset.refl _)
    refine .before fun head => ?_
    cases head with
    | none => exact hboxed
    | some chain =>
      dsimp only
      rwa [if_pos hrepeatable]
  | false =>
    have hnumbers := numbers_eq_cons hrepeatable
    rw [hnumbers, List.nodup_cons] at hnodup
    rw [Custody.ofOperand, hrepeatable, if_neg Bool.false_ne_true]
    cases round with
    | first =>
      rw [hnumbers]
      exact .operand h.boxed hrepeatable hnodup.1
    | again => exact .again code hrepeatable

end Rounds

/-! ## Operators -/

section Constructs

-- The instance for an idle function is a term with a node for every line of the function.
set_option synthInstance.maxSize 10000

variable {round : Round} {e : Expr} {left right condition ifTrue ifFalse target stored code : Code σ}

theorem outline_binaryValue (access : Access) (op : BinaryOp) (hl : Outlines strict A left)
    (hr : Outlines strict B right) (hd : A.fresh.Disjoint B.fresh) :
    Outline strict (A.seq B) (binaryValue access op left right) :=
  hl.boxed.seq (fun _ => hr.boxed.behind) hd

theorem outline_unaryValue (access : Access) (op : UnaryOp) (h : Outlines strict A code) :
    Outline strict A (unaryValue access op code) := by
  have hresult : Outline strict A (unaryResult op code) := by
    cases op with
    | plus | minus | logicNot | bitNot | clone | print => exact h.boxed.behind
    | intCast | doubleCast | stringCast | binaryCast | boolCast => exact h.converted _
    | unsetCast => exact h.value.behind
    | silence => exact h.value
  unfold unaryValue
  split
  · exact .before fun _ => h.value.behind
  · exact hresult.behind

/-- A literal keeps nothing. -/
theorem covers_custody_literal {v : Literal} (h : e.value? = some v) :
    Custody.Covers {} (e.custody round) := by
  cases e with
  | literal => exact .empty
  | _ => exact nomatch h

theorem outline_concatOperand (h : Outlines strict (e.custody round) code) :
    Outline strict (e.custody round) (concatOperand e code) := by
  unfold concatOperand
  split
  · rename_i v hv
    exact Outline.mono .idle (covers_custody_literal hv)
  · refine h.value.then fun kind => ?_
    split
    · exact .idle
    · exact .idle
    · exact .idle

/-- Code that is skipped after a step of which all is needed. -/
theorem Outline.skipping {α β : Type} {head : Emit σ α} {body : Emit σ β} (hhead : Outline strict A head)
    (hbody : Outline strict {} body) : Outline strict A (skipped head body) :=
  (hhead.skip hbody (List.disjoint_nil_right _)).mono (by constructor <;> simp [Custody.seq, Custody.unsure])

theorem outline_concatSingle (h : Outlines strict (e.custody round) code) :
    Outline strict (e.custody round) (concatSingle e code) := by
  unfold concatSingle
  split
  · rename_i v hv
    exact Outline.mono .idle (covers_custody_literal hv)
  · refine h.value.then fun kind => ?_
    split
    · exact .idle
    · have hskipped : Outline strict {} (skipped (do emit .dup; callVoid .isBytes)
          (callVoid .toText) : Emit σ Unit) := .skipping .idle .idle
      have hall := Outline.before (x := box kind) fun _ => hskipped.behind (f := fun _ => pure TypeCode.object)
      simpa only [skipped, bind_assoc, pure_bind] using hall

theorem outline_branchValue (used : Bool) (h : Outlines strict A code) :
    Outline strict A (branchValue used code) :=
  h.value.behind

theorem outline_conditionalValue (access : Access) (hc : Outlines strict A condition)
    (ht : Outlines strict B ifTrue) (hf : Outlines strict C ifFalse) (hAB : A.fresh.Disjoint B.fresh)
    (hABC : (A.fresh ++ B.fresh).Disjoint C.fresh) :
    Outline strict ((A.seq B.unsure).seq C.unsure) (conditionalValue access condition ifTrue ifFalse) := by
  have hforked := Outline.fork true (hc.converted .boolean)
    (outline_branchValue (access ≠ .none) ht) (outline_branchValue (access ≠ .none) hf) hAB hABC
  have hall := hforked.behind (f := fun _ => pure (conditionalResult access))
  simpa only [conditionalValue, forked, if_true, bind_assoc, pure_bind] using hall

theorem outline_shortcutValue (access : Access) (hc : Outlines strict A condition)
    (hf : Outlines strict B ifFalse) (hd : A.fresh.Disjoint B.fresh) :
    Outline strict (A.seq B.unsure) (shortcutValue access condition ifFalse) := by
  have hbranch := outline_branchValue (access ≠ .none) hf
  by_cases hused : access = .none
  · have hall := ((hc.converted .boolean).skip hbranch hd).behind
      (f := fun _ => pure (conditionalResult access))
    simpa [shortcutValue, skipped, hused] using hall
  · have hhead : Outline strict A (do
        let _ ← boxed condition
        emit .dup
        callVoid .toBool) := hc.boxed.behind
    have hbody : Outline strict B (do
        emit .pop
        branchValue (access ≠ .none) ifFalse) := .before fun _ => hbranch
    have hall := (hhead.skip hbody hd).behind (f := fun _ => pure (conditionalResult access))
    simpa [shortcutValue, skipped, hused] using hall

/-! ### Operands and arguments -/

/-- Every code has the outline that is expected of its expression. -/
def AllOutlined (strict : Prop) (round : Round) (operands : List (Expr × Code σ)) : Prop :=
  ∀ o ∈ operands, Outlines strict (o.1.custody round) o.2

theorem custodyOf_cons (e : Expr) (es : List Expr) :
    Expr.custodyOf round (e :: es) = (e.custody round).seq (Expr.custodyOf round es) := by
  rw [Expr.custody, Expr.custodyOf, Expr.custodyOf, Custody.of_seq, Expr.numbersOf_cons, Expr.operandsOf,
    Expr.sureOf]

theorem custodyOf_nil : Expr.custodyOf round [] = {} := by
  cases round <;> rfl

/-- Steps in a row, one for every expression. -/
theorem outline_cons {α β : Type} {x : Emit σ α} {f : α → Emit σ β} {es : List Expr}
    (hx : Outline strict (e.custody round) x) (hf : ∀ a, Outline strict (Expr.custodyOf round es) (f a))
    (hd : e.numbers.Disjoint (Expr.numbersOf es)) :
    Outline strict (Expr.custodyOf round (e :: es)) (x >>= f) := by
  rw [custodyOf_cons]
  exact hx.seq hf (Custody.disjoint_of hd)

theorem outline_nil {α : Type} (a : α) :
    Outline strict (Expr.custodyOf round []) (pure a : Emit σ α) := by
  rw [custodyOf_nil]
  exact .pure a

theorem outline_pushBoxed {operands : List (Expr × Code σ)} (h : AllOutlined strict round operands)
    (hnodup : (Expr.numbersOf (operands.map Prod.fst)).Nodup) :
    Outline strict (Expr.custodyOf round (operands.map Prod.fst)) (pushBoxed operands) := by
  induction operands with
  | nil => exact outline_nil ()
  | cons o rest ih =>
    obtain ⟨ho, hrest⟩ := List.forall_mem_cons.mp h
    rw [List.map_cons, Expr.numbersOf_cons, List.nodup_append'] at hnodup
    exact outline_cons ho.boxed (fun _ => ih hrest hnodup.2.1) hnodup.2.2

theorem outline_pushArguments {args : List (Expr × Code σ)} (h : AllOutlined strict round args)
    (hnodup : (Expr.numbersOf (args.map Prod.fst)).Nodup) :
    Outline strict (Expr.custodyOf round (args.map Prod.fst)) (pushArguments args) := by
  induction args with
  | nil => exact outline_nil ()
  | cons arg rest ih =>
    obtain ⟨harg, hrest⟩ := List.forall_mem_cons.mp h
    rw [List.map_cons, Expr.numbersOf_cons, List.nodup_append'] at hnodup
    have hpush := ih hrest hnodup.2.1
    refine outline_cons harg.value (fun code => ?_) hnodup.2.2
    split
    · exact .before fun _ => hpush
    · exact hpush

theorem outline_concatValue (access : Access) {operands : List (Expr × Code σ)}
    (h : AllOutlined strict round operands) (hnodup : (Expr.numbersOf (operands.map Prod.fst)).Nodup) :
    Outline strict (Expr.custodyOf round (operands.map Prod.fst)) (concatValue access operands) := by
  have hresult : Outline strict (Expr.custodyOf round (operands.map Prod.fst)) (concatResult operands) := by
    unfold concatResult
    split
    · rw [List.map_nil, custodyOf_nil]
      exact .idle
    · have hall := outline_cons (outline_concatSingle (h _ List.mem_cons_self)) (fun a => outline_nil a)
        (List.disjoint_nil_right _)
      rwa [bind_pure] at hall
    · have hleft := outline_concatOperand (h _ List.mem_cons_self)
      have hright := outline_concatOperand (h _ (List.mem_cons_of_mem _ List.mem_cons_self))
      simp only [List.map_cons, List.map_nil, Expr.numbersOf_cons, List.nodup_append'] at hnodup
      refine outline_cons hleft (fun a => ?_) (by simpa using hnodup.2.2)
      exact outline_cons hright (fun b => custodyOf_nil ▸ .idle) (List.disjoint_nil_right _)
    · split
      · exact (outline_pushBoxed h hnodup).behind
      · exact .fail _
  exact hresult.behind

theorem outline_callValue (access : Access) (name : String) {args : List (Expr × Code σ)}
    (h : AllOutlined strict round args) (hnodup : (Expr.numbersOf (args.map Prod.fst)).Nodup) :
    Outline strict (Expr.custodyOf round (args.map Prod.fst)) (callValue access name args) := by
  unfold callValue
  split
  · exact (outline_pushArguments h hnodup).behind
  · exact .fail _

/-! ## Assignments -/

theorem outline_valueToStore (h : Outlines strict A code) : Outline strict A (valueToStore e code) :=
  h.boxed.behind

theorem outline_assignValue (access : Access) (ht : Outlines strict A target)
    (hv : Outlines strict B stored) (hA : A.known = []) (hB : B.known = [])
    (hd : A.fresh.Disjoint B.fresh) : Outline strict {} (assignValue access target e stored) := by
  have hvalue := outline_valueToStore (e := e) hv
  have hstore := ht .store
  have hgained : B.known ⊆ A.gained := hB ▸ List.nil_subset _
  have hsure : strict → B.known ⊆ A.sure := fun _ => hB ▸ List.nil_subset _
  by_cases hused : access = .none
  · have hboth := hvalue.then fun _ => hstore
    have hall := (Outline.chain false (ht (.prepare .write)) hboth hA hd hgained hsure).behind
      (f := fun _ => pure TypeCode.void)
    simpa [assignValue, chained, hused, loadSaved] using hall
  · have hall := (Outline.saving false (ht (.prepare .write)) hvalue (.idle (x := pure ())) hstore hA hd
      hgained hsure).behind (f := fun _ => pure TypeCode.object)
    simpa [assignValue, chainedSaving, hused, loadSaved] using hall

/-- **The location of an increment is addressed in two rounds.** -/
theorem outline_incDecValue (cfg : Setting) (access : Access) (increment post : Bool)
    (hfirst : Outlines strict (e.custody .first) target)
    (hagain : Outlines strict (e.custody .again) target) (hsteady : strict → e.operands ⊆ e.sure) :
    Outline strict {} (incDecValue cfg access increment post e target) := by
  unfold incDecValue
  refine .before fun isPlace => ?_
  split
  · exact .fault _
  · refine .before fun used => ?_
    have hread : Outline strict (e.custody .again) (do
        let _ ← target (.prepare .read)
        let _ ← box (← target .load)) :=
      (hagain (.prepare .read)).then fun _ => (hagain .load).then fun _ => .behind .idle
    have hstore := hagain .store
    have hgained : (e.custody .again).known ⊆ (e.custody .first).gained := List.Subset.refl _
    have hd : (e.custody .first).fresh.Disjoint (e.custody .again).fresh := List.disjoint_nil_right _
    have hchange : Outline strict {} (callVoid (if increment then .increment else .decrement) : Emit σ Unit) :=
      .idle
    cases used with
    | false =>
      have hboth := hread.then fun _ => hchange.then fun _ => hstore
      have hall := (Outline.chain false (hfirst (.prepare .write)) hboth rfl hd hgained hsteady).behind
        (f := fun _ => pure TypeCode.void)
      cases post <;> simpa [chained, loadSaved, incDecValue.saveResult] using hall
    | true =>
      cases post with
      | false =>
        have hall := (Outline.saving false (hfirst (.prepare .write)) hread hchange hstore rfl hd hgained
          hsteady).behind (f := fun _ => pure TypeCode.object)
        simpa [chainedSaving, loadSaved, incDecValue.saveResult] using hall
      | true =>
        have hall := (Outline.saving false (hfirst (.prepare .write)) hread (.idle (x := pure ()))
          (hchange.then fun _ => hstore) rfl hd hgained hsteady).behind (f := fun _ => pure TypeCode.object)
        simpa [chainedSaving, loadSaved, incDecValue.saveResult] using hall

theorem outline_storePlain (h : Outlines strict A stored) : Outline strict A (storePlain e stored) :=
  .before fun _ => (outline_valueToStore h).behind

theorem outline_storeKeyed (hk : Outlines strict A code) (hv : Outlines strict B stored)
    (hd : A.fresh.Disjoint B.fresh) : Outline strict (A.seq B) (storeKeyed code e stored) :=
  .before fun _ => hk.boxed.seq (fun _ => (outline_valueToStore hv).behind) hd

theorem outline_arrayValue (access : Access) (home : Home ExprKind) {elements : Emit σ Unit}
    (h : Outline strict A elements) : Outline strict A (arrayValue access home elements) :=
  .before fun _ => .before fun _ => h.behind

/-! ### Destructurings -/

theorem outline_assignElement (index : Nat) (h : Outlines strict A target) (hA : A.known = []) :
    Outline strict {} (assignElement index target) :=
  .before fun _ => .before fun _ => Outline.loading false (h (.prepare .write)) (h .store) hA

theorem outline_assignNull (h : Outlines strict A target) (hA : A.known = []) :
    Outline strict {} (assignNull target) := by
  have hstore := Outline.before (x := pushLiteral .null) fun _ => h .store
  have hall := Outline.chain false (h (.prepare .write)) hstore hA (List.disjoint_nil_right _)
    (List.nil_subset _) fun _ => List.nil_subset _
  simpa [assignNull, chained] using hall

theorem outline_unpack {elements nulls : Emit σ Unit} (he : Outline strict {} elements)
    (hn : Outline strict {} nulls) : Outline strict {} (unpack elements nulls) := by
  have hhead : Outline strict {} (do emit .dup; callVoid .isArrayLike : Emit σ Unit) := .idle
  have hfirst : Outline strict {} (do elements; emit .pop) := he.behind
  have hsecond : Outline strict {} (do emit .pop; nulls) := .before fun _ => hn
  have hall := Outline.fork false hhead hfirst hsecond (List.disjoint_nil_left _) (List.disjoint_nil_left _)
  simpa [unpack, forked, Custody.seq, Custody.unsure] using hall

theorem outline_listValue (access : Access) (hv : Outlines strict A code) {unpacked : Emit σ Unit}
    (hu : Outline strict {} unpacked) : Outline strict A (listValue access code unpacked) := by
  refine hv.boxed.then fun _ => ?_
  by_cases h : access = .none
  · rw [if_neg (not_not.mpr h)]
    exact hu.behind
  · rw [if_pos h]
    exact .before fun _ => hu.behind

end Constructs

/-! ## Expressions -/

variable (cfg : Setting)

theorem map_fst_lowerAll (es : List Expr) :
    (lowerAll cfg es : List (Expr × Code σ)).map Prod.fst = es := by
  induction es with
  | nil => rfl
  | cons e rest ih => rw [lowerAll, List.map_cons, ih]

mutual

/-- **The code of every expression has an outline.** -/
theorem outlines_lower : ∀ (e : Expr) (round : Round), e.numbers.Nodup → (strict → e.Steady) →
    Outlines strict (e.inner round) (lower cfg e : Code σ)
  | .literal tag v, round, _, _ => by
    rw [lower]
    exact (outlines_byRule fun _ => outlines_valueCode .idle _).mono .empty
  | .constant tag name, round, _, _ => by
    rw [lower]
    exact (outlines_byRule fun _ => outlines_valueCode .idle _).mono .empty
  | .var tag name, round, _, _ => by
    rw [lower]
    exact (outlines_byRule fun _ => (outlined_variablePlace name).outlines _ _).mono .empty
  | .item tag container index, round, h, hs => by
    rw [Expr.numbers_item, List.nodup_cons, List.nodup_append'] at h
    obtain ⟨-, hcontainer, hindex, hd⟩ := h
    have hkey := outline_chainOperand hindex
      (outlines_lower index round hindex fun hstrict => (hs hstrict).item.2)
    have hplace := outlined_itemPlace (outlines_lower container round hcontainer fun hstrict =>
      (hs hstrict).item.1).whole hkey (Custody.disjoint_of hd)
    rw [Expr.custody, Custody.ofOperand, Custody.of_seq] at hplace
    rw [lower, Expr.inner, Expr.numbers_item]
    exact outlines_byRule fun _ => hplace.outlines _ _
  | .append tag container, round, h, hs => by
    rw [Expr.numbers_append, List.nodup_cons] at h
    rw [lower]
    exact outlines_byRule fun _ => (outlined_appendPlace (outlines_lower container round h.2
      fun hstrict => (hs hstrict).container).whole).outlines _ _
  | .array tag elements, round, h, hs => by
    rw [Expr.numbers_array, List.nodup_cons] at h
    rw [lower]
    exact outlines_byRule fun _ => outlines_valueCode (outline_arrayValue _ _
      (outline_storeElements elements round h.2 fun hstrict => (hs hstrict).elements)) _
  | .concat tag operands, round, h, hs => by
    rw [Expr.numbers_concat, List.nodup_cons] at h
    have hvalue := outline_concatValue tag.access (allOutlined_lowerAll operands round h.2
      fun hstrict => (hs hstrict).operands) (by rw [map_fst_lowerAll]; exact h.2)
    rw [map_fst_lowerAll] at hvalue
    rw [lower]
    exact outlines_byRule fun _ => outlines_valueCode hvalue _
  | .call tag name args, round, h, hs => by
    rw [Expr.numbers_call, List.nodup_cons] at h
    have hvalue := outline_callValue tag.access name (allOutlined_lowerAll args round h.2
      fun hstrict => (hs hstrict).args) (by rw [map_fst_lowerAll]; exact h.2)
    rw [map_fst_lowerAll] at hvalue
    rw [lower]
    exact outlines_byRule fun _ => outlines_valueCode hvalue _
  | .binary tag op left right, round, h, hs => by
    rw [Expr.numbers_binary, List.nodup_cons, List.nodup_append'] at h
    obtain ⟨-, hleft, hright, hd⟩ := h
    have hvalue := outline_binaryValue tag.access op
      (outlines_lower left round hleft fun hstrict => (hs hstrict).binary.1).whole
      (outlines_lower right round hright fun hstrict => (hs hstrict).binary.2).whole
      (Custody.disjoint_of hd)
    rw [Expr.custody, Expr.custody, Custody.of_seq] at hvalue
    rw [lower, Expr.inner, Expr.numbers_binary]
    exact outlines_byRule fun _ => outlines_valueCode hvalue _
  | .unary tag op operand, round, h, hs => by
    rw [Expr.numbers_unary, List.nodup_cons] at h
    rw [lower]
    exact outlines_byRule fun _ => outlines_valueCode (outline_unaryValue _ _
      (outlines_lower operand round h.2 fun hstrict => (hs hstrict).operand).whole) _
  | .incDec tag increment post target, round, h, hs => by
    rw [Expr.numbers_incDec, List.nodup_cons] at h
    have htarget : strict → target.Steady := fun hstrict => (hs hstrict).incDec.2
    rw [lower]
    refine (outlines_byRule fun _ => outlines_valueCode (outline_incDecValue cfg _ _ _
      (outlines_lower target .first h.2 htarget).whole (outlines_lower target .again h.2 htarget).whole
      fun hstrict => (hs hstrict).incDec.1) _).mono .empty
  | .conditional tag condition ifTrue ifFalse, round, h, hs => by
    rw [Expr.numbers_conditional, List.nodup_cons, List.nodup_append', List.nodup_append'] at h
    obtain ⟨-, ⟨hcondition, htrue, hd⟩, hfalse, hd'⟩ := h
    have hvalue := outline_conditionalValue tag.access
      (outlines_lower condition round hcondition fun hstrict => (hs hstrict).conditional.1).whole
      (outlines_lower ifTrue round htrue fun hstrict => (hs hstrict).conditional.2.1).whole
      (outlines_lower ifFalse round hfalse fun hstrict => (hs hstrict).conditional.2.2).whole
      (Custody.disjoint_of hd) (by
        cases round with
        | first => exact hd'
        | again => exact List.disjoint_nil_right _)
    rw [lower]
    refine (outlines_byRule fun _ => outlines_valueCode hvalue _).mono ?_
    cases round <;> constructor <;>
      simp [Custody.seq, Custody.unsure, Custody.of, Expr.custody, Expr.inner, Expr.operands, Expr.sure]
  | .shortcut tag condition ifFalse, round, h, hs => by
    rw [Expr.numbers_shortcut, List.nodup_cons, List.nodup_append'] at h
    obtain ⟨-, hcondition, hfalse, hd⟩ := h
    have hvalue := outline_shortcutValue tag.access
      (outlines_lower condition round hcondition fun hstrict => (hs hstrict).shortcut.1).whole
      (outlines_lower ifFalse round hfalse fun hstrict => (hs hstrict).shortcut.2).whole
      (Custody.disjoint_of hd)
    rw [lower]
    refine (outlines_byRule fun _ => outlines_valueCode hvalue _).mono ?_
    cases round <;> constructor <;>
      simp [Custody.seq, Custody.unsure, Custody.of, Expr.custody, Expr.inner, Expr.operands, Expr.sure]
  | .list tag targets value, round, h, hs => by
    rw [Expr.numbers_list, List.nodup_cons, List.nodup_append'] at h
    obtain ⟨-, htargets, hvalue, -⟩ := h
    have hsteady : strict → Expr.SteadyTargets targets := fun hstrict => (hs hstrict).list.1
    rw [lower]
    refine (outlines_byRule fun _ => outlines_valueCode (outline_listValue _
      (outlines_lower value round hvalue fun hstrict => (hs hstrict).list.2).whole
      (outline_unpack (outline_assignElements 0 targets htargets hsteady)
        (outline_assignNulls targets htargets hsteady))) _).mono ?_
    cases round <;> constructor <;>
      simp [Custody.of, Expr.custody, Expr.inner, Expr.operands, Expr.sure]
  | .assign tag target value, round, h, hs => by
    rw [Expr.numbers_assign, List.nodup_cons, List.nodup_append'] at h
    obtain ⟨-, htarget, hvalue, hd⟩ := h
    rw [lower]
    refine (outlines_byRule fun _ => outlines_valueCode (outline_assignValue _
      (outlines_lower target .first htarget fun hstrict => (hs hstrict).assign.1).whole
      (outlines_lower value .first hvalue fun hstrict => (hs hstrict).assign.2).whole rfl rfl hd) _).mono
      .empty
termination_by structural e => e

theorem allOutlined_lowerAll : ∀ (es : List Expr) (round : Round), (Expr.numbersOf es).Nodup →
    (strict → Expr.SteadyAll es) → AllOutlined strict round (lowerAll cfg es : List (Expr × Code σ))
  | [], _, _, _ => nofun
  | e :: rest, round, h, hs => by
    rw [Expr.numbersOf_cons, List.nodup_append'] at h
    exact List.forall_mem_cons.mpr
      ⟨(outlines_lower e round h.1 fun hstrict => (hs hstrict).cons.1).whole,
        allOutlined_lowerAll rest round h.2.1 fun hstrict => (hs hstrict).cons.2⟩
termination_by structural es => es

theorem outline_storeElements : ∀ (es : List ArrayElement) (round : Round),
    (Expr.numbersOfElements es).Nodup → (strict → Expr.SteadyElements es) →
    Outline strict (Expr.custodyOfElements round es) (storeElements cfg es : Emit σ Unit)
  | [], round, _, _ => (Outline.idle (x := pure ())).mono .empty
  | .plain _ value :: rest, round, h, hs => by
    rw [Expr.numbersOfElements_plain, List.nodup_append'] at h
    obtain ⟨hvalue, hrest, hd⟩ := h
    have hseq := (outline_storePlain (e := value)
      (outlines_lower value round hvalue fun hstrict => (hs hstrict).plain.1).whole).seq
      (fun _ => outline_storeElements rest round hrest fun hstrict => (hs hstrict).plain.2)
      (Custody.disjoint_of hd)
    rw [Expr.custody, Expr.custodyOfElements, Custody.of_seq] at hseq
    rw [storeElements, Expr.custodyOfElements, Expr.numbersOfElements_plain]
    exact hseq
  | .keyed _ key value :: rest, round, h, hs => by
    rw [Expr.numbersOfElements_keyed, List.nodup_append', List.nodup_append'] at h
    obtain ⟨⟨hkey, hvalue, hd⟩, hrest, hd'⟩ := h
    have hstore := outline_storeKeyed (e := value)
      (outlines_lower key round hkey fun hstrict => (hs hstrict).keyed.1).whole
      (outlines_lower value round hvalue fun hstrict => (hs hstrict).keyed.2.1).whole
      (Custody.disjoint_of hd)
    rw [Expr.custody, Expr.custody, Custody.of_seq] at hstore
    have hseq := hstore.seq
      (fun _ => outline_storeElements rest round hrest fun hstrict => (hs hstrict).keyed.2.2)
      (Custody.disjoint_of hd')
    rw [Expr.custodyOfElements, Custody.of_seq] at hseq
    rw [storeElements, Expr.custodyOfElements, Expr.numbersOfElements_keyed]
    exact hseq
termination_by structural es => es

theorem outline_assignElements : ∀ (index : Nat) (ts : List ListTarget),
    (Expr.numbersOfTargets ts).Nodup → (strict → Expr.SteadyTargets ts) →
    Outline strict {} (assignElements cfg index ts : Emit σ Unit)
  | _, [], _, _ => .idle (x := pure ())
  | index, .skip :: rest, h, hs => outline_assignElements (index + 1) rest h hs
  | index, .leaf target :: rest, h, hs => by
    rw [Expr.numbersOfTargets_leaf, List.nodup_append'] at h
    rw [assignElements]
    exact (outline_assignElements (index + 1) rest h.2.1 fun hstrict => (hs hstrict).leaf.2).then
      fun _ => outline_assignElement index
        (outlines_lower target .first h.1 fun hstrict => (hs hstrict).leaf.1).whole rfl
  | index, .nested targets :: rest, h, hs => by
    rw [Expr.numbersOfTargets_nested, List.nodup_append'] at h
    have hsteady : strict → Expr.SteadyTargets targets := fun hstrict => (hs hstrict).nested.1
    rw [assignElements]
    exact (outline_assignElements (index + 1) rest h.2.1 fun hstrict => (hs hstrict).nested.2).then
      fun _ => .before fun _ => outline_unpack (outline_assignElements 0 targets h.1 hsteady)
        (outline_assignNulls targets h.1 hsteady)
termination_by structural _ ts => ts

theorem outline_assignNulls : ∀ ts : List ListTarget, (Expr.numbersOfTargets ts).Nodup →
    (strict → Expr.SteadyTargets ts) → Outline strict {} (assignNulls cfg ts : Emit σ Unit)
  | [], _, _ => .idle (x := pure ())
  | .skip :: rest, h, hs => outline_assignNulls rest h hs
  | .leaf target :: rest, h, hs => by
    rw [Expr.numbersOfTargets_leaf, List.nodup_append'] at h
    rw [assignNulls]
    exact (outline_assignNulls rest h.2.1 fun hstrict => (hs hstrict).leaf.2).then
      fun _ => outline_assignNull
        (outlines_lower target .first h.1 fun hstrict => (hs hstrict).leaf.1).whole rfl
  | .nested targets :: rest, h, hs => by
    rw [Expr.numbersOfTargets_nested, List.nodup_append'] at h
    rw [assignNulls]
    exact (outline_assignNulls rest h.2.1 fun hstrict => (hs hstrict).nested.2).then
      fun _ => outline_assignNulls targets h.1 fun hstrict => (hs hstrict).nested.1
termination_by structural ts => ts

end

end Lowering
end PhpLowering
