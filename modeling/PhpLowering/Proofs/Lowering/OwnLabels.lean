import PhpLowering.Lowering.Stmt
import PhpLowering.Proofs.Code.SlotMap
import PhpLowering.Proofs.Lowering.Account
import PhpLowering.Proofs.Lowering.Labels

/-!
# The labels that the code of an expression marks

The code of an expression marks labels of its own only.  A label that is there in front of it has the same mark
behind it, or still none.

`MarksOnly ls x` says that of all labels that are there the step `x` marks only those in `ls`.  It is a class
with an instance for every function, and a label that a function makes itself need not be mentioned any more
where it has been made.  **`marksOnly_lower`**: this is true of every use of an expression, with no label at all.
-/

namespace PhpLowering
namespace Routine

variable {r r' r'' : Routine} {ls : List Label} {l : Label}

/-- Every label that has a position lies in the code or at its end. -/
def LabelsInside (r : Routine) : Prop :=
  ∀ l p, r.labelPosition? l = some p → p ≤ r.position

/-- The labels that are there are marked as before, but for some. -/
structure SameMarks (ls : List Label) (r r' : Routine) : Prop where
  same : ∀ l ∉ ls, (r.mark? l).isSome → r'.mark? l = r.mark? l
  inside : r.LabelsInside → r'.LabelsInside
  returnsRef : r'.returnsRef = r.returnsRef

namespace SameMarks

theorem trans (h : SameMarks ls r r') (h' : SameMarks ls r' r'') : SameMarks ls r r'' where
  same l hl hsome := by
    have hmark := h.same l hl hsome
    rw [h'.same l hl (hmark ▸ hsome), hmark]
  inside hr := h'.inside (h.inside hr)
  returnsRef := h'.returnsRef.trans h.returnsRef

theorem of_labels (hlabels : r'.labels = r.labels) (hposition : r.position ≤ r'.position)
    (href : r'.returnsRef = r.returnsRef) : SameMarks ls r r' where
  same l _ _ := congrArg (fun labels : Array (Option Nat) => labels[l.index]?) hlabels
  inside hr l p hl := by
    unfold labelPosition? at hl
    rw [hlabels] at hl
    exact Nat.le_trans (hr l p hl) hposition
  returnsRef := href

theorem refl (ls : List Label) (r : Routine) : SameMarks ls r r :=
  .of_labels rfl (Nat.le_refl _) rfl

/-- More labels may be marked. -/
theorem weaken (h : SameMarks ls r r') (l : Label) : SameMarks (l :: ls) r r' :=
  { h with same := fun l' hl' => h.same l' fun hmem => hl' (List.mem_cons_of_mem l hmem) }

end SameMarks

variable (ls)

theorem sameMarks_push (i : Instruction) (r : Routine) : SameMarks ls r (r.push i) :=
  .of_labels rfl (r.grows_push i).position rfl

theorem sameMarks_addConstant (v : Literal) (r : Routine) : SameMarks ls r (addConstant v r).2 := by
  unfold addConstant
  split
  · exact .refl ls r
  · split
    · exact .of_labels rfl (Nat.le_refl _) rfl
    · exact .refl ls r

theorem sameMarks_declareTemp (r : Routine) : SameMarks ls r (declareTemp r).2 := by
  unfold declareTemp
  split
  · exact .of_labels rfl (Nat.le_refl _) rfl
  · split
    · exact .of_labels rfl (Nat.le_refl _) rfl
    · exact .refl ls r

theorem sameMarks_returnTemp (k : Temp) (r : Routine) : SameMarks ls r (r.returnTemp k) := by
  unfold returnTemp
  split
  · exact .refl ls r
  · exact .of_labels rfl (Nat.le_refl _) rfl

theorem sameMarks_defineLabel (r : Routine) : SameMarks ls r r.defineLabel.2 where
  same _ _ hsome := Lowering.mark?_defineLabel_of_isSome hsome
  inside hr l p hl := by
    rw [labelPosition?_eq, mark?, defineLabel, Array.getElem?_push] at hl
    split at hl
    · exact absurd hl.symm (Option.some_ne_none p)
    · exact hr l p hl
  returnsRef := rfl

theorem sameMarks_marking (hl : r.mark? l = some none) : SameMarks (l :: ls) r (r.marking l) where
  same l' hl' _ := by rw [mark?_marking hl, if_neg (List.ne_of_not_mem_cons hl')]
  inside hr l' p hp := by
    rw [labelPosition?_eq, mark?_marking hl] at hp
    split at hp
    · exact Nat.le_of_eq (Option.some.inj hp).symm
    · exact hr l' p hp
  returnsRef := rfl

end Routine

namespace Lowering

-- The instance for a function is a term with a node for every line of the function.
set_option synthInstance.maxSize 100000

open Pass (Ends)
open Routine (SameMarks)

variable {α β : Type} {s t u : State Chunk} {ls : List Label} {l : Label} {x y : Emit Chunk α}

/-- Of the labels that are there, a step marks only some. -/
class MarksOnly (ls : List Label) (x : Emit Chunk α) : Prop where
  ends : ∀ s, Ends x s (fun _ t => SameMarks ls s.active t.active) anyFailure

/-! ## Combinators -/

section Combinators

variable {f : α → Emit Chunk β}

instance marksOnly_pure (a : α) : MarksOnly ls (pure a : Emit Chunk α) :=
  ⟨fun _ => .pure (.refl ls _)⟩

instance marksOnly_bind [hx : MarksOnly ls x] [k : ∀ a, MarksOnly ls (f a)] : MarksOnly ls (x >>= f) :=
  ⟨fun s => (hx.ends s).bind fun a t ht => ((k a).ends t).mono fun _ _ hu => ht.trans hu⟩

instance marksOnly_ite {c : Prop} [Decidable c] [hx : MarksOnly ls x] [hy : MarksOnly ls y] :
    MarksOnly ls (if c then x else y) := by
  split
  · exact hx
  · exact hy

/-- A label may be mentioned that is not marked. -/
instance (priority := low) marksOnly_cons [hx : MarksOnly ls x] : MarksOnly (l :: ls) x :=
  ⟨fun s => (hx.ends s).mono fun _ _ ht => ht.weaken l⟩

instance marksOnly_fail (e : CompileError) : MarksOnly ls (Pass.fail e : Emit Chunk α) :=
  ⟨fun _ => .fail trivial⟩

instance marksOnly_fault (e : Fault) : MarksOnly ls (fault e : Emit Chunk α) :=
  marksOnly_fail _

instance marksOnly_peek (f : State Chunk → α) : MarksOnly ls (Pass.peek f) :=
  ⟨fun _ => .peek (.refl ls _)⟩

instance marksOnly_onTable (q : Pass Fault RuleTable α) : MarksOnly ls (onTable q : Emit Chunk α) := by
  refine ⟨fun s => .intro (fun a t hrun => ?_) fun _ _ _ => trivial⟩
  unfold onTable at hrun
  split at hrun
  · obtain rfl := (Prod.mk.inj hrun).2
    exact .refl ls _
  · cases hrun

end Combinators

/-! ## Calls to the sink -/

/-- A call that marks no label but some. -/
theorem marksOnly_toSink {q : Pass SinkError Routine α}
    (h : ∀ r a r', q r = (.ok a, r') → SameMarks ls r r') : MarksOnly ls (toSink (Chunk.onActive q)) := by
  refine ⟨fun s => ends_toSink (.intro (fun a r hrun => ?_) fun _ _ _ => trivial)⟩
  rw [State.active_withActive]
  exact h _ _ _ hrun

instance marksOnly_emit (i : Instruction) : MarksOnly ls (emit i : Emit Chunk Unit) :=
  ⟨fun s => (ends_emit i s).mono fun _ t ht => by
    rw [ht, State.active_withActive]
    exact s.active.sameMarks_push ls i⟩

instance marksOnly_addConstant (v : Literal) : MarksOnly ls (toSink (Sink.addConstant v) : Emit Chunk Nat) :=
  marksOnly_toSink (q := Routine.addConstant v) fun r _ r' hrun => by
    have hsame := r.sameMarks_addConstant ls v
    rwa [hrun] at hsame

instance marksOnly_declareTemp : MarksOnly ls (declareTemp : Emit Chunk Temp) :=
  marksOnly_toSink (q := Routine.declareTemp) fun r _ r' hrun => by
    have hsame := r.sameMarks_declareTemp ls
    rwa [hrun] at hsame

theorem sameMarks_active_returnTemp (k : Temp) (c : Chunk) : SameMarks ls c.active (Sink.returnTemp k c).active := by
  rw [active_returnTemp]
  exact c.active.sameMarks_returnTemp ls k

instance marksOnly_returnTemp (k : Temp) : MarksOnly ls (returnTemp k : Emit Chunk Unit) :=
  ⟨fun s => .update (sameMarks_active_returnTemp k s.sink)⟩

theorem ends_defineLabel_eq (s : State Chunk) : Ends defineLabel s
    (fun l t => l = s.active.defineLabel.1 ∧ t = s.withActive s.active.defineLabel.2) anyFailure := by
  refine .of_eq (t := s.withActive s.active.defineLabel.2) (a := s.active.defineLabel.1) ?_ ⟨rfl, rfl⟩
  show (Except.ok (Chunk.onActive Routine.defineLabel s.sink).1,
    ({ s with sink := (Chunk.onActive Routine.defineLabel s.sink).2 } : State Chunk)) = _
  rw [Chunk.onActive_eq]
  rfl

/-- A label that is new, and another step. -/
instance (priority := high) marksOnly_defineLabel {f : Label → Emit Chunk β} [k : ∀ l, MarksOnly (l :: ls) (f l)] :
    MarksOnly ls (defineLabel >>= f) where
  ends s := by
    refine (ends_defineLabel_eq s).bind ?_
    rintro _ _ ⟨rfl, rfl⟩
    refine ((k _).ends _).mono fun _ u hu => ?_
    rw [State.active_withActive] at hu
    have hdefine := s.active.sameMarks_defineLabel ls
    refine ⟨fun l hl hsome => ?_, fun hs => hu.inside (hdefine.inside hs), hu.returnsRef.trans hdefine.returnsRef⟩
    have hkept := hdefine.same l hl hsome
    have hnew : l ∉ s.active.defineLabel.1 :: ls := List.not_mem_cons_of_ne_of_not_mem (ne_defineLabel hsome) hl
    rw [hu.same l hnew (hkept ▸ hsome), hkept]

instance marksOnly_mark (l : Label) : MarksOnly (l :: ls) (mark l : Emit Chunk Unit) :=
  marksOnly_toSink (q := Routine.markLabel l) fun r _ r' hrun => by
    obtain ⟨hl, rfl⟩ := Routine.markLabel_ok hrun
    exact Routine.sameMarks_marking ls hl

/-! ## Chains -/

instance marksOnly_beginChain (quiet : Bool) : MarksOnly ls (beginChain quiet : Emit Chunk Unit) :=
  ⟨fun _ => .update (.refl ls _)⟩

instance marksOnly_keepOperand (id : Nat) (k : Temp) (code : TypeCode) :
    MarksOnly ls (Pass.update (State.keepOperand id k code) : Emit Chunk Unit) := by
  refine ⟨fun s => .update ?_⟩
  unfold State.keepOperand
  split <;> exact .refl ls _

theorem sameMarks_endChain (s : State Chunk) : SameMarks ls s.active s.endChain.active := by
  unfold State.endChain
  split
  · exact .refl ls _
  · rename_i chain chains hchains
    show SameMarks ls s.sink.active
      (((s.releases 0).arrange chain.slots).foldl (fun c k => Sink.returnTemp k c) s.sink).active
    generalize s.sink = c
    induction (s.releases 0).arrange chain.slots generalizing c with
    | nil => exact .refl ls _
    | cons k rest ih => exact (sameMarks_active_returnTemp k c).trans (ih _)

instance marksOnly_endChain : MarksOnly ls (Pass.update State.endChain : Emit Chunk Unit) :=
  ⟨fun s => .update (sameMarks_endChain s)⟩

instance marksOnly_ensuring_endChain [hx : MarksOnly ls x] : MarksOnly ls (Pass.ensuring x State.endChain) :=
  ⟨fun s => .ensuring ((hx.ends s).mono fun _ t ht => ht.trans (sameMarks_endChain t))⟩

/-! ## Functions without code of others -/

section Small

instance marksOnly_call (op : RuntimeOp) : MarksOnly ls (call op : Emit Chunk TypeCode) := by
  unfold call
  infer_instance

instance marksOnly_callVoid (op : RuntimeOp) : MarksOnly ls (callVoid op : Emit Chunk Unit) := by
  unfold callVoid
  infer_instance

instance marksOnly_pushLiteral (v : Literal) : MarksOnly ls (pushLiteral v : Emit Chunk TypeCode) := by
  unfold pushLiteral
  infer_instance

instance marksOnly_saveTo (k : Temp) : MarksOnly ls (saveTo k : Emit Chunk Unit) := by
  unfold saveTo
  infer_instance

instance marksOnly_box (code : TypeCode) : MarksOnly ls (box code : Emit Chunk TypeCode) := by
  unfold box
  infer_instance

instance marksOnly_convert (code target : TypeCode) : MarksOnly ls (convert code target : Emit Chunk TypeCode) := by
  unfold convert
  cases converter? target <;> infer_instance

instance marksOnly_discard (code : TypeCode) : MarksOnly ls (discard code : Emit Chunk TypeCode) := by
  unfold discard
  infer_instance

instance marksOnly_unlessDropped (access : Access) (code : TypeCode) :
    MarksOnly ls (unlessDropped access code : Emit Chunk TypeCode) := by
  unfold unlessDropped
  infer_instance

instance marksOnly_chainIsQuiet : MarksOnly ls (chainIsQuiet : Emit Chunk Bool) :=
  marksOnly_peek _

instance marksOnly_isPlace (cfg : Setting) (e : Expr) : MarksOnly ls (isPlace cfg e : Emit Chunk Bool) := by
  unfold isPlace
  infer_instance

instance marksOnly_wrongRuleCode (rule kind : ExprKind) (access : Access) (use : Use) :
    MarksOnly ls (wrongRuleCode rule kind access use : Emit Chunk TypeCode) := by
  cases use <;> unfold wrongRuleCode <;> infer_instance

instance marksOnly_literalValue (access : Access) (v : Literal) :
    MarksOnly ls (literalValue access v : Emit Chunk TypeCode) := by
  unfold literalValue
  infer_instance

instance marksOnly_constantValue (access : Access) (name : String) :
    MarksOnly ls (constantValue access name : Emit Chunk TypeCode) := by
  unfold constantValue
  infer_instance

instance marksOnly_pushOperand (v : Literal) : MarksOnly ls (pushOperand v : Emit Chunk TypeCode) := by
  unfold pushOperand
  cases v <;> infer_instance

instance marksOnly_loadSaved (saved : Option Temp) : MarksOnly ls (loadSaved saved : Emit Chunk TypeCode) := by
  cases saved <;> unfold loadSaved <;> infer_instance

instance marksOnly_incDecUsed (access : Access) : MarksOnly ls (incDecUsed access : Emit Chunk Bool) := by
  unfold incDecUsed
  cases access <;> dsimp only <;> infer_instance

instance marksOnly_saveResult (saved : Option Temp) :
    MarksOnly ls (incDecValue.saveResult saved : Emit Chunk Unit) := by
  cases saved <;> unfold incDecValue.saveResult <;> infer_instance

instance marksOnly_fetch (index : Nat) : MarksOnly ls (fetch index : Emit Chunk Unit) := by
  unfold fetch
  infer_instance

end Small

/-! ## Functions with the code of expressions -/

section Codes

variable {cfg : Setting} {e : Expr} {code left right condition ifTrue ifFalse target stored container : Code Chunk}
  {key : Emit Chunk TypeCode} {elements nulls : Emit Chunk Unit}

instance marksOnly_boxed [∀ use, MarksOnly [] (code use)] : MarksOnly [] (boxed code) := by
  unfold boxed
  infer_instance

instance marksOnly_converted [∀ use, MarksOnly [] (code use)] (target : TypeCode) :
    MarksOnly [] (converted code target) := by
  unfold converted
  infer_instance

instance marksOnly_chainOperand [∀ use, MarksOnly [] (code use)] : MarksOnly [] (chainOperand e code) := by
  unfold chainOperand
  refine marksOnly_bind (k := fun chain => ?_)
  cases chain with
  | none => dsimp only; infer_instance
  | some chain =>
    dsimp only
    cases chain.kept.lookup e.id <;> infer_instance

instance marksOnly_valueCode {value : Emit Chunk TypeCode} [MarksOnly [] value] (kind : ExprKind) (use : Use) :
    MarksOnly [] (valueCode kind value use) := by
  cases use <;> unfold valueCode <;> infer_instance

/-- Every use of a location marks labels of its own only. -/
class Place.OwnMarks (p : Place Chunk) : Prop where
  prepare : ∀ half, MarksOnly [] (p.prepare half)
  load : MarksOnly [] p.load
  store : MarksOnly [] p.store
  loadRef : MarksOnly [] p.loadRef
  arrayForWrite : MarksOnly [] p.arrayForWrite
  unset : MarksOnly [] p.unset

attribute [instance] Place.OwnMarks.prepare Place.OwnMarks.load Place.OwnMarks.store Place.OwnMarks.loadRef
  Place.OwnMarks.arrayForWrite Place.OwnMarks.unset

instance marksOnly_place {p : Place Chunk} [p.OwnMarks] (kind : ExprKind) (access : Access) (use : Use) :
    MarksOnly [] (p.code kind access use) := by
  cases use
  case value => unfold Place.code Place.value; cases access <;> dsimp only <;> infer_instance
  all_goals unfold Place.code; infer_instance

instance ownMarks_variable (name : String) : (variablePlace name : Place Chunk).OwnMarks := by
  constructor <;> intros <;> unfold variablePlace <;> infer_instance

instance ownMarks_item [∀ use, MarksOnly [] (container use)] [MarksOnly [] key] : (itemPlace container key).OwnMarks := by
  have hprepare (half : Half) : MarksOnly [] (itemPlace.prepare container key half) := by
    cases half <;> unfold itemPlace.prepare <;> infer_instance
  constructor <;> intros <;> unfold itemPlace <;> infer_instance

instance ownMarks_append [∀ use, MarksOnly [] (container use)] : (appendPlace container).OwnMarks := by
  have hprepare : MarksOnly [] (appendPlace.prepareWrite container) := by
    unfold appendPlace.prepareWrite
    infer_instance
  have hrefuse {α : Type} (access : String) : MarksOnly [] (appendPlace.refuse access : Emit Chunk α) :=
    marksOnly_fault _
  constructor
  case prepare => intro half; cases half <;> unfold appendPlace <;> infer_instance
  all_goals unfold appendPlace; infer_instance

instance marksOnly_binaryValue [∀ use, MarksOnly [] (left use)] [∀ use, MarksOnly [] (right use)] (access : Access)
    (op : BinaryOp) : MarksOnly [] (binaryValue access op left right) := by
  unfold binaryValue
  infer_instance

instance marksOnly_unaryValue [∀ use, MarksOnly [] (code use)] (access : Access) (op : UnaryOp) :
    MarksOnly [] (unaryValue access op code) := by
  have hresult : MarksOnly [] (unaryResult op code) := by
    cases op <;> unfold unaryResult callOn <;> infer_instance
  unfold unaryValue
  infer_instance

instance marksOnly_concatOperand [∀ use, MarksOnly [] (code use)] : MarksOnly [] (concatOperand e code) := by
  unfold concatOperand
  cases e.value? with
  | some v => dsimp only; infer_instance
  | none =>
    refine marksOnly_bind (k := fun kind => ?_)
    cases kind <;> dsimp only <;> infer_instance

instance marksOnly_concatSingle [∀ use, MarksOnly [] (code use)] : MarksOnly [] (concatSingle e code) := by
  unfold concatSingle
  cases e.value? <;> dsimp only <;> infer_instance

instance marksOnly_branchValue [∀ use, MarksOnly [] (code use)] (used : Bool) :
    MarksOnly [] (branchValue used code) := by
  unfold branchValue
  infer_instance

instance marksOnly_conditionalValue [∀ use, MarksOnly [] (condition use)] [∀ use, MarksOnly [] (ifTrue use)]
    [∀ use, MarksOnly [] (ifFalse use)] (access : Access) :
    MarksOnly [] (conditionalValue access condition ifTrue ifFalse) := by
  unfold conditionalValue
  infer_instance

instance marksOnly_shortcutValue [∀ use, MarksOnly [] (condition use)] [∀ use, MarksOnly [] (ifFalse use)]
    (access : Access) : MarksOnly [] (shortcutValue access condition ifFalse) := by
  unfold shortcutValue
  infer_instance

/-- The code of every operand marks labels of its own only. -/
def AllOwn (operands : List (Expr × Code Chunk)) : Prop :=
  ∀ o ∈ operands, ∀ use, MarksOnly [] (o.2 use)

theorem marksOnly_pushBoxed : ∀ {operands : List (Expr × Code Chunk)}, AllOwn operands →
    MarksOnly [] (pushBoxed operands)
  | [], _ => marksOnly_pure ()
  | _ :: _, h => by
    obtain ⟨hfirst, hrest⟩ := List.forall_mem_cons.mp h
    have := marksOnly_pushBoxed hrest
    unfold pushBoxed
    infer_instance

theorem marksOnly_pushArguments : ∀ {args : List (Expr × Code Chunk)}, AllOwn args → MarksOnly [] (pushArguments args)
  | [], _ => marksOnly_pure ()
  | _ :: _, h => by
    obtain ⟨hfirst, hrest⟩ := List.forall_mem_cons.mp h
    have := marksOnly_pushArguments hrest
    unfold pushArguments
    infer_instance

theorem marksOnly_concatValue (access : Access) {operands : List (Expr × Code Chunk)} (h : AllOwn operands) :
    MarksOnly [] (concatValue access operands) := by
  have hresult : MarksOnly [] (concatResult operands) := by
    unfold concatResult
    split
    · infer_instance
    · have := h _ (List.mem_singleton_self _)
      infer_instance
    · have := h _ List.mem_cons_self
      have := h _ (List.mem_cons_of_mem _ List.mem_cons_self)
      infer_instance
    · have := marksOnly_pushBoxed h
      infer_instance
  unfold concatValue
  infer_instance

theorem marksOnly_callValue (access : Access) (name : String) {args : List (Expr × Code Chunk)} (h : AllOwn args) :
    MarksOnly [] (callValue access name args) := by
  have := marksOnly_pushArguments h
  unfold callValue
  infer_instance

instance marksOnly_valueToStore [∀ use, MarksOnly [] (stored use)] : MarksOnly [] (valueToStore e stored) := by
  unfold valueToStore
  infer_instance

instance marksOnly_assignValue [∀ use, MarksOnly [] (target use)] [∀ use, MarksOnly [] (stored use)]
    (access : Access) : MarksOnly [] (assignValue access target e stored) := by
  unfold assignValue
  infer_instance

instance marksOnly_incDecValue [∀ use, MarksOnly [] (target use)] (access : Access) (increment post : Bool) :
    MarksOnly [] (incDecValue cfg access increment post e target) := by
  unfold incDecValue
  dsimp only
  infer_instance

instance marksOnly_storePlain [∀ use, MarksOnly [] (stored use)] : MarksOnly [] (storePlain e stored) := by
  unfold storePlain
  infer_instance

instance marksOnly_storeKeyed [∀ use, MarksOnly [] (code use)] [∀ use, MarksOnly [] (stored use)] :
    MarksOnly [] (storeKeyed code e stored) := by
  unfold storeKeyed
  infer_instance

instance marksOnly_arrayValue [MarksOnly [] elements] (access : Access) (home : Home ExprKind) :
    MarksOnly [] (arrayValue access home elements) := by
  unfold arrayValue
  infer_instance

instance marksOnly_assignElement [∀ use, MarksOnly [] (target use)] (index : Nat) :
    MarksOnly [] (assignElement index target) := by
  unfold assignElement
  infer_instance

instance marksOnly_assignNull [∀ use, MarksOnly [] (target use)] : MarksOnly [] (assignNull target) := by
  unfold assignNull
  infer_instance

instance marksOnly_unpack [MarksOnly [] elements] [MarksOnly [] nulls] : MarksOnly [] (unpack elements nulls) := by
  unfold unpack
  infer_instance

instance marksOnly_listValue [∀ use, MarksOnly [] (code use)] [MarksOnly [] elements] (access : Access) :
    MarksOnly [] (listValue access code elements) := by
  unfold listValue
  infer_instance

theorem marksOnly_byRule {kind : ExprKind} {tag : ExprTag} {code : Home ExprKind → Code Chunk} {use : Use}
    (h : ∀ home, MarksOnly [] (code home use)) : MarksOnly [] (byRule cfg kind tag code use) := by
  unfold byRule
  infer_instance

end Codes

/-! ## Expressions -/

variable (cfg : Setting)

mutual

/-- **The code of an expression** marks labels of its own only. -/
theorem marksOnly_lower : ∀ (e : Expr) (use : Use), MarksOnly [] (lower cfg e use : Emit Chunk TypeCode)
  | .literal .., _ | .constant .., _ | .var .., _ => by
    rw [lower]
    exact marksOnly_byRule fun _ => inferInstance
  | .item _ container index, _ => by
    have := marksOnly_lower container
    have := marksOnly_lower index
    rw [lower]
    exact marksOnly_byRule fun _ => inferInstance
  | .append _ container, _ => by
    have := marksOnly_lower container
    rw [lower]
    exact marksOnly_byRule fun _ => inferInstance
  | .array _ elements, _ => by
    have := marksOnly_storeElements elements
    rw [lower]
    exact marksOnly_byRule fun _ => inferInstance
  | .concat tag operands, _ => by
    have := marksOnly_concatValue tag.access (allOwn_lowerAll operands)
    rw [lower]
    exact marksOnly_byRule fun _ => inferInstance
  | .call tag name args, _ => by
    have := marksOnly_callValue tag.access name (allOwn_lowerAll args)
    rw [lower]
    exact marksOnly_byRule fun _ => inferInstance
  | .binary _ _ left right, _ => by
    have := marksOnly_lower left
    have := marksOnly_lower right
    rw [lower]
    exact marksOnly_byRule fun _ => inferInstance
  | .unary _ _ operand, _ => by
    have := marksOnly_lower operand
    rw [lower]
    exact marksOnly_byRule fun _ => inferInstance
  | .incDec _ _ _ target, _ => by
    have := marksOnly_lower target
    rw [lower]
    exact marksOnly_byRule fun _ => inferInstance
  | .conditional _ condition ifTrue ifFalse, _ => by
    have := marksOnly_lower condition
    have := marksOnly_lower ifTrue
    have := marksOnly_lower ifFalse
    rw [lower]
    exact marksOnly_byRule fun _ => inferInstance
  | .shortcut _ condition ifFalse, _ => by
    have := marksOnly_lower condition
    have := marksOnly_lower ifFalse
    rw [lower]
    exact marksOnly_byRule fun _ => inferInstance
  | .list _ targets value, _ => by
    have := marksOnly_lower value
    have := marksOnly_assignElements 0 targets
    have := marksOnly_assignNulls targets
    rw [lower]
    exact marksOnly_byRule fun _ => inferInstance
  | .assign _ target value, _ => by
    have := marksOnly_lower target
    have := marksOnly_lower value
    rw [lower]
    exact marksOnly_byRule fun _ => inferInstance
termination_by structural e => e

theorem allOwn_lowerAll : ∀ es : List Expr, AllOwn (lowerAll cfg es)
  | [] => nofun
  | e :: rest => List.forall_mem_cons.mpr ⟨marksOnly_lower e, allOwn_lowerAll rest⟩
termination_by structural es => es

theorem marksOnly_storeElements : ∀ es : List ArrayElement, MarksOnly [] (storeElements cfg es : Emit Chunk Unit)
  | [] => marksOnly_pure ()
  | .plain _ value :: rest => by
    have := marksOnly_lower value
    have := marksOnly_storeElements rest
    rw [storeElements]
    infer_instance
  | .keyed _ key value :: rest => by
    have := marksOnly_lower key
    have := marksOnly_lower value
    have := marksOnly_storeElements rest
    rw [storeElements]
    infer_instance
termination_by structural es => es

theorem marksOnly_assignElements : ∀ (index : Nat) (ts : List ListTarget),
    MarksOnly [] (assignElements cfg index ts : Emit Chunk Unit)
  | _, [] => marksOnly_pure ()
  | index, .skip :: rest => by
    rw [assignElements]
    exact marksOnly_assignElements (index + 1) rest
  | index, .leaf target :: rest => by
    have := marksOnly_assignElements (index + 1) rest
    have := marksOnly_lower target
    rw [assignElements]
    infer_instance
  | index, .nested targets :: rest => by
    have := marksOnly_assignElements (index + 1) rest
    have := marksOnly_assignElements 0 targets
    have := marksOnly_assignNulls targets
    rw [assignElements]
    infer_instance
termination_by structural _ ts => ts

theorem marksOnly_assignNulls : ∀ ts : List ListTarget, MarksOnly [] (assignNulls cfg ts : Emit Chunk Unit)
  | [] => marksOnly_pure ()
  | .skip :: rest => by
    rw [assignNulls]
    exact marksOnly_assignNulls rest
  | .leaf target :: rest => by
    have := marksOnly_assignNulls rest
    have := marksOnly_lower target
    rw [assignNulls]
    infer_instance
  | .nested targets :: rest => by
    have := marksOnly_assignNulls rest
    have := marksOnly_assignNulls targets
    rw [assignNulls]
    infer_instance
termination_by structural ts => ts

end

attribute [instance] marksOnly_lower

/-! ## Statements without parts -/

instance marksOnly_echoAll : ∀ es : List Expr, MarksOnly [] (echoAll cfg es : Emit Chunk Unit)
  | [] => marksOnly_pure ()
  | e :: rest => by
    have := marksOnly_echoAll rest
    unfold echoAll
    infer_instance

instance marksOnly_unsetAll : ∀ es : List Expr, MarksOnly [] (unsetAll cfg es : Emit Chunk Unit)
  | [] => marksOnly_pure ()
  | e :: rest => by
    have := marksOnly_unsetAll rest
    unfold unsetAll
    infer_instance

instance marksOnly_returnValue (expr : Option Expr) : MarksOnly [] (returnValue cfg expr : Emit Chunk Unit) := by
  unfold returnValue frame
  cases expr <;> dsimp only <;> infer_instance

end Lowering
end PhpLowering
