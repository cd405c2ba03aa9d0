import PhpLowering.Lowering.Stmt
import PhpLowering.Proofs.Lowering.Holding
import PhpLowering.Proofs.Tree.Targets

/-!
# The slots that statements hold

Between two statements no chain is open.  A routine holds the slot of the value to return once it has one,
and whatever the constructs around hold: an exception that is caught stays in its slot until its clauses
are done.  `s.AtRest k outer rest` says that this is how the state is, with the slots in `rest` for what is
around.

`Tidies slots x` says that the step `x` leads from rest to rest, if the slots in `slots` are held around it.
It is a class with an instance for every function of the emission, so what a function is made of is gone
through without saying.  **`tidies_lowerStmts`**: this is true of all statements, provided that no two nodes
of an expression have the same number.
-/

namespace PhpLowering
namespace Lowering

-- The instance for a function is a term with a node for every line of the function.
set_option synthInstance.maxSize 10000

open Pass (Ends)
open Sink (Call)

variable {σ α β : Type} [Sink σ] {k : σ} {outer : List (List Temp)} {held rest slots : List Temp}
  {s t : State σ}

/-- No chain is open, and what is held is the slot of the value to return and what is held around. -/
structure State.AtRest (k : σ) (outer : List (List Temp)) (rest : List Temp) (s : State σ) : Prop where
  chains : s.chains = []
  /-- The slot of the value to return comes with the label of the code that returns it. -/
  coupled : s.frame.epilogue.isSome = s.frame.returnTemp.isSome
  holds : s.Holds k outer (s.frame.returnTemp.toList ++ rest)

/-- A step leads from rest to rest if these slots are held around. -/
class Tidies (slots : List Temp) (x : Emit σ α) : Prop where
  ends : ∀ {k : σ} {outer : List (List Temp)} {rest : List Temp} {s : State σ}, slots ⊆ rest →
    s.AtRest k outer rest → Ends x s (fun _ t => t.AtRest k outer rest) anyFailure

/-! ## Combinators -/

section Combinators

variable {x y : Emit σ α} {f : α → Emit σ β}

instance tidies_bind [hx : Tidies slots x] [k : ∀ a, Tidies slots (f a)] : Tidies slots (x >>= f) where
  ends hslots h := (hx.ends hslots h).bind fun a _ ht => (k a).ends hslots ht

instance tidies_ite {c : Prop} [Decidable c] [hx : Tidies slots x] [hy : Tidies slots y] :
    Tidies slots (if c then x else y) := by
  split
  · exact hx
  · exact hy

theorem tidies_of_neutral (hx : Neutral x) (hchains : LeavesChains x) : Tidies slots x where
  ends {k outer rest s} _ h := ((hchains s).and (hx _ _ _ _ h.holds)).mono fun _ _ ⟨⟨hc, hf⟩, ht⟩ =>
    { chains := hc.trans h.chains
      coupled := by rw [hf]; exact h.coupled
      holds := by rw [hf]; exact ht }

/-- A balanced step to which no operand is known. -/
theorem Balanced.tidies {A : Custody} (h : Balanced A x) (hA : A.known = []) : Tidies slots x where
  ends {k outer rest s} _ hs := by
    have hallows : A.Allows s := by
      refine ⟨fun i _ hi => ?_, by rw [hA]; nofun⟩
      rw [hs.chains] at hi
      exact nomatch hi
    have hheld : s.Holds k outer (slotsOf s.chains ++ (s.frame.returnTemp.toList ++ rest)) := by
      rw [hs.chains]
      exact hs.holds
    refine (h.ends hallows hheld).mono fun _ t ⟨hdone, ht⟩ => ?_
    have hchains : t.chains = [] := hdone.chains_eq_nil_iff.mpr hs.chains
    rw [hchains] at ht
    exact ⟨hchains, by rw [hdone.sameFrame]; exact hs.coupled, by rw [hdone.sameFrame]; exact ht⟩

/-- A step that has to do with no operand. -/
instance (priority := low) tidies_of_idle [h : Idle x] : Tidies slots x :=
  (h.outline False).balanced.tidies rfl

instance tidies_pure (a : α) : Tidies slots (pure a : Emit σ α) :=
  tidies_of_neutral (neutral_pure a) (leavesChains_pure a)

instance tidies_peek (f : State σ → α) : Tidies slots (Pass.peek f) :=
  tidies_of_neutral (neutral_peek f) fun _ => .peek ⟨rfl, rfl⟩

instance tidies_frame : Tidies slots (frame : Emit σ Frame) :=
  tidies_peek _

instance tidies_onTable (q : Pass Fault RuleTable α) : Tidies slots (onTable q : Emit σ α) :=
  tidies_of_neutral (neutral_onTable q) (leavesChains_onTable q)

instance tidies_fault (f : Fault) : Tidies slots (fault f : Emit σ α) where
  ends _ _ := .fail trivial

/-- Another frame with the same code that returns. -/
theorem State.AtRest.withFrame (h : s.AtRest k outer rest) {f : Frame}
    (hepilogue : f.epilogue = s.frame.epilogue) (hslot : f.returnTemp = s.frame.returnTemp) :
    State.AtRest k outer rest { s with frame := f } where
  chains := h.chains
  coupled := by
    show f.epilogue.isSome = f.returnTemp.isSome
    rw [hepilogue, hslot]
    exact h.coupled
  holds := by
    show State.Holds k outer (f.returnTemp.toList ++ rest) _
    rw [hslot]
    exact h.holds.of_sink rfl

/-- The frame is changed, but not in the code that returns. -/
theorem tidies_updateFrame {g : Frame → Frame} (hepilogue : ∀ f, (g f).epilogue = f.epilogue)
    (hslot : ∀ f, (g f).returnTemp = f.returnTemp) :
    Tidies slots (updateFrame g : Emit σ Unit) where
  ends _ h := .update (h.withFrame (hepilogue _) (hslot _))

theorem tidies_thenFrame {g : Frame → Frame} [hx : Tidies slots x]
    (hepilogue : ∀ f, (g f).epilogue = f.epilogue)
    (hslot : ∀ f, (g f).returnTemp = f.returnTemp) : Tidies slots (thenFrame x g) where
  ends hslots h := .ensuring ((hx.ends hslots h).mono fun _ _ ht => ht.withFrame (hepilogue _) (hslot _))

/-- A slot for something that is done. -/
theorem tidies_slot {g : Temp → Emit σ Unit} (hg : ∀ slot, Tidies (slot :: slots) (g slot)) :
    Tidies slots (do
      let slot ← declareTemp
      g slot
      returnTemp slot) where
  ends {k outer rest s} hslots h := by
    refine ((leavesChains_declareTemp s).and (ends_declareTemp_held h.holds)).bind
      fun slot t ⟨⟨hchains, hframe⟩, ht⟩ => ?_
    have hrest : t.AtRest k outer (slot :: rest) :=
      { chains := hchains.trans h.chains
        coupled := by rw [hframe]; exact h.coupled
        holds := by rw [hframe]; exact ht.perm List.perm_middle.symm }
    refine ((hg slot).ends (List.cons_subset_cons _ hslots) hrest).bind fun _ u hu => ?_
    refine ((leavesChains_returnTemp slot u).and
      (ends_returnTemp_held (hu.holds.perm List.perm_middle))).mono fun _ v ⟨⟨hchains, hframe⟩, hv⟩ => ?_
    exact
      { chains := hchains.trans hu.chains
        coupled := by rw [hframe]; exact hu.coupled
        holds := by rw [hframe]; exact hv }

end Combinators

/-! ## Calls to the sink -/

theorem tidies_emit {i : Instruction} (hslot : i.slot? = none) :
    Tidies slots (emit i : Emit σ Unit) :=
  tidies_of_neutral (neutral_emit hslot) (leavesChains_emit i)

instance (l : Label) : Tidies slots (emit (.branch l) : Emit σ Unit) := tidies_emit rfl
instance (l : Label) : Tidies slots (emit (.branchIfFalse l) : Emit σ Unit) := tidies_emit rfl
instance (l : Label) : Tidies slots (emit (.leave l) : Emit σ Unit) := tidies_emit rfl
instance (ls : List Label) : Tidies slots (emit (.switch ls) : Emit σ Unit) := tidies_emit rfl
instance (type : String) : Tidies slots (emit (.instanceOf type) : Emit σ Unit) := tidies_emit rfl
instance (name : String) : Tidies slots (emit (.defineConstant name) : Emit σ Unit) := tidies_emit rfl
instance : Tidies slots (emit .throw : Emit σ Unit) := tidies_emit rfl
instance : Tidies slots (emit .rethrow : Emit σ Unit) := tidies_emit rfl

/-- A slot that is held around may be used. -/
theorem tidies_emit_slot {i : Instruction} {slot : Temp} (hi : i.slot? = some slot) (hslot : slot ∈ slots) :
    Tidies slots (emit i : Emit σ Unit) where
  ends {k outer rest s} hslots h := by
    refine ((leavesChains_emit i s).and (ends_emit_held i h.holds fun t ht => ?_)).mono
      fun _ t ⟨⟨hchains, hframe⟩, ht⟩ => ?_
    · rw [hi] at ht
      exact Option.some.inj ht ▸ List.mem_append_right _ (hslots hslot)
    · exact
        { chains := hchains.trans h.chains
          coupled := by rw [hframe]; exact h.coupled
          holds := by rw [hframe]; exact ht }

instance (slot : Temp) : Tidies (slot :: slots) (emit (.loadTemp slot) : Emit σ Unit) :=
  tidies_emit_slot rfl List.mem_cons_self

instance (slot : Temp) : Tidies (slot :: slots) (emit (.storeTemp slot) : Emit σ Unit) :=
  tidies_emit_slot rfl List.mem_cons_self

instance tidies_mark (l : Label) : Tidies slots (mark l : Emit σ Unit) :=
  tidies_of_neutral (neutral_mark l) (leavesChains_mark l)

instance tidies_defineLabel : Tidies slots (defineLabel : Emit σ Label) :=
  tidies_of_neutral neutral_defineLabel leavesChains_defineLabel

instance tidies_defineLabels : ∀ n : Nat, Tidies slots (defineLabels n : Emit σ (List Label))
  | 0 => tidies_pure []
  | n + 1 => by
    have hrest := tidies_defineLabels n
    unfold defineLabels
    infer_instance

theorem tidies_toSink (c : Call) {call : Pass SinkError σ α} (hevents : ∀ k : σ, c.slotEvents k = [])
    (hmake : ∀ k, c.make k = Sink.answered (call k)) : Tidies slots (toSink call) :=
  tidies_of_neutral (neutral_toSink c hevents hmake) (leavesChains_toSink call)

instance : Tidies slots (toSink Sink.beginTry : Emit σ Label) := tidies_toSink .beginTry (fun _ => rfl) fun _ => rfl
instance (type : String) : Tidies slots (toSink (Sink.beginCatch type) : Emit σ Unit) :=
  tidies_toSink (.beginCatch type) (fun _ => rfl) fun _ => rfl
instance : Tidies slots (toSink Sink.beginFinally : Emit σ Unit) := tidies_toSink .beginFinally (fun _ => rfl) fun _ => rfl
instance : Tidies slots (toSink Sink.endRegion : Emit σ Unit) := tidies_toSink .endRegion (fun _ => rfl) fun _ => rfl

instance tidies_saveTo (slot : Temp) : Tidies (slot :: slots) (saveTo slot : Emit σ Unit) := by
  unfold saveTo
  infer_instance

instance tidies_jump (l : Label) (level : Nat) : Tidies slots (jump l level : Emit σ Unit) := by
  unfold jump
  infer_instance

/-! ## Ways out of loops and routines -/

instance tidies_leaveTo (kind : BranchKind) (l : Loop) : Tidies slots (leaveTo kind l : Emit σ Unit) :=
  tidies_jump _ _

instance tidies_staticBranch (kind : BranchKind) (level : Nat) :
    Tidies slots (staticBranch kind level : Emit σ Unit) := by
  unfold staticBranch
  refine tidies_bind (k := fun f => ?_)
  dsimp only
  cases f.loops[max level 1 - 1]? <;> dsimp only <;> infer_instance

instance tidies_tableEntries (kind : BranchKind) :
    ∀ entries : List (Label × Loop), Tidies slots (tableEntries kind entries : Emit σ Unit)
  | [] => tidies_pure ()
  | (label, l) :: rest => by
    have hrest := tidies_tableEntries kind rest
    unfold tableEntries
    infer_instance

/-- The slot of the level is given back behind the table. -/
theorem tidies_runtimeBranch (kind : BranchKind) {level : Code σ} [h : Tidies slots (level .value)] :
    Tidies slots (runtimeBranch kind level) := by
  unfold runtimeBranch
  refine tidies_bind (k := fun f => ?_)
  cases f.loops with
  | nil => exact tidies_fault _
  | cons innermost outer =>
    have hlevel : Tidies slots (converted level .longInteger) := by
      unfold converted
      infer_instance
    refine tidies_bind (k := fun _ => ?_)
    have hslot : Tidies slots (do
        let slot ← declareTemp
        (do
          saveTo slot
          let table ← defineLabels (outer.length + 2)
          emit (.switch table)
          emit (.loadTemp slot)
          callVoid .throwInvalidBreakLevel
          leaveTo .break innermost
          tableEntries kind (table.zip (innermost :: innermost :: outer)))
        returnTemp slot : Emit σ Unit) := tidies_slot fun _ => inferInstance
    simpa only [bind_assoc] using hslot

/-- Before a return, the slot of the value is there, and so is the label of the code that returns it. -/
theorem ends_returnSlot_held (h : s.AtRest k outer rest) :
    Ends returnSlot s (fun slot t => t.chains = [] ∧ t.frame.returnTemp = some slot ∧
      t.Holds k outer (slot :: rest)) anyFailure := by
  unfold returnSlot
  refine .peek_bind ?_
  cases hslot : s.frame.returnTemp with
  | some slot =>
    have hheld := h.holds
    rw [hslot] at hheld
    exact .pure ⟨h.chains, hslot, hheld⟩
  | none =>
    have hheld := h.holds
    rw [hslot] at hheld
    refine ((leavesChains_declareTemp s).and (ends_declareTemp_held hheld)).bind
      fun slot t ⟨⟨hchains, _⟩, ht⟩ => ?_
    exact .update_bind (.pure ⟨hchains.trans h.chains, rfl, ht.of_sink rfl⟩)

theorem ends_epilogue_held {slot : Temp} (hchains : s.chains = []) (hslot : s.frame.returnTemp = some slot)
    (h : s.Holds k outer (slot :: rest)) :
    Ends epilogue s (fun _ t => t.AtRest k outer rest ∧ t.frame.returnTemp = some slot) anyFailure := by
  unfold epilogue
  refine .peek_bind ?_
  cases hlabel : s.frame.epilogue with
  | some l =>
    refine .pure ⟨⟨hchains, ?_, ?_⟩, hslot⟩
    · rw [hlabel, hslot]; rfl
    · rw [hslot]
      exact h
  | none =>
    refine ((leavesChains_defineLabel s).and (neutral_defineLabel _ _ _ s h)).bind
      fun l t ⟨⟨hc, hf⟩, ht⟩ => .update_bind (.pure ⟨⟨hc.trans hchains, ?_, ?_⟩, ?_⟩)
    · rw [hf, hslot]; rfl
    · rw [hf, hslot]
      exact ht.of_sink rfl
    · rw [hf, hslot]

instance tidies_returnJump : Tidies slots (returnJump : Emit σ Unit) where
  ends {k outer rest s} hslots h := by
    refine (ends_returnSlot_held h).bind fun slot t ⟨hchains, hslot, ht⟩ => ?_
    refine (ends_epilogue_held hchains hslot ht).bind fun l u ⟨hu, hslot⟩ => ?_
    have hmem : slot ∈ u.frame.returnTemp.toList ++ rest := by rw [hslot]; simp
    refine ((leavesChains_emit _ u).and (ends_emit_held (.storeTemp slot) hu.holds
      fun _ heq => Option.some.inj heq ▸ hmem)).bind fun _ v ⟨⟨hc, hf⟩, hv⟩ => ?_
    have hjump : Tidies [] (jump l 0 : Emit σ Unit) := tidies_jump l 0
    refine hjump.ends (List.nil_subset _) ⟨hc.trans hu.chains, ?_, ?_⟩
    · rw [hf]; exact hu.coupled
    · rw [hf]; exact hv

instance tidies_routineLabel (name : String) : Tidies slots (routineLabel name : Emit σ Label) := by
  unfold routineLabel
  refine tidies_bind (k := fun f => ?_)
  cases f.labels.lookup name with
  | some l => exact tidies_pure l
  | none =>
    have hupdate (l : Label) : Tidies slots
        (updateFrame fun f => { f with labels := (name, l) :: f.labels } : Emit σ Unit) := tidies_updateFrame (fun _ => rfl) fun _ => rfl
    dsimp only
    infer_instance

/-! ## Code between statements -/

section Statements

variable {cfg : Setting} {e : Expr} {body : Emit σ Unit} {part : Option (Emit σ Unit)}

/-- Every use of an expression. -/
theorem tidies_lower (he : e.numbers.Nodup) (use : Use) :
    Tidies slots (lower cfg e use : Emit σ TypeCode) := by
  have h : Balanced (Custody.forUse (e.inner .first) use) (lower cfg e use : Emit σ TypeCode) :=
    (outlines_lower cfg e .first he (nofun : False → e.Steady) use).balanced
  refine h.tidies ?_
  cases use <;> rfl

theorem tidies_boxed (he : e.numbers.Nodup) : Tidies slots (boxed (lower cfg e) : Emit σ TypeCode) := by
  have hvalue : Tidies slots (lower cfg e .value : Emit σ TypeCode) := tidies_lower he .value
  unfold boxed
  infer_instance

theorem tidies_converted (he : e.numbers.Nodup) (code : TypeCode) :
    Tidies slots (converted (lower cfg e) code : Emit σ TypeCode) := by
  have hvalue : Tidies slots (lower cfg e .value : Emit σ TypeCode) := tidies_lower he .value
  unfold converted
  infer_instance

/-- The numbers of the nodes of expressions, one by one. -/
theorem nodup_cons_nodes {es : List Expr} (h : (Node.numbers ((e :: es).flatMap Expr.nodes)).Nodup) :
    e.numbers.Nodup ∧ (Node.numbers (es.flatMap Expr.nodes)).Nodup := by
  rw [List.flatMap_cons, Node.numbers_append, Node.numbers_nodes, List.nodup_append'] at h
  exact ⟨h.1, h.2.1⟩

theorem tidies_echoAll : ∀ {es : List Expr}, (Node.numbers (es.flatMap Expr.nodes)).Nodup →
    Tidies slots (echoAll cfg es : Emit σ Unit)
  | [], _ => tidies_pure ()
  | e :: rest, h => by
    have hfirst : Tidies slots (boxed (lower cfg e) : Emit σ TypeCode) := tidies_boxed (nodup_cons_nodes h).1
    have hrest : Tidies slots (echoAll cfg rest : Emit σ Unit) := tidies_echoAll (nodup_cons_nodes h).2
    unfold echoAll
    infer_instance

/-- A location is removed in a chain of its own. -/
theorem tidies_unset (he : e.numbers.Nodup) : Tidies slots (do
    beginChain true
    let _ ← Pass.ensuring (lower cfg e .unset) State.endChain : Emit σ Unit) where
  ends {k outer rest s} _ h := by
    have hunset : Balanced (e.inner .first) (lower cfg e .unset : Emit σ TypeCode) :=
      (outlines_lower cfg e .first he (nofun : False → e.Steady) .unset).balanced
    have hopen : s.Holds k outer (slotsOf s.chains ++ (s.frame.returnTemp.toList ++ rest)) := by
      rw [h.chains]
      exact h.holds
    have hallows : (e.inner .first).Allows { s with chains := { quiet := true } :: s.chains } :=
      Custody.allows_atStart rfl rfl rfl
    refine .update_bind ((Ends.ensuring ((hunset.ends hallows (hopen.beginChain true)).mono
      fun _ t ⟨hdone, ht⟩ => ?_)).bind fun _ t ht => .pure ht)
    obtain ⟨more, hmore⟩ := hdone.chains_inChain rfl rfl
    have hframe : t.endChain.frame = s.frame := (frame_endChain t).trans hdone.sameFrame
    have hclosed := ht.endChain hmore
    rw [h.chains] at hclosed
    refine ⟨?_, ?_, ?_⟩
    · rw [chains_endChain_cons hmore, h.chains]
    · rw [hframe]; exact h.coupled
    · rw [hframe]; exact hclosed

theorem tidies_unsetAll : ∀ {es : List Expr}, (Node.numbers (es.flatMap Expr.nodes)).Nodup →
    Tidies slots (unsetAll cfg es : Emit σ Unit)
  | [], _ => tidies_pure ()
  | e :: rest, h => by
    have hfirst : Tidies slots (do
        beginChain true
        let _ ← Pass.ensuring (lower cfg e .unset) State.endChain : Emit σ Unit) :=
      tidies_unset (nodup_cons_nodes h).1
    have hrest : Tidies slots (unsetAll cfg rest : Emit σ Unit) := tidies_unsetAll (nodup_cons_nodes h).2
    have hall : Tidies slots ((do
        beginChain true
        let _ ← Pass.ensuring (lower cfg e .unset) State.endChain : Emit σ Unit) >>=
          fun _ => unsetAll cfg rest) := tidies_bind
    simpa only [bind_assoc, pure_bind, unsetAll] using hall

theorem tidies_returnValue {expr : Option Expr} (h : (Node.numbers (expr.toList.flatMap Expr.nodes)).Nodup) :
    Tidies slots (returnValue cfg expr : Emit σ Unit) := by
  unfold returnValue
  refine tidies_bind (k := fun f => ?_)
  cases expr with
  | none =>
    dsimp only
    infer_instance
  | some e =>
    have hvalue : Tidies slots (lower cfg e .value : Emit σ TypeCode) := tidies_lower (nodup_cons_nodes h).1 _
    dsimp only
    infer_instance

theorem tidies_loopJump (kind : BranchKind) {level : Option Expr}
    (h : (Node.numbers (level.toList.flatMap Expr.nodes)).Nodup) :
    Tidies slots (loopJump cfg kind level : Emit σ Unit) := by
  unfold loopJump
  cases level with
  | none => exact tidies_staticBranch _ _
  | some e =>
    have hvalue : Tidies slots (lower cfg e .value : Emit σ TypeCode) := tidies_lower (nodup_cons_nodes h).1 _
    dsimp only
    cases e.value? with
    | some v => exact tidies_staticBranch _ _
    | none => exact tidies_runtimeBranch kind

theorem tidies_jumpCode (kind : JumpKind) {expr : Option Expr}
    (h : (Node.numbers (expr.toList.flatMap Expr.nodes)).Nodup) :
    Tidies slots (jumpCode cfg kind expr : Emit σ Unit) := by
  unfold jumpCode
  cases kind with
  | «return» =>
    have hvalue : Tidies slots (returnValue cfg expr : Emit σ Unit) := tidies_returnValue h
    dsimp only
    infer_instance
  | «break» | «continue» => exact tidies_loopJump _ h

instance tidies_labelCode (name : String) (home : Home StmtKind) :
    Tidies slots (labelCode name home : Emit σ Unit) := by
  unfold labelCode
  infer_instance

instance tidies_elseHead (otherwise : Label) : Tidies slots (elseHead otherwise : Emit σ Label) := by
  unfold elseHead
  infer_instance

theorem tidies_branchCode (he : e.numbers.Nodup) [Tidies slots body]
    (hpart : ∀ code, part = some code → Tidies slots code) : Tidies slots (branchCode cfg e body part) := by
  have hcondition : Tidies slots (converted (lower cfg e) .boolean : Emit σ TypeCode) :=
    tidies_converted he _
  have hhead : Tidies slots (branchHead cfg e : Emit σ Label) := by
    unfold branchHead
    infer_instance
  unfold branchCode
  cases part with
  | none =>
    dsimp only
    infer_instance
  | some code =>
    have hcode := hpart code rfl
    dsimp only
    infer_instance

theorem tidies_loopCode (he : e.numbers.Nodup) [Tidies slots body] : Tidies slots (loopCode cfg e body) := by
  have hcondition : Tidies slots (converted (lower cfg e) .boolean : Emit σ TypeCode) :=
    tidies_converted he _
  have henter (l l' : Label) : Tidies slots (updateFrame (Frame.enterLoop l l') : Emit σ Unit) :=
    tidies_updateFrame (fun _ => rfl) fun _ => rfl
  have hhead : Tidies slots (loopHead cfg e : Emit σ Loop) := by
    unfold loopHead
    infer_instance
  have hbody : Tidies slots (thenFrame body Frame.leaveLoop) := tidies_thenFrame (fun _ => rfl) fun _ => rfl
  unfold loopCode
  infer_instance

instance tidies_clauseHead (exception : Temp) (type : String) (var : Option String) :
    Tidies (exception :: slots) (clauseHead exception type var : Emit σ Label) := by
  unfold clauseHead
  cases var <;> dsimp only <;> infer_instance

instance tidies_clauseCode (exception : Temp) (regionEnd : Label) (type : String) (var : Option String)
    [Tidies (exception :: slots) body] :
    Tidies (exception :: slots) (clauseCode exception regionEnd type var body) := by
  unfold clauseCode
  infer_instance

/-- The exception is in its slot until all clauses are done. -/
theorem tidies_handlersCode {clauses : Temp → Emit σ Unit}
    (h : ∀ exception, Tidies (exception :: slots) (clauses exception)) :
    Tidies slots (handlersCode clauses) := by
  have hslot : Tidies slots (do
      let exception ← declareTemp
      (do
        emit (.storeTemp exception)
        clauses exception
        emit .rethrow)
      returnTemp exception : Emit σ Unit) := tidies_slot fun exception => by
    have hclauses := h exception
    infer_instance
  have hall : Tidies slots (do
      toSink (Sink.beginCatch uncatchableType)
      emit .rethrow
      toSink (Sink.beginCatch hostType)
      callVoid .wrapHostException
      let exception ← declareTemp
      (do
        emit (.storeTemp exception)
        clauses exception
        emit .rethrow)
      returnTemp exception : Emit σ Unit) := inferInstance
  simpa only [handlersCode, handlersHead, bind_assoc, pure_bind] using hall

theorem tidies_cleanupCode (hasClauses : Bool) (hpart : ∀ code, part = some code → Tidies slots code) :
    Tidies slots (cleanupCode hasClauses part) := by
  unfold cleanupCode
  cases part with
  | none =>
    dsimp only
    infer_instance
  | some code =>
    have hcode := hpart code rfl
    dsimp only
    infer_instance

theorem tidies_tryCode (hasClauses : Bool) {clauses : Label → Temp → Emit σ Unit} [Tidies slots body]
    (hclauses : ∀ regionEnd exception, Tidies (exception :: slots) (clauses regionEnd exception))
    (hpart : ∀ code, part = some code → Tidies slots code) :
    Tidies slots (tryCode cfg body hasClauses clauses part) := by
  have hhandlers (regionEnd : Label) : Tidies slots (handlersCode (clauses regionEnd)) :=
    tidies_handlersCode (hclauses regionEnd)
  have hcleanup : Tidies slots (cleanupCode hasClauses part) := tidies_cleanupCode hasClauses hpart
  have hregion : Tidies slots (regionCode body hasClauses clauses part) := by
    unfold regionCode
    infer_instance
  have henter : Tidies slots (updateFrame Frame.enterException : Emit σ Unit) := tidies_updateFrame (fun _ => rfl) fun _ => rfl
  have hthen : Tidies slots (thenFrame (regionCode body hasClauses clauses part) Frame.leaveException) :=
    tidies_thenFrame (fun _ => rfl) fun _ => rfl
  unfold tryCode
  infer_instance

/-! ### Routines -/

theorem ends_ret_held (hchains : s.chains = []) (h : s.Holds k outer rest) :
    Ends (emit .ret) s (fun _ t => t.chains = [] ∧ t.Holds k outer rest) anyFailure :=
  ((leavesChains_emit .ret s).and (neutral_emit rfl _ _ _ s h)).mono
    fun _ _ ⟨hc, ht⟩ => ⟨hc.1.trans hchains, ht⟩

/-- The slot of the value to return is given back where the routine returns. -/
theorem ends_returnCode_held (h : s.AtRest k outer rest) :
    Ends (do
      let f ← frame
      match f.epilogue, f.returnTemp with
      | some epilogue, some slot =>
        emit (.storeTemp slot)
        mark epilogue
        emit (.loadTemp slot)
        returnTemp slot
        emit .ret
      | _, _ => emit .ret) s (fun _ t => t.chains = [] ∧ t.Holds k outer rest) anyFailure := by
  refine .peek_bind ?_
  have hheld := h.holds
  have hcoupled := h.coupled
  cases hslot : s.frame.returnTemp with
  | none =>
    rw [hslot] at hheld hcoupled
    rw [Option.isSome_eq_false_iff.mp hcoupled |> Option.isNone_iff_eq_none.mp]
    exact ends_ret_held h.chains hheld
  | some slot =>
    rw [hslot] at hheld hcoupled
    obtain ⟨l, hl⟩ := Option.isSome_iff_exists.mp hcoupled
    rw [hl]
    refine ((leavesChains_emit _ s).and (ends_emit_held (.storeTemp slot) hheld
      fun _ heq => Option.some.inj heq ▸ by simp)).bind fun _ t₁ ⟨hc₁, ht₁⟩ => ?_
    refine ((leavesChains_mark l t₁).and (neutral_mark l _ _ _ t₁ ht₁)).bind fun _ t₂ ⟨hc₂, ht₂⟩ => ?_
    refine ((leavesChains_emit _ t₂).and (ends_emit_held (.loadTemp slot) ht₂
      fun _ heq => Option.some.inj heq ▸ by simp)).bind fun _ t₃ ⟨hc₃, ht₃⟩ => ?_
    refine ((leavesChains_returnTemp slot t₃).and (ends_returnTemp_held ht₃)).bind fun _ t₄ ⟨hc₄, ht₄⟩ => ?_
    exact ends_ret_held (hc₄.1.trans (hc₃.1.trans (hc₂.1.trans (hc₁.1.trans h.chains)))) ht₄

theorem ends_routineEnd_held (returnsRef : Bool) (h : s.AtRest k outer rest) :
    Ends (routineEnd returnsRef) s (fun _ t => t.chains = [] ∧ t.Holds k outer rest) anyFailure := by
  unfold routineEnd
  cases returnsRef with
  | true =>
    have hvalue : Tidies [] (callVoid .newReferenceEmpty : Emit σ Unit) := inferInstance
    simp only [if_true]
    exact (hvalue.ends (List.nil_subset _) h).bind fun _ _ ht => ends_returnCode_held ht
  | false =>
    have hnull : Tidies [] (pushLiteral .null : Emit σ TypeCode) := inferInstance
    simp only [Bool.false_eq_true, if_false]
    exact (hnull.ends (List.nil_subset _) h).bind fun _ _ ht => ends_returnCode_held ht

/-- A routine gives back all that it declares. -/
theorem ends_routineCode_held (returnsRef : Bool) (hbody : Tidies [] body) (hchains : s.chains = [])
    (h : s.Holds k outer rest) :
    Ends (routineCode returnsRef body) s (fun _ t => t.chains = [] ∧ t.frame = s.frame ∧
      t.Holds k outer rest) anyFailure := by
  refine .peek_bind (.update_bind (.ensuring ?_))
  have hstart : State.AtRest k outer rest { s with frame := { returnsRef } } :=
    { chains := hchains, coupled := rfl, holds := h.of_sink rfl }
  refine ((hbody.ends (List.nil_subset _) hstart).bind fun _ t ht => ends_routineEnd_held returnsRef ht).mono
    fun _ u ⟨hu, hheld⟩ => ⟨hu, rfl, hheld.of_sink rfl⟩

/-- The slots of a function are its own. -/
theorem tidies_function (head : FunctionHead) [hbody : Tidies [] body] : Tidies slots (do
    toSink (Sink.beginFunction head)
    routineCode head.byRef body
    toSink Sink.endFunction) where
  ends {k outer rest s} _ h := by
    have hbegin : Ends (toSink (Sink.beginFunction head)) s (fun _ t => t.chains = [] ∧ t.frame = s.frame ∧
        ∃ stack : List Temp, stack.Perm (s.frame.returnTemp.toList ++ rest) ∧
          t.Holds k (stack :: outer) []) anyFailure := by
      refine ((leavesChains_toSink _ s).and (ends_sinkCall _ s)).mono
        fun _ t hbegun => ?_
      obtain ⟨⟨hchains, hframe⟩, hcall, -⟩ := hbegun
      refine ⟨hchains.trans h.chains, hframe, ?_⟩
      refine h.holds.beginFunction head ?_ ?_
      all_goals rw [Call.make, hcall]; rfl
    refine hbegin.bind fun _ t hbegun => ?_
    obtain ⟨hchains, hframe, stack, hstack, ht⟩ := hbegun
    refine (ends_routineCode_held head.byRef hbody hchains ht).bind fun _ u hcode => ?_
    obtain ⟨hchains, hframe', hu⟩ := hcode
    refine ((leavesChains_toSink _ u).and (ends_sinkCall _ u)).mono fun _ v hended => ?_
    obtain ⟨⟨hc, hf⟩, hcall, -⟩ := hended
    have hsame : v.frame = s.frame := hf.trans (hframe'.trans hframe)
    have hheld : v.Holds k outer stack := by
      refine hu.endFunction ?_ ?_
      all_goals rw [Call.make, hcall]; rfl
    refine ⟨hc.trans hchains, ?_, ?_⟩
    · rw [hsame]; exact h.coupled
    · rw [hsame]; exact hheld.perm hstack

/-! ### Statements -/

/-- A failure that is reported is still a failure. -/
theorem tidies_reporting (span : Span) [hx : Tidies slots body] : Tidies slots (reporting span body) where
  ends hslots h := by
    refine .intro (fun a t hrun => ?_) fun _ _ _ => trivial
    unfold reporting at hrun
    split at hrun
    · split at hrun <;> exact nomatch hrun
    · rename_i a' t' hbody
      obtain rfl := (Prod.mk.inj hrun).2
      exact (hx.ends hslots h).of_ok hbody

theorem tidies_byStmtRule {kind : StmtKind} {tag : StmtTag} {code : Home StmtKind → Emit σ Unit}
    (hcode : ∀ home, Tidies slots (code home)) : Tidies slots (byStmtRule cfg kind tag code) := by
  unfold byStmtRule
  infer_instance

theorem tidies_statement {kind : StmtKind} {tag : StmtTag} {code : Home StmtKind → Emit σ Unit}
    (hcode : ∀ home, Tidies slots (code home)) : Tidies slots (statement cfg kind tag code) := by
  have hrule : Tidies slots (byStmtRule cfg kind tag code) := tidies_byStmtRule hcode
  have hreporting : Tidies slots (reporting tag.span (byStmtRule cfg kind tag code)) :=
    tidies_reporting tag.span
  have hpoint : Tidies slots (Pass.update fun s => { s with sink := Sink.sequencePoint tag.span s.sink } :
      Emit σ Unit) :=
    ⟨fun _ h => .update ⟨h.chains, h.coupled, h.holds.callNeutral (.sequencePoint tag.span) rfl rfl rfl⟩⟩
  unfold statement
  infer_instance

end Statements

/-! ## All statements -/

section All

variable {cfg : Setting}

mutual

theorem tidies_lowerStmt : ∀ (s : Stmt) {slots : List Temp}, (Node.numbers s.nodes).Nodup →
    Tidies slots (lowerStmt cfg s : Emit σ Unit)
  | .expression _ e, slots, h => by
    rw [Stmt.nodes, Node.numbers_stmt, Node.numbers_nodes] at h
    have hvalue : Tidies slots (lower cfg e .value : Emit σ TypeCode) := tidies_lower h _
    exact tidies_statement fun _ => inferInstance
  | .echo _ es, _, h => tidies_statement fun _ => tidies_echoAll h
  | .block _ body, _, h => tidies_statement fun _ => tidies_lowerStmts body h
  | .branch _ condition thenBody elseBody, slots, h => by
    simp only [Stmt.nodes, List.cons_append, Node.numbers_stmt, Node.numbers_append, Node.numbers_nodes,
      List.nodup_append'] at h
    have hthen : Tidies slots (lowerStmts cfg thenBody : Emit σ Unit) := tidies_lowerStmts thenBody h.1.2.1
    exact tidies_statement fun _ => tidies_branchCode h.1.1 (tidies_lowerOptional elseBody h.2.1)
  | .loop _ condition body, slots, h => by
    simp only [Stmt.nodes, List.cons_append, Node.numbers_stmt, Node.numbers_append, Node.numbers_nodes,
      List.nodup_append'] at h
    have hbody : Tidies slots (lowerStmts cfg body : Emit σ Unit) := tidies_lowerStmts body h.2.1
    exact tidies_statement fun _ => tidies_loopCode h.1
  | .jump _ kind _, _, h => tidies_statement fun _ => tidies_jumpCode kind h
  | .goto _ _, _, _ => tidies_statement fun _ => inferInstance
  | .label _ name, _, _ => tidies_statement fun home => tidies_labelCode name home
  | .tryCatch _ body catches cleanup, slots, h => by
    simp only [Stmt.nodes, List.cons_append, Node.numbers_stmt, Node.numbers_append,
      List.nodup_append'] at h
    have hbody : Tidies slots (lowerStmts cfg body : Emit σ Unit) := tidies_lowerStmts body h.1.1
    exact tidies_statement fun _ => tidies_tryCode _ (tidies_lowerClauses catches h.1.2.1)
      (tidies_lowerOptional cleanup h.2.1)
  | .throw _ e, slots, h => by
    rw [Stmt.nodes, Node.numbers_stmt, Node.numbers_nodes] at h
    have hboxed : Tidies slots (boxed (lower cfg e) : Emit σ TypeCode) := tidies_boxed h
    exact tidies_statement fun _ => inferInstance
  | .unset _ _, _, h => tidies_statement fun _ => tidies_unsetAll h
  | .constDecl _ _ e, slots, h => by
    rw [Stmt.nodes, Node.numbers_stmt, Node.numbers_nodes] at h
    have hboxed : Tidies slots (boxed (lower cfg e) : Emit σ TypeCode) := tidies_boxed h
    exact tidies_statement fun _ => inferInstance
  | .function _ head body _, slots, h => by
    have hbody : Tidies [] (lowerStmts cfg body : Emit σ Unit) := tidies_lowerStmts body h
    exact tidies_statement fun _ => tidies_function head
  | .empty _ _, _, _ => tidies_statement fun _ => tidies_pure ()
termination_by structural s => s

/-- **Statements give back all slots that they declare**, but for the slot of the value to return. -/
theorem tidies_lowerStmts : ∀ (ss : List Stmt) {slots : List Temp}, (Node.numbers (Stmt.nodesOf ss)).Nodup →
    Tidies slots (lowerStmts cfg ss : Emit σ Unit)
  | [], _, _ => tidies_pure ()
  | s :: rest, slots, h => by
    rw [Stmt.nodesOf, Node.numbers_append, List.nodup_append'] at h
    have hfirst : Tidies slots (lowerStmt cfg s : Emit σ Unit) := tidies_lowerStmt s h.1
    have hrest : Tidies slots (lowerStmts cfg rest : Emit σ Unit) := tidies_lowerStmts rest h.2.1
    exact tidies_bind
termination_by structural ss => ss

theorem tidies_lowerOptional : ∀ (part : Option (List Stmt)) {slots : List Temp},
    (Node.numbers (Stmt.nodesOfOptional part)).Nodup →
    ∀ code, lowerOptional cfg part = some code → Tidies slots (code : Emit σ Unit)
  | none, _, _, _, hcode => nomatch hcode
  | some body, _, h, _, hcode => Option.some.inj hcode ▸ tidies_lowerStmts body h
termination_by structural part => part

theorem tidies_lowerClauses : ∀ (cs : List Catch) {slots : List Temp},
    (Node.numbers (Stmt.nodesOfCatches cs)).Nodup → ∀ regionEnd exception,
    Tidies (exception :: slots) (lowerClauses cfg cs regionEnd exception : Emit σ Unit)
  | [], _, _, _, _ => tidies_pure ()
  | .clause _ type var body resolved :: rest, slots, h, regionEnd, exception => by
    rw [Stmt.nodesOfCatches, Node.numbers_append, List.nodup_append'] at h
    have hbody : Tidies (exception :: slots) (lowerStmts cfg body : Emit σ Unit) :=
      tidies_lowerStmts body h.1
    have hrest : Tidies (exception :: slots) (lowerClauses cfg rest regionEnd exception : Emit σ Unit) :=
      tidies_lowerClauses rest h.2.1 regionEnd exception
    exact tidies_bind
termination_by structural cs => cs

end

end All

end Lowering
end PhpLowering
