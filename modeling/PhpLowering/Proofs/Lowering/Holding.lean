import PhpLowering.Proofs.Code.Holding
import PhpLowering.Proofs.Lowering.Custody

/-!
# The slots that the code of an expression holds

What is held while the code of an expression is emitted is what the chains around keep, and whatever
somebody else holds.  `s.Holds k outer held` says that the calls which lead from the sink `k` to the
state `s` can be accounted for, and that the slots in `held` are those that are held now.  The others
are a frame: a step is `Balanced` if it gives back all that it declares, except for the operands that the
innermost chain keeps from then on, whatever else is held.

**`Outline.balanced`**: a step that has an outline is balanced, whatever the sink is.
-/

namespace PhpLowering
namespace Lowering

open Pass (Ends)
open Sink (Call Talk Accepted slotEvents)

variable {σ α β : Type} [Sink σ] {k : σ} {outer outer' : List (List Temp)} {held held' rest : List Temp}
  {s t u : State σ} {A B C : Custody}

/-! ## What is held -/

/-- The calls since a sink can be accounted for, and these slots are held in the routine at hand, those in
`outer` in the routines that wait. -/
def State.Holds (k : σ) (outer : List (List Temp)) (held : List Temp) (s : State σ) : Prop :=
  ∃ calls, Talk k calls s.sink ∧ Accepted calls ∧
    ∃ stack, account [[]] (slotEvents k calls) = some (stack :: outer) ∧ stack.Perm held

theorem State.Holds.perm (h : s.Holds k outer held) (hperm : held.Perm held') : s.Holds k outer held' := by
  obtain ⟨calls, htalk, haccepted, stack, haccount, hstack⟩ := h
  exact ⟨calls, htalk, haccepted, stack, haccount, hstack.trans hperm⟩

theorem State.Holds.of_sink (h : s.Holds k outer held) (hsink : t.sink = s.sink) : t.Holds k outer held := by
  unfold State.Holds
  rw [hsink]
  exact h

/-- A call that can be accounted for. -/
theorem holds_of_call {calls : List (Call × Bool)} {stack stack' : List Temp} (htalk : Talk k calls s.sink)
    (hcalls : Accepted calls) (haccount : account [[]] (slotEvents k calls) = some (stack :: outer))
    (c : Call) (haccepted : (c.make s.sink).1 = true) (hsink : t.sink = (c.make s.sink).2)
    (hact : account (stack :: outer) (c.slotEvents s.sink) = some (stack' :: outer')) :
    t.Holds k outer' stack' := by
  refine ⟨calls ++ [(c, (c.make s.sink).1)], ?_, ?_, stack', ?_, .refl _⟩
  · rw [hsink]
    exact htalk.append (.single c s.sink)
  · exact hcalls.append (List.forall_mem_singleton.mpr haccepted)
  · rw [Sink.slotEvents_append htalk, account_append, haccount, Option.bind_some]
    show account _ (c.slotEvents s.sink ++ []) = _
    rw [List.append_nil, hact]

/-- A call that does the same to all lists of what is held. -/
theorem State.Holds.call (h : s.Holds k outer held) (c : Call) (haccepted : (c.make s.sink).1 = true)
    (hsink : t.sink = (c.make s.sink).2)
    (hact : ∀ stack : List Temp, stack.Perm held → ∃ stack' : List Temp,
      account (stack :: outer) (c.slotEvents s.sink) = some (stack' :: outer') ∧ stack'.Perm held') :
    t.Holds k outer' held' := by
  obtain ⟨calls, htalk, hcalls, stack, haccount, hstack⟩ := h
  obtain ⟨stack', haccount', hstack'⟩ := hact stack hstack
  exact (holds_of_call htalk hcalls haccount c haccepted hsink haccount').perm hstack'

/-- A function holds nothing at first; what is held around it waits. -/
theorem State.Holds.beginFunction (h : s.Holds k outer held) (head : FunctionHead)
    (haccepted : ((Call.beginFunction head).make s.sink).1 = true)
    (hsink : t.sink = ((Call.beginFunction head).make s.sink).2) :
    ∃ stack : List Temp, stack.Perm held ∧ t.Holds k (stack :: outer) [] := by
  obtain ⟨calls, htalk, hcalls, stack, haccount, hstack⟩ := h
  exact ⟨stack, hstack, holds_of_call htalk hcalls haccount (.beginFunction head) haccepted hsink rfl⟩

/-- A function that holds nothing may end. -/
theorem State.Holds.endFunction (h : s.Holds k (held :: outer) [])
    (haccepted : (Call.endFunction.make s.sink).1 = true)
    (hsink : t.sink = (Call.endFunction.make s.sink).2) : t.Holds k outer held :=
  h.call .endFunction haccepted hsink fun stack hstack => by
    obtain rfl := hstack.eq_nil
    exact ⟨held, rfl, .refl _⟩

/-- A call that has nothing to do with slots. -/
theorem State.Holds.callNeutral (h : s.Holds k outer held) (c : Call)
    (haccepted : (c.make s.sink).1 = true) (hsink : t.sink = (c.make s.sink).2)
    (hevents : c.slotEvents s.sink = []) : t.Holds k outer held :=
  h.call c haccepted hsink fun stack hstack => ⟨stack, by rw [hevents, account_nil], hstack⟩

/-- A step that does not change what is held, whatever it is. -/
def Neutral (x : Emit σ α) : Prop :=
  ∀ (k : σ) (outer : List (List Temp)) (held : List Temp) (s : State σ), s.Holds k outer held →
    Ends x s (fun _ t => t.Holds k outer held) anyFailure

theorem neutral_pure (a : α) : Neutral (pure a : Emit σ α) :=
  fun _ _ _ _ h => .pure h

theorem neutral_peek (f : State σ → α) : Neutral (Pass.peek f) :=
  fun _ _ _ _ h => .peek h

theorem neutral_onTable (q : Pass Fault RuleTable α) : Neutral (onTable q : Emit σ α) := by
  refine fun k outer held s h => .intro (fun a t hrun => ?_) fun _ _ _ => trivial
  unfold onTable at hrun
  split at hrun
  · obtain rfl := (Prod.mk.inj hrun).2
    exact h.of_sink rfl
  · cases hrun

/-- A call that has nothing to do with slots. -/
theorem neutral_toSink (c : Call) {call : Pass SinkError σ α} (hevents : ∀ k : σ, c.slotEvents k = [])
    (hmake : ∀ k, c.make k = Sink.answered (call k)) : Neutral (toSink call) := by
  refine fun k outer held s h => (ends_sinkCall call s).mono fun a t ⟨hcall, _⟩ => ?_
  refine h.callNeutral c ?_ ?_ (hevents _)
  all_goals rw [hmake, hcall]; rfl

theorem neutral_emit {i : Instruction} (hslot : i.slot? = none) : Neutral (emit i : Emit σ Unit) :=
  neutral_toSink (.emit i) (fun _ => by rw [Call.slotEvents, hslot]; rfl) fun _ => rfl

theorem neutral_mark (l : Label) : Neutral (mark l : Emit σ Unit) :=
  neutral_toSink (.markLabel l) (fun _ => rfl) fun _ => rfl

theorem neutral_defineLabel : Neutral (defineLabel : Emit σ Label) :=
  fun _ _ _ _ h => .transform (h.callNeutral .defineLabel rfl rfl rfl)

/-- An instruction may use a slot that is held. -/
theorem ends_emit_held (i : Instruction) (h : s.Holds k outer held)
    (hslot : ∀ t, i.slot? = some t → t ∈ held) :
    Ends (emit i) s (fun _ t => t.Holds k outer held) anyFailure := by
  cases hi : i.slot? with
  | none => exact neutral_emit hi k outer held s h
  | some slot =>
    refine (ends_sinkCall _ s).mono fun a t ⟨hcall, _⟩ => ?_
    refine h.call (.emit i) ?_ ?_ fun stack hstack => ⟨stack, ?_, hstack⟩
    · rw [Call.make, hcall]; rfl
    · rw [Call.make, hcall]; rfl
    · have hmem : slot ∈ stack := hstack.mem_iff.mpr (hslot slot hi)
      rw [Call.slotEvents, hi]
      show account _ [.used slot] = _
      rw [account_singleton]
      exact if_pos hmem

theorem ends_declareTemp_held (h : s.Holds k outer held) :
    Ends declareTemp s (fun slot t => t.Holds k outer (slot :: held)) anyFailure := by
  refine (ends_sinkCall _ s).mono fun slot t ⟨hcall, _⟩ => ?_
  refine h.call .declareTemp ?_ ?_ fun stack hstack => ⟨slot :: stack, ?_, hstack.cons slot⟩
  · rw [Call.make, hcall]; rfl
  · rw [Call.make, hcall]; rfl
  · rw [Call.slotEvents, hcall]
    exact account_singleton _ _

/-- A slot that is held is given back. -/
theorem State.Holds.returnTemp {slot : Temp} (h : s.Holds k outer (slot :: held))
    (hsink : t.sink = Sink.returnTemp slot s.sink) : t.Holds k outer held := by
  refine h.call (.returnTemp slot) rfl hsink fun stack hstack => ⟨stack.erase slot, ?_, ?_⟩
  · have hmem : slot ∈ stack := hstack.mem_iff.mpr List.mem_cons_self
    rw [Call.slotEvents, account_singleton]
    exact if_pos hmem
  · have herase := hstack.erase slot
    rwa [List.erase_cons_head] at herase

theorem ends_returnTemp_held {slot : Temp} (h : s.Holds k outer (slot :: held)) :
    Ends (returnTemp slot) s (fun _ t => t.Holds k outer held) anyFailure :=
  .update (h.returnTemp rfl)

/-- A value is copied to a slot that is held. -/
theorem ends_saveTo_held {slot : Temp} (h : s.Holds k outer held) (hslot : slot ∈ held) :
    Ends (saveTo slot) s (fun _ t => t.Holds k outer held) anyFailure :=
  (neutral_emit rfl k outer held s h).bind fun _ _ ht =>
    ends_emit_held (.storeTemp slot) ht fun _ heq => Option.some.inj heq ▸ hslot

/-! ## What chains hold -/

/-- The slots of the operands that chains keep. -/
def slotsOf (chains : List Chain) : List Temp :=
  chains.flatMap Chain.slots

theorem slotsOf_withKept {chains : List Chain} (more : List (Nat × Temp × TypeCode)) (h : chains ≠ []) :
    (slotsOf (withKept more chains)).Perm (more.map (fun entry => entry.2.1) ++ slotsOf chains) := by
  cases chains with
  | nil => exact absurd rfl h
  | cons chain chains =>
    simp only [withKept, slotsOf, Chain.slots, List.flatMap_cons, List.map_append, List.append_assoc]
    exact List.perm_append_comm_assoc _ _ _

theorem mem_slotsOf {chains : List Chain} {entry : Nat × Temp × TypeCode} (h : entry ∈ entries chains) :
    entry.2.1 ∈ slotsOf chains := by
  cases chains with
  | nil => exact nomatch h
  | cons chain chains => exact List.mem_append_left _ (List.mem_map_of_mem h)

/-- Slots that are held are given back one by one. -/
theorem State.Holds.returnTemps (slots : List Temp) (h : s.Holds k outer (slots ++ held))
    (hsink : t.sink = slots.foldl (fun k slot => Sink.returnTemp slot k) s.sink) : t.Holds k outer held := by
  induction slots generalizing s with
  | nil => exact h.of_sink hsink
  | cons slot rest ih =>
    have hfirst : ({ s with sink := Sink.returnTemp slot s.sink } : State σ).Holds k outer (rest ++ held) :=
      h.returnTemp rfl
    exact ih hfirst hsink

/-- A chain that is closed gives back what it has kept. -/
theorem State.Holds.endChain {chain : Chain} {chains : List Chain} (hchains : s.chains = chain :: chains)
    (h : s.Holds k outer (slotsOf s.chains ++ rest)) :
    s.endChain.Holds k outer (slotsOf chains ++ rest) := by
  rw [hchains, slotsOf, List.flatMap_cons, List.append_assoc] at h
  have harranged := ((s.releases 0).perm chain.slots).symm.append_right (chains.flatMap Chain.slots ++ rest)
  refine (h.perm harranged).returnTemps ((s.releases 0).arrange chain.slots) ?_
  unfold State.endChain
  rw [hchains]

/-! ## Balanced steps -/

/-- A step does what its custody says, and gives back all that it declares, except for the operands that
the chain keeps. -/
structure Balanced (A : Custody) (x : Emit σ α) : Prop where
  does : Does A x
  holds : ∀ {k : σ} {outer : List (List Temp)} {rest : List Temp} {s : State σ}, A.Allows s →
    s.Holds k outer (slotsOf s.chains ++ rest) →
    Ends x s (fun _ t => t.Holds k outer (slotsOf t.chains ++ rest)) anyFailure

namespace Balanced

variable {x : Emit σ α} {f : α → Emit σ β}

theorem of_neutral (hx : Neutral x) (hchains : LeavesChains x) : Balanced {} x where
  does := hchains.does
  holds _ h := (((hchains _).and (hx _ _ _ _ h))).mono fun _ _ ht => ht.1.1 ▸ ht.2

theorem mono (h : Balanced A x) (hAB : A.Covers B) : Balanced B x :=
  ⟨h.does.mono hAB, fun hs => h.holds (hAB.allows hs)⟩

theorem ends (h : Balanced A x) (hs : A.Allows s) (hheld : s.Holds k outer (slotsOf s.chains ++ rest)) :
    Ends x s (fun _ t => A.Done s t ∧ t.Holds k outer (slotsOf t.chains ++ rest)) anyFailure :=
  (h.does s hs).and (h.holds hs hheld)

theorem seq (hx : Balanced A x) (hf : ∀ a, Balanced B (f a)) (hd : A.fresh.Disjoint B.fresh) :
    Balanced (A.seq B) (x >>= f) where
  does := hx.does.seq (fun a => (hf a).does) hd
  holds hs h := (hx.ends hs.left h).bind fun a _ ht => (hf a).holds (ht.1.allows hs hd) ht.2

theorem before (hx : Balanced {} x) (hf : ∀ a, Balanced A (f a)) : Balanced A (x >>= f) :=
  hx.seq hf (List.disjoint_nil_left _)

theorem «then» (hx : Balanced A x) (hf : ∀ a, Balanced {} (f a)) : Balanced A (x >>= f) :=
  (hx.seq hf (List.disjoint_nil_right _)).mono (by constructor <;> simp [Custody.seq])

end Balanced

theorem balanced_emit {i : Instruction} (hslot : i.slot? = none) : Balanced {} (emit i : Emit σ Unit) :=
  .of_neutral (neutral_emit hslot) (leavesChains_emit i)

theorem balanced_mark (l : Label) : Balanced {} (mark l : Emit σ Unit) :=
  .of_neutral (neutral_mark l) (leavesChains_mark l)

theorem balanced_defineLabel : Balanced {} (defineLabel : Emit σ Label) :=
  .of_neutral neutral_defineLabel leavesChains_defineLabel

section Ways

variable {γ δ : Type} {x : Emit σ α} {y : Emit σ β} {z : Emit σ γ} {w : Emit σ δ} {e : Expr} {code : Code σ}

theorem balanced_operand (hcode : Balanced A (boxed code)) (hrepeatable : e.isRepeatable = false)
    (hnew : e.id ∉ A.fresh) :
    Balanced { fresh := e.id :: A.fresh, known := A.known, gained := [e.id], sure := [e.id] }
      (chainOperand e code) where
  does := does_operand hcode.does hrepeatable hnew
  holds {k outer rest s} hs h := by
    have hallows : A.Allows s := ⟨fun i hi => hs.fresh i (List.mem_cons_of_mem _ hi), hs.known⟩
    have hid : ¬ Keeps s.chains e.id := hs.fresh _ List.mem_cons_self
    have hboxed := hcode.ends hallows h
    refine .peek_bind ?_
    cases hchains : s.chains with
    | nil => exact hboxed.mono fun _ _ ht => ht.2
    | cons chain chains =>
      have hlookup : chain.kept.lookup e.id = none := by
        have hnone := lookup_eq_none_of_not_keeps hid
        rwa [hchains] at hnone
      dsimp only [List.head?_cons]
      rw [if_neg (Bool.eq_false_iff.mp hrepeatable), hlookup]
      refine hboxed.bind fun kind t ⟨hdone, ht⟩ => ?_
      refine ((leavesChains_declareTemp t).and (ends_declareTemp_held ht)).bind fun slot t₁ ⟨hc₁, ht₁⟩ => ?_
      refine ((leavesChains_saveTo slot t₁).and (ends_saveTo_held ht₁ List.mem_cons_self)).bind
        fun _ t₂ ⟨hc₂, ht₂⟩ => .update_bind (.pure ?_)
      have hsame : t₂.chains = t.chains := hc₂.1.trans hc₁.1
      have hid' : ¬ Keeps t₂.chains e.id := by
        rw [hsame]
        exact fun hkeeps => (hdone.of_keeps hkeeps).elim hid hnew
      have hopen : t₂.chains ≠ [] := by
        rw [hsame, Ne, hdone.chains_eq_nil_iff, hchains]
        exact List.cons_ne_nil _ _
      have hkept := slotsOf_withKept [(e.id, slot, kind)] hopen
      rw [← chains_keepOperand_of_not_keeps slot kind hid'] at hkept
      rw [← hsame] at ht₂
      exact (ht₂.of_sink (keepOperand_sink ..)).perm (hkept.symm.append_right rest)

theorem balanced_again (code : Code σ) (hrepeatable : e.isRepeatable = false) :
    Balanced { known := [e.id] } (chainOperand e code) where
  does := does_again code hrepeatable
  holds {k outer rest s} hs h := by
    obtain ⟨entry, hentry⟩ := (hs.known _ (List.mem_singleton_self _)).lookup
    have hmem : entry.1 ∈ slotsOf s.chains ++ rest :=
      List.mem_append_left _ (mem_slotsOf (keeps_of_lookup hentry))
    unfold Ends
    rw [chainOperand_eq hrepeatable hentry]
    refine ((leavesChains_emit (.loadTemp entry.1) s).and (ends_emit_held _ h
      fun _ heq => Option.some.inj heq ▸ hmem)).bind fun _ t ht => .pure ?_
    exact ht.1.1 ▸ ht.2

theorem balanced_skipped (hx : Balanced A x) (hy : Balanced B y) (hd : A.fresh.Disjoint B.fresh) :
    Balanced (A.seq B.unsure) (skipped x y) := by
  have hy' : Balanced B.unsure y := hy.mono ⟨.refl _, .refl _, .refl _, List.nil_subset _⟩
  exact .before balanced_defineLabel fun done => hx.seq
    (fun _ => .before (balanced_emit rfl) fun _ => hy'.then fun _ => balanced_mark done) hd

theorem balanced_forked (doneFirst : Bool) (hx : Balanced A x) (hy : Balanced B y) (hz : Balanced C z)
    (hAB : A.fresh.Disjoint B.fresh) (hABC : (A.fresh ++ B.fresh).Disjoint C.fresh) :
    Balanced ((A.seq B.unsure).seq C.unsure) (forked doneFirst x y z) := by
  have hy' : Balanced B.unsure y := hy.mono ⟨.refl _, .refl _, .refl _, List.nil_subset _⟩
  have hz' : Balanced C.unsure z := hz.mono ⟨.refl _, .refl _, .refl _, List.nil_subset _⟩
  have hparts (otherwise done : Label) : Balanced (A.seq (B.unsure.seq C.unsure)) (do
      let _ ← x
      emit (.branchIfFalse otherwise)
      let _ ← y
      emit (.branch done)
      mark otherwise
      let _ ← z
      mark done) := by
    have hd := List.disjoint_append_left.mp hABC
    exact hx.seq (fun _ => .before (balanced_emit rfl) fun _ => hy'.seq (fun _ =>
      .before (balanced_emit rfl) fun _ => .before (balanced_mark _) fun _ =>
        hz'.then fun _ => balanced_mark done) hd.2) (List.disjoint_append_right.mpr ⟨hAB, hd.1⟩)
  refine Balanced.mono (.before balanced_defineLabel fun one => .before balanced_defineLabel
    fun other => hparts _ _) ?_
  constructor <;> simp [Custody.seq]

/-! ### Chains of their own -/

/-- Steps that are taken one after another at the beginning of a chain. -/
theorem ends_inChain_held (hx : Balanced A x) (hy : Balanced B y) (hA : A.known = [])
    (hd : A.fresh.Disjoint B.fresh) (hgained : B.known ⊆ A.gained) {chain : Chain} {chains : List Chain}
    (hs : s.chains = chain :: chains) (hkept : chain.kept = [])
    (h : s.Holds k outer (slotsOf s.chains ++ rest)) :
    Ends (do let _ ← x; y) s (fun _ t => (∃ more, t.chains = { chain with kept := more } :: chains) ∧
      t.Holds k outer (slotsOf t.chains ++ rest)) anyFailure := by
  refine (hx.ends (Custody.allows_atStart hs hkept hA) h).bind fun _ t ⟨ht, hheld⟩ => ?_
  refine (hy.ends (ht.allows_inChain hs hkept hd hgained) hheld).mono fun _ u ⟨hu, hheld⟩ => ?_
  exact ⟨(ht.trans hu).chains_inChain hs hkept, hheld⟩

/-- A chain that has just been begun holds nothing. -/
theorem State.Holds.beginChain (h : s.Holds k outer (slotsOf s.chains ++ rest)) (quiet : Bool) :
    State.Holds k outer (slotsOf ({ quiet } :: s.chains) ++ rest)
      { s with chains := { quiet } :: s.chains } :=
  h.of_sink rfl

theorem balanced_chained (quiet : Bool) (hx : Balanced A x) (hy : Balanced B y) (hA : A.known = [])
    (hd : A.fresh.Disjoint B.fresh) (hgained : B.known ⊆ A.gained) : Balanced {} (chained quiet x y) where
  does := does_chained quiet hx.does hy.does hA hd hgained
  holds {k outer rest s} _ h := by
    rw [chained_eq]
    refine .update_bind ((ends_inChain_held hx hy hA hd hgained rfl rfl (h.beginChain quiet)).bind
      fun _ t ⟨⟨more, hchains⟩, ht⟩ => .update_bind (.pure ?_))
    rw [chains_endChain_cons hchains]
    exact ht.endChain hchains

/-- A slot is found for the value on top of the stack. -/
theorem ends_saving_held (hz : Balanced {} z) (hw : Balanced {} w)
    (h : s.Holds k outer (slotsOf s.chains ++ rest)) :
    Ends (do
      let slot ← declareTemp
      let _ ← z
      saveTo slot
      let _ ← w
      return slot) s (fun slot t => t.chains = s.chains ∧
        t.Holds k outer (slotsOf t.chains ++ slot :: rest)) anyFailure := by
  refine ((leavesChains_declareTemp s).and (ends_declareTemp_held h)).bind fun slot t₁ ⟨hc₁, ht₁⟩ => ?_
  have hframed : t₁.Holds k outer (slotsOf t₁.chains ++ slot :: rest) := by
    rw [hc₁.1]
    exact ht₁.perm List.perm_middle.symm
  refine (hz.ends (Custody.allows_empty t₁) hframed).bind fun _ t₂ ⟨hd₂, ht₂⟩ => ?_
  refine ((leavesChains_saveTo slot t₂).and (ends_saveTo_held ht₂ (by simp))).bind fun _ t₃ ⟨hc₃, ht₃⟩ => ?_
  rw [← hc₃.1] at ht₃
  refine (hw.ends (Custody.allows_empty t₃) ht₃).bind fun _ t₄ ⟨hd₄, ht₄⟩ => .pure ⟨?_, ht₄⟩
  rw [hd₄.chains_eq, hc₃.1, hd₂.chains_eq, hc₁.1]

theorem balanced_chainedSaving (quiet : Bool) (hx : Balanced A x) (hy : Balanced B y) (hz : Balanced {} z)
    (hw : Balanced {} w) (hA : A.known = []) (hd : A.fresh.Disjoint B.fresh)
    (hgained : B.known ⊆ A.gained) : Balanced {} (chainedSaving quiet x y z w) where
  does := does_chainedSaving quiet hx.does hy.does hz.does hw.does hA hd hgained
  holds {k outer rest s} _ h := by
    have hall : chainedSaving quiet x y z w = (do
        beginChain quiet
        let _ ← (do let _ ← x; y)
        let slot ← (do
          let slot ← declareTemp
          let _ ← z
          saveTo slot
          let _ ← w
          return slot)
        Pass.update State.endChain
        emit (.loadTemp slot)
        returnTemp slot) := by
      simp [chainedSaving]
    rw [hall]
    refine .update_bind ((ends_inChain_held hx hy hA hd hgained rfl rfl (h.beginChain quiet)).bind
      fun _ t hinside => ?_)
    obtain ⟨⟨more, hchains⟩, ht⟩ := hinside
    refine (ends_saving_held hz hw ht).bind fun slot u hsaved => .update_bind ?_
    obtain ⟨hu, hheld⟩ := hsaved
    have hclosed := hheld.endChain (hu.trans hchains)
    refine ((leavesChains_emit _ _).and (ends_emit_held (.loadTemp slot) hclosed
      fun _ heq => Option.some.inj heq ▸ by simp)).bind fun _ v hloaded => ?_
    refine ((leavesChains_returnTemp slot v).and (ends_returnTemp_held (hloaded.2.perm List.perm_middle))).mono
      fun _ r hreturned => ?_
    rw [hreturned.1.1, hloaded.1.1, chains_endChain_cons (hu.trans hchains)]
    exact hreturned.2

/-- The value that is loaded is in a slot of its own while the chain is begun. -/
theorem balanced_chainedLoading (quiet : Bool) (hx : Balanced A x) (hy : Balanced {} y) (hA : A.known = []) :
    Balanced {} (chainedLoading quiet x y) where
  does := does_chainedLoading quiet hx.does hy.does hA
  holds {k outer rest s} _ h := by
    unfold chainedLoading
    refine ((leavesChains_declareTemp s).and (ends_declareTemp_held h)).bind fun slot t₁ ⟨hc₁, ht₁⟩ => ?_
    refine ((leavesChains_emit _ t₁).and (ends_emit_held (.storeTemp slot) ht₁
      fun _ heq => Option.some.inj heq ▸ List.mem_cons_self)).bind fun _ t₂ ⟨hc₂, ht₂⟩ => .update_bind ?_
    have hsame : t₂.chains = s.chains := hc₂.1.trans hc₁.1
    have hframed : t₂.Holds k outer (slotsOf t₂.chains ++ slot :: rest) := by
      rw [hsame]
      exact ht₂.perm List.perm_middle.symm
    refine (hx.ends (Custody.allows_atStart rfl rfl hA) (hframed.beginChain quiet)).bind
      fun _ u ⟨hu, hheld⟩ => ?_
    obtain ⟨more, hmore⟩ := hu.chains_inChain rfl rfl
    refine ((leavesChains_emit _ u).and (ends_emit_held (.loadTemp slot) hheld
      fun _ heq => Option.some.inj heq ▸ by simp)).bind fun _ v ⟨hv, hheld⟩ => ?_
    rw [← hv.1] at hheld
    refine (hy.ends (Custody.allows_empty v) hheld).bind fun _ w ⟨hw, hheld⟩ => .update_bind ?_
    have hchains := hw.chains_eq.trans (hv.1.trans hmore)
    have hclosed := (hheld.endChain hchains).perm List.perm_middle
    refine ((leavesChains_returnTemp slot _).and (ends_returnTemp_held hclosed)).mono
      fun _ r ⟨hr, hheld⟩ => ?_
    rw [hr.1, chains_endChain_cons hchains]
    exact hheld

end Ways

/-- **A step that has an outline is balanced.** -/
theorem Outline.balanced {strict : Prop} {x : Emit σ α} (h : Outline strict A x) : Balanced A x := by
  induction h with
  | pure a => exact .of_neutral (neutral_pure a) (leavesChains_pure a)
  | fail e => exact ⟨fun _ _ => .fail trivial, fun _ _ => .fail trivial⟩
  | peek f => exact .of_neutral (neutral_peek f) fun _ => .peek ⟨rfl, rfl⟩
  | onTable q => exact .of_neutral (neutral_onTable q) (leavesChains_onTable q)
  | addConstant v =>
    exact .of_neutral (neutral_toSink (.addConstant v) (fun _ => rfl) fun _ => rfl) (leavesChains_toSink _)
  | emit _ hslot => exact balanced_emit hslot
  | mono _ hAB ih => exact ih.mono hAB
  | seq _ _ hd ihx ihf => exact ihx.seq ihf hd
  | operand _ hrepeatable hnew ih => exact balanced_operand ih hrepeatable hnew
  | again code hrepeatable => exact balanced_again code hrepeatable
  | skip _ _ hd ihx ihy => exact balanced_skipped ihx ihy hd
  | fork doneFirst _ _ _ hAB hABC ihx ihy ihz => exact balanced_forked doneFirst ihx ihy ihz hAB hABC
  | chain quiet _ _ hA hd hgained _ ihx ihy => exact balanced_chained quiet ihx ihy hA hd hgained
  | saving quiet _ _ _ _ hA hd hgained _ ihx ihy ihz ihw =>
    exact balanced_chainedSaving quiet ihx ihy ihz ihw hA hd hgained
  | loading quiet _ _ hA ihx ihy => exact balanced_chainedLoading quiet ihx ihy hA

end Lowering
end PhpLowering
