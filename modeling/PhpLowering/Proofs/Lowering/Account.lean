import PhpLowering.Lowering.Expr
import PhpLowering.Proofs.Lowering.Calls
import PhpLowering.Proofs.Tree.Invocations
import PhpLowering.Proofs.Tree.Targets

/-!
# What a step of the emission adds up to

The chain at hand remembers the operands that have been evaluated, so what a step emits depends on
what was emitted before.  An `Account` is what has to be known of a step to tell what it emits: the
operands that it takes to be new, those that it takes to be there, those that are there afterwards,
and the calls that are emitted.  Along with the calls, it lists the expressions that turn out to be
locations, because otherwise the step would have failed.

`Makes A x` says that the account is right whenever the step `x` succeeds.  Steps that make no call
and leave the chains alone are `Silent`.  That is a class, with an instance for every function that
has no code of others in it, so that what is silent in a function goes without saying and only the
steps that count are put together (`Makes.seq`, `Makes.before`, `Makes.behind`).
-/

namespace PhpLowering

namespace Pass.Ends

variable {ε σ α β : Type} {s : σ} {Q : β → σ → Prop} {E : ε → Prop}

/-- A look at the state before the rest. -/
theorem peek_bind {f : σ → α} {g : α → Pass ε σ β} (h : Ends (g (f s)) s Q E) :
    Ends (Pass.peek f >>= g) s Q E := h

/-- A change of the state before the rest. -/
theorem update_bind {f : σ → σ} {g : Unit → Pass ε σ β} (h : Ends (g ()) (f s) Q E) :
    Ends (Pass.update f >>= g) s Q E := h

end Pass.Ends

namespace Lowering

open Pass (Ends)

variable {α β : Type} {s t u : State Chunk}

/-! ## Operands that are kept -/

/-- The numbers of the operands that the innermost chain keeps. -/
def State.kept (s : State Chunk) : List Nat :=
  match s.chains with
  | [] => []
  | chain :: _ => chain.kept.map Prod.fst

theorem State.kept_congr (h : t.chains = s.chains) : t.kept = s.kept := by
  unfold State.kept
  rw [h]

/-- The calls that have been emitted since an earlier state. -/
def Calls (s t : State Chunk) (calls : List Invocation) : Prop :=
  ∃ added, t.active.code.toList = s.active.code.toList ++ added ∧
    added.filterMap Instruction.invocation? = calls

theorem Calls.of_eq (h : t.active.code = s.active.code) : Calls s t [] :=
  ⟨[], by rw [h, List.append_nil], rfl⟩

theorem Calls.trans {c c' : List Invocation} (h : Calls s t c) (h' : Calls t u c') :
    Calls s u (c ++ c') := by
  obtain ⟨added, hcode, rfl⟩ := h
  obtain ⟨added', hcode', rfl⟩ := h'
  exact ⟨added ++ added', by rw [hcode', hcode, List.append_assoc], List.filterMap_append⟩

/-! ## Silent steps -/

/-- A step that makes no call and leaves the chains alone. -/
class Silent (x : Emit Chunk α) : Prop where
  ends : ∀ s, Ends x s (fun _ t => t.chains = s.chains ∧ Calls s t []) anyFailure

section Silent

variable {x y : Emit Chunk α}

instance silent_pure (a : α) : Silent (pure a : Emit Chunk α) :=
  ⟨fun _ => .pure ⟨rfl, .of_eq rfl⟩⟩

instance silent_bind {f : α → Emit Chunk β} [hx : Silent x] [hf : ∀ a, Silent (f a)] :
    Silent (x >>= f) := by
  refine ⟨fun s => (hx.ends s).bind ?_⟩
  rintro a t ⟨hchains, hcalls⟩
  refine ((hf a).ends t).mono ?_
  rintro _ u ⟨hchains', hcalls'⟩
  exact ⟨hchains'.trans hchains, hcalls.trans hcalls'⟩

instance silent_ite {c : Prop} [Decidable c] [hx : Silent x] [hy : Silent y] :
    Silent (if c then x else y) := by
  split
  · exact hx
  · exact hy

instance silent_fail (e : CompileError) : Silent (Pass.fail e : Emit Chunk α) :=
  ⟨fun _ => .fail trivial⟩

instance silent_fault (f : Fault) : Silent (fault f : Emit Chunk α) :=
  silent_fail _

instance silent_peek (f : State Chunk → α) : Silent (Pass.peek f) :=
  ⟨fun _ => .peek ⟨rfl, .of_eq rfl⟩⟩

instance silent_onTable (q : Pass Fault RuleTable α) : Silent (onTable q : Emit Chunk α) := by
  refine ⟨fun s => .intro (fun a t hrun => ?_) fun _ _ _ => trivial⟩
  unfold onTable at hrun
  split at hrun
  · obtain rfl := (Prod.mk.inj hrun).2
    exact ⟨rfl, .of_eq rfl⟩
  · cases hrun

/-- A call to the sink that adds no code. -/
theorem silent_toSink {q : Pass SinkError Routine α}
    (h : ∀ r a r', q r = (.ok a, r') → r'.code = r.code) : Silent (toSink (Chunk.onActive q)) := by
  refine ⟨fun s => ends_toSink (.intro (fun a r hrun => ?_) fun _ _ _ => trivial)⟩
  refine ⟨rfl, .of_eq ?_⟩
  rw [State.active_withActive]
  exact h _ _ _ hrun

/-- An instruction is put behind the others. -/
theorem ends_emit (i : Instruction) (s : State Chunk) :
    Ends (emit i) s (fun _ t => t = s.withActive (s.active.push i)) anyFailure := by
  show Ends (toSink (Chunk.onActive (Routine.emit i))) s _ _
  refine ends_toSink (.intro (fun _ r hrun => ?_) fun _ _ _ => trivial)
  unfold Routine.emit at hrun
  split at hrun
  · split at hrun
    · rw [(Prod.mk.inj hrun).2]
    · cases hrun
  · rw [(Prod.mk.inj hrun).2]

/-- An instruction makes a call or none. -/
theorem calls_push (i : Instruction) (s : State Chunk) :
    Calls s (s.withActive (s.active.push i)) i.invocation?.toList := by
  refine ⟨[i], ?_, by cases i <;> rfl⟩
  rw [State.active_withActive]
  exact Array.toList_push ..

theorem silent_emit {i : Instruction} (h : i.invocation? = none) : Silent (emit i) := by
  refine ⟨fun s => (ends_emit i s).mono ?_⟩
  rintro _ _ rfl
  refine ⟨rfl, ?_⟩
  have hcalls := calls_push i s
  rwa [h] at hcalls

instance : Silent (emit .pop) := silent_emit rfl
instance : Silent (emit .dup) := silent_emit rfl
instance (k : Nat) : Silent (emit (.const k)) := silent_emit rfl
instance (t : Temp) : Silent (emit (.loadTemp t)) := silent_emit rfl
instance (t : Temp) : Silent (emit (.storeTemp t)) := silent_emit rfl
instance (name : String) : Silent (emit (.loadVar name)) := silent_emit rfl
instance (name : String) : Silent (emit (.loadVarRef name)) := silent_emit rfl
instance (name : String) : Silent (emit (.loadVarArray name)) := silent_emit rfl
instance (name : String) : Silent (emit (.storeVar name)) := silent_emit rfl
instance (name : String) : Silent (emit (.unsetVar name)) := silent_emit rfl
instance (name : String) : Silent (emit (.loadConstant name)) := silent_emit rfl
instance (code : TypeCode) : Silent (emit (.box code)) := silent_emit rfl
instance (op : RuntimeOp) : Silent (emit (.call op)) := silent_emit rfl
instance (m n : Nat) : Silent (emit (.newArray m n)) := silent_emit rfl
instance (n : Nat) : Silent (emit (.newValueArray n)) := silent_emit rfl
instance (l : Label) : Silent (emit (.branch l)) := silent_emit rfl
instance (l : Label) : Silent (emit (.branchIfTrue l)) := silent_emit rfl
instance (l : Label) : Silent (emit (.branchIfFalse l)) := silent_emit rfl

instance silent_addConstant (v : Literal) : Silent (toSink (Sink.addConstant v) : Emit Chunk Nat) := by
  refine silent_toSink (q := Routine.addConstant v) fun r k r' hrun => ?_
  unfold Routine.addConstant at hrun
  split at hrun
  · exact ((Prod.mk.inj hrun).2 ▸ rfl)
  · split at hrun
    · exact ((Prod.mk.inj hrun).2 ▸ rfl)
    · cases hrun

instance silent_mark (l : Label) : Silent (mark l : Emit Chunk Unit) := by
  refine silent_toSink (q := Routine.markLabel l) fun r k r' hrun => ?_
  unfold Routine.markLabel at hrun
  split at hrun
  · exact ((Prod.mk.inj hrun).2 ▸ rfl)
  · exact nomatch hrun

instance silent_declareTemp : Silent (declareTemp : Emit Chunk Temp) := by
  refine silent_toSink (q := Routine.declareTemp) fun r k r' hrun => ?_
  unfold Routine.declareTemp at hrun
  split at hrun
  · exact ((Prod.mk.inj hrun).2 ▸ rfl)
  · split at hrun
    · exact ((Prod.mk.inj hrun).2 ▸ rfl)
    · exact nomatch hrun

theorem active_returnTemp (k : Temp) (c : Chunk) :
    (Sink.returnTemp k c).active = c.active.returnTemp k := by
  rcases c with ⟨_, _, _ | _⟩ <;> rfl

theorem code_returnTemp (k : Temp) (r : Routine) : (r.returnTemp k).code = r.code := by
  unfold Routine.returnTemp
  split <;> rfl

instance silent_returnTemp (k : Temp) : Silent (returnTemp k : Emit Chunk Unit) := by
  refine ⟨fun s => .update ⟨rfl, .of_eq ?_⟩⟩
  show (Sink.returnTemp k s.sink).active.code = _
  rw [active_returnTemp, code_returnTemp]
  rfl

instance silent_defineLabel : Silent (defineLabel : Emit Chunk Label) := by
  refine ⟨fun s => .transform ⟨rfl, .of_eq ?_⟩⟩
  show (Chunk.onActive Routine.defineLabel s.sink).2.active.code = s.sink.active.code
  rw [Chunk.onActive_eq, Chunk.active_withActive]
  rfl

end Silent

instance silent_call (op : RuntimeOp) : Silent (call op : Emit Chunk TypeCode) := by
  unfold call
  infer_instance

instance silent_callVoid (op : RuntimeOp) : Silent (callVoid op : Emit Chunk Unit) := by
  unfold callVoid
  infer_instance

instance silent_pushLiteral (v : Literal) : Silent (pushLiteral v : Emit Chunk TypeCode) := by
  unfold pushLiteral
  infer_instance

instance silent_saveTo (k : Temp) : Silent (saveTo k : Emit Chunk Unit) := by
  unfold saveTo
  infer_instance

instance silent_box (code : TypeCode) : Silent (box code : Emit Chunk TypeCode) := by
  unfold box
  infer_instance

instance silent_convert (code target : TypeCode) : Silent (convert code target : Emit Chunk TypeCode) := by
  unfold convert
  cases converter? target <;> infer_instance

instance silent_discard (code : TypeCode) : Silent (discard code : Emit Chunk TypeCode) := by
  unfold discard
  infer_instance

instance silent_unlessDropped (access : Access) (code : TypeCode) :
    Silent (unlessDropped access code : Emit Chunk TypeCode) := by
  unfold unlessDropped
  infer_instance

instance silent_chainIsQuiet : Silent (chainIsQuiet : Emit Chunk Bool) :=
  silent_peek _

instance silent_isPlace (cfg : Setting) (e : Expr) : Silent (isPlace cfg e : Emit Chunk Bool) := by
  unfold isPlace
  infer_instance

instance silent_wrongRuleCode (rule kind : ExprKind) (access : Access) (use : Use) :
    Silent (wrongRuleCode rule kind access use : Emit Chunk TypeCode) := by
  cases use <;> unfold wrongRuleCode <;> infer_instance

instance silent_literalValue (access : Access) (v : Literal) :
    Silent (literalValue access v : Emit Chunk TypeCode) := by
  unfold literalValue
  infer_instance

instance silent_constantValue (access : Access) (name : String) :
    Silent (constantValue access name : Emit Chunk TypeCode) := by
  unfold constantValue
  infer_instance

instance silent_pushOperand (v : Literal) : Silent (pushOperand v : Emit Chunk TypeCode) := by
  unfold pushOperand
  cases v <;> infer_instance

instance silent_loadSaved (saved : Option Temp) : Silent (loadSaved saved : Emit Chunk TypeCode) := by
  unfold loadSaved
  cases saved <;> dsimp only <;> infer_instance

instance silent_incDecUsed (access : Access) : Silent (incDecUsed access : Emit Chunk Bool) := by
  unfold incDecUsed
  cases access <;> dsimp only <;> infer_instance

instance silent_saveResult (saved : Option Temp) :
    Silent (incDecValue.saveResult saved : Emit Chunk Unit) := by
  unfold incDecValue.saveResult
  cases saved <;> dsimp only <;> infer_instance

instance silent_fetch (index : Nat) : Silent (fetch index : Emit Chunk Unit) := by
  unfold fetch
  infer_instance

/-! ## Accounts -/

/-- What is to be known of a step. -/
structure Account where
  /-- The operands that are not kept before the step; no others are kept by it. -/
  fresh : List Nat := []
  /-- Operands that are kept before the step. -/
  known : List Nat := []
  /-- Operands that are kept after the step, if it is taken in a chain. -/
  gained : List Nat := []
  /-- The calls that are emitted. -/
  calls : List Invocation := []
  /-- Expressions that are locations if the step succeeds. -/
  places : List Expr := []

namespace Account

variable {A B : Account}

/-- A step can be taken in a state. -/
structure Allows (A : Account) (s : State Chunk) : Prop where
  fresh : ∀ i ∈ A.fresh, i ∉ s.kept
  known : ∀ i ∈ A.known, i ∈ s.kept

/-- A step has led from one state to another. -/
structure Done (A : Account) (s t : State Chunk) : Prop where
  depth : t.chains.length = s.chains.length
  outer : t.chains.tail = s.chains.tail
  keeps : ∀ i ∈ s.kept, i ∈ t.kept
  kept : ∀ i ∈ t.kept, i ∈ s.kept ∨ i ∈ A.fresh
  gained : s.chains ≠ [] → ∀ i ∈ A.gained, i ∈ t.kept
  calls : Calls s t A.calls
  places : ∀ e ∈ A.places, e.isPlace = true

/-- One step after another. -/
def seq (A B : Account) : Account where
  fresh := A.fresh ++ B.fresh
  known := A.known ++ B.known
  gained := A.gained ++ B.gained
  calls := A.calls ++ B.calls
  places := A.places ++ B.places

/-- The second account says less than the first one. -/
structure Covers (A B : Account) : Prop where
  fresh : A.fresh ⊆ B.fresh
  known : A.known ⊆ B.known
  gained : B.gained ⊆ A.gained
  calls : B.calls = A.calls
  places : B.places ⊆ A.places

theorem Covers.allows (h : A.Covers B) (hs : B.Allows s) : A.Allows s :=
  ⟨fun i hi => hs.fresh i (h.fresh hi), fun i hi => hs.known i (h.known hi)⟩

theorem Covers.done (h : A.Covers B) (hst : A.Done s t) : B.Done s t where
  depth := hst.depth
  outer := hst.outer
  keeps := hst.keeps
  kept i hi := (hst.kept i hi).imp_right fun hi => h.fresh hi
  gained hs i hi := hst.gained hs i (h.gained hi)
  calls := h.calls ▸ hst.calls
  places e he := hst.places e (h.places he)

/-- What is new to both of two steps is still new to the second one. -/
theorem Done.allows (h : A.Done s t) (hs : (A.seq B).Allows s) (hd : A.fresh.Disjoint B.fresh) :
    B.Allows t where
  fresh i hi hkept := by
    rcases h.kept i hkept with hi' | hi'
    · exact hs.fresh i (List.mem_append_right _ hi) hi'
    · exact hd hi' hi
  known i hi := h.keeps i (hs.known i (List.mem_append_right _ hi))

theorem Allows.left (hs : (A.seq B).Allows s) : A.Allows s :=
  ⟨fun i hi => hs.fresh i (List.mem_append_left _ hi),
    fun i hi => hs.known i (List.mem_append_left _ hi)⟩

theorem Done.trans (h : A.Done s t) (h' : B.Done t u) : (A.seq B).Done s u where
  depth := h'.depth.trans h.depth
  outer := h'.outer.trans h.outer
  keeps i hi := h'.keeps i (h.keeps i hi)
  kept i hi := by
    rcases h'.kept i hi with hi | hi
    · exact (h.kept i hi).imp_right (List.mem_append_left _)
    · exact Or.inr (List.mem_append_right _ hi)
  gained hs i hi := by
    have ht : t.chains ≠ [] := by
      intro hnil
      have hdepth := h.depth
      rw [hnil] at hdepth
      exact hs (List.eq_nil_of_length_eq_zero hdepth.symm)
    rcases List.mem_append.mp hi with hi | hi
    · exact h'.keeps i (h.gained hs i hi)
    · exact h'.gained ht i hi
  calls := h.calls.trans h'.calls
  places := List.forall_mem_append.mpr ⟨h.places, h'.places⟩

/-- Nothing but some calls is known of a state with the same chains. -/
theorem done_of_chains {calls : List Invocation} (hchains : t.chains = s.chains)
    (hcalls : Calls s t calls) : Done { calls } s t where
  depth := by rw [hchains]
  outer := by rw [hchains]
  keeps i hi := by rwa [State.kept_congr hchains]
  kept i hi := Or.inl (by rwa [State.kept_congr hchains] at hi)
  gained _ := nofun
  calls := hcalls
  places := nofun

end Account

/-- Whenever a step can be taken and succeeds, its account is right. -/
def Makes (A : Account) (x : Emit Chunk α) : Prop :=
  ∀ s, A.Allows s → Ends x s (fun _ t => A.Done s t) anyFailure

namespace Makes

variable {A B : Account} {x : Emit Chunk α} {f : α → Emit Chunk β}

theorem mono (h : Makes A x) (hAB : A.Covers B) : Makes B x :=
  fun s hs => (h s (hAB.allows hs)).mono fun _ _ => hAB.done

theorem silent [h : Silent x] : Makes {} x :=
  fun s _ => (h.ends s).mono fun _ _ ht => Account.done_of_chains ht.1 ht.2

theorem fail (e : CompileError) : Makes A (Pass.fail e : Emit Chunk α) :=
  fun _ _ => .fail trivial

theorem fault (f : Fault) : Makes A (Lowering.fault f : Emit Chunk α) :=
  .fail _

theorem seq (hx : Makes A x) (hf : ∀ a, Makes B (f a)) (hd : A.fresh.Disjoint B.fresh) :
    Makes (A.seq B) (x >>= f) := by
  intro s hs
  refine (hx s hs.left).bind fun a t ht => ?_
  exact (hf a t (ht.allows hs hd)).mono fun _ _ => ht.trans

/-- A silent step before the one that counts. -/
theorem before [Silent x] (hf : ∀ a, Makes A (f a)) : Makes A (x >>= f) :=
  (silent.seq hf (List.disjoint_nil_left _)).mono
    ⟨List.Subset.refl _, List.Subset.refl _, List.Subset.refl _, rfl, List.Subset.refl _⟩

/-- A silent step behind the one that counts. -/
theorem behind (hx : Makes A x) [∀ a, Silent (f a)] : Makes A (x >>= f) := by
  refine (hx.seq (fun _ => silent) (List.disjoint_nil_right _)).mono ?_
  constructor <;> simp [Account.seq]

end Makes

end Lowering
end PhpLowering
