import PhpLowering.Lowering.Place
import PhpLowering.Proofs.Lowering.Labels

/-!
# Code that only moves the stack

Most of the emission changes nothing that a scene speaks of, except the stack.  `Moves E S x Q`
says that of a step `x` that starts on the stack `S`: whatever the scene, it is the same
afterwards, and the answer together with the new stack satisfies `Q`.  A step of that sort is
followed by another one with `Moves.bind`, and the scene need not be mentioned at all.

The code of an expression answers with a type code, and what it leaves on the stack is what
the type code says.  `Yields E used x` adds that there is something on the stack if the value
is used.
-/

namespace PhpLowering

namespace TypeCode

/-- A value in general form. -/
def IsBoxed (c : TypeCode) : Prop :=
  c.isValue = true ∧ ¬ c.isPrimitive = true

instance (c : TypeCode) : Decidable c.IsBoxed :=
  inferInstanceAs (Decidable (_ ∧ _))

theorem IsBoxed.push {c : TypeCode} (h : c.IsBoxed) (S : List Slot) : c.push S = .boxed :: S :=
  push_of_isValue h.1 h.2 S

theorem push_nil_append (c : TypeCode) (S : List Slot) : c.push [] ++ S = c.push S := by
  unfold push
  split <;> rfl

theorem isValue_ofLiteral (v : Literal) : (ofLiteral v).isValue = true := by
  cases v <;> rfl

theorem push_ofLiteral (v : Literal) (S : List Slot) :
    (ofLiteral v).push S = (ofLiteral v).slot :: S := by
  rw [push, if_pos (isValue_ofLiteral v)]

end TypeCode

namespace Lowering

open Pass (Ends)

variable {E : CompileError → Prop} {α β : Type} {c : Scene} {S S' : List Slot} {s t : State Chunk}
  {l : Label} {K : List Slot}

/-- A step that starts on a stack changes nothing but the stack, and as `Q` says. -/
def Moves (E : CompileError → Prop) (S : List Slot) (x : Emit Chunk α)
    (Q : α → List Slot → Prop) : Prop :=
  ∀ (c : Scene) (s : State Chunk), Ready E c S s →
    Ends x s (fun a t => ∃ S', Q a S' ∧ Ready E c S' t) E

namespace Moves

variable {x : Emit Chunk α} {Q Q' : α → List Slot → Prop}

theorem mono (h : Moves E S x Q) (hQ : ∀ a S', Q a S' → Q' a S') : Moves E S x Q' := by
  intro c s hs
  refine (h c s hs).mono ?_
  rintro a t ⟨S', hS', ht⟩
  exact ⟨S', hQ a S' hS', ht⟩

theorem pure {a : α} (h : Q a S) : Moves E S (Pure.pure a) Q :=
  fun _ _ hs => .pure ⟨S, h, hs⟩

theorem fail {e : CompileError} (h : E e) : Moves E S (Pass.fail e : Emit Chunk α) Q :=
  fun _ _ _ => .fail h

/-- A fault that cannot occur, unless every failure is accepted. -/
theorem fault {P : Prop} {f : Fault} (h : Granted E P) (hP : P → E (.internal f)) :
    Moves E S (Lowering.fault f : Emit Chunk α) Q :=
  fail (h.error hP)

theorem bind {f : α → Emit Chunk β} {R : β → List Slot → Prop} (hx : Moves E S x Q)
    (hf : ∀ a S', Q a S' → Moves E S' (f a) R) : Moves E S (x >>= f) R := by
  intro c s hs
  refine (hx c s hs).bind ?_
  rintro a t ⟨S', hQ, ht⟩
  exact hf a S' hQ c t ht

/-- A sequence whose first part leaves a stack that is known, whatever its answer. -/
theorem andThen {f : α → Emit Chunk β} {R : β → List Slot → Prop} {T : List Slot}
    (hx : Moves E S x fun _ S' => S' = T) (hf : ∀ a, Moves E T (f a) R) : Moves E S (x >>= f) R := by
  refine hx.bind ?_
  rintro a _ rfl
  exact hf a

/-- A step that leaves a stack that is known, in a scene. -/
theorem ends {T : List Slot} (h : Moves E S x fun _ S' => S' = T) (hs : Ready E c S s) :
    Ends x s (fun _ t => Ready E c T t) E := by
  refine (h c s hs).mono ?_
  rintro a t ⟨_, rfl, ht⟩
  exact ht

/-- A step that looks at the state decides nothing about the stack. -/
theorem peek {f : State Chunk → α} (h : ∀ a, Q a S) : Moves E S (Pass.peek f) Q :=
  fun _ s hs => .peek ⟨S, h (f s), hs⟩

end Moves

/-- The code of a value: the stack holds what the answer says, and if the value is used there is
something. -/
def Yields (E : CompileError → Prop) (used : Prop) (x : Emit Chunk TypeCode) : Prop :=
  ∀ S, Moves E S x fun code S' => S' = code.push S ∧ Granted E (used → code.isValue = true)

/-- Code that leaves one value in general form. -/
def Boxes (E : CompileError → Prop) (x : Emit Chunk TypeCode) : Prop :=
  ∀ S, Moves E S x fun code S' => S' = .boxed :: S ∧ code.IsBoxed

theorem Yields.mono {used used' : Prop} {x : Emit Chunk TypeCode} (h : Yields E used x)
    (hu : Granted E (used' → used)) : Yields E used' x := by
  intro S
  refine (h S).mono ?_
  rintro code S' ⟨rfl, hcode⟩
  exact ⟨rfl, hcode.imp₂ hu fun h hu hu' => h (hu hu')⟩

theorem Boxes.yields {used : Prop} {x : Emit Chunk TypeCode} (h : Boxes E x) : Yields E used x := by
  intro S
  refine (h S).mono ?_
  rintro code S' ⟨rfl, hcode⟩
  exact ⟨(hcode.push S).symm, .mk fun _ => hcode.1⟩

/-! ## Instructions -/

/-- An instruction that finds its operands on top of the stack. -/
theorem moves_emit (i : Instruction) (top out S : List Slot)
    (hpops : i.pops = top.length) (haccepts : i.Accepts top)
    (hpushes : ∀ constants, i.pushes constants top = some out) (hlabels : i.labels = [])
    (hret : i ≠ .ret) : Moves E (top ++ S) (emit i) fun _ S' => S' = out ++ S := by
  intro c s hs
  have haccepts' : i.Accepts ((top ++ S).take i.pops) := by
    rw [hpops, List.take_left]
    exact haccepts
  refine (hs.emitPlain i haccepts' (Instruction.apply_append hpops (hpushes _) S) hlabels hret).mono ?_
  intro _ t ht
  exact ⟨_, rfl, ht⟩

/-- A primitive takes its operands in general form. -/
theorem moves_call (op : RuntimeOp) (S : List Slot) :
    Moves E (List.replicate op.arity .boxed ++ S) (emit (.call op)) fun _ S' =>
      S' = op.result.push S := by
  refine (moves_emit (.call op) _ (op.result.push []) S (List.length_replicate).symm ?_
    (fun _ => rfl) rfl nofun).mono ?_
  · intro slot hslot
    exact List.eq_of_mem_replicate hslot
  · intro _ S' h
    rw [h, TypeCode.push_nil_append]

/-- The same as an answer. -/
theorem moves_callResult (op : RuntimeOp) (S : List Slot) :
    Moves E (List.replicate op.arity .boxed ++ S) (call op) fun code S' =>
      code = op.result ∧ S' = op.result.push S :=
  (moves_call op S).bind fun _ _ h => .pure ⟨rfl, h⟩

/-- An instruction that takes the value on top, in general form. -/
theorem moves_take (i : Instruction) (S : List Slot) (hpops : i.pops = 1)
    (haccepts : i.Accepts [.boxed]) (hpushes : ∀ constants, i.pushes constants [.boxed] = some [])
    (hlabels : i.labels = []) (hret : i ≠ .ret) :
    Moves E (.boxed :: S) (emit i) fun _ S' => S' = S :=
  moves_emit i [.boxed] [] S hpops haccepts hpushes hlabels hret

/-- An instruction that pushes a value in general form. -/
theorem moves_load (i : Instruction) (S : List Slot) (hpops : i.pops = 0)
    (haccepts : i.Accepts []) (hpushes : ∀ constants, i.pushes constants [] = some [.boxed])
    (hlabels : i.labels = []) (hret : i ≠ .ret) :
    Moves E S (emit i) fun _ S' => S' = .boxed :: S :=
  moves_emit i [] [.boxed] S hpops haccepts hpushes hlabels hret

theorem moves_pop (slot : Slot) (S : List Slot) :
    Moves E (slot :: S) (emit .pop) fun _ S' => S' = S :=
  moves_emit .pop [slot] [] S rfl trivial (fun _ => rfl) rfl nofun

theorem moves_dup (slot : Slot) (S : List Slot) :
    Moves E (slot :: S) (emit .dup) fun _ S' => S' = slot :: slot :: S :=
  moves_emit .dup [slot] [slot, slot] S rfl trivial (fun _ => rfl) rfl nofun

theorem moves_loadTemp (t : Temp) (S : List Slot) :
    Moves E S (emit (.loadTemp t)) fun _ S' => S' = .boxed :: S :=
  moves_load (.loadTemp t) S rfl nofun (fun _ => rfl) rfl nofun

theorem moves_storeTemp (t : Temp) {slot : Slot} (S : List Slot)
    (h : slot = .boxed ∨ slot = .primitive .longInteger) :
    Moves E (slot :: S) (emit (.storeTemp t)) fun _ S' => S' = S := by
  refine moves_emit (.storeTemp t) [slot] [] S rfl ?_ (fun _ => rfl) rfl nofun
  rcases h with rfl | rfl
  · exact Or.inl rfl
  · exact Or.inr rfl

/-- Copying the value on top to a slot leaves the stack as it was. -/
theorem moves_saveTo (t : Temp) {slot : Slot} (S : List Slot)
    (h : slot = .boxed ∨ slot = .primitive .longInteger) :
    Moves E (slot :: S) (saveTo t) fun _ S' => S' = slot :: S := by
  refine (moves_dup slot S).andThen fun _ => ?_
  exact moves_storeTemp t (slot :: S) h

/-- A conditional branch takes a truth value, and the label has the stack below it. -/
theorem Ready.emitBranchIf {i : Instruction} (hs : Ready E c (.primitive .boolean :: S) s)
    (hi : i = .branchIfFalse l ∨ i = .branchIfTrue l) (hl : (l, S) ∈ c.typed) :
    Ends (Lowering.emit i) s (fun _ t => Ready E c S t) E := by
  have haccepts : i.Accepts ((.primitive .boolean :: S).take i.pops) := by
    rcases hi with rfl | rfl <;> rfl
  have happly : i.apply s.active.constants (.primitive .boolean :: S) = some S := by
    rcases hi with rfl | rfl <;> rfl
  have hlabels : i.labels = [l] := by
    rcases hi with rfl | rfl <;> rfl
  have hret : i ≠ .ret := by
    rcases hi with rfl | rfl <;> nofun
  refine (hs.emit i S S haccepts happly (fun _ => rfl) ?_ fun h => (hret h).elim).mono
    fun _ _ ht => ht.1
  intro m hm l' hl'
  rw [hlabels] at hl'
  obtain rfl := List.mem_singleton.mp hl'
  exact hm.typed hl

/-- After a branch that is always taken, the stack can be anything. -/
theorem Ready.emitBranch (hs : Ready E c S s) (hl : (l, S) ∈ c.typed) (S' : List Slot) :
    Ends (Lowering.emit (.branch l)) s (fun _ t => Ready E c S' t) E := by
  refine (hs.emit (.branch l) S S' (fun _ h => ?_) rfl nofun ?_ nofun).mono fun _ _ ht => ht.1
  · exact nomatch h
  · intro m hm l' hl'
    obtain rfl := List.mem_singleton.mp hl'
    exact hm.typed hl

/-! ## Constants and slots -/

/-- A constant that is filed for a literal is pushed in the representation of the literal. -/
theorem apply_const {constants : Array Literal} {k : Nat} {v w : Literal}
    (hw : constants[k]? = some w) (hvw : TypeCode.ofLiteral w = TypeCode.ofLiteral v) (S : List Slot) :
    (Instruction.const k).apply constants S = some ((TypeCode.ofLiteral v).push S) := by
  simp [Instruction.apply, Instruction.pops, Instruction.pushes, hw, hvw, TypeCode.push_ofLiteral]

theorem moves_pushLiteral (hE : Tolerates E) (v : Literal) (S : List Slot) :
    Moves E S (pushLiteral v) fun code S' =>
      code = TypeCode.ofLiteral v ∧ S' = (TypeCode.ofLiteral v).push S := by
  intro c s hs
  refine (hs.addConstant hE v).bind ?_
  rintro k t ⟨ht, w, hw, hvw⟩
  have happly := apply_const hw hvw S
  have hempty : (Instruction.const k).Accepts (S.take (Instruction.const k).pops) := nofun
  refine (ht.emitPlain _ hempty happly rfl nofun).bind fun _ u hu => ?_
  exact .pure ⟨_, ⟨rfl, rfl⟩, hu⟩

theorem moves_declareTemp (hE : Tolerates E) (S : List Slot) :
    Moves E S declareTemp fun _ S' => S' = S :=
  fun _ _ hs => (hs.declareTemp hE).mono fun _ _ ht => ⟨S, rfl, ht.1⟩

theorem moves_returnTemp (t : Temp) (S : List Slot) :
    Moves E S (returnTemp t) fun _ S' => S' = S :=
  fun _ _ hs => (hs.returnTemp t).mono fun _ _ ht => ⟨S, rfl, ht⟩

/-! ## Representations -/

theorem boxes_of_isBoxed {code : TypeCode} (h : code.IsBoxed) (S : List Slot) :
    Moves E (code.push S) (Pure.pure code) fun a S' => S' = .boxed :: S ∧ a.IsBoxed :=
  .pure ⟨h.push S, h⟩

theorem moves_box {code : TypeCode} (h : Granted E (code.isValue = true)) (S : List Slot) :
    Moves E (code.push S) (box code) fun a S' => S' = .boxed :: S ∧ a.IsBoxed := by
  unfold box
  split
  · rename_i hprim
    rw [TypeCode.push_of_isPrimitive hprim]
    have hbox : Moves E ([.primitive code] ++ S) (emit (.box code)) fun _ S' =>
        S' = [.boxed] ++ S :=
      moves_emit (.box code) [.primitive code] [.boxed] S rfl rfl (fun _ => rfl) rfl nofun
    refine hbox.andThen fun _ => ?_
    exact .pure ⟨rfl, rfl, nofun⟩
  · rename_i hprim
    split
    · rename_i hvalue
      exact boxes_of_isBoxed ⟨hvalue, hprim⟩ S
    · rename_i hvalue
      exact .fault h fun hv => (hvalue hv).elim

theorem Yields.boxes {used : Prop} {code : Code Chunk} (h : Yields E used (code .value))
    (hu : Granted E used) : Boxes E (boxed code) := by
  intro S
  refine (h S).bind ?_
  rintro a S' ⟨rfl, ha⟩
  exact moves_box (ha.imp₂ hu fun h hu => h hu) S

theorem converter?_eq {target : TypeCode} {op : RuntimeOp} (h : converter? target = some op) :
    op.arity = 1 ∧ op.result = target := by
  unfold converter? at h
  split at h <;> cases h <;> exact ⟨rfl, rfl⟩

theorem moves_convert {code target : TypeCode} {op : RuntimeOp} (h : Granted E (code.isValue = true))
    (hop : converter? target = some op) (S : List Slot) :
    Moves E (code.push S) (convert code target) fun a S' => a = target ∧ S' = target.push S := by
  unfold convert
  split
  · rename_i heq
    exact .pure ⟨heq, by rw [heq]⟩
  · split
    · rename_i heq
      rw [heq] at hop
      exact nomatch hop
    · simp only [hop]
      obtain ⟨harity, hresult⟩ := converter?_eq hop
      refine (moves_box h S).bind ?_
      rintro a S' ⟨rfl, -⟩
      have hcall := moves_callResult (E := E) op S
      rw [harity, hresult] at hcall
      exact hcall

/-- A value in a representation that there is a conversion to. -/
theorem Yields.converted {used : Prop} {code : Code Chunk} (h : Yields E used (code .value))
    (hu : Granted E used) {target : TypeCode} {op : RuntimeOp} (hop : converter? target = some op)
    (S : List Slot) :
    Moves E S (converted code target) fun a S' => a = target ∧ S' = target.push S := by
  refine (h S).bind ?_
  rintro a S' ⟨rfl, ha⟩
  exact moves_convert (ha.imp₂ hu fun h hu => h hu) hop S

theorem moves_discard (code : TypeCode) (S : List Slot) :
    Moves E (code.push S) (discard code) fun a S' => a = .void ∧ S' = S := by
  unfold discard
  split
  · rename_i hvalue
    rw [TypeCode.push, if_pos hvalue]
    refine (moves_pop code.slot S).andThen fun _ => ?_
    exact .pure ⟨rfl, rfl⟩
  · rename_i hvalue
    rw [TypeCode.push, if_neg hvalue]
    exact .pure ⟨rfl, rfl⟩

/-- A value that is dropped if nobody uses it. -/
theorem moves_unlessDropped (access : Access) (code : TypeCode) (h : code.isValue = true)
    (S : List Slot) :
    Moves E (code.push S) (unlessDropped access code) fun a S' =>
      S' = a.push S ∧ Granted E (access ≠ .none → a.isValue = true) := by
  unfold unlessDropped
  split
  · rename_i hnone
    refine (moves_discard code S).mono ?_
    rintro a S' ⟨rfl, rfl⟩
    exact ⟨rfl, .mk fun hne => (hne hnone).elim⟩
  · exact .pure ⟨rfl, .mk fun _ => h⟩

/-! ## Chains -/

/-- A state with other chains is as good. -/
theorem Ready.congr (hs : Ready E c S s) (hsink : t.sink = s.sink) (hframe : t.frame = s.frame)
    (hmemory : t.memory = s.memory) (htable : t.table = s.table) : Ready E c S t := by
  obtain ⟨ha, m, hm⟩ := hs
  refine ⟨?_, m, ?_⟩
  · exact
      { outside := by rw [hsink]; exact ha.outside
        finished := by rw [hsink]; exact ha.finished
        earlier := by rw [hsink]; exact ha.earlier
        memory := hmemory.trans ha.memory
        loops := by rw [hframe]; exact ha.loops
        nesting := by rw [hframe]; exact ha.nesting
        returnsRef := by rw [hframe]; exact ha.returnsRef
        table := by rw [htable]; exact ha.table }
  · have hactive : t.active = s.active := by
      unfold State.active
      rw [hsink]
    rw [hframe, hactive]
    exact hm

theorem moves_beginChain (quiet : Bool) (S : List Slot) :
    Moves E S (beginChain quiet) fun _ S' => S' = S :=
  fun _ _ hs => .update ⟨S, rfl, hs.congr rfl rfl rfl rfl⟩

theorem Ready.withReturnedAll (slots : List Temp) (hs : Ready E c S s) :
    Ready E c S { s with sink := slots.foldl (fun k t => Sink.returnTemp t k) s.sink } := by
  induction slots generalizing s with
  | nil => exact hs
  | cons t rest ih => exact ih (hs.withReturned t)

theorem Ready.endChain (hs : Ready E c S s) : Ready E c S s.endChain := by
  unfold State.endChain
  split
  · exact hs
  · rename_i chain chains _
    exact (hs.withReturnedAll ((s.releases 0).arrange chain.slots)).congr rfl rfl rfl rfl

theorem moves_endChain (S : List Slot) :
    Moves E S (Pass.update State.endChain) fun _ S' => S' = S :=
  fun _ _ hs => .update ⟨S, rfl, hs.endChain⟩

theorem Ready.keepOperand (hs : Ready E c S s) (id : Nat) (t : Temp) (code : TypeCode) :
    Ready E c S (s.keepOperand id t code) := by
  unfold State.keepOperand
  split
  · exact hs
  · exact hs.congr rfl rfl rfl rfl

/-- Whether it is evaluated or loaded from its slot, an operand of a chain is one value. -/
theorem moves_chainOperand (hE : Tolerates E) (e : Expr) {code : Code Chunk}
    (h : Boxes E (boxed code)) (S : List Slot) :
    Moves E S (chainOperand e code) fun _ S' => S' = .boxed :: S := by
  have hboxed : Moves E S (boxed code) fun _ S' => S' = .boxed :: S := (h S).mono fun _ _ h => h.1
  refine Moves.bind (Q := fun _ S' => S' = S) (.peek fun _ => rfl) ?_
  rintro chain _ rfl
  split
  · exact hboxed
  · rename_i chain
    split
    · exact hboxed
    · split
      · rename_i t code _
        refine (moves_loadTemp t _).andThen fun _ => ?_
        exact .pure rfl
      · refine hboxed.andThen fun code => ?_
        refine (moves_declareTemp hE _).andThen fun t => ?_
        refine (moves_saveTo t _ (Or.inl rfl)).andThen fun _ => ?_
        refine Moves.bind (Q := fun _ S' => S' = _) (fun _ _ hs =>
          .update ⟨_, rfl, hs.keepOperand e.id t code⟩) ?_
        rintro _ _ rfl
        exact .pure rfl

end Lowering
end PhpLowering
