import PhpLowering.Lowering.Operator
import PhpLowering.Proofs.Lowering.Places

/-!
# What the code of operators does to the stack

One lemma for every definition that puts the code of an expression together from the code
of its parts.  Each of them takes what is known of the parts as a hypothesis, so the lemmas
do not depend on how the parts are lowered.
-/

namespace PhpLowering

theorem BinaryOp.arity_runtimeOp (op : BinaryOp) : op.runtimeOp.arity = 2 := by
  cases op <;> rfl

theorem BinaryOp.isValue_result (op : BinaryOp) : op.runtimeOp.result.isValue = true := by
  cases op <;> rfl

namespace Lowering

open Pass (Ends)

variable {E : CompileError → Prop} {c : Scene} {S : List Slot} {s : State Chunk} {access : Access}

/-! ## Values -/

theorem yields_literal (hE : Tolerates E) (v : Literal)
    (h : Granted E (access = .none ∨ access = .read)) :
    Yields E (access ≠ .none) (literalValue access v) := by
  intro S
  unfold literalValue
  split
  · rename_i hnone
    exact .pure ⟨rfl, .mk fun hne => (hne hnone).elim⟩
  · split
    · rename_i hnone hwrite
      refine .fault h fun ha => ?_
      rcases ha with rfl | rfl
      · exact (hnone rfl).elim
      · exact nomatch hwrite
    · refine (moves_pushLiteral hE v S).mono ?_
      rintro a S' ⟨rfl, rfl⟩
      exact ⟨rfl, .mk fun _ => TypeCode.isValue_ofLiteral v⟩

theorem yields_constant (name : String) : Yields E (access ≠ .none) (constantValue access name) := by
  intro S
  refine (moves_load (.loadConstant name) S rfl nofun (fun _ => rfl) rfl nofun).andThen fun _ => ?_
  exact moves_unlessDropped access .object rfl S

theorem yields_binary (op : BinaryOp) {left right : Code Chunk} (hl : Boxes E (boxed left))
    (hr : Boxes E (boxed right)) : Yields E (access ≠ .none) (binaryValue access op left right) := by
  intro S
  refine (hl S).bind ?_
  rintro _ _ ⟨rfl, -⟩
  refine (hr _).bind ?_
  rintro _ _ ⟨rfl, -⟩
  have hcall := moves_callResult (E := E) op.runtimeOp S
  rw [op.arity_runtimeOp] at hcall
  refine hcall.bind ?_
  rintro _ _ ⟨rfl, rfl⟩
  exact moves_unlessDropped access _ op.isValue_result S

/-- A primitive with one operand. -/
theorem moves_callOn {op : RuntimeOp} {operand : Code Chunk} (harity : op.arity = 1)
    (hvalue : op.result.isValue = true) (h : Boxes E (boxed operand)) (S : List Slot) :
    Moves E S (callOn op operand) fun a S' => S' = a.push S ∧ a.isValue = true := by
  refine (h S).bind ?_
  rintro _ _ ⟨rfl, -⟩
  have hcall := moves_callResult (E := E) op S
  rw [harity] at hcall
  refine hcall.mono ?_
  rintro _ _ ⟨rfl, rfl⟩
  exact ⟨rfl, hvalue⟩

/-- A conversion answers with a value. -/
theorem moves_converted (target : TypeCode) {op : RuntimeOp} {operand : Code Chunk}
    (hop : converter? target = some op) (hvalue : target.isValue = true)
    (h : Yields E True (operand .value)) (S : List Slot) :
    Moves E S (converted operand target) fun a S' => S' = a.push S ∧ a.isValue = true := by
  refine (h.converted (.mk trivial) hop S).mono ?_
  rintro _ _ ⟨rfl, rfl⟩
  exact ⟨rfl, hvalue⟩

theorem moves_unaryResult (hE : Tolerates E) {op : UnaryOp} (hop : op ≠ .silence)
    {operand : Code Chunk} (h : Yields E True (operand .value)) (S : List Slot) :
    Moves E S (unaryResult op operand) fun a S' => S' = a.push S ∧ a.isValue = true := by
  have hboxes : Boxes E (boxed operand) := h.boxes (.mk trivial)
  cases op with
  | plus => exact moves_callOn rfl rfl hboxes S
  | minus => exact moves_callOn rfl rfl hboxes S
  | logicNot => exact moves_callOn rfl rfl hboxes S
  | bitNot => exact moves_callOn rfl rfl hboxes S
  | clone => exact moves_callOn rfl rfl hboxes S
  | print => exact moves_callOn rfl rfl hboxes S
  | intCast => exact moves_converted .longInteger rfl rfl h S
  | doubleCast => exact moves_converted .double rfl rfl h S
  | stringCast => exact moves_converted .string rfl rfl h S
  | binaryCast => exact moves_converted .bytes rfl rfl h S
  | boolCast => exact moves_converted .boolean rfl rfl h S
  | unsetCast =>
    refine (h S).bind ?_
    rintro a _ ⟨rfl, -⟩
    refine (moves_discard a S).bind ?_
    rintro _ _ ⟨-, rfl⟩
    refine (moves_pushLiteral hE .null _).mono ?_
    rintro _ _ ⟨rfl, rfl⟩
    exact ⟨rfl, rfl⟩
  | silence => exact (hop rfl).elim

/-- The operator `@` leaves what its operand leaves. -/
theorem yields_silence {operand : Code Chunk} {used : Prop} (h : Yields E used (operand .value)) :
    Yields E used (unaryValue access .silence operand) := by
  intro S
  refine (moves_call .beginSilence S).andThen fun _ => ?_
  refine (h _).bind ?_
  rintro a _ ⟨rfl, ha⟩
  refine (moves_call .endSilence _).andThen fun _ => ?_
  exact .pure ⟨rfl, ha⟩

theorem yields_unary (hE : Tolerates E) {op : UnaryOp} (hop : op ≠ .silence)
    {operand : Code Chunk} (h : Yields E True (operand .value)) :
    Yields E (access ≠ .none) (unaryValue access op operand) := by
  intro S
  unfold unaryValue
  rw [if_neg hop]
  refine (moves_unaryResult hE hop h S).bind ?_
  rintro a _ ⟨rfl, ha⟩
  exact moves_unlessDropped access a ha S

/-! ## Concatenations and calls -/

theorem moves_pushOperand (hE : Tolerates E) (v : Literal) (S : List Slot) :
    Moves E S (pushOperand v) fun a S' => S' = .boxed :: S ∧ a.IsBoxed := by
  unfold pushOperand
  split
  all_goals
    refine (moves_pushLiteral hE _ S).mono ?_
    rintro _ _ ⟨rfl, rfl⟩
    exact ⟨rfl, rfl, nofun⟩

theorem moves_concatOperand (hE : Tolerates E) (e : Expr) {code : Code Chunk}
    (h : Yields E True (code .value)) (S : List Slot) :
    Moves E S (concatOperand e code) fun _ S' => S' = .boxed :: S := by
  unfold concatOperand
  split
  · refine (moves_pushOperand hE _ S).bind ?_
    rintro a _ ⟨rfl, -⟩
    exact .pure rfl
  · refine (h S).bind ?_
    rintro a _ ⟨rfl, ha⟩
    split
    · exact .pure rfl
    · exact .pure rfl
    · refine (moves_box (ha.imp fun h => h trivial) S).bind ?_
      rintro _ _ ⟨rfl, -⟩
      split
      · refine (moves_call .toText S).andThen fun _ => ?_
        exact .pure rfl
      · exact .pure rfl

theorem arity_joinOp (l r : Operand) : (joinOp l r).arity = 2 := by
  cases l <;> cases r <;> rfl

theorem isValue_joinOp (l r : Operand) : (joinOp l r).result.isValue = true := by
  cases l <;> cases r <;> rfl

/-- A string stays a string; whether a boxed value is one turns up at run time only. -/
theorem moves_concatSingle (hE : Tolerates E) (e : Expr) {code : Code Chunk}
    (h : Yields E True (code .value)) (S : List Slot) :
    Moves E S (concatSingle e code) fun a S' => S' = a.push S ∧ a.isValue = true := by
  unfold concatSingle
  split
  · refine (moves_pushOperand hE _ S).mono ?_
    rintro a _ ⟨rfl, ha⟩
    exact ⟨(ha.push S).symm, ha.1⟩
  · refine (h S).bind ?_
    rintro a _ ⟨rfl, ha⟩
    split
    · rename_i htext
      refine .pure ⟨rfl, ?_⟩
      rcases htext with rfl | rfl <;> rfl
    · refine (moves_box (ha.imp fun h => h trivial) S).bind ?_
      rintro _ _ ⟨rfl, -⟩
      intro c s hs
      refine (hs.defineLabel (.boxed :: S)).bind ?_
      rintro done t ⟨ht, -⟩
      refine ((moves_dup .boxed S).ends ht).bind fun _ t ht => ?_
      refine ((moves_call .isBytes _).ends ht).bind fun _ t ht => ?_
      refine (ht.emitBranchIf (Or.inr rfl) List.mem_cons_self).bind fun _ t ht => ?_
      refine ((moves_call .toText S).ends ht).bind fun _ t ht => ?_
      refine (Ready.markLast ht hs.loopsIn).bind fun _ t ht => ?_
      exact .pure ⟨_, ⟨rfl, rfl⟩, ht⟩

theorem moves_pushBoxed {operands : List (Expr × Code Chunk)}
    (h : ∀ p ∈ operands, Yields E True (p.2 .value)) (S : List Slot) :
    Moves E S (pushBoxed operands) fun _ S' =>
      S' = List.replicate operands.length .boxed ++ S := by
  induction operands generalizing S with
  | nil => exact .pure rfl
  | cons p rest ih =>
    have hp : Boxes E (boxed p.2) := (h p List.mem_cons_self).boxes (.mk trivial)
    refine (hp S).bind ?_
    rintro _ _ ⟨rfl, -⟩
    refine (ih (fun q hq => h q (List.mem_cons_of_mem p hq)) _).mono ?_
    rintro _ _ rfl
    rw [List.length_cons, List.replicate_succ', List.append_assoc]
    rfl

theorem yields_concat (hE : Tolerates E) {operands : List (Expr × Code Chunk)}
    (h : ∀ p ∈ operands, Yields E True (p.2 .value)) :
    Yields E (access ≠ .none) (concatValue access operands) := by
  intro S
  have hresult : Moves E S (concatResult operands) fun a S' =>
      S' = a.push S ∧ a.isValue = true := by
    unfold concatResult
    split
    · refine (moves_pushLiteral hE _ S).mono ?_
      rintro _ _ ⟨rfl, rfl⟩
      exact ⟨rfl, rfl⟩
    · exact moves_concatSingle hE _ (h _ List.mem_cons_self) S
    · refine (moves_concatOperand hE _ (h _ List.mem_cons_self) S).andThen fun l => ?_
      refine (moves_concatOperand hE _ (h _ (List.mem_cons_of_mem _ List.mem_cons_self)) _).andThen fun r => ?_
      have hcall := moves_callResult (E := E) (joinOp l r) S
      rw [arity_joinOp] at hcall
      refine hcall.mono ?_
      rintro _ _ ⟨rfl, rfl⟩
      exact ⟨rfl, isValue_joinOp l r⟩
    · split
      · refine (moves_pushBoxed h S).andThen fun _ => ?_
        refine (moves_emit (.newValueArray operands.length) _ [.boxed] S
          List.length_replicate.symm (fun _ hmem => List.eq_of_mem_replicate hmem)
          (fun _ => rfl) rfl nofun).bind ?_
        rintro _ _ rfl
        refine (moves_callResult .concatN S).mono ?_
        rintro _ _ ⟨rfl, rfl⟩
        exact ⟨rfl, rfl⟩
      · exact .fail (hE.resource _)
  refine hresult.bind ?_
  rintro a _ ⟨rfl, ha⟩
  exact moves_unlessDropped access a ha S

theorem moves_pushArguments {args : List (Expr × Code Chunk)}
    (h : ∀ p ∈ args, Yields E True (p.2 .value)) (S : List Slot) :
    Moves E S (pushArguments args) fun _ S' => S' = List.replicate args.length .boxed ++ S := by
  induction args generalizing S with
  | nil => exact .pure rfl
  | cons p rest ih =>
    have hrest : Moves E (.boxed :: S) (pushArguments rest) fun _ S' =>
        S' = List.replicate (p :: rest).length .boxed ++ S := by
      refine (ih (fun q hq => h q (List.mem_cons_of_mem p hq)) _).mono ?_
      rintro _ _ rfl
      rw [List.length_cons, List.replicate_succ', List.append_assoc]
      rfl
    refine (h p List.mem_cons_self S).bind ?_
    rintro a _ ⟨rfl, ha⟩
    split
    · refine (moves_box (ha.imp fun h => h trivial) S).bind ?_
      rintro _ _ ⟨rfl, -⟩
      exact hrest
    · rename_i href
      obtain rfl := not_not.mp href
      exact hrest

theorem yields_call (hE : Tolerates E) (name : String) {args : List (Expr × Code Chunk)}
    (h : ∀ p ∈ args, Yields E True (p.2 .value)) :
    Yields E (access ≠ .none) (callValue access name args) := by
  intro S
  unfold callValue
  split
  · refine (moves_pushArguments h S).andThen fun _ => ?_
    refine (moves_emit (.callFunction name args.length) _ [.boxed] S
      List.length_replicate.symm (fun _ hmem => List.eq_of_mem_replicate hmem)
      (fun _ => rfl) rfl nofun).bind ?_
    rintro _ _ rfl
    exact moves_unlessDropped access .object rfl S
  · exact .fail (hE.resource _)

/-! ## Conditionals -/

/-- Both branches of a conditional leave what the conditional leaves. -/
theorem moves_branchValue {code : Code Chunk} {used : Prop} [Decidable used]
    (hused : used ↔ access ≠ .none) (h : Yields E used (code .value)) (S : List Slot) :
    Moves E S (branchValue (decide used) code) fun _ S' =>
      S' = (conditionalResult access).push S := by
  refine (h S).bind ?_
  rintro a _ ⟨rfl, ha⟩
  by_cases hu : used
  · have haccess : access ≠ .none := hused.mp hu
    have hbox := moves_box (ha.imp fun h => h hu) S
    simp only [decide_eq_true hu, if_true, conditionalResult, if_neg haccess]
    refine hbox.bind ?_
    rintro _ _ ⟨rfl, -⟩
    exact .pure rfl
  · have haccess : access = .none := not_not.mp fun h => hu (hused.mpr h)
    simp only [decide_eq_false hu, Bool.false_eq_true, if_false, conditionalResult, if_pos haccess]
    refine (moves_discard a S).bind ?_
    rintro _ _ ⟨-, rfl⟩
    exact .pure rfl

/-- What a conditional leaves is a value if it is used. -/
theorem isValue_conditionalResult (h : access ≠ .none) :
    (conditionalResult access).isValue = true := by
  rw [conditionalResult, if_neg h]
  rfl

theorem yields_conditional {condition ifTrue ifFalse : Code Chunk}
    (hc : Yields E True (condition .value)) (ht : Yields E (access ≠ .none) (ifTrue .value))
    (hf : Yields E (access ≠ .none) (ifFalse .value)) :
    Yields E (access ≠ .none) (conditionalValue access condition ifTrue ifFalse) := by
  intro S c s hs
  have hin := hs.loopsIn
  refine (hs.defineLabel ((conditionalResult access).push S)).bind ?_
  rintro done s ⟨hs, -⟩
  refine (hs.defineLabel S).bind ?_
  rintro otherwise s ⟨hs, -⟩
  refine (hc.converted (.mk trivial) (rfl : converter? .boolean = some .toBool) S _ s hs).bind ?_
  rintro _ s ⟨_, ⟨rfl, rfl⟩, hs⟩
  refine (Ready.emitBranchIf hs (Or.inl rfl) List.mem_cons_self).bind fun _ s hs => ?_
  refine ((moves_branchValue Iff.rfl ht S).ends hs).bind fun _ s hs => ?_
  refine (hs.emitBranch (List.mem_cons_of_mem _ List.mem_cons_self) S).bind fun _ s hs => ?_
  refine (hs.markLast (hin.cons done)).bind fun _ s hs => ?_
  refine ((moves_branchValue Iff.rfl hf S).ends hs).bind fun _ s hs => ?_
  refine (hs.markLast hin).bind fun _ s hs => ?_
  exact .pure ⟨_, ⟨rfl, .mk isValue_conditionalResult⟩, hs⟩

theorem yields_shortcut {condition ifFalse : Code Chunk} (hc : Yields E True (condition .value))
    (hf : Yields E (access ≠ .none) (ifFalse .value)) :
    Yields E (access ≠ .none) (shortcutValue access condition ifFalse) := by
  intro S c s hs
  have hin := hs.loopsIn
  refine (hs.defineLabel ((conditionalResult access).push S)).bind ?_
  rintro done s ⟨hs, -⟩
  have hrest : ∀ s, Ready E (c.addLabel done ((conditionalResult access).push S)) S s → Ends (do
      branchValue (decide (access ≠ .none)) ifFalse
      mark done
      return conditionalResult access) s (fun a t => ∃ S', (S' = a.push S ∧
        Granted E (access ≠ .none → a.isValue = true)) ∧ Ready E c S' t) E := by
    intro s hs
    refine ((moves_branchValue Iff.rfl hf S).ends hs).bind fun _ s hs => ?_
    refine (hs.markLast hin).bind fun _ s hs => ?_
    exact .pure ⟨_, ⟨rfl, .mk isValue_conditionalResult⟩, hs⟩
  -- Either way the label is gone to with what the conditional leaves, and the code goes on without.
  by_cases hused : access ≠ .none
  · have hresult : (conditionalResult access).push S = .boxed :: S := by
      rw [conditionalResult, if_neg hused]
      rfl
    simp only [if_pos hused]
    refine (hc.boxes (.mk trivial) S _ s hs).bind ?_
    rintro _ s ⟨_, ⟨rfl, -⟩, hs⟩
    refine ((moves_dup .boxed S).ends hs).bind fun _ s hs => ?_
    refine ((moves_call .toBool _).ends hs).bind fun _ s hs => ?_
    refine (Ready.emitBranchIf hs (Or.inr rfl) (hresult ▸ List.mem_cons_self)).bind fun _ s hs => ?_
    refine ((moves_pop .boxed S).ends hs).bind fun _ s hs => ?_
    exact hrest s hs
  · have hresult : (conditionalResult access).push S = S := by
      rw [conditionalResult, if_pos (not_not.mp hused)]
      rfl
    simp only [if_neg hused]
    refine (hc.converted (.mk trivial) (rfl : converter? .boolean = some .toBool) S _ s hs).bind ?_
    rintro _ s ⟨_, ⟨rfl, rfl⟩, hs⟩
    have hmem : (done, S) ∈ (c.addLabel done ((conditionalResult access).push S)).typed := by
      rw [hresult]
      exact List.mem_cons_self
    refine (Ready.emitBranchIf hs (Or.inr rfl) hmem).bind fun _ s hs => ?_
    exact hrest s hs

end Lowering
end PhpLowering
