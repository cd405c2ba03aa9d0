import PhpLowering.Proofs.Outcome
import PhpLowering.Proofs.Analysis.Expr
import PhpLowering.Proofs.Tree.Copy

/-!
# Two analyses of one expression

The same expression is analysed twice, in two settings and from two states.  A relation between the states
that nothing in the analysis of an expression can break is a `Bond`; what has to be the same in the settings
is in `Kindred`.

Deals that the analysis gives out may be different in the two states, so trees are looked at through a
`Copying` that takes numbers that stand for each other to the same one.  **`agrees_analyze`**: the two
analyses of an expression agree.  It is by induction on the expression, and there is one lemma for every way
of putting steps together.
-/

namespace PhpLowering

/-! ## Copies of what is found -/

namespace Expr

variable {c : Copying} {e e' : Expr}

theorem span_copy (e : Expr) : (e.copy c).span = e.span := by
  cases e <;> rfl

theorem access_copy (e : Expr) : (e.copy c).access = e.access := by
  cases e <;> rfl

theorem copy_withAccess (access : Access) (e : Expr) : (e.withAccess access).copy c = (e.copy c).withAccess access := by
  cases e <;> rfl

theorem value?_eq_of_copy (h : e'.copy c = e.copy c) : e'.value? = e.value? := by
  rw [← e'.value?_copy, h, e.value?_copy]

theorem copyAll_append (es es' : List Expr) : copyAll c (es ++ es') = copyAll c es ++ copyAll c es' := by
  rw [copyAll_eq_map, copyAll_eq_map, copyAll_eq_map, List.map_append]

end Expr

namespace Evaluation

variable {c : Copying} {ev ev' : Evaluation}

/-- What is found of a copy. -/
def copy (c : Copying) : Evaluation → Evaluation
  | .value v node => .value v (node.copy c)
  | .residual node => .residual (node.copy c)

theorem value?_eq_of_copy (h : ev'.copy c = ev.copy c) : ev'.value? = ev.value? := by
  have hcopy (ev : Evaluation) : (ev.copy c).value? = ev.value? := by cases ev <;> rfl
  rw [← hcopy ev', h, hcopy]

theorem node_eq_of_copy (h : ev'.copy c = ev.copy c) : ev'.node.copy c = ev.node.copy c := by
  have hcopy (ev : Evaluation) : (ev.copy c).node = ev.node.copy c := by cases ev <;> rfl
  rw [← hcopy ev', h, hcopy]

theorem copy_ofParts {e e' : Expr} (h : e'.copy c = e.copy c) (value : Option Literal) :
    (ofParts e' value).copy c = (ofParts e value).copy c := by
  cases value with
  | some v => exact congrArg (Evaluation.value v) h
  | none => exact congrArg Evaluation.residual h

end Evaluation

/-- What a run of a concatenation is for a copy. -/
def Concat.Run.copy (c : Copying) : Concat.Run → Concat.Run
  | .value v span => .value v span
  | .residual nodes => .residual (Expr.copyAll c nodes)

namespace Concat

variable {c : Copying}

theorem push_copy (ev : Evaluation) (rs : List Run) :
    (push ev rs).map (Run.copy c) = push (ev.copy c) (rs.map (Run.copy c)) := by
  cases ev with
  | value v node =>
    simp only [push, Evaluation.copy, Expr.span_copy]
    split
    · rfl
    · rcases rs with _ | ⟨_ | _, _⟩ <;> rfl
  | residual node => rcases rs with _ | ⟨_ | _, _⟩ <;> rfl

theorem wholeSpan_copy (evs : List Evaluation) : wholeSpan (evs.map (Evaluation.copy c)) = wholeSpan evs := by
  have hspan (ev : Evaluation) : (ev.copy c).node.span = ev.node.span := by
    cases ev <;> exact Expr.span_copy _
  have hfold (rest : List Evaluation) (s : Span) :
      (rest.map (Evaluation.copy c)).foldl (fun s e => s.merge e.node.span) s =
        rest.foldl (fun s e => s.merge e.node.span) s := by
    rw [List.foldl_map]
    simp only [hspan]
  cases evs with
  | nil => rfl
  | cons ev rest =>
    rw [List.map_cons, wholeSpan, wholeSpan, hspan, hfold]

theorem runs_copy (evs : List Evaluation) (fold : Bool) :
    (runs evs fold).map (Run.copy c) = runs (evs.map (Evaluation.copy c)) fold := by
  have hfold (evs : List Evaluation) :
      (evs.foldr push []).map (Run.copy c) = (evs.map (Evaluation.copy c)).foldr push [] := by
    induction evs with
    | nil => rfl
    | cons ev rest ih => rw [List.foldr_cons, push_copy, ih, List.map_cons, List.foldr_cons]
  unfold runs
  split
  · rw [← hfold, wholeSpan_copy]
    cases evs.foldr push [] <;> rfl
  · rw [List.map_map, List.map_map]
    refine List.map_congr_left fun ev _ => ?_
    cases ev with
    | value v node => exact congrArg (Run.value v) (Expr.span_copy node).symm
    | residual node => rfl

theorem eq_value_of_copy {rs : List Run} {v : Literal} {span : Span}
    (h : rs.map (Run.copy c) = [Run.value v span].map (Run.copy c)) : rs = [.value v span] := by
  obtain ⟨r, rfl, hr⟩ := List.map_eq_singleton_iff.mp h
  cases r with
  | value => exact congrArg (fun r => [r]) hr
  | residual => exact nomatch hr

end Concat

namespace Analysis

variable {α γ : Type} {c : Copying} {cfg cfg' : Setting} {known : Prop} {R : State → State → Prop}

/-! ## New numbers -/

variable (c) in
/-- The next numbers in two states stand for each other. -/
def Level (n n' : Nat) : Prop :=
  ∀ k, c.idle (nodeId (n' + k)) = c.idle (nodeId (n + k))

variable (c) in
/-- Two ways to give out numbers give out as many, and what they answer with is the same under a view. -/
def Deals (v : α → γ) (f g : Nat → α × Nat) : Prop :=
  ∀ {n n'}, Level c n n' → v (g n').1 = v (f n).1 ∧ ∃ k, (f n).2 = n + k ∧ (g n').2 = n' + k

theorem Level.add {n n' : Nat} (h : Level c n n') (k : Nat) : Level c (n + k) (n' + k) := by
  intro j
  rw [Nat.add_assoc, Nat.add_assoc]
  exact h (k + j)

theorem Level.zero {n n' : Nat} (h : Level c n n') : c.idle (nodeId n') = c.idle (nodeId n) :=
  h 0

theorem deals_literalize {ev ev' : Evaluation} (h : ev'.copy c = ev.copy c) :
    Deals c (Expr.copy c) ev.literalize ev'.literalize := by
  intro n n' hlevel
  cases ev with
  | residual node =>
    cases ev' with
    | residual node' => exact ⟨Evaluation.residual.inj h, 0, rfl, rfl⟩
    | value => exact nomatch h
  | value v node =>
    cases ev' with
    | residual => exact nomatch h
    | value v' node' =>
      obtain ⟨rfl, hnode⟩ := Evaluation.value.inj h
      have hspan : node'.span = node.span := by rw [← node'.span_copy (c := c), hnode, node.span_copy]
      have haccess : node'.access = node.access := by rw [← node'.access_copy (c := c), hnode, node.access_copy]
      have hfresh : (Expr.literal { node'.tag with id := nodeId n' } v').copy c =
          (Expr.literal { node.tag with id := nodeId n } v').copy c := by
        simp only [Expr.copy, hlevel.zero]
        rw [show node'.tag.span = node.tag.span from hspan, show node'.tag.access = node.tag.access from haccess]
      cases node with
      | literal =>
        cases node' with
        | literal => exact ⟨hnode, 0, rfl, rfl⟩
        | _ => exact nomatch hnode
      | _ =>
        cases node' with
        | literal => exact nomatch hnode
        | _ => exact ⟨hfresh, 1, rfl, rfl⟩

variable (c) in
/-- An operand and the value of the operator. -/
abbrev folded (p : Expr × Option Literal) : Expr × Option Literal :=
  (p.1.copy c, p.2)

variable (c) in
/-- Two operands and the value of the operator. -/
abbrev foldedPair (p : Expr × Expr × Option Literal) : Expr × Expr × Option Literal :=
  (p.1.copy c, folded c p.2)

theorem deals_evaluate {ev ev' : Evaluation} (h : ev'.copy c = ev.copy c) (fold : Literal → Option Literal) :
    Deals c (folded c) (ev.evaluate fold) (ev'.evaluate fold) := by
  intro n n' hlevel
  unfold Evaluation.evaluate
  rw [Evaluation.value?_eq_of_copy h]
  cases ev.value?.bind fold with
  | some v => exact ⟨congrArg (·, some v) (Evaluation.node_eq_of_copy h), 0, rfl, rfl⟩
  | none =>
    obtain ⟨hnode, k, hn, hn'⟩ := deals_literalize h hlevel
    exact ⟨congrArg (·, none) hnode, k, hn, hn'⟩

theorem deals_literalizeBoth {l l' r r' : Evaluation} (hl : l'.copy c = l.copy c) (hr : r'.copy c = r.copy c) :
    Deals c (foldedPair c) (Evaluation.evaluatePair.literalizeBoth l r)
      (Evaluation.evaluatePair.literalizeBoth l' r') := by
  intro n n' hlevel
  obtain ⟨hleft, k, hn, hn'⟩ := deals_literalize hl hlevel
  have hnext : Level c (l.literalize n).2 (l'.literalize n').2 := by
    rw [hn, hn']
    exact hlevel.add k
  obtain ⟨hright, j, hm, hm'⟩ := deals_literalize hr hnext
  refine ⟨congrArg₂ (fun e e' => (e, e', none)) hleft hright, k + j, ?_, ?_⟩
  · exact hm.trans (by rw [hn, Nat.add_assoc])
  · exact hm'.trans (by rw [hn', Nat.add_assoc])

theorem deals_evaluatePair {l l' r r' : Evaluation} (hl : l'.copy c = l.copy c) (hr : r'.copy c = r.copy c)
    (fold : Literal → Literal → Option Literal) :
    Deals c (foldedPair c) (l.evaluatePair r fold) (l'.evaluatePair r' fold) := by
  intro n n' hlevel
  unfold Evaluation.evaluatePair
  rw [Evaluation.value?_eq_of_copy hl, Evaluation.value?_eq_of_copy hr]
  split
  · split
    · rename_i v _
      exact ⟨congrArg₂ (fun e e' => (e, e', some v)) (Evaluation.node_eq_of_copy hl) (Evaluation.node_eq_of_copy hr),
        0, rfl, rfl⟩
    · exact deals_literalizeBoth hl hr hlevel
  · exact deals_literalizeBoth hl hr hlevel

theorem deals_operands {rs rs' : List Concat.Run} (h : rs'.map (Concat.Run.copy c) = rs.map (Concat.Run.copy c)) :
    Deals c (Expr.copyAll c) (Concat.operands rs) (Concat.operands rs') := by
  induction rs generalizing rs' with
  | nil =>
    cases rs' with
    | nil => exact fun _ => ⟨rfl, 0, rfl, rfl⟩
    | cons => exact nomatch h
  | cons r rs ih =>
    cases rs' with
    | nil => exact nomatch h
    | cons r' rs' =>
      obtain ⟨hr, hrest⟩ := List.cons.inj h
      intro n n' hlevel
      cases r with
      | value v span =>
        cases r' with
        | residual => exact nomatch hr
        | value v' span' =>
          obtain ⟨rfl, rfl⟩ := Concat.Run.value.inj hr
          obtain ⟨hes, k, hn, hn'⟩ := ih hrest (hlevel.add 1)
          refine ⟨?_, 1 + k, hn.trans (Nat.add_assoc ..), hn'.trans (Nat.add_assoc ..)⟩
          simp only [Concat.operands, Expr.copyAll, Expr.copy, hlevel.zero]
          exact congrArg _ hes
      | residual nodes =>
        cases r' with
        | value => exact nomatch hr
        | residual nodes' =>
          obtain ⟨hes, k, hn, hn'⟩ := ih hrest hlevel
          refine ⟨?_, k, hn, hn'⟩
          simp only [Concat.operands, Expr.copyAll_append]
          rw [Concat.Run.residual.inj hr]
          exact congrArg _ hes

/-! ## Related states -/

/-- Two settings are the same but for the order in which the functions of the unit are listed, and for the
options that expressions do not depend on. -/
structure Kindred (cfg cfg' : Setting) : Prop where
  registry : cfg'.registry = cfg.registry
  symbols : cfg'.symbols = cfg.symbols
  foldConstants : cfg'.options.foldConstants = cfg.options.foldConstants
  function? : ∀ name, State.function? cfg' name = State.function? cfg name

theorem Kindred.decided? (hcfg : Kindred cfg cfg') {ev ev' : Evaluation} (h : ev'.copy c = ev.copy c) :
    decided? cfg' ev' = decided? cfg ev := by
  unfold Analysis.decided?
  rw [hcfg.foldConstants, Evaluation.value?_eq_of_copy h]

theorem Kindred.constant?_eq (hcfg : Kindred cfg cfg') {s s' : State} (h : s'.constants = s.constants) (name : String) :
    s'.constant? cfg' name = s.constant? cfg name := by
  unfold State.constant?
  rw [h, hcfg.symbols]

/-- A relation between states that nothing in the analysis of an expression can break.  The constants need
not be the same unless they are `known` to be. -/
class Bond (cfg cfg' : outParam Setting) (c : outParam Copying) (known : outParam Prop)
    (R : State → State → Prop) : Prop where
  kindred : Kindred cfg cfg'
  level {s s' : State} : R s s' → Level c s.nextId s'.nextId
  number {s s' : State} : R s s' → ∀ k, R { s with nextId := s.nextId + k } { s' with nextId := s'.nextId + k }
  flow {s s' : State} : R s s' → s'.flow = s.flow
  withFlow {s s' : State} : R s s' → ∀ flow, R { s with flow } { s' with flow }
  countKey {s s' : State} : R s s' → ∀ home isInteger, R { s with memory := s.memory.countKey home isInteger }
    { s' with memory := s'.memory.countKey home isInteger }
  report {s s' : State} : R s s' → ∀ {p : Problem} (span : Span), p ≠ .unreachableCode → R (s.report p span) (s'.report p span)
  ruleExpr {s s' : State} : R s s' → ∀ kind id, (RuleTable.expr cfg.registry kind id s'.table).1 =
      (RuleTable.expr cfg.registry kind id s.table).1 ∧
    R { s with table := (RuleTable.expr cfg.registry kind id s.table).2 }
      { s' with table := (RuleTable.expr cfg.registry kind id s'.table).2 }
  constants {s s' : State} : known → R s s' → s'.constants = s.constants

variable {v : α → γ} {x y : Analyze α} {s s' : State}

/-! ## Steps of the analysis -/

/-- Two steps of the analysis agree. -/
abbrev Agrees (R : State → State → Prop) (v : α → γ) (x y : Analyze α) : Prop :=
  Pass.Agrees R v x y

section Steps

variable [bond : Bond cfg cfg' c known R]

include bond

/-- The place of the two states is the same, and goes on to be. -/
theorem Bond.reflow (h : R s s') (f : Flow → Flow) :
    R { s with flow := f s.flow } { s' with flow := f s'.flow } := by
  rw [bond.flow h]
  exact bond.withFlow h (f s.flow)

theorem agrees_byRule {node : Expr} {f g : Home ExprKind → Analyze Evaluation}
    (h : ∀ home, Agrees R (Evaluation.copy c) (f home) (g home)) :
    Agrees R (Evaluation.copy c) (byRule cfg node f) (byRule cfg' node g) := by
  have htable : Agrees R id (onTable (RuleTable.expr cfg.registry node.kind node.id))
      (onTable (RuleTable.expr cfg'.registry node.kind node.id)) := by
    intro s s' hs
    rw [bond.kindred.registry]
    obtain ⟨hanswer, htables⟩ := bond.ruleExpr hs node.kind node.id
    exact ⟨htables, congrArg (Except.map id) hanswer⟩
  refine htable.before fun handle => ?_
  split
  · exact h handle.home
  · split
    · exact .pure rfl
    · exact .fail _

/-- A step that takes numbers and does nothing else. -/
theorem agrees_deals {v : α → γ} {f g : Nat → α × Nat} (h : Deals c v f g) :
    Agrees R v (Pass.transform fun s => ((f s.nextId).1, { s with nextId := (f s.nextId).2 }))
      (Pass.transform fun s => ((g s.nextId).1, { s with nextId := (g s.nextId).2 })) :=
  .transform fun s s' hs => by
    obtain ⟨hanswer, k, hn, hn'⟩ := h (bond.level hs)
    rw [hn, hn']
    exact ⟨bond.number hs k, hanswer⟩

theorem agrees_keep {ev ev' : Evaluation} (h : ev'.copy c = ev.copy c) :
    Agrees R (Expr.copy c) (keep ev) (keep ev') :=
  agrees_deals (deals_literalize h)

theorem agrees_kept {x y : Analyze Evaluation} (h : Agrees R (Evaluation.copy c) x y) :
    Agrees R (Expr.copy c) (kept x) (kept y) :=
  h.bind fun _ _ hev => agrees_keep hev

theorem agrees_inConditional {x y : Analyze α} {v : α → γ} (h : Agrees R v x y) :
    Agrees R v (inConditional x) (inConditional y) :=
  .before (.update fun _ _ hs => bond.reflow hs fun flow => { flow with conditionals := flow.conditionals + 1 })
    fun _ => h.ensuring fun _ _ hs => bond.reflow hs fun flow =>
      { flow with conditionals := flow.conditionals - 1, reachability := ⟨false, false⟩ }

theorem agrees_foldUnary {ev ev' : Evaluation} (h : ev'.copy c = ev.copy c) (fold : Literal → Option Literal) :
    Agrees R (folded c) (foldUnary cfg ev fold) (foldUnary cfg' ev' fold) := by
  unfold foldUnary
  rw [bond.kindred.foldConstants]
  exact agrees_deals (deals_evaluate h _)

theorem agrees_foldBinary {l l' r r' : Evaluation} (hl : l'.copy c = l.copy c) (hr : r'.copy c = r.copy c)
    (fold : Literal → Literal → Literal) :
    Agrees R (foldedPair c) (foldBinary cfg l r fold) (foldBinary cfg' l' r' fold) := by
  unfold foldBinary
  rw [bond.kindred.foldConstants]
  exact agrees_deals (deals_evaluatePair hl hr _)

theorem agrees_countKey (home : Home ExprKind) {key key' : Option Expr}
    (h : key'.map (Expr.copy c) = key.map (Expr.copy c)) : Agrees R id (countKey home key) (countKey home key') := by
  have hkey : key'.map Expr.value? = key.map Expr.value? := by
    cases key with
    | none => rw [Option.map_eq_none_iff.mp h]
    | some k =>
      cases key' with
      | none => exact nomatch h
      | some k' => exact congrArg some (Expr.value?_eq_of_copy (Option.some.inj h))
  have hstep (key : Option Expr) : countKey home key = Pass.update fun s =>
      { s with memory := s.memory.countKey home
                (match key.map Expr.value? with
                | none => true
                | some none => false
                | some (some v) => v.isIntegerKey) } := by
    cases key with
    | none => rfl
    | some k =>
      unfold countKey
      simp only [Option.map_some]
      cases k.value? <;> rfl
  rw [hstep, hstep, hkey]
  exact .update fun _ _ hs => bond.countKey hs home _

theorem agrees_joinOperands (tag : ExprTag) {evs evs' : List Evaluation}
    (h : evs'.map (Evaluation.copy c) = evs.map (Evaluation.copy c)) :
    Agrees R (Evaluation.copy c) (joinOperands cfg tag evs) (joinOperands cfg' tag evs') := by
  have hrebuild {rs rs' : List Concat.Run} (h : rs'.map (Concat.Run.copy c) = rs.map (Concat.Run.copy c)) :
      Agrees R (Evaluation.copy c) (joinOperands.rebuild tag rs) (joinOperands.rebuild tag rs') :=
    agrees_deals
      (f := fun n => (Evaluation.residual (.concat tag (Concat.operands rs n).1), (Concat.operands rs n).2))
      (g := fun n => (Evaluation.residual (.concat tag (Concat.operands rs' n).1), (Concat.operands rs' n).2))
      fun hlevel => by
        obtain ⟨hes, hnext⟩ := deals_operands h hlevel
        exact ⟨congrArg (fun es => Evaluation.residual (.concat (c.exprTag tag) es)) hes, hnext⟩
  have hvalue (v : Literal) :
      Agrees R (Evaluation.copy c)
        (Pass.transform fun s =>
          (Evaluation.value v (.literal { tag with id := nodeId s.nextId } v), { s with nextId := s.nextId + 1 }))
        (Pass.transform fun s =>
          (Evaluation.value v (.literal { tag with id := nodeId s.nextId } v), { s with nextId := s.nextId + 1 })) :=
    agrees_deals (f := fun n => (Evaluation.value v (.literal { tag with id := nodeId n } v), n + 1))
      (g := fun n => (Evaluation.value v (.literal { tag with id := nodeId n } v), n + 1)) fun hlevel => by
        refine ⟨?_, 1, rfl, rfl⟩
        simp only [Evaluation.copy, Expr.copy, hlevel.zero]
  have hruns : (Concat.runs evs' cfg.options.foldConstants).map (Concat.Run.copy c) =
      (Concat.runs evs cfg.options.foldConstants).map (Concat.Run.copy c) := by
    rw [Concat.runs_copy, Concat.runs_copy, h]
  unfold joinOperands
  rw [bond.kindred.foldConstants]
  dsimp only
  generalize Concat.runs evs cfg.options.foldConstants = rs at hruns ⊢
  generalize Concat.runs evs' cfg.options.foldConstants = rs' at hruns ⊢
  split
  · rename_i v span
    obtain rfl := Concat.eq_value_of_copy hruns
    split
    · exact hvalue v
    · exact hrebuild hruns
  · rename_i hmany
    split
    · rename_i v span
      exact absurd (Concat.eq_value_of_copy hruns.symm) (hmany v span)
    · exact hrebuild hruns

end Steps

/-! ## Expressions -/

variable (known) in
/-- If a constant is looked up, the constants are known to be the same. -/
abbrev Certain (es : List Expr) : Prop :=
  ∀ x ∈ es, x.kind = .constant → known

theorem certain_cons {e : Expr} {es : List Expr} (h : Certain known (e :: es)) : Certain known es :=
  fun x hx => h x (List.mem_cons_of_mem _ hx)

theorem certain_append {es es' : List Expr} (h : Certain known (es ++ es')) :
    Certain known es ∧ Certain known es' :=
  List.forall_mem_append.mp h

variable (cfg cfg' c R) in
/-- If an operand is a concatenation itself, its operands are analysed as those of the one around. -/
def AgreesNested : Expr → Prop
  | .concat _ operands =>
    Agrees R (List.map (Evaluation.copy c)) (analyzeOperands cfg operands) (analyzeOperands cfg' operands)
  | _ => True

/-! ## The rules, one by one -/

section Rules

variable (cfg cfg' c R) in
/-- Two analyses of an expression agree. -/
def AgreesExpr (e : Expr) (access : Access) : Prop :=
  Agrees R (Evaluation.copy c) (analyze cfg e access) (analyze cfg' e access)

variable [bond : Bond cfg cfg' c known R] {left right operand condition ifTrue ifFalse : Expr} {tag : ExprTag}
  {access : Access} {name : String}

include bond

theorem agrees_constant (hknown : known) : AgreesExpr c cfg cfg' R (.constant tag name) access := by
  unfold AgreesExpr
  rw [analyze, analyze]
  refine agrees_byRule fun _ => ?_
  rw [bond.kindred.foldConstants]
  split
  · have hconstant : Agrees R id (Pass.peek (State.constant? cfg name)) (Pass.peek (State.constant? cfg' name)) :=
      .peek fun s s' hs => bond.kindred.constant?_eq (bond.constants hknown hs) name
    exact hconstant.before fun _ => .pure rfl
  · exact .pure rfl

theorem agrees_binary {op : BinaryOp} (hleft : AgreesExpr c cfg cfg' R left .read)
    (hright : AgreesExpr c cfg cfg' R right .read) : AgreesExpr c cfg cfg' R (.binary tag op left right) access := by
  unfold AgreesExpr
  rw [analyze, analyze]
  refine agrees_byRule fun _ => Pass.Agrees.bind hleft fun _ _ hl => Pass.Agrees.bind hright fun _ _ hr =>
    (agrees_foldBinary hl hr op.fold).bind fun a b hab => ?_
  obtain ⟨l, r, value⟩ := a
  obtain ⟨l', r', value'⟩ := b
  obtain ⟨hl, hr⟩ := Prod.mk.inj hab
  obtain ⟨hr, rfl⟩ := Prod.mk.inj hr
  refine .pure (Evaluation.copy_ofParts ?_ _)
  simp only [Expr.copy, hl, hr]

theorem agrees_unary {op : UnaryOp} (h : AgreesExpr c cfg cfg' R operand (operandAccess op access)) :
    AgreesExpr c cfg cfg' R (.unary tag op operand) access := by
  have hcast : Agrees R (Evaluation.copy c)
      (do
        let ev ← analyze cfg operand (operandAccess op access)
        let p ← foldUnary cfg ev op.fold
        return .ofParts (.unary { tag with access } op p.1) p.2)
      (do
        let ev ← analyze cfg' operand (operandAccess op access)
        let p ← foldUnary cfg' ev op.fold
        return .ofParts (.unary { tag with access } op p.1) p.2) := by
    refine Pass.Agrees.bind h fun _ _ hev => (agrees_foldUnary hev op.fold).bind fun a b hab => ?_
    obtain ⟨e, value⟩ := a
    obtain ⟨e', value'⟩ := b
    obtain ⟨he, rfl⟩ := Prod.mk.inj hab
    refine .pure (Evaluation.copy_ofParts ?_ _)
    simp only [Expr.copy, he]
  unfold AgreesExpr
  rw [analyze, analyze]
  refine agrees_byRule fun _ => ?_
  split
  · exact .before (.update fun _ _ hs => bond.report hs _ (by rintro ⟨⟩)) fun _ => hcast
  · exact hcast

theorem agrees_conditional (hcondition : AgreesExpr c cfg cfg' R condition .read)
    (htrue : AgreesExpr c cfg cfg' R ifTrue (branchAccess access))
    (hfalse : AgreesExpr c cfg cfg' R ifFalse (branchAccess access)) :
    AgreesExpr c cfg cfg' R (.conditional tag condition ifTrue ifFalse) access := by
  unfold AgreesExpr
  rw [analyze, analyze]
  refine agrees_byRule fun _ => Pass.Agrees.bind hcondition fun _ _ hev => ?_
  rw [bond.kindred.decided? hev]
  split
  · exact htrue
  · exact hfalse
  · refine (agrees_keep hev).bind fun _ _ hc => (agrees_inConditional (agrees_kept htrue)).attempt.bind fun _ _ ht =>
      (agrees_inConditional (agrees_kept hfalse)).attempt.bind fun _ _ hf => (Pass.Agrees.ofExcept ht).bind fun _ _ ht =>
        (Pass.Agrees.ofExcept hf).bind fun _ _ hf => .pure ?_
    simp only [Evaluation.copy, Expr.copy, hc, ht, hf]

theorem agrees_shortcut (hcondition : AgreesExpr c cfg cfg' R condition .read)
    (hfalse : AgreesExpr c cfg cfg' R ifFalse (branchAccess access)) :
    AgreesExpr c cfg cfg' R (.shortcut tag condition ifFalse) access := by
  unfold AgreesExpr
  rw [analyze, analyze]
  refine agrees_byRule fun _ => Pass.Agrees.bind hcondition fun _ _ hev => ?_
  rw [bond.kindred.decided? hev]
  split
  · refine (agrees_keep hev).bind fun a b hc => ?_
    have hnode : (b.withAccess access).copy c = (a.withAccess access).copy c := by
      rw [Expr.copy_withAccess, Expr.copy_withAccess, hc]
    dsimp only
    rw [Expr.value?_eq_of_copy hnode]
    exact .pure (Evaluation.copy_ofParts hnode _)
  · exact hfalse
  · refine (agrees_keep hev).bind fun _ _ hc => (agrees_inConditional (agrees_kept hfalse)).bind fun _ _ hf =>
      .pure ?_
    simp only [Evaluation.copy, Expr.copy, hc, hf]

theorem agrees_call {args : List Expr}
    (h : ∀ signature, Agrees R (Expr.copyAll c) (analyzeArgs cfg signature 0 args) (analyzeArgs cfg' signature 0 args)) :
    AgreesExpr c cfg cfg' R (.call tag name args) access := by
  have hargs : Agrees R (Evaluation.copy c)
      (do return .residual (.call { tag with access } name
            (← analyzeArgs cfg (State.function? cfg name) 0 args)))
      (do return .residual (.call { tag with access } name
            (← analyzeArgs cfg' (State.function? cfg name) 0 args))) :=
    (h _).bind fun _ _ hes => .pure (congrArg (fun es => Evaluation.residual (.call _ name es)) hes)
  unfold AgreesExpr
  rw [analyze, analyze]
  refine agrees_byRule fun _ => ?_
  dsimp only
  rw [bond.kindred.function?]
  split
  · exact .before (.update fun _ _ hs => bond.report hs _ (by rintro ⟨⟩)) fun _ => hargs
  · exact hargs

end Rules

/-! ## The induction -/

mutual

/-- **Two analyses of an expression agree.** -/
theorem agrees_analyze [bond : Bond cfg cfg' c known R] : ∀ (e : Expr) (_ : Certain known e.subexprs) (access : Access),
    Agrees R (Evaluation.copy c) (analyze cfg e access) (analyze cfg' e access)
  | .literal tag v, _, access => by
    rw [analyze, analyze]
    exact agrees_byRule fun _ => .pure rfl
  | .var tag name, _, access => by
    rw [analyze, analyze]
    exact agrees_byRule fun _ => .pure rfl
  | .constant .., h, _ => agrees_constant (h _ List.mem_cons_self rfl)
  | .array tag elements, h, access => by
    rw [analyze, analyze]
    refine agrees_byRule fun home => (agrees_analyzeElements elements (certain_cons h) home).bind fun _ _ hes => ?_
    exact .pure (congrArg (fun es => Evaluation.residual (.array _ es)) hes)
  | .concat tag operands, h, access => by
    rw [analyze, analyze]
    exact agrees_byRule fun _ => (agrees_analyzeOperands operands (certain_cons h)).bind fun _ _ hevs =>
      agrees_joinOperands _ hevs
  | .binary _ _ left right, h, _ =>
    have ⟨hleft, hright⟩ := certain_append (certain_cons h)
    agrees_binary (agrees_analyze left hleft _) (agrees_analyze right hright _)
  | .unary _ _ operand, h, _ => agrees_unary (agrees_analyze operand (certain_cons h) _)
  | .incDec tag increment post target, h, access => by
    rw [analyze, analyze]
    refine agrees_byRule fun _ => (agrees_kept (agrees_analyze target (certain_cons h) _)).bind fun _ _ he => ?_
    exact .pure (congrArg (fun e => Evaluation.residual (.incDec _ increment post e)) he)
  | .conditional _ condition ifTrue ifFalse, h, _ =>
    have ⟨hparts, hfalse⟩ := certain_append (certain_cons h)
    have ⟨hcondition, htrue⟩ := certain_append hparts
    agrees_conditional (agrees_analyze condition hcondition _) (agrees_analyze ifTrue htrue _)
      (agrees_analyze ifFalse hfalse _)
  | .shortcut _ condition ifFalse, h, _ =>
    have ⟨hcondition, hfalse⟩ := certain_append (certain_cons h)
    agrees_shortcut (agrees_analyze condition hcondition _) (agrees_analyze ifFalse hfalse _)
  | .list tag targets value, h, access => by
    obtain ⟨htargets, hvalue⟩ := certain_append (certain_cons h)
    rw [analyze, analyze]
    refine agrees_byRule fun _ => (agrees_kept (agrees_analyze value hvalue .read)).bind fun _ _ he =>
      (agrees_analyzeTargets targets htargets).bind fun _ _ hts => .pure ?_
    simp only [Evaluation.copy, Expr.copy, he, hts]
  | .item tag container index, h, access => by
    obtain ⟨hcontainer, hindex⟩ := certain_append (certain_cons h)
    rw [analyze, analyze]
    refine agrees_byRule fun _ => (agrees_kept (agrees_analyze container hcontainer _)).bind fun _ _ he =>
      (agrees_kept (agrees_analyze index hindex .read)).bind fun _ _ hi => .pure ?_
    simp only [Evaluation.copy, Expr.copy, he, hi]
  | .append tag container, h, access => by
    rw [analyze, analyze]
    refine agrees_byRule fun _ => (agrees_kept (agrees_analyze container (certain_cons h) _)).bind fun _ _ he => ?_
    exact .pure (congrArg (fun e => Evaluation.residual (.append _ e)) he)
  | .assign tag target value, h, access => by
    obtain ⟨htarget, hvalue⟩ := certain_append (certain_cons h)
    rw [analyze, analyze]
    refine agrees_byRule fun _ => (agrees_kept (agrees_analyze target htarget .write)).bind fun _ _ ht =>
      (agrees_kept (agrees_analyze value hvalue .read)).bind fun _ _ hv => .pure ?_
    simp only [Evaluation.copy, Expr.copy, ht, hv]
  | .call _ _ args, h, _ => agrees_call fun signature => agrees_analyzeArgs args (certain_cons h) signature 0
termination_by structural e => e

theorem agrees_analyzeOperands [bond : Bond cfg cfg' c known R] : ∀ (es : List Expr) (_ : Certain known (Expr.subexprsOf es)),
    Agrees R (List.map (Evaluation.copy c)) (analyzeOperands cfg es) (analyzeOperands cfg' es)
  | [], _ => .pure rfl
  | e :: rest, h => by
    obtain ⟨he, hrest⟩ := certain_append h
    have hrest := agrees_analyzeOperands rest hrest
    have hnested := agreesNested e he
    by_cases hconcat : ∃ tag operands, e = .concat tag operands
    · obtain ⟨tag, operands, rfl⟩ := hconcat
      rw [analyzeOperands, analyzeOperands]
      refine Pass.Agrees.bind hnested fun _ _ hevs => hrest.bind fun _ _ hevs' => .pure ?_
      rw [List.map_append, List.map_append, hevs, hevs']
    · have hplain := fun tag operands he => hconcat ⟨tag, operands, he⟩
      rw [analyzeOperands_cons hplain, analyzeOperands_cons hplain]
      refine (agrees_analyze e he .read).bind fun _ _ hev => hrest.bind fun _ _ hevs => .pure ?_
      rw [List.map_cons, List.map_cons, hev, hevs]
termination_by structural es => es

theorem agreesNested [bond : Bond cfg cfg' c known R] : ∀ (e : Expr) (_ : Certain known e.subexprs), AgreesNested c cfg cfg' R e
  | .concat _ operands, h => agrees_analyzeOperands operands (certain_cons h)
  | .literal .., _ | .array .., _ | .binary .., _ | .unary .., _ | .incDec .., _ | .conditional .., _
  | .shortcut .., _ | .list .., _ | .var .., _ | .item .., _ | .append .., _ | .assign .., _ | .call .., _
  | .constant .., _ => trivial
termination_by structural e => e

theorem agrees_analyzeArgs [bond : Bond cfg cfg' c known R] : ∀ (es : List Expr) (_ : Certain known (Expr.subexprsOf es))
    (signature : Option Signature) (position : Nat),
    Agrees R (Expr.copyAll c) (analyzeArgs cfg signature position es) (analyzeArgs cfg' signature position es)
  | [], _, _, _ => .pure rfl
  | arg :: rest, h, signature, position => by
    obtain ⟨harg, hrest⟩ := certain_append h
    rw [analyzeArgs, analyzeArgs]
    refine (agrees_kept (agrees_analyze arg harg _)).bind fun _ _ he =>
      (agrees_analyzeArgs rest hrest signature (position + 1)).bind fun _ _ hes => .pure ?_
    rw [Expr.copyAll, Expr.copyAll, he, hes]
termination_by structural es => es

theorem agrees_analyzeElements [bond : Bond cfg cfg' c known R] : ∀ (es : List ArrayElement) (_ : Certain known (Expr.subexprsOfElements es))
    (home : Home ExprKind),
    Agrees R (Expr.copyElements c) (analyzeElements cfg es home) (analyzeElements cfg' es home)
  | [], _, _ => .pure rfl
  | .plain span value :: rest, h, home => by
    obtain ⟨hvalue, hrest⟩ := certain_append h
    rw [analyzeElements, analyzeElements]
    refine (agrees_kept (agrees_analyze value hvalue .read)).bind fun _ _ he =>
      .before (agrees_countKey home rfl) fun _ =>
        (agrees_analyzeElements rest hrest home).bind fun _ _ hes => .pure ?_
    rw [Expr.copyElements, Expr.copyElements, he, hes]
  | .keyed span key value :: rest, h, home => by
    obtain ⟨hparts, hrest⟩ := certain_append h
    obtain ⟨hkey, hvalue⟩ := certain_append hparts
    rw [analyzeElements, analyzeElements]
    refine (agrees_kept (agrees_analyze key hkey .read)).bind fun _ _ hk =>
      (agrees_kept (agrees_analyze value hvalue .read)).bind fun _ _ he =>
        .before (agrees_countKey home (congrArg some hk)) fun _ =>
          (agrees_analyzeElements rest hrest home).bind fun _ _ hes => .pure ?_
    rw [Expr.copyElements, Expr.copyElements, hk, he, hes]
termination_by structural es => es

theorem agrees_analyzeTargets [bond : Bond cfg cfg' c known R] : ∀ (ts : List ListTarget) (_ : Certain known (Expr.subexprsOfTargets ts)),
    Agrees R (Expr.copyTargets c) (analyzeTargets cfg ts) (analyzeTargets cfg' ts)
  | [], _ => .pure rfl
  | .skip :: rest, h => by
    rw [analyzeTargets, analyzeTargets]
    refine (agrees_analyzeTargets rest h).bind fun _ _ hts => .pure ?_
    rw [Expr.copyTargets, Expr.copyTargets, hts]
  | .leaf target :: rest, h => by
    obtain ⟨htarget, hrest⟩ := certain_append h
    rw [analyzeTargets, analyzeTargets]
    refine (agrees_kept (agrees_analyze target htarget .write)).bind fun _ _ ht =>
      (agrees_analyzeTargets rest hrest).bind fun _ _ hts => .pure ?_
    rw [Expr.copyTargets, Expr.copyTargets, ht, hts]
  | .nested targets :: rest, h => by
    obtain ⟨htargets, hrest⟩ := certain_append h
    rw [analyzeTargets, analyzeTargets]
    refine (agrees_analyzeTargets targets htargets).bind fun _ _ ht =>
      (agrees_analyzeTargets rest hrest).bind fun _ _ hts => .pure ?_
    rw [Expr.copyTargets, Expr.copyTargets, ht, hts]
termination_by structural ts => ts

end

end Analysis
end PhpLowering
