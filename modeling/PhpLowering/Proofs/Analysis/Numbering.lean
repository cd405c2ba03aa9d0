import PhpLowering.Proofs.Analysis.Tokens

/-!
# The numbers of nodes under analysis

The analysis of a tree can be done with a blank token for every node of the tree, and leaves one for every
node of the analysed tree, on which the keys of array literals are counted (`numbers_analyzeStmts`).
-/

namespace PhpLowering
namespace Analysis

open Pass (Ends)

variable {α β : Type} {L : Ledger} {given rest : List Token} {n : Nat}

/-! ## Literals in the place of nodes -/

theorem renumbers_literalize (c : Evaluation) (n : Nat) :
    Renumbers L c.tokens n ((c.literalize n).1.tagged Expr.keys) (c.literalize n).2 := by
  unfold Evaluation.literalize
  split
  · exact .of_count fun _ => Nat.le_refl _
  · split
    · exact .of_count fun _ => Nat.le_refl _
    · exact .fresh L _ n

theorem numbers_keep (c : Evaluation) : Numbers L c.tokens (keep c) (Expr.tagged Expr.keys) :=
  .transform (fun _ => rfl) fun s => renumbers_literalize c s.nextId

theorem Numbers.kept {x : Analyze Evaluation} (h : Numbers L given x Evaluation.tokens) :
    Numbers L given (kept x) (Expr.tagged Expr.keys) :=
  h.bind [] (fun c => (numbers_keep c).mono fun token => by simp) fun token => by simp

theorem numbers_foldUnary (c : Evaluation) (fold : Literal → Option Literal) :
    Numbers L c.tokens (foldUnary L.cfg c fold) fun r => r.1.tagged Expr.keys := by
  refine .transform (fun _ => rfl) fun s => ?_
  dsimp only
  unfold Evaluation.evaluate
  split
  · exact .of_count fun _ => Nat.le_refl _
  · exact renumbers_literalize c s.nextId

theorem renumbers_literalizeBoth (l r : Evaluation) (n : Nat) :
    Renumbers L (l.tokens ++ r.tokens) n
      ((Evaluation.evaluatePair.literalizeBoth l r n).1.1.tagged Expr.keys ++
        (Evaluation.evaluatePair.literalizeBoth l r n).1.2.1.tagged Expr.keys)
      (Evaluation.evaluatePair.literalizeBoth l r n).2 := by
  have hl := renumbers_literalize (L := L) l n
  have hr := renumbers_literalize (L := L) r (l.literalize n).2
  refine hl.trans r.tokens ?_ fun _ => Nat.le_refl _
  refine hr.trans ((l.literalize n).1.tagged Expr.keys) (.of_count fun token => ?_) fun token => ?_
  all_goals simp only [Evaluation.evaluatePair.literalizeBoth, List.count_append]; omega

theorem numbers_foldBinary (l r : Evaluation) (fold : Literal → Literal → Literal) :
    Numbers L (l.tokens ++ r.tokens) (foldBinary L.cfg l r fold)
      fun p => p.1.tagged Expr.keys ++ p.2.1.tagged Expr.keys := by
  refine .transform (fun _ => rfl) fun s => ?_
  dsimp only
  unfold Evaluation.evaluatePair
  split
  · split
    · exact .of_count fun _ => Nat.le_refl _
    · exact renumbers_literalizeBoth l r s.nextId
  · exact renumbers_literalizeBoth l r s.nextId

/-! ## Concatenations -/

/-- Tokens for the nodes in a run. -/
def tokensOfRun : Concat.Run → List Token
  | .value .. => []
  | .residual nodes => Expr.taggedAll Expr.keys nodes

/-- Tokens for the nodes in evaluations. -/
def tokensOfEvaluations (es : List Evaluation) : List Token :=
  es.flatMap Evaluation.tokens

theorem count_push (c : Evaluation) (runs : List Concat.Run) (token : Token) :
    ((Concat.push c runs).flatMap tokensOfRun).count token ≤
      (c.tokens ++ runs.flatMap tokensOfRun).count token := by
  unfold Concat.push
  split
  · split
    · simp
    · split <;> simp [tokensOfRun]
  · split <;> simp [tokensOfRun]

theorem count_foldr_push (es : List Evaluation) (token : Token) :
    ((es.foldr Concat.push []).flatMap tokensOfRun).count token ≤ (tokensOfEvaluations es).count token := by
  induction es with
  | nil => exact Nat.le_refl _
  | cons c rest ih =>
    refine Nat.le_trans (count_push c _ token) ?_
    rw [tokensOfEvaluations, List.flatMap_cons, List.count_append, List.count_append]
    exact Nat.add_le_add_left ih _

theorem count_map_single (es : List Evaluation) (token : Token) :
    ((es.map Concat.single).flatMap tokensOfRun).count token ≤ (tokensOfEvaluations es).count token := by
  induction es with
  | nil => exact Nat.le_refl _
  | cons c rest ih =>
    have hc : (tokensOfRun (Concat.single c)).count token ≤ c.tokens.count token := by
      cases c <;> simp [Concat.single, tokensOfRun]
    rw [List.map_cons, tokensOfEvaluations, List.flatMap_cons, List.flatMap_cons, List.count_append,
      List.count_append]
    exact Nat.add_le_add hc ih

theorem count_runs (es : List Evaluation) (fold : Bool) (token : Token) :
    ((Concat.runs es fold).flatMap tokensOfRun).count token ≤ (tokensOfEvaluations es).count token := by
  unfold Concat.runs
  split
  · split
    · exact Nat.zero_le _
    · exact count_foldr_push es token
  · exact count_map_single es token

theorem renumbers_operands (runs : List Concat.Run) (n : Nat) :
    Renumbers L (runs.flatMap tokensOfRun) n (Expr.taggedAll Expr.keys (Concat.operands runs n).1)
      (Concat.operands runs n).2 := by
  induction runs generalizing n with
  | nil => exact .of_count fun _ => Nat.le_refl _
  | cons run rest ih =>
    cases run with
    | value v span =>
      have hrest := (ih (n + 1)).frame [Token.new (nodeId n)]
      exact (Renumbers.fresh L [] n).trans _ hrest fun _ => Nat.le_refl _
    | residual nodes =>
      have hrest := (ih n).frame (Expr.taggedAll Expr.keys nodes)
      rw [Concat.operands, Expr.taggedAll_append, List.flatMap_cons]
      exact hrest

theorem numbers_joinOperands (tag : ExprTag) (es : List Evaluation) :
    Numbers L ([Token.new tag.id] ++ tokensOfEvaluations es) (joinOperands L.cfg tag es) Evaluation.tokens := by
  have hrebuild (runs : List Concat.Run)
      (h : ∀ token, (runs.flatMap tokensOfRun).count token ≤ (tokensOfEvaluations es).count token) :
      Numbers L ([Token.new tag.id] ++ tokensOfEvaluations es) (joinOperands.rebuild tag runs) Evaluation.tokens := by
    refine .transform (fun _ => rfl) fun s => ?_
    have hrest := (renumbers_operands (L := L) runs s.nextId).frame [Token.new tag.id]
    refine hrest.mono (fun token => ?_) fun token => ?_
    · simp only [List.count_append]
      exact Nat.add_le_add_left (h token) _
    · simp [Expr.keys]
  have hruns := count_runs es L.cfg.options.foldConstants
  unfold joinOperands
  dsimp only
  split
  · rename_i hone
    rw [hone] at hruns
    refine .ite (.transform (fun _ => rfl) fun s => .fresh L _ s.nextId) ?_
    exact hrebuild _ hruns
  · exact hrebuild _ hruns

/-! ## Expressions -/

/-- Blank tokens for an expression and all that it contains. -/
abbrev blank (e : Expr) : List Token :=
  e.tagged Expr.noKeys

theorem numbers_byRule (node : Expr) {analyzed : Home ExprKind → Analyze Evaluation}
    (h : ∀ home, (L.cfg.registry = .standard → home = RuleTable.exprHome node.kind node.id) →
      Numbers L (blank node) (analyzed home) Evaluation.tokens) :
    Numbers L (blank node) (byRule L.cfg node analyzed) Evaluation.tokens := by
  intro rest s hs
  have hhandle : Ends (onTable (RuleTable.expr L.cfg.registry node.kind node.id)) s
      (fun handle t =>
        (L.cfg.registry = .standard → handle = ⟨node.kind, RuleTable.exprHome node.kind node.id⟩) ∧
        L.Balance (blank node ++ rest) t.nextId t.memory) fun _ => True := by
    refine .intro (fun handle t hrun => ?_) fun _ _ _ => trivial
    have hanswer : (RuleTable.expr L.cfg.registry node.kind node.id s.table).1 = .ok handle :=
      (Prod.mk.inj hrun).1
    obtain rfl := (Prod.mk.inj hrun).2
    refine ⟨fun hstd => ?_, hs⟩
    rw [hstd] at hanswer
    exact ((RuleTable.ends_expr s.table node.kind node.id).of_ok (Prod.ext hanswer rfl)).1
  unfold byRule
  refine hhandle.bind fun handle t ht => ?_
  obtain ⟨hstd, ht⟩ := ht
  split
  · exact h handle.home (fun hcfg => congrArg Handle.home (hstd hcfg)) rest t ht
  · rename_i hrule
    -- Only another registry gives a node the rule for another kind.
    have hother : L.cfg.registry ≠ .standard := fun hcfg => hrule (congrArg Handle.rule (hstd hcfg))
    split
    · exact .pure (ht.of_numbers hother (by simp [Evaluation.tokens, Evaluation.node, Expr.tagged]))
    · exact .fail trivial

/-- The token of an array literal goes on with the key of one more element. -/
theorem numbers_countKey {out : β → List Token} {x : Analyze β} {i : Nat} (k : KeyCount) (rest : List Token)
    {home : Home ExprKind} (hhome : L.cfg.registry = .standard → home = .node i) (key : Option Expr)
    (h : Numbers L ((i, some (k.add (keyIsInteger key))) :: rest) x out)
    (hgiven : ∀ token, ((i, some k) :: rest).count token ≤ given.count token) :
    Numbers L given (countKey home key >>= fun _ => x) out := by
  refine (show Numbers L ((i, some k) :: rest) _ out from ?_).mono hgiven
  intro others s hs
  refine Ends.bind
    (Q := fun _ t => L.Balance ((i, some (k.add (keyIsInteger key))) :: rest ++ others) t.nextId t.memory)
    (.update ?_) fun _ t ht => h others t ht
  exact hs.countKey _ hhome

/-- Every analysis of an expression can be done with blank tokens, and leaves those of the node that was found. -/
abbrev NumbersExpr (L : Ledger) (e : Expr) : Prop :=
  ∀ access, Numbers L (blank e) (analyze L.cfg e access) Evaluation.tokens

/-! ### One rule at a time -/

section Rules

variable {tag : ExprTag} {access : Access}

theorem numbers_literal (v : Literal) :
    Numbers L (blank (.literal tag v)) (analyze L.cfg (.literal tag v) access) Evaluation.tokens := by
  rw [analyze]
  exact numbers_byRule (.literal { tag with access } v) fun _ _ => .pure fun _ => Nat.le_refl _

theorem numbers_var (name : String) :
    Numbers L (blank (.var tag name)) (analyze L.cfg (.var tag name) access) Evaluation.tokens := by
  rw [analyze]
  exact numbers_byRule (.var { tag with access } name) fun _ _ => .pure fun _ => Nat.le_refl _

theorem numbers_constant (name : String) :
    Numbers L (blank (.constant tag name)) (analyze L.cfg (.constant tag name) access) Evaluation.tokens := by
  rw [analyze]
  refine numbers_byRule (.constant { tag with access } name) fun _ _ => .ite ?_ ?_
  · refine .after (x := Pass.peek (State.constant? L.cfg name)) (fun _ => ⟨rfl, rfl⟩) fun v => ?_
    exact .pure fun token => by simp [Expr.keys, Expr.noKeys]
  · exact .pure fun _ => Nat.le_refl _

/-- The keys are counted on the token of the literal itself. -/
theorem numbers_array {elements : List ArrayElement}
    (helements : ∀ home, (L.cfg.registry = .standard → home = .node tag.id) →
      Numbers L ((tag.id, some {}) :: Expr.taggedElements Expr.noKeys elements) (analyzeElements L.cfg elements home)
        fun es => (tag.id, some (KeyCount.addAll {} es)) :: Expr.taggedElements Expr.keys es) :
    Numbers L (blank (.array tag elements)) (analyze L.cfg (.array tag elements) access) Evaluation.tokens := by
  rw [analyze]
  refine numbers_byRule (.array { tag with access } elements) fun home hhome => ?_
  refine (helements home hhome).bind [] (fun es => .pure fun token => ?_) fun token => ?_
  all_goals
    simp only [blank, Expr.tagged_array, Evaluation.tokens_residual, Expr.keys, Expr.noKeys, List.append_nil,
      List.singleton_append, Nat.le_refl]

theorem numbers_concat {operands : List Expr}
    (hoperands : Numbers L (Expr.taggedAll Expr.noKeys operands) (analyzeOperands L.cfg operands)
      tokensOfEvaluations) :
    Numbers L (blank (.concat tag operands)) (analyze L.cfg (.concat tag operands) access) Evaluation.tokens := by
  rw [analyze]
  refine numbers_byRule (.concat { tag with access } operands) fun _ _ => ?_
  refine hoperands.bind [Token.new tag.id] (fun es => ?_) fun token => ?_
  · refine (numbers_joinOperands { tag with access } es).mono fun token => ?_
    simp only [List.count_append]; omega
  · simp only [blank, Expr.tagged_concat, Expr.noKeys, Token.new, List.count_append]; omega

theorem numbers_binary (op : BinaryOp) {left right : Expr} (hleft : NumbersExpr L left)
    (hright : NumbersExpr L right) :
    Numbers L (blank (.binary tag op left right)) (analyze L.cfg (.binary tag op left right) access)
      Evaluation.tokens := by
  rw [analyze]
  refine numbers_byRule (.binary { tag with access } op left right) fun _ _ => ?_
  refine (hleft .read).bind ([Token.new tag.id] ++ blank right) (fun l => ?_) fun token => ?_
  refine (hright .read).bind ([Token.new tag.id] ++ l.tokens) (fun r => ?_) fun token => ?_
  refine (numbers_foldBinary l r op.fold).bind [Token.new tag.id] (fun ⟨l', r', v⟩ => .pure fun token => ?_)
    fun token => ?_
  all_goals
    simp only [blank, Expr.tagged_binary, Evaluation.tokens_ofParts, Expr.keys, Expr.noKeys, Token.new,
      List.count_append]
    omega

theorem numbers_unary (op : UnaryOp) {operand : Expr} (hoperand : NumbersExpr L operand) :
    Numbers L (blank (.unary tag op operand)) (analyze L.cfg (.unary tag op operand) access)
      Evaluation.tokens := by
  rw [analyze]
  refine numbers_byRule (.unary { tag with access } op operand) fun _ _ => ?_
  refine .afterIf (fun _ => ⟨rfl, rfl⟩) fun _ => ?_
  refine (hoperand _).bind [Token.new tag.id] (fun c => ?_) fun token => ?_
  refine (numbers_foldUnary c op.fold).bind [Token.new tag.id] (fun ⟨e, v⟩ => .pure fun token => ?_)
    fun token => ?_
  all_goals
    simp only [blank, Expr.tagged_unary, Evaluation.tokens_ofParts, Expr.keys, Expr.noKeys, Token.new,
      List.count_append]
    omega

theorem numbers_incDec (increment post : Bool) {target : Expr} (htarget : NumbersExpr L target) :
    Numbers L (blank (.incDec tag increment post target)) (analyze L.cfg (.incDec tag increment post target) access)
      Evaluation.tokens := by
  rw [analyze]
  refine numbers_byRule (.incDec { tag with access } increment post target) fun _ _ => ?_
  refine (htarget .readAndWrite).kept.bind [Token.new tag.id] (fun e => .pure fun token => ?_) fun token => ?_
  all_goals
    simp only [blank, Expr.tagged_incDec, Evaluation.tokens_residual, Expr.keys, Expr.noKeys, Token.new,
      List.count_append]
    omega

/-- One branch stands for the conditional, or both are kept. -/
theorem numbers_conditional {condition ifTrue ifFalse : Expr} (hcondition : NumbersExpr L condition)
    (hifTrue : NumbersExpr L ifTrue) (hifFalse : NumbersExpr L ifFalse) :
    Numbers L (blank (.conditional tag condition ifTrue ifFalse))
      (analyze L.cfg (.conditional tag condition ifTrue ifFalse) access) Evaluation.tokens := by
  have htrue := hifTrue (branchAccess access)
  have hfalse := hifFalse (branchAccess access)
  rw [analyze]
  refine numbers_byRule (.conditional { tag with access } condition ifTrue ifFalse) fun _ _ => ?_
  refine (hcondition .read).bind ([Token.new tag.id] ++ blank ifTrue ++ blank ifFalse) (fun c => ?_) fun token => ?_
  · rcases decided? L.cfg c with _ | _ | _ <;> dsimp only
    · refine (numbers_keep c).bind ([Token.new tag.id] ++ blank ifTrue ++ blank ifFalse) (fun c' => ?_)
        fun token => ?_
      refine .attempt (htrue.kept.inConditional.bind ([Token.new tag.id] ++ c'.tagged Expr.keys ++ blank ifFalse)
        (fun t => .attempt_last ?_) fun token => ?_)
      refine hfalse.kept.inConditional.bind ([Token.new tag.id] ++ c'.tagged Expr.keys ++ t.tagged Expr.keys)
        (fun f => .pure fun token => ?_) fun token => ?_
      all_goals
        simp only [blank, Expr.tagged_conditional, Evaluation.tokens_residual, Expr.keys, Token.new,
          List.count_append]
        omega
    · exact hfalse.mono fun token => by simp only [List.count_append]; omega
    · exact htrue.mono fun token => by simp only [List.count_append]; omega
  · simp only [blank, Expr.tagged_conditional, Expr.noKeys, Token.new, List.count_append]; omega

theorem numbers_shortcut {condition ifFalse : Expr} (hcondition : NumbersExpr L condition)
    (hifFalse : NumbersExpr L ifFalse) :
    Numbers L (blank (.shortcut tag condition ifFalse)) (analyze L.cfg (.shortcut tag condition ifFalse) access)
      Evaluation.tokens := by
  have hfalse := hifFalse (branchAccess access)
  rw [analyze]
  refine numbers_byRule (.shortcut { tag with access } condition ifFalse) fun _ _ => ?_
  refine (hcondition .read).bind ([Token.new tag.id] ++ blank ifFalse) (fun c => ?_) fun token => ?_
  · rcases decided? L.cfg c with _ | _ | _ <;> dsimp only
    · refine (numbers_keep c).bind ([Token.new tag.id] ++ blank ifFalse) (fun c' => ?_) fun token => ?_
      refine hfalse.kept.inConditional.bind ([Token.new tag.id] ++ c'.tagged Expr.keys)
        (fun b => .pure fun token => ?_) fun token => ?_
      all_goals
        simp only [blank, Expr.tagged_shortcut, Evaluation.tokens_residual, Expr.keys, Token.new,
          List.count_append]
        omega
    · exact hfalse.mono fun token => by simp only [List.count_append]; omega
    · refine (numbers_keep c).bind [] (fun c' => .pure fun token => ?_) fun token => ?_
      · simp
      · simp only [List.append_nil, List.count_append]; omega
  · simp only [blank, Expr.tagged_shortcut, Expr.noKeys, Token.new, List.count_append]; omega

theorem numbers_list {targets : List ListTarget} {value : Expr}
    (htargets : Numbers L (Expr.taggedTargets Expr.noKeys targets) (analyzeTargets L.cfg targets)
      (Expr.taggedTargets Expr.keys)) (hvalue : NumbersExpr L value) :
    Numbers L (blank (.list tag targets value)) (analyze L.cfg (.list tag targets value) access)
      Evaluation.tokens := by
  rw [analyze]
  refine numbers_byRule (.list { tag with access } targets value) fun _ _ => ?_
  refine (hvalue .read).kept.bind ([Token.new tag.id] ++ Expr.taggedTargets Expr.noKeys targets)
    (fun v => ?_) fun token => ?_
  refine htargets.bind ([Token.new tag.id] ++ v.tagged Expr.keys) (fun ts => .pure fun token => ?_) fun token => ?_
  all_goals
    simp only [blank, Expr.tagged_list, Evaluation.tokens_residual, Expr.keys, Expr.noKeys, Token.new,
      List.count_append]
    omega

theorem numbers_item {container index : Expr} (hcontainer : NumbersExpr L container)
    (hindex : NumbersExpr L index) :
    Numbers L (blank (.item tag container index)) (analyze L.cfg (.item tag container index) access)
      Evaluation.tokens := by
  rw [analyze]
  refine numbers_byRule (.item { tag with access } container index) fun _ _ => ?_
  refine (hcontainer _).kept.bind ([Token.new tag.id] ++ blank index) (fun c => ?_) fun token => ?_
  refine (hindex .read).kept.bind ([Token.new tag.id] ++ c.tagged Expr.keys)
    (fun k => .pure fun token => ?_) fun token => ?_
  all_goals
    simp only [blank, Expr.tagged_item, Evaluation.tokens_residual, Expr.keys, Expr.noKeys, Token.new,
      List.count_append]
    omega

theorem numbers_append {container : Expr} (hcontainer : NumbersExpr L container) :
    Numbers L (blank (.append tag container)) (analyze L.cfg (.append tag container) access)
      Evaluation.tokens := by
  rw [analyze]
  refine numbers_byRule (.append { tag with access } container) fun _ _ => ?_
  refine (hcontainer _).kept.bind [Token.new tag.id] (fun c => .pure fun token => ?_) fun token => ?_
  all_goals
    simp only [blank, Expr.tagged_append, Evaluation.tokens_residual, Expr.keys, Expr.noKeys, Token.new,
      List.count_append]
    omega

theorem numbers_assign {target value : Expr} (htarget : NumbersExpr L target) (hvalue : NumbersExpr L value) :
    Numbers L (blank (.assign tag target value)) (analyze L.cfg (.assign tag target value) access)
      Evaluation.tokens := by
  rw [analyze]
  refine numbers_byRule (.assign { tag with access } target value) fun _ _ => ?_
  refine (htarget .write).kept.bind ([Token.new tag.id] ++ blank value) (fun a => ?_) fun token => ?_
  refine (hvalue .read).kept.bind ([Token.new tag.id] ++ a.tagged Expr.keys)
    (fun b => .pure fun token => ?_) fun token => ?_
  all_goals
    simp only [blank, Expr.tagged_assign, Evaluation.tokens_residual, Expr.keys, Expr.noKeys, Token.new,
      List.count_append]
    omega

theorem numbers_call (name : String) {args : List Expr}
    (hargs : ∀ signature, Numbers L (Expr.taggedAll Expr.noKeys args) (analyzeArgs L.cfg signature 0 args)
      (Expr.taggedAll Expr.keys)) :
    Numbers L (blank (.call tag name args)) (analyze L.cfg (.call tag name args) access) Evaluation.tokens := by
  rw [analyze]
  refine numbers_byRule (.call { tag with access } name args) fun _ _ => ?_
  refine .afterIf (fun _ => ⟨rfl, rfl⟩) fun _ => ?_
  refine (hargs _).bind [Token.new tag.id] (fun as => .pure fun token => ?_) fun token => ?_
  all_goals
    simp only [blank, Expr.tagged_call, Evaluation.tokens_residual, Expr.keys, Expr.noKeys, Token.new,
      List.count_append]
    omega

end Rules

/-! ### Lists of parts -/

theorem numbers_operands_concat {tag : ExprTag} {operands rest : List Expr}
    (hoperands : Numbers L (Expr.taggedAll Expr.noKeys operands) (analyzeOperands L.cfg operands)
      tokensOfEvaluations)
    (hrest : Numbers L (Expr.taggedAll Expr.noKeys rest) (analyzeOperands L.cfg rest) tokensOfEvaluations) :
    Numbers L (Expr.taggedAll Expr.noKeys (.concat tag operands :: rest))
      (analyzeOperands L.cfg (.concat tag operands :: rest)) tokensOfEvaluations := by
  rw [analyzeOperands]
  refine hoperands.bind (Expr.taggedAll Expr.noKeys rest) (fun es => ?_) fun token => ?_
  refine hrest.bind (tokensOfEvaluations es) (fun es' => .pure fun token => ?_) fun token => ?_
  all_goals
    simp only [Expr.taggedAll_cons, Expr.tagged_concat, tokensOfEvaluations, List.flatMap_append,
      List.count_append]
    omega

theorem numbers_operands_cons {e : Expr} {rest : List Expr} (hflat : ∀ tag operands, e ≠ .concat tag operands)
    (he : NumbersExpr L e)
    (hrest : Numbers L (Expr.taggedAll Expr.noKeys rest) (analyzeOperands L.cfg rest) tokensOfEvaluations) :
    Numbers L (Expr.taggedAll Expr.noKeys (e :: rest)) (analyzeOperands L.cfg (e :: rest)) tokensOfEvaluations := by
  rw [analyzeOperands_cons hflat]
  refine (he .read).bind (Expr.taggedAll Expr.noKeys rest) (fun c => ?_) fun _ => Nat.le_refl _
  refine hrest.bind c.tokens (fun es => .pure fun token => ?_) fun token => ?_
  all_goals simp only [tokensOfEvaluations, List.flatMap_cons, List.count_append]; omega

/-- The elements of a literal can be analysed with its token, whatever has been counted on it. -/
abbrev NumbersElements (L : Ledger) (es : List ArrayElement) : Prop :=
  ∀ (home : Home ExprKind) (i : Nat) (k : KeyCount), (L.cfg.registry = .standard → home = .node i) →
    Numbers L ((i, some k) :: Expr.taggedElements Expr.noKeys es) (analyzeElements L.cfg es home)
      fun es' => (i, some (k.addAll es')) :: Expr.taggedElements Expr.keys es'

theorem numbers_elements_plain (span : Span) {value : Expr} {rest : List ArrayElement} (hvalue : NumbersExpr L value)
    (hrest : NumbersElements L rest) : NumbersElements L (.plain span value :: rest) := by
  intro home i k hhome
  rw [analyzeElements]
  refine (hvalue .read).kept.bind ((i, some k) :: Expr.taggedElements Expr.noKeys rest) (fun v => ?_)
    fun token => ?_
  · refine numbers_countKey k (v.tagged Expr.keys ++ Expr.taggedElements Expr.noKeys rest) hhome none ?_
      fun token => ?_
    refine (hrest home i (k.add (keyIsInteger none)) hhome).bind (v.tagged Expr.keys)
      (fun es => .pure fun token => ?_) fun token => ?_
    all_goals simp only [Expr.taggedElements_plain, KeyCount.addAll_cons, ArrayElement.key?,
      List.count_append, List.count_cons]; omega
  · simp only [blank, Expr.taggedElements_plain, List.count_append, List.count_cons]; omega

theorem numbers_elements_keyed (span : Span) {key value : Expr} {rest : List ArrayElement}
    (hkey : NumbersExpr L key) (hvalue : NumbersExpr L value) (hrest : NumbersElements L rest) :
    NumbersElements L (.keyed span key value :: rest) := by
  intro home i k hhome
  rw [analyzeElements]
  refine (hkey .read).kept.bind ((i, some k) :: (blank value ++ Expr.taggedElements Expr.noKeys rest))
    (fun key' => ?_) fun token => ?_
  · refine (hvalue .read).kept.bind
      ((i, some k) :: (key'.tagged Expr.keys ++ Expr.taggedElements Expr.noKeys rest)) (fun v => ?_) fun token => ?_
    · refine numbers_countKey k
        (key'.tagged Expr.keys ++ v.tagged Expr.keys ++ Expr.taggedElements Expr.noKeys rest)
        hhome (some key') ?_ fun token => ?_
      refine (hrest home i (k.add (keyIsInteger (some key'))) hhome).bind
        (key'.tagged Expr.keys ++ v.tagged Expr.keys)
        (fun es => .pure fun token => ?_) fun token => ?_
      all_goals simp only [Expr.taggedElements_keyed, KeyCount.addAll_cons, ArrayElement.key?,
        List.count_append, List.count_cons]; omega
    · simp only [List.count_append, List.count_cons]; omega
  · simp only [blank, Expr.taggedElements_keyed, List.count_append, List.count_cons]; omega

/-! ### All expressions -/

variable (L)

mutual

/-- **The numbers in an analysed expression are those of the expression, or new.** -/
theorem numbers_analyze : ∀ (e : Expr) (access : Access),
    Numbers L (blank e) (analyze L.cfg e access) Evaluation.tokens
  | .literal _ v, _ => numbers_literal v
  | .var _ name, _ => numbers_var name
  | .constant _ name, _ => numbers_constant name
  | .array tag elements, _ => numbers_array fun home hhome => numbers_analyzeElements elements home tag.id {} hhome
  | .concat _ operands, _ => numbers_concat (numbers_analyzeOperands operands)
  | .binary _ op left right, _ => numbers_binary op (numbers_analyze left) (numbers_analyze right)
  | .unary _ op operand, _ => numbers_unary op (numbers_analyze operand)
  | .incDec _ increment post target, _ => numbers_incDec increment post (numbers_analyze target)
  | .conditional _ condition ifTrue ifFalse, _ =>
    numbers_conditional (numbers_analyze condition) (numbers_analyze ifTrue) (numbers_analyze ifFalse)
  | .shortcut _ condition ifFalse, _ => numbers_shortcut (numbers_analyze condition) (numbers_analyze ifFalse)
  | .list _ targets value, _ => numbers_list (numbers_analyzeTargets targets) (numbers_analyze value)
  | .item _ container index, _ => numbers_item (numbers_analyze container) (numbers_analyze index)
  | .append _ container, _ => numbers_append (numbers_analyze container)
  | .assign _ target value, _ => numbers_assign (numbers_analyze target) (numbers_analyze value)
  | .call _ name args, _ => numbers_call name fun signature => numbers_analyzeArgs signature 0 args
termination_by structural e => e

theorem numbers_analyzeOperands : ∀ es : List Expr,
    Numbers L (Expr.taggedAll Expr.noKeys es) (analyzeOperands L.cfg es) tokensOfEvaluations
  | [] => .pure fun _ => Nat.le_refl _
  | e :: rest => by
    have he := numbers_analyze e
    have hnested := numbers_nested e
    have hrest := numbers_analyzeOperands rest
    by_cases hconcat : ∃ tag operands, e = .concat tag operands
    · obtain ⟨tag, operands, rfl⟩ := hconcat
      exact numbers_operands_concat (hnested tag operands rfl) hrest
    · exact numbers_operands_cons (fun tag operands heq => hconcat ⟨tag, operands, heq⟩) he hrest
termination_by structural es => es

theorem numbers_nested : ∀ (e : Expr) (tag : ExprTag) (operands : List Expr), e = .concat tag operands →
    Numbers L (Expr.taggedAll Expr.noKeys operands) (analyzeOperands L.cfg operands) tokensOfEvaluations
  | .concat _ operands, _, _, h => (Expr.concat.inj h).2 ▸ numbers_analyzeOperands operands
  | .literal .., _, _, h | .array .., _, _, h | .binary .., _, _, h | .unary .., _, _, h
  | .incDec .., _, _, h | .conditional .., _, _, h | .shortcut .., _, _, h | .list .., _, _, h
  | .var .., _, _, h | .item .., _, _, h | .append .., _, _, h | .assign .., _, _, h
  | .call .., _, _, h | .constant .., _, _, h => nomatch h
termination_by structural e => e

theorem numbers_analyzeArgs (signature : Option Signature) : ∀ (position : Nat) (es : List Expr),
    Numbers L (Expr.taggedAll Expr.noKeys es) (analyzeArgs L.cfg signature position es) (Expr.taggedAll Expr.keys)
  | _, [] => .pure fun _ => Nat.le_refl _
  | position, arg :: rest => by
    rw [analyzeArgs]
    refine (numbers_analyze arg _).kept.bind (Expr.taggedAll Expr.noKeys rest)
      (fun a => ?_) fun _ => Nat.le_refl _
    refine (numbers_analyzeArgs signature (position + 1) rest).bind (a.tagged Expr.keys)
      (fun as => .pure fun token => ?_) fun token => ?_
    all_goals simp only [Expr.taggedAll_cons, List.count_append]; omega
termination_by structural _ es => es

theorem numbers_analyzeElements : ∀ es : List ArrayElement, NumbersElements L es
  | [] => fun _ _ _ _ => .pure fun _ => Nat.le_refl _
  | .plain span value :: rest =>
    numbers_elements_plain span (numbers_analyze value) (numbers_analyzeElements rest)
  | .keyed span key value :: rest =>
    numbers_elements_keyed span (numbers_analyze key) (numbers_analyze value) (numbers_analyzeElements rest)
termination_by structural es => es

theorem numbers_analyzeTargets : ∀ ts : List ListTarget,
    Numbers L (Expr.taggedTargets Expr.noKeys ts) (analyzeTargets L.cfg ts) (Expr.taggedTargets Expr.keys)
  | [] => .pure fun _ => Nat.le_refl _
  | .skip :: rest => by
    rw [analyzeTargets]
    refine (numbers_analyzeTargets rest).bind [] (fun ts => .pure fun token => ?_) fun token => ?_
    all_goals simp
  | .leaf target :: rest => by
    rw [analyzeTargets]
    refine (numbers_analyze target .write).kept.bind (Expr.taggedTargets Expr.noKeys rest) (fun e => ?_)
      fun token => ?_
    refine (numbers_analyzeTargets rest).bind (e.tagged Expr.keys) (fun ts => .pure fun token => ?_)
      fun token => ?_
    all_goals simp only [blank, Expr.taggedTargets_leaf, List.count_append]; omega
  | .nested targets :: rest => by
    rw [analyzeTargets]
    refine (numbers_analyzeTargets targets).bind (Expr.taggedTargets Expr.noKeys rest) (fun us => ?_)
      fun token => ?_
    refine (numbers_analyzeTargets rest).bind (Expr.taggedTargets Expr.keys us) (fun ts => .pure fun token => ?_)
      fun token => ?_
    all_goals simp only [Expr.taggedTargets_nested, List.count_append]; omega
termination_by structural ts => ts

end

theorem numbers_analyzeAll (access : Access) : ∀ es : List Expr,
    Numbers L (Expr.taggedAll Expr.noKeys es) (analyzeAll L.cfg access es) (Expr.taggedAll Expr.keys)
  | [] => .pure fun _ => Nat.le_refl _
  | e :: rest => by
    rw [analyzeAll]
    refine (numbers_analyze L e access).kept.bind (Expr.taggedAll Expr.noKeys rest)
      (fun e' => ?_) fun _ => Nat.le_refl _
    refine (numbers_analyzeAll access rest).bind (e'.tagged Expr.keys) (fun es => .pure fun token => ?_)
      fun token => ?_
    all_goals simp only [Expr.taggedAll_cons, List.count_append]; omega


end Analysis

/-! ## Statements -/

/-- The token of a node.  Nothing is counted under the number of a statement. -/
def Node.token (f : Expr → Option KeyCount) : Node → Token
  | .expr e => (e.id, f e)
  | .stmt x => Token.new x.id

theorem Node.token_fst (f : Expr → Option KeyCount) (n : Node) : (n.token f).1 = n.id := by
  cases n <;> rfl

/-- Nothing has been counted on a blank token. -/
theorem Node.eq_of_token_noKeys {n : Node} {i : Nat} {k : KeyCount} (h : n.token Expr.noKeys = (i, some k)) :
    k = {} := by
  cases n with
  | stmt => cases h
  | expr e =>
    cases e with
    | array => exact (Option.some.inj (Prod.mk.inj h).2).symm
    | _ => cases h

section

variable (f : Expr → Option KeyCount)

@[simp] theorem Expr.map_token_nodes (e : Expr) : e.nodes.map (Node.token f) = e.tagged f := by
  rw [nodes, List.map_map]
  rfl

@[simp] theorem Expr.map_token_flatMap_nodes (es : List Expr) :
    (es.flatMap nodes).map (Node.token f) = taggedAll f es := by
  simp only [List.map_flatMap, map_token_nodes]
  rfl

namespace Stmt

/-- Tokens for a statement and all that it contains. -/
def tagged (x : Stmt) : List Token :=
  x.nodes.map (Node.token f)

/-- Tokens for statements and all that they contain. -/
def taggedAll (body : List Stmt) : List Token :=
  (nodesOf body).map (Node.token f)

/-- Tokens for a part that may be missing. -/
def taggedOptional (part : Option (List Stmt)) : List Token :=
  (nodesOfOptional part).map (Node.token f)

/-- Tokens for what the clauses of a `try` contain. -/
def taggedCatches (catches : List Catch) : List Token :=
  (nodesOfCatches catches).map (Node.token f)

theorem map_fst_taggedAll (body : List Stmt) : (taggedAll f body).map Prod.fst = (nodesOf body).map Node.id := by
  rw [taggedAll, List.map_map]
  exact List.map_congr_left fun n _ => n.token_fst f

theorem map_fst_tagged (x : Stmt) : (x.tagged f).map Prod.fst = x.nodes.map Node.id := by
  rw [tagged, List.map_map]
  exact List.map_congr_left fun n _ => n.token_fst f

section

variable (tag : StmtTag)

@[simp] theorem tagged_expression (e : Expr) : (expression tag e).tagged f = [Token.new tag.id] ++ e.tagged f := by
  simp [tagged, nodes, Node.token, Stmt.id, Stmt.tag]

@[simp] theorem tagged_throw (e : Expr) : (throw tag e).tagged f = [Token.new tag.id] ++ e.tagged f := by
  simp [tagged, nodes, Node.token, Stmt.id, Stmt.tag]

@[simp] theorem tagged_constDecl (name : String) (e : Expr) : (constDecl tag name e).tagged f =
    [Token.new tag.id] ++ e.tagged f := by
  simp [tagged, nodes, Node.token, Stmt.id, Stmt.tag]

@[simp] theorem tagged_echo (es : List Expr) : (echo tag es).tagged f = [Token.new tag.id] ++ Expr.taggedAll f es := by
  simp [tagged, nodes, Node.token, Stmt.id, Stmt.tag]

@[simp] theorem tagged_unset (es : List Expr) :
    (unset tag es).tagged f = [Token.new tag.id] ++ Expr.taggedAll f es := by
  simp [tagged, nodes, Node.token, Stmt.id, Stmt.tag]

@[simp] theorem tagged_jump (kind : JumpKind) (e : Option Expr) :
    (jump tag kind e).tagged f = [Token.new tag.id] ++ Expr.taggedAll f e.toList := by
  simp [tagged, nodes, Node.token, Stmt.id, Stmt.tag]

@[simp] theorem tagged_block (body : List Stmt) : (block tag body).tagged f =
    [Token.new tag.id] ++ taggedAll f body := rfl

@[simp] theorem tagged_branch (c : Expr) (thenBody : List Stmt) (elseBody : Option (List Stmt)) :
    (branch tag c thenBody elseBody).tagged f =
      [Token.new tag.id] ++ c.tagged f ++ taggedAll f thenBody ++ taggedOptional f elseBody := by
  simp [tagged, taggedAll, taggedOptional, nodes, Node.token, Stmt.id, Stmt.tag]

@[simp] theorem tagged_loop (c : Expr) (body : List Stmt) :
    (loop tag c body).tagged f = [Token.new tag.id] ++ c.tagged f ++ taggedAll f body := by
  simp [tagged, taggedAll, nodes, Node.token, Stmt.id, Stmt.tag]

@[simp] theorem tagged_tryCatch (body : List Stmt) (catches : List Catch) (cleanup : Option (List Stmt)) :
    (tryCatch tag body catches cleanup).tagged f =
      [Token.new tag.id] ++ taggedAll f body ++ taggedCatches f catches ++ taggedOptional f cleanup := by
  simp [tagged, taggedAll, taggedCatches, taggedOptional, nodes, Node.token, Stmt.id, Stmt.tag]

@[simp] theorem tagged_function (head : FunctionHead) (body : List Stmt) (dead : Bool) :
    (function tag head body dead).tagged f = [Token.new tag.id] ++ taggedAll f body := rfl

@[simp] theorem tagged_goto (label : String) : (goto tag label).tagged f = [Token.new tag.id] := rfl

@[simp] theorem tagged_label (name : String) : (label tag name).tagged f = [Token.new tag.id] := rfl

@[simp] theorem tagged_empty (kind : EmptyKind) : (empty tag kind).tagged f = [Token.new tag.id] := rfl

end

@[simp] theorem taggedAll_nil : taggedAll f [] = [] := rfl

@[simp] theorem taggedAll_cons (x : Stmt) (rest : List Stmt) : taggedAll f (x :: rest) =
    x.tagged f ++ taggedAll f rest := by
  simp [tagged, taggedAll, nodesOf]

@[simp] theorem taggedOptional_none : taggedOptional f none = [] := rfl

@[simp] theorem taggedOptional_some (body : List Stmt) : taggedOptional f (some body) = taggedAll f body := rfl

@[simp] theorem taggedCatches_nil : taggedCatches f [] = [] := rfl

@[simp] theorem taggedCatches_cons (span : Span) (type : String) (var : Option String) (body : List Stmt)
    (resolved : Option String) (rest : List Catch) :
    taggedCatches f (.clause span type var body resolved :: rest) = taggedAll f body ++ taggedCatches f rest := by
  simp [taggedAll, taggedCatches, nodesOfCatches]

end Stmt

end

namespace Analysis

open Pass (Ends)

variable {α : Type} {given : List Token} {L : Ledger}

theorem numbers_emptyStmt (given : List Token) (span : Span) (kind : EmptyKind) :
    Numbers L given (emptyStmt span kind) (Stmt.tagged Expr.keys) :=
  .transform (fun _ => rfl) fun s => .fresh L given s.nextId

theorem numbers_byStmtRule (node : Stmt) {analyzed : Home StmtKind → Analyze Stmt}
    (h : ∀ home, Numbers L (node.tagged Expr.noKeys) (analyzed home) (Stmt.tagged Expr.keys)) :
    Numbers L (node.tagged Expr.noKeys) (byStmtRule L.cfg node analyzed) (Stmt.tagged Expr.keys) := by
  intro rest s hs
  have hhandle : Ends (onTable (RuleTable.stmt L.cfg.registry node.kind node.id)) s
      (fun handle t => (L.cfg.registry = .standard → handle.rule = node.kind) ∧
        L.Balance (node.tagged Expr.noKeys ++ rest) t.nextId t.memory) fun _ => True := by
    refine .intro (fun handle t hrun => ?_) fun _ _ _ => trivial
    have hanswer : (RuleTable.stmt L.cfg.registry node.kind node.id s.table).1 = .ok handle :=
      (Prod.mk.inj hrun).1
    obtain rfl := (Prod.mk.inj hrun).2
    refine ⟨fun hstd => ?_, hs⟩
    rw [hstd] at hanswer
    exact congrArg Handle.rule ((RuleTable.ends_stmt s.table node.kind node.id).of_ok (Prod.ext hanswer rfl)).1
  unfold byStmtRule
  refine hhandle.bind fun handle t ht => ?_
  obtain ⟨hstd, ht⟩ := ht
  split
  · exact h handle.home rest t ht
  · rename_i hrule
    have hother : L.cfg.registry ≠ .standard := fun hcfg => hrule (hstd hcfg)
    split
    · exact .pure (ht.of_numbers hother (by simp only [List.map_append, Stmt.map_fst_tagged]))
    · exact .fail trivial

theorem silent_reportUnreachable (options : Options) (span : Span) :
    Silent (Pass.update (State.reportUnreachable options span)) := by
  intro s
  show (s.reportUnreachable options span).nextId = s.nextId ∧
    (s.reportUnreachable options span).memory.keys = s.memory.keys
  unfold State.reportUnreachable
  dsimp only
  split
  · exact ⟨rfl, rfl⟩
  · split <;> exact ⟨rfl, rfl⟩

theorem numbers_ifAlive (node : Stmt) {analyzed : Home StmtKind → Analyze Stmt}
    (h : ∀ home, Numbers L (node.tagged Expr.noKeys) (analyzed home) (Stmt.tagged Expr.keys)) :
    Numbers L (node.tagged Expr.noKeys) (ifAlive L.cfg node analyzed) (Stmt.tagged Expr.keys) := by
  have hrule := numbers_byStmtRule node h
  unfold ifAlive
  refine .ite (.after (fun _ => ⟨rfl, rfl⟩) fun _ => hrule) (.after
    (fun _ => ⟨rfl, rfl⟩) fun dead => .ite ?_ hrule)
  exact .after (silent_reportUnreachable _ _) fun _ => numbers_emptyStmt _ node.span .unreachable

theorem Numbers.asDead {x : Analyze α} {out : α → List Token} (h : Numbers L given x out) :
    Numbers L given (asDead x) fun _ => [] :=
  .after (fun _ => ⟨rfl, rfl⟩) fun saved => .after (fun _ => ⟨rfl, rfl⟩) fun _ =>
    (h.ensuring (f := State.restore saved) fun _ => ⟨rfl, rfl⟩).drop

theorem Numbers.inLoop {x : Analyze α} {out : α → List Token} (h : Numbers L given x out) :
    Numbers L given (inLoop x) out :=
  .after (fun _ => ⟨rfl, rfl⟩) fun _ => h.ensuring fun _ => ⟨rfl, rfl⟩

theorem silent_reportUndefined : Silent (Pass.update State.reportUndefined) := by
  intro s
  obtain ⟨diagnostics, h⟩ := exists_reportUndefined_eq s
  show s.reportUndefined.nextId = s.nextId ∧ s.reportUndefined.memory.keys = s.memory.keys
  rw [h]
  exact ⟨rfl, rfl⟩

theorem silent_leaveRoutine : Silent (Pass.update State.leaveRoutine) := by
  intro s
  show s.leaveRoutine.nextId = s.nextId ∧ s.leaveRoutine.memory.keys = s.memory.keys
  unfold State.leaveRoutine
  split
  · exact ⟨rfl, rfl⟩
  · exact silent_reportUndefined s

theorem silent_finish : Silent (Pass.update State.finish) := by
  intro s
  show s.finish.nextId = s.nextId ∧ s.finish.memory.keys = s.memory.keys
  unfold State.finish
  generalize s.enclosing = enclosing
  obtain ⟨hnext, hkeys⟩ := silent_reportUndefined (enclosing.foldl (fun s _ => s.leaveRoutine) s)
  refine ⟨hnext.trans ?_, hkeys.trans ?_⟩
  · clear hnext hkeys
    induction enclosing generalizing s with
    | nil => rfl
    | cons p rest ih => exact (ih s.leaveRoutine).trans (silent_leaveRoutine s).1
  · clear hnext hkeys
    induction enclosing generalizing s with
    | nil => rfl
    | cons p rest ih => exact (ih s.leaveRoutine).trans (silent_leaveRoutine s).2

theorem silent_enterUnreachable : Silent (Pass.update State.enterUnreachable) := by
  intro s
  show s.enterUnreachable.nextId = s.nextId ∧ s.enterUnreachable.memory.keys = s.memory.keys
  unfold State.enterUnreachable
  split <;> exact ⟨rfl, rfl⟩

theorem silent_labelEntry (name : String) (firstGoto : Option Span) (s : State) :
    (s.labelEntry name firstGoto).2.nextId = s.nextId ∧
      (s.labelEntry name firstGoto).2.memory.keys = s.memory.keys := by
  unfold State.labelEntry
  split <;> exact ⟨rfl, rfl⟩

theorem silent_checkLevel (level : Option Expr) (span : Span) : Silent (Pass.update (checkLevel level span)) := by
  intro s
  show (checkLevel level span s).nextId = s.nextId ∧ (checkLevel level span s).memory.keys = s.memory.keys
  unfold checkLevel
  dsimp only
  split <;> split <;> exact ⟨rfl, rfl⟩

theorem numbers_analyzeJump (tag : StmtTag) (kind : JumpKind) (expr : Option Expr) :
    Numbers L ((Stmt.jump tag kind expr).tagged Expr.noKeys) (analyzeJump L.cfg tag kind expr)
      (Stmt.tagged Expr.keys) := by
  have hrest (expr' : Option Expr) : Numbers L ((Stmt.jump tag kind expr').tagged Expr.keys) (do
      if kind ≠ .return then Pass.update (checkLevel expr' tag.span)
      Pass.update State.enterUnreachable
      return Stmt.jump tag kind expr') (Stmt.tagged Expr.keys) :=
    .afterIf (silent_checkLevel expr' tag.span) fun _ => .after silent_enterUnreachable fun _ =>
      .pure fun _ => Nat.le_refl _
  unfold analyzeJump
  refine .after (fun _ => ⟨rfl, rfl⟩) fun returnsRef => ?_
  cases expr with
  | none => exact hrest none
  | some e =>
    refine (numbers_analyze L e _).kept.bind [Token.new tag.id] (fun e' => ?_) fun token => ?_
    · refine (hrest (some e')).mono fun token => ?_
      simp only [Stmt.tagged_jump, Option.toList_some, Expr.taggedAll_cons, Expr.taggedAll_nil, List.append_nil,
        List.count_append]
      omega
    · simp only [blank, Stmt.tagged_jump, Option.toList_some, Expr.taggedAll_cons, Expr.taggedAll_nil,
        List.append_nil, List.count_append]
      omega

theorem silent_defineLabel (name : String) (span : Span) :
    Silent (Pass.transform (State.defineLabel name span)) := by
  intro s
  show (s.defineLabel name span).2.nextId = s.nextId ∧ (s.defineLabel name span).2.memory.keys = s.memory.keys
  unfold State.defineLabel
  dsimp only
  split <;> exact silent_labelEntry name none s

theorem numbers_analyzeLabel (tag : StmtTag) (name : String) (home : Home StmtKind) :
    Numbers L ((Stmt.label tag name).tagged Expr.noKeys) (analyzeLabel tag name home) (Stmt.tagged Expr.keys) := by
  unfold analyzeLabel
  refine .after (silent_defineLabel name tag.span) fun cell => ?_
  cases cell with
  | none => exact .pure fun _ => Nat.le_refl _
  | some cell => exact .after (fun _ => ⟨rfl, rfl⟩) fun _ => .pure fun _ => Nat.le_refl _

theorem numbers_analyzeExpression (tag : StmtTag) (e : Expr) :
    Numbers L ((Stmt.expression tag e).tagged Expr.noKeys) (analyzeExpression L.cfg tag e)
      (Stmt.tagged Expr.keys) := by
  unfold analyzeExpression
  refine (numbers_analyze L e .none).bind [Token.new tag.id] (fun c => ?_) fun token => ?_
  · cases c with
    | value _ _ => exact numbers_emptyStmt _ tag.span .skipped
    | residual node =>
      refine .pure fun token => ?_
      simp only [Stmt.tagged_expression, Evaluation.tokens_residual, Token.new, List.count_append]
      omega
  · simp only [blank, Stmt.tagged_expression, Token.new, List.count_append]
    omega

theorem silent_declareConstant (cfg : Setting) (name : String) (v : Literal) (span : Span) :
    Silent (Pass.transform (State.declareConstant cfg name v span)) := by
  intro s
  show (s.declareConstant cfg name v span).2.nextId = s.nextId ∧
    (s.declareConstant cfg name v span).2.memory.keys = s.memory.keys
  unfold State.declareConstant
  split <;> exact ⟨rfl, rfl⟩

theorem numbers_analyzeConstDecl (tag : StmtTag) (name : String) (value : Expr) :
    Numbers L ((Stmt.constDecl tag name value).tagged Expr.noKeys) (analyzeConstDecl L.cfg tag name value)
      (Stmt.tagged Expr.keys) := by
  have hrest (c : Evaluation) : Numbers L (c.tokens ++ [Token.new tag.id])
      (keep c >>= fun e => pure (Stmt.constDecl tag name e)) (Stmt.tagged Expr.keys) := by
    refine (numbers_keep c).bind [Token.new tag.id] (fun e => .pure fun token => ?_) fun _ => Nat.le_refl _
    simp only [Stmt.tagged_constDecl, List.count_append]
    omega
  unfold analyzeConstDecl
  refine (numbers_analyze L value .read).bind [Token.new tag.id] (fun c => ?_) fun token => ?_
  · cases c.value? with
    | none => exact hrest c
    | some v => exact .after (silent_declareConstant L.cfg name v tag.span) fun _ => hrest c
  · simp only [blank, Stmt.tagged_constDecl, List.count_append]
    omega

/-! ### One rule at a time -/

/-- Statements can be analysed with blank tokens, and leave those of what has become of them. -/
abbrev NumbersStmts (L : Ledger) (body : List Stmt) : Prop :=
  Numbers L (Stmt.taggedAll Expr.noKeys body) (analyzeStmts L.cfg body) (Stmt.taggedAll Expr.keys)

/-- The same for a part that may be missing. -/
abbrev NumbersOptional (L : Ledger) (part : Option (List Stmt)) : Prop :=
  Numbers L (Stmt.taggedOptional Expr.noKeys part) (analyzeOptional L.cfg part) (Stmt.taggedOptional Expr.keys)

section Rules

variable {tag : StmtTag}

theorem numbers_echo (exprs : List Expr) :
    Numbers L ((Stmt.echo tag exprs).tagged Expr.noKeys) (analyzeStmt L.cfg (.echo tag exprs))
      (Stmt.tagged Expr.keys) := by
  rw [analyzeStmt]
  refine numbers_ifAlive _ fun _ => ?_
  refine (numbers_analyzeAll L .read exprs).bind [Token.new tag.id] (fun es => .pure fun token => ?_) fun token => ?_
  all_goals simp only [Stmt.tagged_echo, Token.new, List.count_append]; omega

theorem numbers_unset (targets : List Expr) :
    Numbers L ((Stmt.unset tag targets).tagged Expr.noKeys) (analyzeStmt L.cfg (.unset tag targets))
      (Stmt.tagged Expr.keys) := by
  rw [analyzeStmt]
  refine numbers_ifAlive _ fun _ => ?_
  refine (numbers_analyzeAll L .write targets).bind [Token.new tag.id] (fun es => .pure fun token => ?_) fun token => ?_
  all_goals simp only [Stmt.tagged_unset, Token.new, List.count_append]; omega

theorem numbers_throw (e : Expr) :
    Numbers L ((Stmt.throw tag e).tagged Expr.noKeys) (analyzeStmt L.cfg (.throw tag e))
      (Stmt.tagged Expr.keys) := by
  rw [analyzeStmt]
  refine numbers_ifAlive _ fun _ => ?_
  refine (numbers_analyze L e .read).kept.bind [Token.new tag.id]
    (fun e' => .after silent_enterUnreachable fun _ => .pure fun token => ?_) fun token => ?_
  all_goals simp only [blank, Stmt.tagged_throw, Token.new, List.count_append]; omega

theorem numbers_goto (label : String) :
    Numbers L ((Stmt.goto tag label).tagged Expr.noKeys) (analyzeStmt L.cfg (.goto tag label))
      (Stmt.tagged Expr.keys) := by
  have hgoto : Silent (Pass.update (State.gotoLabel label tag.span)) := silent_labelEntry label _
  rw [analyzeStmt]
  refine numbers_ifAlive _ fun _ => .after hgoto fun _ => .after silent_enterUnreachable fun _ => ?_
  exact .pure fun _ => Nat.le_refl _

theorem numbers_block {body : List Stmt} (hbody : NumbersStmts L body) :
    Numbers L ((Stmt.block tag body).tagged Expr.noKeys) (analyzeStmt L.cfg (.block tag body))
      (Stmt.tagged Expr.keys) := by
  rw [analyzeStmt]
  refine numbers_ifAlive _ fun _ => ?_
  refine hbody.bind [Token.new tag.id] (fun out => .pure fun token => ?_) fun token => ?_
  all_goals simp only [Stmt.tagged_block, Token.new, List.count_append]; omega

/-- A part of a branch stands for the branch, or both are kept. -/
theorem numbers_branch (condition : Expr) {thenBody : List Stmt} {elseBody : Option (List Stmt)}
    (hthen : NumbersStmts L thenBody) (hoptional : NumbersOptional L elseBody)
    (helse : ∀ entry, Numbers L (Stmt.taggedOptional Expr.noKeys elseBody) (analyzeElse L.cfg entry elseBody)
      (Stmt.taggedOptional Expr.keys)) :
    Numbers L ((Stmt.branch tag condition thenBody elseBody).tagged Expr.noKeys)
      (analyzeStmt L.cfg (.branch tag condition thenBody elseBody)) (Stmt.tagged Expr.keys) := by
  rw [analyzeStmt]
  refine numbers_ifAlive _ fun _ => ?_
  refine (numbers_analyze L condition .read).bind
    ([Token.new tag.id] ++ Stmt.taggedAll Expr.noKeys thenBody ++ Stmt.taggedOptional Expr.noKeys elseBody)
      (fun c => ?_) fun token => ?_
  · dsimp only
    generalize (if Stmt.anyEntry thenBody || Stmt.optionalEntry elseBody then none else decided? L.cfg c) =
      decided
    rcases decided with _ | _ | _ <;> dsimp only
    · refine (numbers_keep c).bind
        ([Token.new tag.id] ++ Stmt.taggedAll Expr.noKeys thenBody ++ Stmt.taggedOptional Expr.noKeys elseBody)
        (fun c' => .after (fun _ => ⟨rfl, rfl⟩) fun entry => ?_) fun token => ?_
      refine .attempt (hthen.inConditional.bind
        ([Token.new tag.id] ++ c'.tagged Expr.keys ++ Stmt.taggedOptional Expr.noKeys elseBody) (fun t => ?_)
          fun token => ?_)
      refine (helse entry).bind
        ([Token.new tag.id] ++ c'.tagged Expr.keys ++ Stmt.taggedAll Expr.keys t) (fun f => .pure fun token => ?_)
          fun token => ?_
      all_goals simp only [Stmt.tagged_branch, Token.new, List.count_append]; omega
    · refine hthen.asDead.bind ([Token.new tag.id] ++ Stmt.taggedOptional Expr.noKeys elseBody) (fun _ => ?_)
        fun token => ?_
      refine hoptional.bind [Token.new tag.id] (fun part => ?_) fun token => ?_
      · cases part with
        | none => exact numbers_emptyStmt _ tag.span .skipped
        | some out =>
          refine .pure fun token => ?_
          simp only [Stmt.tagged_block, Stmt.taggedOptional_some, Token.new, List.count_append]
          omega
      all_goals simp only [List.nil_append, Token.new, List.count_append]; omega
    · refine hoptional.asDead.bind ([Token.new tag.id] ++ Stmt.taggedAll Expr.noKeys thenBody) (fun _ => ?_)
        fun token => ?_
      refine hthen.bind [Token.new tag.id] (fun out => .pure fun token => ?_) fun token => ?_
      all_goals simp only [Stmt.tagged_block, List.nil_append, Token.new, List.count_append]; omega
  · simp only [blank, Stmt.tagged_branch, Token.new, List.count_append]; omega

theorem numbers_loop (condition : Expr) {body : List Stmt} (hbody : NumbersStmts L body) :
    Numbers L ((Stmt.loop tag condition body).tagged Expr.noKeys) (analyzeStmt L.cfg (.loop tag condition body))
      (Stmt.tagged Expr.keys) := by
  rw [analyzeStmt]
  refine numbers_ifAlive _ fun _ => ?_
  refine (numbers_analyze L condition .read).bind ([Token.new tag.id] ++ Stmt.taggedAll Expr.noKeys body)
    (fun c => ?_) fun token => ?_
  · refine .ite ?_ ?_
    · refine hbody.asDead.inLoop.bind [] (fun _ => numbers_emptyStmt _ tag.span .skipped) fun token => ?_
      simp only [List.append_nil, Token.new, List.count_append]; omega
    · refine (numbers_keep c).bind ([Token.new tag.id] ++ Stmt.taggedAll Expr.noKeys body) (fun c' => ?_)
        fun token => ?_
      refine hbody.inLoop.bind ([Token.new tag.id] ++ c'.tagged Expr.keys) (fun out => .pure fun token => ?_)
        fun token => ?_
      all_goals simp only [Stmt.tagged_loop, Token.new, List.count_append]; omega
  · simp only [blank, Stmt.tagged_loop, Token.new, List.count_append]; omega

theorem numbers_tryCatch {body : List Stmt} {catches : List Catch} {cleanup : Option (List Stmt)}
    (hbody : NumbersStmts L body)
    (hcatches : Numbers L (Stmt.taggedCatches Expr.noKeys catches) (analyzeCatches L.cfg catches)
      (Stmt.taggedCatches Expr.keys))
    (hcleanup : NumbersOptional L cleanup) :
    Numbers L ((Stmt.tryCatch tag body catches cleanup).tagged Expr.noKeys)
      (analyzeStmt L.cfg (.tryCatch tag body catches cleanup)) (Stmt.tagged Expr.keys) := by
  rw [analyzeStmt]
  refine numbers_ifAlive _ fun _ => ?_
  refine hbody.inConditional.bind
    ([Token.new tag.id] ++ Stmt.taggedCatches Expr.noKeys catches ++ Stmt.taggedOptional Expr.noKeys cleanup)
      (fun b => ?_) fun token => ?_
  refine hcatches.bind
    ([Token.new tag.id] ++ Stmt.taggedAll Expr.keys b ++ Stmt.taggedOptional Expr.noKeys cleanup)
    (fun cs => ?_) fun token => ?_
  refine hcleanup.bind
    ([Token.new tag.id] ++ Stmt.taggedAll Expr.keys b ++ Stmt.taggedCatches Expr.keys cs)
    (fun f => .pure fun token => ?_) fun token => ?_
  all_goals simp only [Stmt.tagged_tryCatch, Token.new, List.count_append]; omega

theorem numbers_function (head : FunctionHead) {body : List Stmt} (dead : Bool) (hbody : NumbersStmts L body) :
    Numbers L ((Stmt.function tag head body dead).tagged Expr.noKeys)
      (analyzeStmt L.cfg (.function tag head body dead)) (Stmt.tagged Expr.keys) := by
  rw [analyzeStmt]
  refine numbers_ifAlive _ fun _ => .after (fun _ => ⟨rfl, rfl⟩) fun dead' => .after
    (fun _ => ⟨rfl, rfl⟩) fun _ => ?_
  refine (hbody.ensuring silent_leaveRoutine).bind [Token.new tag.id] (fun out => .pure fun token => ?_) fun token => ?_
  all_goals simp only [Stmt.tagged_function, Token.new, List.count_append]; omega

theorem numbers_stmts_cons {x : Stmt} {rest : List Stmt}
    (hx : Numbers L (x.tagged Expr.noKeys) (analyzeStmt L.cfg x) (Stmt.tagged Expr.keys))
    (hrest : NumbersStmts L rest) : NumbersStmts L (x :: rest) := by
  unfold NumbersStmts
  rw [analyzeStmts]
  refine hx.bind (Stmt.taggedAll Expr.noKeys rest) (fun y => ?_) fun token => ?_
  refine hrest.bind (y.tagged Expr.keys) (fun ys => .pure fun token => ?_) fun token => ?_
  all_goals simp only [Stmt.taggedAll_cons, List.count_append]; omega

theorem numbers_optional_some {body : List Stmt} (hbody : NumbersStmts L body) : NumbersOptional L (some body) := by
  unfold NumbersOptional
  rw [analyzeOptional]
  refine hbody.bind [] (fun out => .pure fun token => ?_) fun token => ?_
  all_goals simp

theorem numbers_else_some (entry : Reachability) {body : List Stmt} (hbody : NumbersStmts L body) :
    Numbers L (Stmt.taggedOptional Expr.noKeys (some body)) (analyzeElse L.cfg entry (some body))
      (Stmt.taggedOptional Expr.keys) := by
  rw [analyzeElse]
  refine .after (fun _ => ⟨rfl, rfl⟩) fun _ => ?_
  refine hbody.inConditional.bind [] (fun out => .pure fun token => ?_) fun token => ?_
  all_goals simp

theorem silent_resolveType (cfg : Setting) (type : String) (span : Span) :
    Silent (Pass.transform (State.resolveType cfg type span)) := by
  intro s
  show (s.resolveType cfg type span).2.nextId = s.nextId ∧
    (s.resolveType cfg type span).2.memory.keys = s.memory.keys
  unfold State.resolveType
  split <;> exact ⟨rfl, rfl⟩

theorem numbers_clause (span : Span) (type : String) (var : Option String) (resolved : Option String)
    {body : List Stmt} {rest : List Catch} (hbody : NumbersStmts L body)
    (hrest : Numbers L (Stmt.taggedCatches Expr.noKeys rest) (analyzeCatches L.cfg rest)
      (Stmt.taggedCatches Expr.keys)) :
    Numbers L (Stmt.taggedCatches Expr.noKeys (.clause span type var body resolved :: rest))
      (analyzeCatches L.cfg (.clause span type var body resolved :: rest)) (Stmt.taggedCatches Expr.keys) := by
  rw [analyzeCatches]
  refine .after (silent_resolveType L.cfg type span) fun resolved' => ?_
  refine hbody.inConditional.bind (Stmt.taggedCatches Expr.noKeys rest) (fun b => ?_) fun token => ?_
  refine hrest.bind (Stmt.taggedAll Expr.keys b) (fun cs => .pure fun token => ?_) fun token => ?_
  all_goals simp only [Stmt.taggedCatches_cons, List.count_append]; omega

end Rules

/-! ### All statements -/

mutual

/-- **The numbers in an analysed statement are those of the statement, or new.** -/
theorem numbers_analyzeStmt : ∀ x : Stmt,
    Numbers L (x.tagged Expr.noKeys) (analyzeStmt L.cfg x) (Stmt.tagged Expr.keys)
  | .expression tag e => by
    rw [analyzeStmt]
    exact numbers_ifAlive _ fun _ => numbers_analyzeExpression tag e
  | .echo _ exprs => numbers_echo exprs
  | .block _ body => numbers_block (numbers_analyzeStmts body)
  | .branch _ condition thenBody elseBody =>
    numbers_branch condition (numbers_analyzeStmts thenBody) (numbers_analyzeOptional elseBody)
      fun entry => numbers_analyzeElse entry elseBody
  | .loop _ condition body => numbers_loop condition (numbers_analyzeStmts body)
  | .jump tag kind expr => by
    rw [analyzeStmt]
    exact numbers_ifAlive _ fun _ => numbers_analyzeJump tag kind expr
  | .goto _ label => numbers_goto label
  | .label tag name => by
    rw [analyzeStmt]
    exact numbers_ifAlive _ fun home => numbers_analyzeLabel tag name home
  | .tryCatch _ body catches cleanup =>
    numbers_tryCatch (numbers_analyzeStmts body) (numbers_analyzeCatches catches) (numbers_analyzeOptional cleanup)
  | .throw _ e => numbers_throw e
  | .unset _ targets => numbers_unset targets
  | .constDecl tag name value => by
    rw [analyzeStmt]
    exact numbers_ifAlive _ fun _ => numbers_analyzeConstDecl tag name value
  | .function _ head body dead => numbers_function head dead (numbers_analyzeStmts body)
  | .empty tag kind => by
    rw [analyzeStmt]
    exact numbers_ifAlive _ fun _ => .pure fun _ => Nat.le_refl _
termination_by structural x => x

/-- **The numbers in analysed statements are those of the statements, or new.** -/
theorem numbers_analyzeStmts : ∀ body : List Stmt, NumbersStmts L body
  | [] => .pure fun _ => Nat.le_refl _
  | x :: rest => numbers_stmts_cons (numbers_analyzeStmt x) (numbers_analyzeStmts rest)
termination_by structural body => body

theorem numbers_analyzeOptional : ∀ part : Option (List Stmt), NumbersOptional L part
  | none => .pure fun _ => Nat.le_refl _
  | some body => numbers_optional_some (numbers_analyzeStmts body)
termination_by structural part => part

theorem numbers_analyzeElse (entry : Reachability) : ∀ part : Option (List Stmt),
    Numbers L (Stmt.taggedOptional Expr.noKeys part) (analyzeElse L.cfg entry part) (Stmt.taggedOptional Expr.keys)
  | none => .pure fun _ => Nat.le_refl _
  | some body => numbers_else_some entry (numbers_analyzeStmts body)
termination_by structural part => part

theorem numbers_analyzeCatches : ∀ catches : List Catch,
    Numbers L (Stmt.taggedCatches Expr.noKeys catches) (analyzeCatches L.cfg catches)
      (Stmt.taggedCatches Expr.keys)
  | [] => .pure fun _ => Nat.le_refl _
  | .clause span type var body resolved :: rest =>
    numbers_clause span type var resolved (numbers_analyzeStmts body) (numbers_analyzeCatches rest)
termination_by structural catches => catches

end

end Analysis
end PhpLowering
