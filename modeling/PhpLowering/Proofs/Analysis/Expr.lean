import PhpLowering.Proofs.Analysis.Becomes
import PhpLowering.Proofs.Tree.Roles

/-!
# What the analysis makes of expressions

**`finds_analyze`**: with the standard registry the analysis of an expression succeeds, and
the node that it leaves can serve in the roles that go with the access it was analysed for,
the refusals of the tree apart.  `Suits` is that relation between the expression, the access
and the node.

A node can be replaced on the way: an operator with a value by a literal, a conditional by one
of its branches.  Therefore nothing is said of the access of a node that was analysed for
writing and is no location: it is going to be refused anyhow.
-/

namespace PhpLowering
namespace Analysis

variable {cfg : Setting} {e node : Expr} {access : Access} {nodes : List Node}

/-- A node is what becomes of an expression that is analysed for an access. -/
structure Suits (e : Expr) (access : Access) (node : Expr) : Prop where
  formed : node.isPlace = true ∨ access = .none ∨ access = .read → node.Formed
  place : e.isPlace = true → node.isPlace = true ∧ node.access = access
  written : node.access = .write → access = .write
  access : access = .none ∨ access = .read → node.access = access

namespace Suits

/-- A node with the access that was asked for. -/
theorem of_access (haccess : node.access = access) (hplace : e.isPlace = true → node.isPlace = true)
    (hformed : node.isPlace = true ∨ access = .none ∨ access = .read → node.Formed) :
    Suits e access node :=
  ⟨hformed, fun he => ⟨hplace he, haccess⟩, fun h => haccess.symm.trans h, fun _ => haccess⟩

/-- What is evaluated for its value or for nothing. -/
theorem value (h : Suits e access node) (ha : access = .none ∨ access = .read) :
    node.Fits .value := by
  intro nodes hnodes
  have haccess := h.access ha
  have hwrite : node.access ≠ .write := by
    rw [haccess]
    rcases ha with rfl | rfl <;> nofun
  refine ⟨⟨?_, Expr.readable_of_among hnodes hwrite⟩, h.formed (Or.inr ha) nodes hnodes⟩
  rcases ha with rfl | rfl
  · exact Or.inl haccess
  · exact Or.inr (Or.inl haccess)

theorem operand (h : Suits e .read node) : node.Fits .operand := by
  intro nodes hnodes
  refine Expr.serves_operand_iff.mpr ⟨h.value (Or.inr rfl) nodes hnodes, ?_⟩
  rw [h.access (Or.inr rfl)]
  nofun

/-- A location of which a reference may be taken. -/
theorem reference (h : Suits e access node) (he : e.isPlace = true)
    (ha : access = .readRef ∨ access = .readUnknown) : node.Fits .operand := by
  intro nodes hnodes
  obtain ⟨hplace, haccess⟩ := h.place he
  rw [← haccess] at ha
  have hwrite : node.access ≠ .write := by
    rcases ha with ha | ha <;> rw [ha] <;> nofun
  have hnone : node.access ≠ .none := by
    rcases ha with ha | ha <;> rw [ha] <;> nofun
  exact ⟨⟨⟨Or.inr (Or.inr ⟨hplace, ha⟩), Expr.readable_of_among hnodes hwrite⟩, hnone⟩,
    h.formed (Or.inl hplace) nodes hnodes⟩

theorem argument {signature : Option Signature} {position : Nat}
    (h : Suits e (argumentAccess signature position e) node) : node.Fits .operand := by
  by_cases he : e.isPlace = true
  · have hcases : argumentAccess signature position e = .read ∨
        argumentAccess signature position e = .readRef ∨
          argumentAccess signature position e = .readUnknown := by
      simp only [argumentAccess, if_pos he]
      cases signature with
      | none => exact Or.inr (Or.inr rfl)
      | some s =>
        dsimp only
        split
        · exact Or.inr (Or.inl rfl)
        · exact Or.inl rfl
    rcases hcases with ha | ha
    · rw [ha] at h
      exact h.operand
    · exact h.reference he ha
  · have hread : argumentAccess signature position e = .read := by
      simp only [argumentAccess, if_neg he]
    rw [hread] at h
    exact h.operand

theorem container (h : Suits e (containerAccess access e) node) : node.Fits .container := by
  intro nodes hnodes
  unfold containerAccess at h
  split at h
  · rename_i hboth
    obtain ⟨hplace, haccess⟩ := h.place hboth.2
    have hwrite : node.access ≠ .write := by
      rw [haccess]
      nofun
    exact ⟨⟨Or.inl hplace, Expr.readable_of_among hnodes hwrite⟩, h.formed (Or.inl hplace) nodes hnodes⟩
  · have hread := h.access (Or.inr rfl)
    have hwrite : node.access ≠ .write := by
      rw [hread]
      nofun
    exact ⟨⟨Or.inr hread, Expr.readable_of_among hnodes hwrite⟩,
      h.formed (Or.inr (Or.inr rfl)) nodes hnodes⟩

theorem branch (h : Suits e (branchAccess access) node) : node.Fits (.ofBranch access) := by
  unfold branchAccess at h
  unfold Role.ofBranch
  split
  · rename_i hnone
    rw [if_pos hnone] at h
    exact h.value (Or.inl rfl)
  · rename_i hnone
    rw [if_neg hnone] at h
    exact h.operand

theorem target {n : Node} (h : Suits e access node) (hn : n ∈ nodes) (ht : node ∈ n.targets)
    (hnodes : Expr.Among nodes node.subexprs) : node.Serves (Refuses nodes) .target :=
  Expr.asPlace_of_mem hn ht fun hplace => h.formed (Or.inl hplace) nodes hnodes

theorem updated {n : Node} (h : Suits e .readAndWrite node) (hn : n ∈ nodes) (ht : node ∈ n.targets)
    (hnodes : Expr.Among nodes node.subexprs) : node.Serves (Refuses nodes) .updated :=
  Expr.asPlace_of_mem hn ht fun hplace =>
    ⟨Expr.readable_of_among hnodes fun hw => (nomatch h.written hw),
      h.formed (Or.inl hplace) nodes hnodes⟩

end Suits

/-- An evaluation is what the analysis of an expression for an access finds; a location has no value
ahead of time. -/
structure Meets (e : Expr) (access : Access) (ev : Evaluation) : Prop where
  suits : Suits e access ev.node
  residual : e.isPlace = true → ev.value? = none

/-! ## Operators on known values -/

theorem formed_literal (tag : ExprTag) (v : Literal) : (Expr.literal tag v).Formed :=
  fun _ _ => trivial

theorem Meets.literalize {ev : Evaluation} (h : Meets e access ev) (nextId : Nat) :
    Suits e access (ev.literalize nextId).1 := by
  cases ev with
  | residual node => exact h.suits
  | value v node =>
    have hplace : ¬ e.isPlace = true := fun he => nomatch h.residual he
    have hliteral : ∀ tag : ExprTag, tag.access = node.access → Suits e access (.literal tag v) :=
      fun tag htag =>
        { formed := fun _ => formed_literal tag v
          place := fun he => (hplace he).elim
          access := fun ha => htag.trans (h.suits.access ha)
          written := fun hw => h.suits.written (htag.symm.trans hw) }
    cases node with
    | literal tag w => exact h.suits
    | _ => exact hliteral _ rfl

theorem finds_keep {ev : Evaluation} (h : Meets e access ev) : Finds (keep ev) (Suits e access) :=
  fun s _ => .transform ⟨calm_withNextId _ s, h.literalize s.nextId⟩

theorem Finds.kept {x : Analyze Evaluation} (h : Finds x (Meets e access)) :
    Finds (kept x) (Suits e access) :=
  h.bind fun _ hev => finds_keep hev

theorem Meets.evaluate {ev : Evaluation} (h : Meets e access ev) (fold : Literal → Option Literal)
    (nextId : Nat) : Suits e access (ev.evaluate fold nextId).1.1 := by
  unfold Evaluation.evaluate
  split
  · exact h.suits
  · exact h.literalize nextId

theorem Meets.evaluatePair {left right : Expr} {l r : Evaluation} (hl : Meets left .read l)
    (hr : Meets right .read r) (fold : Literal → Literal → Option Literal) (nextId : Nat) :
    Suits left .read (l.evaluatePair r fold nextId).1.1 ∧
      Suits right .read (l.evaluatePair r fold nextId).1.2.1 := by
  have hboth : Suits left .read (Evaluation.evaluatePair.literalizeBoth l r nextId).1.1 ∧
      Suits right .read (Evaluation.evaluatePair.literalizeBoth l r nextId).1.2.1 :=
    ⟨hl.literalize _, hr.literalize _⟩
  unfold Evaluation.evaluatePair
  split
  · split
    · exact ⟨hl.suits, hr.suits⟩
    · exact hboth
  · exact hboth

theorem finds_foldUnary {ev : Evaluation} (h : Meets e access ev) (fold : Literal → Option Literal) :
    Finds (foldUnary cfg ev fold) fun p => Suits e access p.1 :=
  fun s _ => .transform ⟨calm_withNextId _ s, h.evaluate _ s.nextId⟩

theorem finds_foldBinary {left right : Expr} {l r : Evaluation} (hl : Meets left .read l)
    (hr : Meets right .read r) (fold : Literal → Literal → Literal) :
    Finds (foldBinary cfg l r fold) fun p => Suits left .read p.1 ∧ Suits right .read p.2.1 :=
  fun s _ => .transform ⟨calm_withNextId _ s, hl.evaluatePair hr _ s.nextId⟩

/-! ## Concatenations -/

/-- What is left to run time in a run can serve as operands. -/
def RunFits : Concat.Run → Prop
  | .value .. => True
  | .residual nodes => ∀ e ∈ nodes, e.Fits .operand

theorem runFits_single {ev : Evaluation} (h : ev.node.Fits .operand) : RunFits (Concat.single ev) := by
  cases ev with
  | value v node => trivial
  | residual node =>
    intro e he
    rw [List.mem_singleton.mp he]
    exact h

theorem runFits_push {ev : Evaluation} {runs : List Concat.Run} (h : ev.node.Fits .operand)
    (hruns : ∀ run ∈ runs, RunFits run) : ∀ run ∈ Concat.push ev runs, RunFits run := by
  cases ev with
  | value v node =>
    simp only [Concat.push]
    split
    · exact hruns
    · split
      · exact List.forall_mem_cons.mpr ⟨trivial, (List.forall_mem_cons.mp hruns).2⟩
      · exact List.forall_mem_cons.mpr ⟨trivial, hruns⟩
  | residual node =>
    simp only [Concat.push]
    split
    · obtain ⟨hfirst, hrest⟩ := List.forall_mem_cons.mp hruns
      exact List.forall_mem_cons.mpr ⟨List.forall_mem_cons.mpr ⟨h, hfirst⟩, hrest⟩
    · have hsingle : RunFits (Concat.single (.residual node)) := runFits_single h
      exact List.forall_mem_cons.mpr ⟨hsingle, hruns⟩

theorem runFits_runs {operands : List Evaluation} (h : ∀ ev ∈ operands, ev.node.Fits .operand)
    (fold : Bool) : ∀ run ∈ Concat.runs operands fold, RunFits run := by
  have hfold : ∀ run ∈ operands.foldr Concat.push [], RunFits run := by
    clear fold
    induction operands with
    | nil => nofun
    | cons ev rest ih =>
      obtain ⟨hev, hrest⟩ := List.forall_mem_cons.mp h
      exact runFits_push hev (ih hrest)
  unfold Concat.runs
  split
  · split
    · exact List.forall_mem_singleton.mpr trivial
    · exact hfold
  · intro run hrun
    obtain ⟨ev, hev, rfl⟩ := List.mem_map.mp hrun
    exact runFits_single (h ev hev)

/-- The operands that stand for runs can serve as such. -/
theorem fits_operands {runs : List Concat.Run} (h : ∀ run ∈ runs, RunFits run) (nextId : Nat) :
    ∀ e ∈ (Concat.operands runs nextId).1, e.Fits .operand := by
  induction runs generalizing nextId with
  | nil => nofun
  | cons run rest ih =>
    obtain ⟨hrun, hrest⟩ := List.forall_mem_cons.mp h
    cases run with
    | value v span =>
      refine List.forall_mem_cons.mpr ⟨?_, ih hrest (nextId + 1)⟩
      exact fun _ _ => ⟨⟨⟨Or.inr (Or.inl rfl), nofun⟩, nofun⟩, trivial⟩
    | residual nodes => exact List.forall_mem_append.mpr ⟨hrun, ih hrest nextId⟩

theorem partsOf_of_fits {es : List Expr} (h : ∀ e ∈ es, e.Fits .operand)
    (hnodes : Expr.Among nodes (Expr.subexprsOf es)) : Expr.PartsOf (Refuses nodes) es := by
  induction es with
  | nil => trivial
  | cons e rest ih =>
    obtain ⟨he, hrest⟩ := List.forall_mem_cons.mp h
    obtain ⟨hnode, hnodes⟩ := Expr.among_append.mp hnodes
    exact ⟨he nodes hnode, ih hrest hnodes⟩

theorem meets_concat {tag : ExprTag} {es : List Expr} (he : ¬ e.isPlace = true)
    (haccess : tag.access = access) (h : ∀ e ∈ es, e.Fits .operand) :
    Meets e access (.residual (.concat tag es)) where
  suits := .of_access haccess (fun h => (he h).elim) fun _ _ hnodes =>
    partsOf_of_fits h (Expr.among_cons.mp hnodes).2
  residual h := (he h).elim

theorem finds_joinOperands {tag : ExprTag} {evs : List Evaluation} (he : ¬ e.isPlace = true)
    (haccess : tag.access = access) (h : ∀ ev ∈ evs, ev.node.Fits .operand) :
    Finds (joinOperands cfg tag evs) (Meets e access) := by
  have hrebuild : Finds (joinOperands.rebuild tag (Concat.runs evs cfg.options.foldConstants))
      (Meets e access) :=
    fun s _ => .transform ⟨calm_withNextId _ s,
      meets_concat he haccess (fits_operands (runFits_runs h _) s.nextId)⟩
  unfold joinOperands
  dsimp only
  split
  · rename_i v span hruns
    split
    · refine fun s _ => .transform ⟨calm_withNextId _ s, ?_, fun h => (he h).elim⟩
      exact .of_access haccess (fun h => (he h).elim) fun _ => formed_literal _ v
    · rw [← hruns]
      exact hrebuild
  · exact hrebuild

/-! ## What stands for an expression -/

/-- A node that is no location and is rebuilt from its parts. -/
theorem meets_ofParts (value : Option Literal) (h : access = .none ∨ access = .read → node.Formed)
    (haccess : node.access = access) (he : ¬ e.isPlace = true)
    (hplace : node.isPlace = false) : Meets e access (.ofParts node value) := by
  have hsuits : Suits e access node := by
    refine .of_access haccess (fun h => (he h).elim) fun h' => h (h'.resolve_left ?_)
    rw [hplace]
    nofun
  cases value with
  | none => exact ⟨hsuits, fun h => (he h).elim⟩
  | some v => exact ⟨hsuits, fun h => (he h).elim⟩

/-- A branch takes the place of its conditional. -/
theorem Meets.ofBranch {branch : Expr} {ev : Evaluation} (h : Meets branch (branchAccess access) ev)
    (he : ¬ e.isPlace = true) : Meets e access ev := by
  have hbranch : branchAccess access = .none ∨ branchAccess access = .read := by
    unfold branchAccess
    split
    · exact Or.inl rfl
    · exact Or.inr rfl
  refine ⟨⟨fun _ => h.suits.formed (Or.inr hbranch), fun h => (he h).elim, fun hw => ?_, fun ha => ?_⟩,
    fun h => (he h).elim⟩
  · rw [h.suits.access hbranch] at hw
    rcases hbranch with h | h <;> exact nomatch h.symm.trans hw
  · rw [h.suits.access hbranch]
    rcases ha with rfl | rfl <;> rfl

/-- A known value is kept as a literal. -/
theorem value?_literalize {ev : Evaluation} (h : ev.hasValue = true) (nextId : Nat) :
    ((ev.literalize nextId).1.value?).isSome = true := by
  cases ev with
  | residual node => exact nomatch h
  | value v node => cases node <;> rfl

/-- A condition that is known takes the place of its conditional. -/
theorem meets_withAccess (he : ¬ e.isPlace = true) (hvalue : node.value?.isSome = true) :
    Meets e access (.ofParts (node.withAccess access) (node.withAccess access).value?) := by
  cases node with
  | literal tag v =>
    have hsuits : Suits e access (.literal { tag with access } v) :=
      .of_access rfl (fun h => (he h).elim) fun _ => formed_literal _ v
    exact ⟨hsuits, fun h => (he h).elim⟩
  | _ => exact absurd hvalue Bool.false_ne_true

/-- A condition decides a branch ahead of time only if its value is known. -/
theorem hasValue_of_decided {ev : Evaluation} {b : Bool} (h : decided? cfg ev = some b) :
    ev.hasValue = true := by
  unfold decided? at h
  split at h
  · obtain ⟨v, hv, -⟩ := Option.map_eq_some_iff.mp h
    rw [Evaluation.hasValue, hv]
    rfl
  · exact nomatch h

/-- A condition that is decided is kept as a literal. -/
theorem finds_keep_value {ev : Evaluation} {b : Bool} (h : decided? cfg ev = some b) :
    Finds (keep ev) fun node => node.value?.isSome = true :=
  fun s _ => .transform ⟨calm_withNextId _ s, value?_literalize (hasValue_of_decided h) s.nextId⟩

/-- What is silenced serves as the silence does, all other operands are wanted for their value. -/
theorem meets_unary {tag : ExprTag} {op : UnaryOp} {operand operand' : Expr} {value : Option Literal}
    (h : Suits operand (operandAccess op access) operand') :
    Meets (.unary tag op operand) access (.ofParts (.unary { tag with access } op operand') value) := by
  refine meets_ofParts value (fun ha nodes hnodes => ?_) rfl nofun rfl
  have hn := (Expr.among_cons.mp hnodes).2
  by_cases hop : op = .silence
  · simp only [operandAccess, if_pos hop] at h
    simp only [Expr.Parts, if_pos hop]
    exact ⟨h.value ha nodes hn, fun hnone => (h.access ha).symm.trans hnone⟩
  · simp only [operandAccess, if_neg hop] at h
    simp only [Expr.Parts, if_neg hop]
    exact h.operand nodes hn

/-! ## The induction -/

variable {declared : List (String × Literal)}

mutual

/-- What becomes of an expression suits the access that it was analysed for. -/
theorem Becomes.meets {e : Expr} {access : Access} {ev : Evaluation} :
    Becomes cfg declared e access ev → Meets e access ev
  | .literal => ⟨.of_access rfl nofun fun _ => formed_literal _ _, nofun⟩
  | .var => ⟨.of_access rfl (fun _ => rfl) fun _ _ _ => trivial, fun _ => rfl⟩
  | .constant => meets_ofParts _ (fun _ _ _ => trivial) rfl nofun rfl
  | .array helements => by
    refine meets_ofParts none (fun _ nodes hnodes => ?_) rfl nofun rfl
    exact helements.partsOf nodes (Expr.among_cons.mp hnodes).2
  | .concat hoperands hjoin =>
    Finds.of_answers (Q := Meets _ _) (finds_joinOperands nofun rfl hoperands.fits) hjoin
  | .binary hleft hright hfold => by
    obtain ⟨hl, hr⟩ := (finds_foldBinary hleft.meets hright.meets _).of_answers hfold
    refine meets_ofParts _ (fun _ nodes hnodes => ?_) rfl nofun rfl
    obtain ⟨hn, hn'⟩ := Expr.among_append.mp (Expr.among_cons.mp hnodes).2
    exact ⟨hl.operand nodes hn, hr.operand nodes hn'⟩
  | .unary hoperand hfold => meets_unary ((finds_foldUnary hoperand.meets _).of_answers hfold)
  | .incDec htarget => by
    refine meets_ofParts none (fun _ nodes hnodes => ?_) rfl nofun rfl
    obtain ⟨hself, hn⟩ := Expr.among_cons.mp hnodes
    exact htarget.suits.updated hself List.mem_cons_self hn
  | .ifTrue _ _ htrue => htrue.meets.ofBranch nofun
  | .ifFalse _ _ hfalse => hfalse.meets.ofBranch nofun
  | .conditional hcondition _ hkeep htrue hfalse => by
    have hc := (finds_keep hcondition.meets).of_answers hkeep
    refine meets_ofParts none (fun _ nodes hnodes => ?_) rfl nofun rfl
    obtain ⟨hn, hn''⟩ := Expr.among_append.mp (Expr.among_cons.mp hnodes).2
    obtain ⟨hn, hn'⟩ := Expr.among_append.mp hn
    exact ⟨hc.operand nodes hn, htrue.suits.branch nodes hn', hfalse.suits.branch nodes hn''⟩
  | .holds _ hdecided hkeep => meets_withAccess nofun ((finds_keep_value hdecided).of_answers hkeep)
  | .otherwise _ _ hfalse => hfalse.meets.ofBranch nofun
  | .shortcut hcondition _ hkeep hfalse => by
    have hc := (finds_keep hcondition.meets).of_answers hkeep
    refine meets_ofParts none (fun _ nodes hnodes => ?_) rfl nofun rfl
    obtain ⟨hn, hn'⟩ := Expr.among_append.mp (Expr.among_cons.mp hnodes).2
    exact ⟨hc.operand nodes hn, hfalse.suits.branch nodes hn'⟩
  | .list hvalue htargets => by
    refine meets_ofParts none (fun _ nodes hnodes => ?_) rfl nofun rfl
    obtain ⟨hself, hn⟩ := Expr.among_cons.mp hnodes
    obtain ⟨hn, hn'⟩ := Expr.among_append.mp hn
    exact ⟨htargets.partsOf nodes _ hself (fun _ h => h) hn, hvalue.suits.operand nodes hn'⟩
  | .item hcontainer hindex => by
    refine ⟨.of_access rfl (fun _ => rfl) fun _ nodes hnodes => ?_, fun _ => rfl⟩
    obtain ⟨hn, hn'⟩ := Expr.among_append.mp (Expr.among_cons.mp hnodes).2
    exact ⟨hcontainer.suits.container nodes hn, hindex.suits.operand nodes hn'⟩
  | .append hcontainer => by
    refine ⟨.of_access rfl (fun _ => rfl) fun _ nodes hnodes => ?_, fun _ => rfl⟩
    exact hcontainer.suits.container nodes (Expr.among_cons.mp hnodes).2
  | .assign htarget hvalue => by
    refine meets_ofParts none (fun _ nodes hnodes => ?_) rfl nofun rfl
    obtain ⟨hself, hn⟩ := Expr.among_cons.mp hnodes
    obtain ⟨hn, hn'⟩ := Expr.among_append.mp hn
    exact ⟨htarget.suits.target hself List.mem_cons_self hn, hvalue.suits.operand nodes hn'⟩
  | .call hargs => by
    refine meets_ofParts none (fun _ nodes hnodes => ?_) rfl nofun rfl
    exact partsOf_of_fits hargs.fits (Expr.among_cons.mp hnodes).2

theorem BecomesNode.suits {e : Expr} {access : Access} {node : Expr} :
    BecomesNode cfg declared e access node → Suits e access node
  | .mk h hkeep => (finds_keep h.meets).of_answers hkeep

theorem BecomesOperands.fits {es : List Expr} {evs : List Evaluation} :
    BecomesOperands cfg declared es evs → ∀ ev ∈ evs, ev.node.Fits .operand
  | .nil => nofun
  | .nested hoperands hrest => List.forall_mem_append.mpr ⟨hoperands.fits, hrest.fits⟩
  | .cons _ he hrest => List.forall_mem_cons.mpr ⟨he.meets.suits.operand, hrest.fits⟩

theorem BecomesArgs.fits {signature : Option Signature} {position : Nat} {es es' : List Expr} :
    BecomesArgs cfg declared signature position es es' → ∀ e ∈ es', e.Fits .operand
  | .nil => nofun
  | .cons harg hrest => List.forall_mem_cons.mpr ⟨harg.suits.argument, hrest.fits⟩

theorem BecomesElements.partsOf {es es' : List ArrayElement} : BecomesElements cfg declared es es' →
    ∀ nodes, Expr.Among nodes (Expr.subexprsOfElements es') → Expr.PartsOfElements (Refuses nodes) es'
  | .nil => fun _ _ => trivial
  | .plain hvalue hrest => by
    intro nodes hnodes
    obtain ⟨hn, hn'⟩ := Expr.among_append.mp hnodes
    exact ⟨hvalue.suits.operand nodes hn, hrest.partsOf nodes hn'⟩
  | .keyed hkey hvalue hrest => by
    intro nodes hnodes
    obtain ⟨hn, hn''⟩ := Expr.among_append.mp hnodes
    obtain ⟨hn, hn'⟩ := Expr.among_append.mp hn
    exact ⟨hkey.suits.operand nodes hn, hvalue.suits.operand nodes hn', hrest.partsOf nodes hn''⟩

/-- The places in a list suit it wherever the list stands, if its leaves are targets there. -/
theorem BecomesTargets.partsOf {ts ts' : List ListTarget} : BecomesTargets cfg declared ts ts' →
    ∀ nodes n, n ∈ nodes → (∀ t ∈ ListTarget.leavesOf ts', t ∈ n.targets) →
      Expr.Among nodes (Expr.subexprsOfTargets ts') → Expr.PartsOfTargets (Refuses nodes) ts'
  | .nil => fun _ _ _ _ _ => trivial
  | .skip hrest => hrest.partsOf
  | .leaf htarget hrest => by
    intro nodes n hn hleaves hnodes
    obtain ⟨hn₁, hn₂⟩ := Expr.among_append.mp hnodes
    obtain ⟨hl₁, hl₂⟩ := List.forall_mem_append.mp hleaves
    exact ⟨htarget.suits.target hn (hl₁ _ List.mem_cons_self) hn₁, hrest.partsOf nodes n hn hl₂ hn₂⟩
  | .nested htargets hrest => by
    intro nodes n hn hleaves hnodes
    obtain ⟨hn₁, hn₂⟩ := Expr.among_append.mp hnodes
    obtain ⟨hl₁, hl₂⟩ := List.forall_mem_append.mp hleaves
    exact ⟨htargets.partsOf nodes n hn hl₁ hn₁, hrest.partsOf nodes n hn hl₂ hn₂⟩

end

/-- **An expression is analysed without a failure, and what becomes of it suits its access.** -/
theorem finds_analyze (hcfg : cfg.registry = .standard) (e : Expr) (access : Access) :
    Finds (analyze cfg e access) (Meets e access) :=
  (finds_becomes hcfg e access).mono fun _ ⟨_, h⟩ => h.meets

theorem finds_analyzeAll (hcfg : cfg.registry = .standard) (access : Access) (es : List Expr) :
    Finds (analyzeAll cfg access es) fun es' => ∀ node ∈ es', ∃ e, Suits e access node := by
  induction es with
  | nil => exact .pure nofun
  | cons e rest ih =>
    refine (finds_analyze hcfg e access).kept.bind fun node hnode => ?_
    refine ih.bind fun rest' hrest => ?_
    exact .pure (List.forall_mem_cons.mpr ⟨⟨e, hnode⟩, hrest⟩)

end Analysis
end PhpLowering
