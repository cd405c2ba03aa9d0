import PhpLowering.Proofs.Analysis.Descent
import PhpLowering.Proofs.Constants
import PhpLowering.Proofs.Tree.Copy

/-!
# What the parts of a node are wanted for

A node that hands on a value gets it from one of its parts, and asks that part for a value as well: the
branches of a conditional, the operand of `@`, what an assignment stores, the elements of an array literal, the
operands of a concatenation.
A value that is asked for is no reference.

Analysis leaves nodes of which this is true, all the way down (**`Becomes.wanted`**), although it replaces
operators by values and conditionals by their branches.
-/

namespace PhpLowering

/-- The value of an element of an array literal. -/
def ArrayElement.value : ArrayElement → Expr
  | .plain _ value => value
  | .keyed _ _ value => value

namespace Expr

open Analysis (branchAccess operandAccess subexprsOf_append)

/-- The parts of a node that it asks for something, each with what it is asked for. -/
def wants : Expr → List (Expr × Access)
  | .array _ elements => elements.map fun element => (element.value, .read)
  | .unary tag op operand =>
    if tag.access = .none ∨ tag.access = .read then [(operand, operandAccess op tag.access)] else []
  | .conditional tag condition ifTrue ifFalse =>
    [(condition, .read), (ifTrue, branchAccess tag.access), (ifFalse, branchAccess tag.access)]
  | .shortcut tag condition ifFalse => [(condition, .read), (ifFalse, branchAccess tag.access)]
  | .list _ _ value => [(value, .read)]
  | .item _ _ index => [(index, .read)]
  | .assign _ _ value => [(value, .read)]
  | .concat _ operands => operands.map fun operand => (operand, .read)
  | .literal .. | .var .. | .constant .. | .binary .. | .incDec .. | .append .. | .call .. => []

/-- Every part of some nodes is what it is wanted for. -/
def Wanted (es : List Expr) : Prop :=
  ∀ x ∈ es, ∀ p ∈ x.wants, p.1.access = p.2

/-- Some nodes that are wanted for their values, with the parts of each. -/
def ReadWanted (es : List Expr) : Prop :=
  (∀ e ∈ es, e.access = .read) ∧ Wanted (subexprsOf es)

variable {e : Expr} {es es' : List Expr}

namespace Wanted

theorem nil : Wanted [] :=
  nofun

theorem cons (he : ∀ p ∈ e.wants, p.1.access = p.2) (h : Wanted es) : Wanted (e :: es) :=
  List.forall_mem_cons.mpr ⟨he, h⟩

theorem append (h : Wanted es) (h' : Wanted es') : Wanted (es ++ es') :=
  List.forall_mem_append.mpr ⟨h, h'⟩

/-- A part of a node is what the node wants it for. -/
theorem part {x : Expr} {access : Access} (h : Wanted e.subexprs) (hx : (x, access) ∈ e.wants) : x.access = access :=
  h e (self_mem_subexprs e) (x, access) hx

theorem literal {tag : ExprTag} {v : Literal} : Wanted (Expr.literal tag v).subexprs :=
  nil.cons nofun

end Wanted

namespace ReadWanted

theorem nil : ReadWanted [] :=
  ⟨nofun, .nil⟩

theorem cons (haccess : e.access = .read) (he : Wanted e.subexprs) (h : ReadWanted es) : ReadWanted (e :: es) :=
  ⟨List.forall_mem_cons.mpr ⟨haccess, h.1⟩, he.append h.2⟩

theorem append (h : ReadWanted es) (h' : ReadWanted es') : ReadWanted (es ++ es') :=
  ⟨List.forall_mem_append.mpr ⟨h.1, h'.1⟩, by rw [subexprsOf_append]; exact h.2.append h'.2⟩

theorem of_cons (h : ReadWanted (e :: es)) : (e.access = .read ∧ Wanted e.subexprs) ∧ ReadWanted es := by
  obtain ⟨haccess, hwanted⟩ := h
  obtain ⟨he, hes⟩ := List.forall_mem_append.mp hwanted
  obtain ⟨ha, has⟩ := List.forall_mem_cons.mp haccess
  exact ⟨⟨ha, he⟩, has, hes⟩

end ReadWanted
end Expr

namespace Analysis

open Expr (Wanted ReadWanted)

variable {cfg : Setting} {declared : List (String × Literal)} {e node : Expr} {access : Access}
  {ev : Evaluation} {es es' : List Expr}

theorem StandsFor.wanted (h : StandsFor ev node) (hev : Wanted ev.node.subexprs) : Wanted node.subexprs :=
  h.elim (P := fun node => Wanted node.subexprs) hev fun _ _ => .literal

theorem Interspersed.readWanted (h : Interspersed es es') (hes : ReadWanted es') : ReadWanted es := by
  induction h with
  | nil => exact hes
  | literal htag _ ih => exact .cons htag .literal (ih hes)
  | cons _ ih =>
    obtain ⟨he, hrest⟩ := hes.of_cons
    exact .cons he.1 he.2 (ih hrest)

theorem branchAccess_cases (access : Access) : branchAccess access = .none ∨ branchAccess access = .read := by
  unfold branchAccess
  split
  · exact Or.inl rfl
  · exact Or.inr rfl

/-- What is read keeps this access. -/
theorem BecomesNode.read_eq (h : BecomesNode cfg declared e .read node) : node.access = .read :=
  h.suits.access (Or.inr rfl)

theorem BecomesNode.branch_eq (h : BecomesNode cfg declared e (branchAccess access) node) :
    node.access = branchAccess access :=
  h.suits.access (branchAccess_cases access)

/-- The operand of `@` is wanted for the same, if it is for a value or for nothing. -/
theorem wants_unary {tag : ExprTag} {op : UnaryOp} {operand operand' : Expr}
    (h : Suits operand (operandAccess op access) operand') :
    ∀ p ∈ (Expr.unary { tag with access } op operand').wants, p.1.access = p.2 := by
  show ∀ p ∈ (if access = .none ∨ access = .read then [(operand', operandAccess op access)] else []), p.1.access = p.2
  split
  · rename_i ha
    refine List.forall_mem_singleton.mpr (h.access ?_)
    unfold operandAccess
    split
    · exact ha
    · exact Or.inr rfl
  · exact nofun

/-- An operand with a value is not there at run time. -/
theorem readWanted_residuals {evs : List Evaluation} (hev : Meets e .read ev) (hwanted : Wanted ev.node.subexprs)
    (hrest : ReadWanted (residuals evs)) : ReadWanted (residuals (ev :: evs)) := by
  cases ev with
  | value v node => exact hrest
  | residual node => exact .cons (hev.suits.access (Or.inr rfl)) hwanted hrest

/-! ## The induction -/

mutual

/-- **All parts of an analysed node are what they are wanted for.** -/
theorem Becomes.wanted {e : Expr} {access : Access} {ev : Evaluation} :
    Becomes cfg declared e access ev → Wanted ev.node.subexprs
  | .literal => .literal
  | .var => Wanted.nil.cons nofun
  | .constant => by
    rw [node_ofParts]
    exact Wanted.nil.cons nofun
  | .array helements => .cons (List.forall_mem_map.mpr helements.wanted.1) helements.wanted.2
  | .concat hoperands hjoin => by
    rcases hjoin.of_joinOperands with ⟨tag, v, hnode⟩ | ⟨es, hnode, hes⟩
    · exact hnode ▸ .literal
    · obtain ⟨haccess, hwanted⟩ := hes.readWanted hoperands.wanted
      exact hnode ▸ .cons (List.forall_mem_map.mpr haccess) hwanted
  | .binary hleft hright hfold => by
    obtain ⟨hl, hr⟩ := hfold.of_foldBinary
    rw [node_ofParts]
    exact ((hl.wanted hleft.wanted).append (hr.wanted hright.wanted)).cons nofun
  | .unary hoperand hfold => by
    rw [node_ofParts]
    exact .cons (wants_unary ((finds_foldUnary hoperand.meets _).of_answers hfold))
      (hfold.of_foldUnary.wanted hoperand.wanted)
  | .incDec htarget => htarget.wanted.cons nofun
  | .ifTrue _ _ htrue => htrue.wanted
  | .ifFalse _ _ hfalse => hfalse.wanted
  | .conditional hcondition _ hkeep htrue hfalse => by
    have hc : BecomesNode cfg declared _ .read _ := .mk hcondition hkeep
    refine .cons ?_ (((hkeep.of_keep.wanted hcondition.wanted).append htrue.wanted).append hfalse.wanted)
    simp [Expr.wants, hc.read_eq, htrue.branch_eq, hfalse.branch_eq]
  | .holds _ hdecided hkeep => by
    obtain ⟨tag, v, rfl⟩ := literal_of_decided hdecided hkeep
    exact .literal
  | .otherwise _ _ hfalse => hfalse.wanted
  | .shortcut hcondition _ hkeep hfalse => by
    have hc : BecomesNode cfg declared _ .read _ := .mk hcondition hkeep
    refine .cons ?_ ((hkeep.of_keep.wanted hcondition.wanted).append hfalse.wanted)
    simp [Expr.wants, hc.read_eq, hfalse.branch_eq]
  | .list hvalue htargets =>
    (htargets.wanted.append hvalue.wanted).cons (List.forall_mem_singleton.mpr hvalue.read_eq)
  | .item hcontainer hindex =>
    (hcontainer.wanted.append hindex.wanted).cons (List.forall_mem_singleton.mpr hindex.read_eq)
  | .append hcontainer => hcontainer.wanted.cons nofun
  | .assign htarget hvalue =>
    (htarget.wanted.append hvalue.wanted).cons (List.forall_mem_singleton.mpr hvalue.read_eq)
  | .call hargs => hargs.wanted.cons nofun

theorem BecomesNode.wanted {e : Expr} {access : Access} {node : Expr} :
    BecomesNode cfg declared e access node → Wanted node.subexprs
  | .mk h hkeep => hkeep.of_keep.wanted h.wanted

theorem BecomesOperands.wanted {es : List Expr} {evs : List Evaluation} :
    BecomesOperands cfg declared es evs → ReadWanted (residuals evs)
  | .nil => .nil
  | .nested hoperands hrest => by
    rw [residuals_append]
    exact hoperands.wanted.append hrest.wanted
  | .cons _ he hrest => readWanted_residuals he.meets he.wanted hrest.wanted

theorem BecomesArgs.wanted {signature : Option Signature} {position : Nat} {es es' : List Expr} :
    BecomesArgs cfg declared signature position es es' → Wanted (Expr.subexprsOf es')
  | .nil => .nil
  | .cons harg hrest => harg.wanted.append hrest.wanted

theorem BecomesElements.wanted {es es' : List ArrayElement} : BecomesElements cfg declared es es' →
    (∀ element ∈ es', element.value.access = .read) ∧ Wanted (Expr.subexprsOfElements es')
  | .nil => ⟨nofun, .nil⟩
  | .plain hvalue hrest =>
    ⟨List.forall_mem_cons.mpr ⟨hvalue.read_eq, hrest.wanted.1⟩, hvalue.wanted.append hrest.wanted.2⟩
  | .keyed hkey hvalue hrest =>
    ⟨List.forall_mem_cons.mpr ⟨hvalue.read_eq, hrest.wanted.1⟩,
      (hkey.wanted.append hvalue.wanted).append hrest.wanted.2⟩

theorem BecomesTargets.wanted {ts ts' : List ListTarget} : BecomesTargets cfg declared ts ts' →
    Wanted (Expr.subexprsOfTargets ts')
  | .nil => .nil
  | .skip hrest => hrest.wanted
  | .leaf htarget hrest => htarget.wanted.append hrest.wanted
  | .nested htargets hrest => htargets.wanted.append hrest.wanted

end

/-- What is kept of an expression has been made of it by its rule. -/
theorem KeptOf.becomesNode (hcfg : cfg.registry = .standard) (h : KeptOf cfg e access node) :
    ∃ declared, BecomesNode cfg declared e access node := by
  obtain ⟨s, t, ev, nextId, hs, hrun, rfl⟩ := h
  obtain ⟨ht, hev⟩ := (keeps_becomes hcfg e access s ⟨hs, rfl⟩).of_ok hrun
  exact ⟨s.constants, .mk hev ⟨{ t with nextId }, _, ⟨ht.table, ht.constants⟩, rfl⟩⟩

end Analysis

/-! ## Units -/

namespace Stmt

/-- An expression stands in one of these statements, or in one of the functions. -/
def Holds (own : List Stmt) (fs : List (FunctionHead × List Stmt)) (x : Expr) : Prop :=
  ∃ y, (y ∈ own ∨ ∃ f ∈ fs, y ∈ ownOf f.2) ∧ ∃ e ∈ y.exprs, x ∈ e.subexprs

variable {own own' : List Stmt} {fs fs' : List (FunctionHead × List Stmt)} {x : Expr} {y : Stmt}

theorem Holds.mono (h : Holds own fs x) (hown : own ⊆ own') (hfs : fs ⊆ fs') : Holds own' fs' x := by
  obtain ⟨y, hy, hx⟩ := h
  exact ⟨y, hy.imp (@hown y) fun ⟨f, hf, hfy⟩ => ⟨f, hfs hf, hfy⟩, hx⟩

theorem Holds.left (h : Holds own fs x) : Holds (own ++ own') (fs ++ fs') x :=
  h.mono (List.subset_append_left _ _) (List.subset_append_left _ _)

theorem Holds.right (h : Holds own' fs' x) : Holds (own ++ own') (fs ++ fs') x :=
  h.mono (List.subset_append_right _ _) (List.subset_append_right _ _)

theorem Holds.cons (h : Holds own fs x) : Holds (y :: own) fs x :=
  h.mono (List.subset_cons_self _ _) (List.Subset.refl _)

theorem holds_head {e : Expr} (he : e ∈ y.exprs) (hx : .expr x ∈ e.nodes) : Holds (y :: own) fs x := by
  obtain ⟨_, hx, ⟨⟩⟩ := List.mem_map.mp hx
  exact ⟨y, .inl List.mem_cons_self, e, he, hx⟩

mutual

/-- Every expression stands in a statement of some routine. -/
theorem holds_of_nodes : ∀ {y : Stmt} {x : Expr}, .expr x ∈ y.nodes → Holds y.own y.functions x
  | .expression .., x, h | .throw .., x, h | .constDecl .., x, h =>
    holds_head (List.mem_singleton.mpr rfl) (by simpa [nodes] using h)
  | .echo _ es, x, h | .unset _ es, x, h => by
    obtain ⟨e, he, hx⟩ : ∃ e ∈ es, .expr x ∈ e.nodes := by simpa [nodes] using h
    exact holds_head he hx
  | .jump _ _ e, x, h => by
    obtain ⟨e, he, hx⟩ : ∃ e' ∈ e.toList, .expr x ∈ e'.nodes := by simpa [nodes] using h
    exact holds_head he hx
  | .block _ body, x, h => by
    have hbody : .expr x ∈ nodesOf body := by simpa [nodes] using h
    exact (holds_of_nodesOf hbody).cons
  | .branch _ condition thenBody elseBody, x, h => by
    have hnodes : .expr x ∈ condition.nodes ∨ .expr x ∈ nodesOf thenBody ∨ .expr x ∈ nodesOfOptional elseBody := by
      simpa [nodes, or_assoc] using h
    rcases hnodes with hcondition | hthen | helse
    · exact holds_head (List.mem_singleton.mpr rfl) hcondition
    · exact (holds_of_nodesOf hthen).left.cons
    · exact (holds_of_nodesOfOptional helse).right.cons
  | .loop _ condition body, x, h => by
    have hnodes : .expr x ∈ condition.nodes ∨ .expr x ∈ nodesOf body := by simpa [nodes] using h
    rcases hnodes with hcondition | hbody
    · exact holds_head (List.mem_singleton.mpr rfl) hcondition
    · exact (holds_of_nodesOf hbody).cons
  | .tryCatch _ body catches cleanup, x, h => by
    have hnodes : .expr x ∈ nodesOf body ∨ .expr x ∈ nodesOfCatches catches ∨ .expr x ∈ nodesOfOptional cleanup := by
      simpa [nodes, or_assoc] using h
    rcases hnodes with hbody | hcatches | hcleanup
    · exact (holds_of_nodesOf hbody).left.cons
    · exact (holds_of_nodesOfCatches hcatches).left.right.cons
    · exact (holds_of_nodesOfOptional hcleanup).right.right.cons
  | .function _ head body _, x, h => by
    have hbody : .expr x ∈ nodesOf body := by simpa [nodes] using h
    obtain ⟨y, hy | ⟨f, hf, hfy⟩, hx⟩ := holds_of_nodesOf hbody
    · exact ⟨y, .inr ⟨(head, body), List.mem_append_right _ (List.mem_singleton.mpr rfl), hy⟩, hx⟩
    · exact ⟨y, .inr ⟨f, List.mem_append_left _ hf, hfy⟩, hx⟩
  | .goto .., x, h | .label .., x, h | .empty .., x, h => by simp [nodes] at h
termination_by structural y => y

theorem holds_of_nodesOf : ∀ {ys : List Stmt} {x : Expr}, .expr x ∈ nodesOf ys → Holds (ownOf ys) (functionsOf ys) x
  | [], _, h => nomatch h
  | y :: rest, x, h => by
    rw [nodesOf, List.mem_append] at h
    exact h.elim (fun h => (holds_of_nodes h).left) fun h => (holds_of_nodesOf h).right
termination_by structural ys => ys

theorem holds_of_nodesOfOptional : ∀ {part : Option (List Stmt)} {x : Expr}, .expr x ∈ nodesOfOptional part →
    Holds (ownOfOptional part) (functionsOfOptional part) x
  | none, _, h => nomatch h
  | some _, _, h => holds_of_nodesOf h
termination_by structural part => part

theorem holds_of_nodesOfCatches : ∀ {catches : List Catch} {x : Expr}, .expr x ∈ nodesOfCatches catches →
    Holds (ownOfCatches catches) (functionsOfCatches catches) x
  | [], _, h => nomatch h
  | .clause _ _ _ body _ :: rest, x, h => by
    rw [nodesOfCatches, List.mem_append] at h
    exact h.elim (fun h => (holds_of_nodesOf h).left) fun h => (holds_of_nodesOfCatches h).right
termination_by structural catches => catches

end
end Stmt

namespace Compiler

variable {c : Compiler} {unit : SourceUnit} {analyzed : AnalyzedUnit} {diagnostics : Array Diagnostic}

theorem descends_of_analyze (hc : c.registry = .standard) (h : c.analyze unit = (.ok analyzed, diagnostics)) :
    Analysis.DescendAll (c.unitSetting unit) false (Stmt.ownOf analyzed.statements)
      (Stmt.functionsOf analyzed.statements) := by
  have hcfg : (c.unitSetting unit).registry = .standard := hc
  obtain ⟨statements, t, hrun, -, hdescend⟩ :=
    (Analysis.descends_analyzeStmts hcfg unit.statements false (c.analysisStart unit)
      RuleTable.regular_empty rfl).exists_ok
  rwa [statements_of_analyze h hrun]

/-- **All parts of the expressions in an analysed unit are what they are wanted for.** -/
theorem wanted_of_analyze (hc : c.registry = .standard) (h : c.analyze unit = (.ok analyzed, diagnostics)) {x : Expr}
    (hx : .expr x ∈ Stmt.nodesOf analyzed.statements) : ∀ p ∈ x.wants, p.1.access = p.2 := by
  have hdescend := descends_of_analyze hc h
  obtain ⟨y, hy, e, he, hx⟩ := Stmt.holds_of_nodesOf hx
  have hkept : ∃ e₀ access, Analysis.KeptOf (c.unitSetting unit) e₀ access e := by
    rcases hy with hy | ⟨f, hf, hy⟩
    · obtain ⟨e₀, hkept⟩ := (hdescend.own y hy).exprs e he
      exact ⟨e₀, _, hkept⟩
    · obtain ⟨e₀, hkept⟩ := (hdescend.functions f hf y hy).exprs e he
      exact ⟨e₀, _, hkept⟩
  obtain ⟨e₀, access, hkept⟩ := hkept
  obtain ⟨declared, hnode⟩ := hkept.becomesNode hc
  exact hnode.wanted x hx

end Compiler
end PhpLowering
