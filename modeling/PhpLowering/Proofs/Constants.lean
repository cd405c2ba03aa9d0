import PhpLowering.Proofs.Analysis.Course
import PhpLowering.Proofs.Emission
import PhpLowering.Proofs.Tree.Paths

/-!
# Constants that a unit declares itself

From a declaration of a constant with a known value on, the analysis puts the value in the place of
references to the constant.  It goes through the unit once, and what it comes to later need not run
later: the declaration may stand in a branch that is not taken, or in a function that is not called.

* `Comes.declared`: a constant whose value is known has been declared, by a statement that the
  analysis came to while the constant was unknown.
* `executed_of_replaced`: if a reference stands behind that declaration, in the same list of statements
  or within one, without a label in between, then every path to the reference has executed the
  declaration.
* `replaced_without_declaration`: without that condition there are units, accepted and emitted, with a
  path to a replaced reference that has executed no declaration of the constant at all.
-/

namespace PhpLowering
namespace Analysis

variable {cfg : Setting} {body : List Stmt} {s t : State} {name : String} {v : Literal}

variable (cfg body s) in
/-- A statement is a declaration that gives a constant its value.  The analysis comes to it while the
constant is unknown. -/
def Declares (d : Stmt) (name : String) (v : Literal) : Prop :=
  ∃ tag value t ev u, d = .constDecl tag name value ∧ Comes cfg body s d t ∧
    t.constants.lookup name = none ∧ analyze cfg value .read t = (.ok ev, u) ∧ ev.value? = some v

variable (cfg body s) in
/-- Every constant of the unit that is known has been declared. -/
def Traced (t : State) : Prop :=
  ∀ name v, t.constants.lookup name = some v → ∃ d, Declares cfg body s d name v

instance : Stable (Traced cfg body s) where
  alike h _ hconstants name v hv := h name v (hconstants ▸ hv)
  report _ _ _ h := h

/-- The analysis of an expression leaves the constants alone. -/
theorem constants_analyze {e : Expr} {access : Access} {ev : Evaluation}
    (h : analyze cfg e access s = (.ok ev, t)) : t.constants = s.constants := by
  have : Stable fun t => t.constants = s.constants :=
    { alike := fun h _ hconstants => hconstants.trans h, report := fun _ _ _ h => h }
  exact (preserves_analyze (P := fun t => t.constants = s.constants) cfg e access).keepsAt.of_run rfl h

theorem traced_declareConstant {tag : StmtTag} {value : Expr} {ev : Evaluation} {u : State}
    (hcomes : Comes cfg body s (.constDecl tag name value) t)
    (hvalue : analyze cfg value .read t = (.ok ev, u)) (hv : ev.value? = some v)
    (hu : Traced cfg body s u) : Traced cfg body s (u.declareConstant cfg name v tag.span).2 := by
  unfold State.declareConstant
  split
  · exact Stable.report _ nofun hu
  · rename_i hunknown
    intro name' v' hlookup
    rw [List.lookup_cons] at hlookup
    cases hname : name' == name with
    | false =>
      rw [hname] at hlookup
      exact hu name' v' hlookup
    | true =>
      rw [hname] at hlookup
      cases hlookup
      cases beq_iff_eq.mp hname
      refine ⟨_, tag, value, t, ev, u, rfl, hcomes, ?_, hvalue, hv⟩
      rw [← constants_analyze hvalue]
      unfold State.constant? at hunknown
      cases hlookup : u.constants.lookup name with
      | none => rfl
      | some w => simp [hlookup] at hunknown

theorem harmless_traced : Harmless cfg (Traced cfg body s) body s := by
  intro tag name value t hcomes
  refine KeepsAt.bind (preserves_analyze cfg value .read).keepsAt fun ev u hvalue => ?_
  cases hv : ev.value? with
  | none => exact Preserves.keepsAt inferInstance
  | some v =>
    have hdeclare : KeepsAt (Traced cfg body s) (Pass.transform (State.declareConstant cfg name v tag.span)) u :=
      traced_declareConstant hcomes hvalue hv
    exact hdeclare.thenPreserves fun _ => inferInstance

/-- **A constant whose value is known has been declared.** -/
theorem Comes.declared {y : Stmt} (hcomes : Comes cfg body s y t) (hs : s.constants = [])
    (hv : t.constants.lookup name = some v) : ∃ d, Declares cfg body s d name v := by
  have hstart : Traced cfg body s s := by
    intro name v hlookup
    rw [hs] at hlookup
    exact nomatch hlookup
  exact hcomes.carries harmless_traced hstart name v hv

end Analysis

namespace Compiler

open Analysis (Comes Declares)

variable (c : Compiler) (unit : SourceUnit)

/-- The setting in which a unit is analysed. -/
def unitSetting : Analysis.Setting :=
  c.analysisSetting (Declarations.collect c.symbols unit.statements).functions

/-- Where the analysis of a unit begins. -/
def analysisStart : Analysis.State :=
  { nextId := unit.nextId
    diagnostics := (Declarations.collect c.symbols unit.statements).diagnostics.toArray }

variable {c unit} in
/-- The statements of an analysed unit are what the analysis of its statements leaves. -/
theorem statements_of_analyze {analyzed : AnalyzedUnit} {diagnostics : Array Diagnostic} {statements : List Stmt}
    {t : Analysis.State} (h : c.analyze unit = (.ok analyzed, diagnostics))
    (hrun : Analysis.analyzeStmts (c.unitSetting unit) unit.statements (c.analysisStart unit) = (.ok statements, t)) :
    analyzed.statements = statements := by
  unfold unitSetting analysisStart at hrun
  simp only [analyze, hrun] at h
  obtain rfl := Except.ok.inj (Prod.mk.inj h).1
  rfl

/-- The reference with this tag, in an expression of the statement `y`, is replaced by the value that the
unit has given to the constant. -/
structure Replaces (y : Stmt) (tag : ExprTag) (name : String) (v : Literal) : Prop where
  refers : ∃ e ∈ y.exprs, .constant tag name ∈ e.subexprs
  replaced : ∃ t access u ev w, Comes (c.unitSetting unit) unit.statements (c.analysisStart unit) y t ∧
    t.constants.lookup name = some v ∧ u.constants = t.constants ∧
    Analysis.analyze (c.unitSetting unit) (.constant tag name) access u = (.ok ev, w) ∧ ev.value? = some v

/-- The unit can be run so that the statements in the trace are executed and then `y` is come to. -/
def Reaches (trace : List Stmt) (y : Stmt) : Prop :=
  Runs c.symbols.constant? (Stmt.functionsOf unit.statements) none unit.statements trace (.arrived y)

/-- In every routine of a unit a statement stands behind another one. -/
def StandsBehind (d y : Stmt) : Prop :=
  Behind d y unit.statements ∧ ∀ f ∈ Stmt.functionsOf unit.statements, Behind d y f.2

variable {c unit}

/-- **What replaces a reference has been declared, and every path to a reference that stands behind the
declaration has executed it.** -/
theorem executed_of_replaced {y : Stmt} {tag : ExprTag} {name : String} {v : Literal}
    (h : Replaces c unit y tag name v) :
    (∃ d, Declares (c.unitSetting unit) unit.statements (c.analysisStart unit) d name v) ∧
    ∀ d, Declares (c.unitSetting unit) unit.statements (c.analysisStart unit) d name v →
      StandsBehind unit d y → ∀ trace, Reaches c unit trace y → d ∈ trace := by
  constructor
  · obtain ⟨t, _, _, _, _, hcomes, hlookup, -⟩ := h.replaced
    exact hcomes.declared rfl hlookup
  · rintro d ⟨tag, value, -, -, -, hd, -⟩ ⟨hbehind, hfunctions⟩ trace hreaches
    exact Runs.executed hd hfunctions hreaches rfl (Or.inl hbehind)

/-! ## Two units -/

/-- The constant `A` is declared to be one. -/
def declareA : Stmt :=
  .constDecl ⟨2, {}⟩ "A" (.literal ⟨1, {}, .none⟩ (.int 1))

/-- The constant `A` is shown. -/
def showA : Stmt :=
  .echo ⟨5, {}⟩ [.constant ⟨4, {}, .none⟩ "A"]

instance decidableEqSomeInt (n : Int32) : ∀ v : Option Literal, Decidable (v = some (.int n))
  | some (.int m) => decidable_of_iff (m = n) (by simp)
  | none | some .null | some (.bool _) | some (.long _) | some (.double _) | some (.string _)
  | some (.bytes _) => isFalse nofun

/-- If the analysis comes to the reference where the constant is known, the reference is replaced. -/
theorem replaces_of_comes {t : Analysis.State}
    (hcomes : Comes (({} : Compiler).unitSetting unit) unit.statements (({} : Compiler).analysisStart unit) showA t)
    (hlookup : t.constants.lookup "A" = some (.int 1)) : Replaces {} unit showA ⟨4, {}, .none⟩ "A" (.int 1) where
  refers := ⟨_, List.mem_cons_self, List.mem_cons_self⟩
  replaced := by
    have hconstant : t.constant? (({} : Compiler).unitSetting unit) "A" = some (.int 1) := by
      unfold Analysis.State.constant?
      rw [hlookup]
    have hrun : Analysis.analyze (({} : Compiler).unitSetting unit) (.constant ⟨4, {}, .none⟩ "A") .read t =
        (.ok (.ofParts (.constant ⟨4, {}, .read⟩ "A")
          (t.constant? (({} : Compiler).unitSetting unit) "A")), t) := rfl
    refine ⟨t, .read, t, _, t, hcomes, hlookup, rfl, hrun, ?_⟩
    rw [hconstant]
    rfl

/-- The constant is declared in a loop, and shown in a branch behind the declaration. -/
def declaredConst : SourceUnit :=
  { name := "unit", nextId := 10, span := {}
    statements := [.loop ⟨9, {}⟩ (.var ⟨8, {}, .none⟩ "x")
      [declareA, .branch ⟨7, {}⟩ (.var ⟨6, {}, .none⟩ "y") [showA] none]] }

theorem executed_declaredConst :
    Replaces {} declaredConst showA ⟨4, {}, .none⟩ "A" (.int 1) ∧
      ∀ trace, Reaches {} declaredConst trace showA → declareA ∈ trace := by
  let start := (({} : Compiler).analysisStart declaredConst).enterLoop
  have hdeclare : Analysis.analyzeStmt (({} : Compiler).unitSetting declaredConst) declareA start =
      (.ok (.constDecl ⟨2, {}⟩ "A" (.literal ⟨1, {}, .read⟩ (.int 1))),
        { start with constants := [("A", .int 1)] }) := by
    with_unfolding_all rfl
  have hbranch : Comes (({} : Compiler).unitSetting declaredConst)
      [declareA, .branch ⟨7, {}⟩ (.var ⟨6, {}, .none⟩ "y") [showA] none] start showA
      { start with constants := [("A", .int 1)] }.enterConditional :=
    .later hdeclare (.within (fun _ => rfl) (.thenPart rfl rfl rfl) (.here fun _ => rfl))
  have hloop : Comes (({} : Compiler).unitSetting declaredConst) declaredConst.statements
      (({} : Compiler).analysisStart declaredConst) showA { start with constants := [("A", .int 1)] }.enterConditional :=
    .within (fun _ => rfl) (.loopBody rfl nofun rfl) hbranch
  have hreplaces : Replaces {} declaredConst showA ⟨4, {}, .none⟩ "A" (.int 1) := replaces_of_comes hloop rfl
  refine ⟨hreplaces, (executed_of_replaced hreplaces).2 declareA ?_ ⟨?_, nofun⟩⟩
  · exact ⟨_, _, _, _, _, rfl, .within (fun _ => rfl) (.loopBody rfl nofun rfl) (.here fun _ => rfl), rfl, rfl, rfl⟩
  · -- the loop does not begin with the declaration, but its body does
    refine .cons nofun (List.forall_mem_singleton.mpr (.found nofun ?_)) behind_nil
    exact ⟨_, [], (List.append_nil _).symm, by decide, nofun⟩

variable (unit) in
/-- How the analysis of a unit with the standard rules goes through its first statement. -/
def afterFirst (first : Stmt) : Except Fault Stmt × Analysis.State :=
  Analysis.analyzeStmt (({} : Compiler).unitSetting unit) first (({} : Compiler).analysisStart unit)

/-- If the first of two statements declares the constant, the reference in the second one is replaced. -/
theorem replaces_showA {first : Stmt} (hunit : unit.statements = [first, showA])
    (hok : (afterFirst unit first).1.isOk = true) (halive : (afterFirst unit first).2.unreachable = false)
    (hlookup : (afterFirst unit first).2.constants.lookup "A" = some (.int 1)) :
    Replaces {} unit showA ⟨4, {}, .none⟩ "A" (.int 1) := by
  rcases hdone : afterFirst unit first with ⟨result, t⟩
  rw [hdone] at hok halive hlookup
  cases result with
  | error f => exact nomatch hok
  | ok z =>
    have hadmits : Analysis.Admits (({} : Compiler).unitSetting unit) showA t .nowhere t := by
      intro analyzed
      show (Pass.peek _ >>= _ : Analyze Stmt) t = _
      rw [Pass.bind_apply, Pass.peek_apply]
      dsimp only
      rw [halive]
      rfl
    refine replaces_of_comes ?_ hlookup
    rw [hunit]
    exact .later hdone (.here hadmits)

/-- The constant is declared only if `$x` is true, and shown in either case. -/
def conditionalConst : SourceUnit :=
  { name := "unit", nextId := 6, span := {}
    statements := [.branch ⟨3, {}⟩ (.var ⟨0, {}, .none⟩ "x") [declareA] none, showA] }

/-- **A reference can be replaced where no declaration has been executed.**  The unit is accepted and
emitted, and the value that is shown is there without the declaration. -/
theorem replaced_without_declaration :
    (({} : Compiler).compile conditionalConst (Chunk.new "unit" none none)).isEmitted = true ∧
      Replaces {} conditionalConst showA ⟨4, {}, .none⟩ "A" (.int 1) ∧
      ∃ trace, Reaches {} conditionalConst trace showA ∧
        ∀ tag name value, .constDecl tag name value ∉ trace := by
  refine ⟨by decide +kernel, replaces_showA rfl (by decide +kernel) (by decide +kernel) (by decide +kernel), [], ?_, nofun⟩
  have hskipped : Runs Symbols.builtins.constant? [] none
      [.branch ⟨3, {}⟩ (.var ⟨0, {}, .none⟩ "x") [declareA] none] [] .done :=
    .noElse nofun
  exact .seq hskipped (.arrive showA)

end Compiler
end PhpLowering
