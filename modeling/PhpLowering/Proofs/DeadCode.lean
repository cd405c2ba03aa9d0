import PhpLowering.Proofs.Analysis.Reachability
import PhpLowering.Proofs.Constants

/-!
# Dead code that is left out

The analysis puts an empty statement in the place of one that it takes to be dead.  In a unit without
`goto` and labels it is right: `not_executed_of_leftOut` says of every list of statements that the
analysis enters that no execution of the list gets past the statements in front of the one that was left
out, or, if the list as a whole is dead, that the list is the part of a branch or loop that its folded
condition excludes.

The executions are those of `Stmt.Executes`.  A condition may turn out in either way, unless the
analysis has folded it (`MayGo`).
-/

namespace PhpLowering

/-- Whether a node is a `goto` or a label. -/
def Node.isGotoOrLabel : Node → Bool
  | .stmt (.goto ..) | .stmt (.label ..) => true
  | _ => false

/-- There is no `goto` and no label in a unit, nor in its functions. -/
def SourceUnit.LabelFree (unit : SourceUnit) : Prop :=
  ∀ n ∈ Stmt.nodesOf unit.statements, n.isGotoOrLabel = false

instance (unit : SourceUnit) : Decidable unit.LabelFree :=
  inferInstanceAs (Decidable (∀ n ∈ Stmt.nodesOf unit.statements, n.isGotoOrLabel = false))

namespace Stmt

theorem self_mem_nodes (x : Stmt) : .stmt x ∈ x.nodes := by
  cases x <;> simp [nodes]

theorem nodesOfCatches_append (cs cs' : List Catch) :
    nodesOfCatches (cs ++ cs') = nodesOfCatches cs ++ nodesOfCatches cs' := by
  induction cs with
  | nil => rfl
  | cons clause rest ih =>
    obtain ⟨span, type, var, body, resolved⟩ := clause
    simp [nodesOfCatches, ih]

mutual

/-- A statement that a `goto` can enter has a label in it. -/
theorem exists_label_of_hasEntry : ∀ x : Stmt, x.hasEntry = true → ∃ n ∈ x.nodes, n.isGotoOrLabel = true
  | .label tag name, _ => ⟨_, self_mem_nodes _, rfl⟩
  | .block _ body, h => by
    obtain ⟨n, hn, hlabel⟩ := exists_label_of_anyEntry body h
    exact ⟨n, by simp [nodes, hn], hlabel⟩
  | .branch _ _ thenBody elseBody, h => by
    rcases Bool.or_eq_true_iff.mp h with h | h
    · obtain ⟨n, hn, hlabel⟩ := exists_label_of_anyEntry thenBody h
      exact ⟨n, by simp [nodes, hn], hlabel⟩
    · obtain ⟨n, hn, hlabel⟩ := exists_label_of_optionalEntry elseBody h
      exact ⟨n, by simp [nodes, hn], hlabel⟩
  | .expression .., h | .echo .., h | .loop .., h | .jump .., h | .goto .., h | .tryCatch .., h
  | .throw .., h | .unset .., h | .constDecl .., h | .function .., h | .empty .., h => nomatch h
termination_by structural x => x

theorem exists_label_of_anyEntry : ∀ body : List Stmt, anyEntry body = true →
    ∃ n ∈ nodesOf body, n.isGotoOrLabel = true
  | [], h => nomatch h
  | x :: rest, h => by
    rcases Bool.or_eq_true_iff.mp h with h | h
    · obtain ⟨n, hn, hlabel⟩ := exists_label_of_hasEntry x h
      exact ⟨n, List.mem_append_left _ hn, hlabel⟩
    · obtain ⟨n, hn, hlabel⟩ := exists_label_of_anyEntry rest h
      exact ⟨n, List.mem_append_right _ hn, hlabel⟩
termination_by structural body => body

theorem exists_label_of_optionalEntry : ∀ part : Option (List Stmt), optionalEntry part = true →
    ∃ n ∈ nodesOfOptional part, n.isGotoOrLabel = true
  | none, h => nomatch h
  | some body, h => exists_label_of_anyEntry body h
termination_by structural part => part

end

end Stmt

namespace Analysis

open Pass (bind_eq_ok_iff)

variable {cfg : Setting} {body part : List Stmt} {s t u v : State} {x y : Stmt}

/-! ## Where the analysis comes -/

theorem Comes.admits (h : Comes cfg body s x t) : ∃ s' home, Admits cfg x s' home t := by
  induction h with
  | here hadmits => exact ⟨_, _, hadmits⟩
  | later _ _ ih | within _ _ _ ih => exact ih

/-- What is come to in a part of a statement is come to. -/
theorem Comes.trans (h : Comes cfg body s x t) (hpart : Part cfg x t part u) (h' : Comes cfg part u y v) :
    Comes cfg body s y v := by
  induction h with
  | here hadmits => exact .within hadmits hpart h'
  | later hdone _ ih => exact .later hdone (ih hpart)
  | within hadmits hpart' _ ih => exact .within hadmits hpart' (ih hpart)

theorem Comes.append {rest : List Stmt} (h : Comes cfg body s x t) : Comes cfg (body ++ rest) s x t := by
  induction h with
  | here hadmits => exact .here hadmits
  | later hdone _ ih => exact .later hdone ih
  | within hadmits hpart h _ => exact .within hadmits hpart h

theorem Part.nodes (h : Part cfg x s part t) {n : Node} (hn : n ∈ Stmt.nodesOf part) : n ∈ x.nodes := by
  cases h <;>
    simp only [Stmt.nodes, Stmt.nodesOfOptional, Stmt.nodesOfCatches_append, Stmt.nodesOfCatches, List.mem_append,
      List.mem_cons, hn, or_true, true_or]

theorem Comes.nodes (h : Comes cfg body s x t) {n : Node} (hn : n ∈ x.nodes) : n ∈ Stmt.nodesOf body := by
  induction h with
  | here => exact List.mem_append_left _ hn
  | later _ _ ih => exact List.mem_append_right _ (ih hn)
  | within _ hpart _ ih => exact List.mem_append_left _ (hpart.nodes (ih hn))

/-- In a unit without labels this is every statement but declarations and empty ones. -/
theorem isElidable_of_labelFree (hfree : ∀ n ∈ x.nodes, n.isGotoOrLabel = false)
    (hdeclaration : x.isDeclaration = false) (hempty : x.isEmpty = false) : isElidable x = true := by
  have hentry : x.hasEntry = false := by
    cases hentry : x.hasEntry with
    | false => rfl
    | true =>
      obtain ⟨n, hn, hlabel⟩ := x.exists_label_of_hasEntry hentry
      rw [hfree n hn] at hlabel
      exact nomatch hlabel
  rw [isElidable, hdeclaration, hempty, hentry]
  rfl

/-- The lists of statements that an analysis enters: those it begins with, and the parts of the
statements that it comes to. -/
inductive Enters (cfg : Setting) (body : List Stmt) (s : State) : List Stmt → State → Prop where
  | start : Enters cfg body s body s
  | part {x : Stmt} {t : State} {part : List Stmt} {u : State} (hcomes : Comes cfg body s x t)
      (hpart : Part cfg x t part u) : Enters cfg body s part u

variable (cfg body s) in
/-- A condition can turn out this way: the analysis has not folded it to the contrary. -/
def MayGo (e : Expr) (b : Bool) : Prop :=
  ∀ x t c u, Comes cfg body s x t → x.condition? = some e → analyze cfg e .read t = (.ok c, u) →
    decided? cfg c ≠ some (!b)

theorem Enters.folded (h : Enters cfg body s part t) : Folded cfg (MayGo cfg body s) part t := by
  intro x u e c v b hcomes he hrun hdecided hmay
  have hcomes : Comes cfg body s x u := by
    cases h with
    | start => exact hcomes
    | part hfirst hpart => exact hfirst.trans hpart hcomes
  refine hmay x u c v hcomes he hrun ?_
  rw [hdecided, Bool.not_not]

theorem Folded.take {may : Expr → Bool → Prop} (h : Folded cfg may body s) (i : Nat) :
    Folded cfg may (body.take i) s := by
  intro x t e c u b hcomes
  refine h x t e c u b ?_
  rw [← List.take_append_drop i body]
  exact hcomes.append

/-- In a unit without labels, a list that is entered as dead code is excluded by a condition. -/
theorem Enters.guarded (h : Enters cfg body s part t) (hfree : ∀ n ∈ Stmt.nodesOf body, n.isGotoOrLabel = false)
    (hs : s.unreachable = false) (hdead : t.unreachable = true) :
    ∃ x u e b, Comes cfg body s x u ∧ x.Guards e b part ∧ ¬ MayGo cfg body s e b := by
  cases h with
  | start => exact nomatch hs.symm.trans hdead
  | @part x u _ _ hcomes hpart =>
    obtain ⟨_, _, hadmits⟩ := hcomes.admits
    have hxfree : ∀ n ∈ x.nodes, n.isGotoOrLabel = false := fun n hn => hfree n (hcomes.nodes hn)
    have hu (hdeclaration : x.isDeclaration = false) (hempty : x.isEmpty = false) : u.unreachable = false :=
      hadmits.alive (isElidable_of_labelFree hxfree hdeclaration hempty)
    have hexcluded {e c v b} (he : x.condition? = some e) (hrun : analyze cfg e .read u = (.ok c, v))
        (hdecided : decided? cfg c = some (!b)) : ¬ MayGo cfg body s e b :=
      fun hmay => hmay x u c v hcomes he hrun hdecided
    cases hpart with
    | block => exact nomatch (hu rfl rfl).symm.trans hdead
    | elseDead hcondition hdecision =>
      exact ⟨_, u, _, false, hcomes, .elsePart .., hexcluded rfl hcondition (decided?_of_decision hdecision)⟩
    | thenDead hcondition hdecision =>
      exact ⟨_, u, _, true, hcomes, .thenPart .., hexcluded rfl hcondition (decided?_of_decision hdecision)⟩
    | loopDead hcondition hdecided =>
      exact ⟨_, u, _, true, hcomes, .loop .., hexcluded rfl hcondition hdecided⟩
    | thenTaken hcondition _ hrun | elseTaken hcondition _ hrun =>
      obtain ⟨_, _, -, rfl⟩ := asDead_eq_ok hrun
      exact nomatch ((quiet_analyze hcondition).alive (hu rfl rfl)).symm.trans hdead
    | thenPart hcondition _ hkeep | loopBody hcondition _ hkeep =>
      exact nomatch (((quiet_analyze hcondition).trans (quiet_keep hkeep)).alive (hu rfl rfl)).symm.trans hdead
    | elsePart hcondition _ hkeep =>
      exact nomatch (((quiet_analyze hcondition).trans (quiet_keep hkeep)).alive (hu rfl rfl)).symm.trans hdead
    | tryBody => exact nomatch (hu rfl rfl).symm.trans hdead
    | clause hbody hearlier =>
      obtain ⟨_, -, rfl⟩ := inConditional_eq_ok hbody
      exact nomatch ((quiet_resolveType _ _ _).alive (alive_analyzeCatches hearlier rfl)).symm.trans hdead
    | cleanup hbody hcatches =>
      obtain ⟨_, -, rfl⟩ := inConditional_eq_ok hbody
      exact nomatch (alive_analyzeCatches hcatches rfl).symm.trans hdead
    | function => exact nomatch hdead

/-! ## Statements that are left out -/

/-- The statements in front of one are analysed before it. -/
theorem analyzeStmts_take {i : Nat} {out : List Stmt} (h : analyzeStmts cfg body s = (.ok out, t))
    (hx : body[i]? = some x) (hy : out[i]? = some y) :
    ∃ u v, analyzeStmts cfg (body.take i) s = (.ok (out.take i), u) ∧ analyzeStmt cfg x u = (.ok y, v) := by
  induction body generalizing i s out with
  | nil => exact nomatch hx
  | cons z rest ih =>
    rw [analyzeStmts] at h
    obtain ⟨z', u, hz, h⟩ := (bind_eq_ok_iff ..).mp h
    obtain ⟨rest', v, hrest, h⟩ := (bind_eq_ok_iff ..).mp h
    cases h
    cases i with
    | zero =>
      cases hx
      cases hy
      exact ⟨s, u, rfl, hz⟩
    | succ i =>
      obtain ⟨w, w', hfront, hrun⟩ := ih hrest hx hy
      refine ⟨w, w', ?_, hrun⟩
      rw [List.take_succ_cons, List.take_succ_cons, analyzeStmts, Pass.bind_apply, hz]
      dsimp only
      rw [Pass.bind_apply, hfront]
      rfl

/-- A statement that is replaced stands where the code cannot be reached. -/
theorem unreachable_of_leftOut (h : analyzeStmt cfg x s = (.ok y, t)) (hy : y.isUnreachable = true)
    (hx : x.isEmpty = false) : s.unreachable = true := by
  cases analyzeStmt_turn h with
  | leftOut _ hdead => exact hdead
  | quiet _ hempty => exact nomatch hx.symm.trans (hempty hy)
  | _ => exact nomatch hy

end Analysis

namespace Compiler

open Analysis (Comes Enters MayGo analyzeStmts)

variable (c : Compiler) (unit : SourceUnit)

/-- The executions of statements of a unit, in which conditions go as the analysis has folded them. -/
def ExecutesAll (body : List Stmt) (out : Exit) : Prop :=
  Stmt.ExecutesAll (MayGo (c.unitSetting unit) unit.statements (c.analysisStart unit)) body out

variable {c unit}

/-- **In a unit without labels, a statement that is left out as dead code is never come to.** -/
theorem not_executed_of_leftOut (hfree : unit.LabelFree) {part out : List Stmt} {s t : Analysis.State}
    (hlist : Enters (c.unitSetting unit) unit.statements (c.analysisStart unit) part s)
    (hrun : analyzeStmts (c.unitSetting unit) part s = (.ok out, t)) {i : Nat} {x y : Stmt}
    (hx : part[i]? = some x) (hy : out[i]? = some y) (hleft : y.isUnreachable = true)
    (hempty : x.isEmpty = false) :
    s.unreachable = false ∧ ¬ c.ExecutesAll unit (part.take i) .done ∨
      s.unreachable = true ∧ ∃ z u e b, Comes (c.unitSetting unit) unit.statements (c.analysisStart unit) z u ∧
        z.Guards e b part ∧ ¬ MayGo (c.unitSetting unit) unit.statements (c.analysisStart unit) e b := by
  cases hs : s.unreachable with
  | true => exact Or.inr ⟨rfl, hlist.guarded hfree rfl hs⟩
  | false =>
    refine Or.inl ⟨rfl, fun hall => ?_⟩
    obtain ⟨u, v, hfront, hrun⟩ := Analysis.analyzeStmts_take hrun hx hy
    have hdead : u.unreachable = true := Analysis.unreachable_of_leftOut hrun hleft hempty
    have halive : u.unreachable = false :=
      Analysis.alive_analyzeStmts (part.take i) hfront (hlist.folded.take i) hall hs
    exact nomatch halive.symm.trans hdead

/-- Whatever happens in the `try`, its cleanup returns. -/
def cleanupReturn : SourceUnit :=
  { name := "unit", nextId := 6, span := {}
    statements := [
      .tryCatch ⟨0, {}⟩ [.echo ⟨1, {}⟩ [.var ⟨2, {}, .none⟩ "x"]] [] (some [.jump ⟨3, {}⟩ .return none]),
      .echo ⟨4, {}⟩ [.var ⟨5, {}, .none⟩ "x"]] }

theorem not_executed_cleanupReturn :
    cleanupReturn.LabelFree ∧ ∃ out t y, analyzeStmts (({} : Compiler).unitSetting cleanupReturn)
        cleanupReturn.statements (({} : Compiler).analysisStart cleanupReturn) = (.ok out, t) ∧
      out[1]? = some y ∧ y.isUnreachable = true ∧
      ¬ ({} : Compiler).ExecutesAll cleanupReturn (cleanupReturn.statements.take 1) .done := by
  have hfree : cleanupReturn.LabelFree := by decide
  refine ⟨hfree, _, _, _, rfl, rfl, rfl, ?_⟩
  rcases not_executed_of_leftOut (c := {}) (y := .empty ⟨6, {}⟩ .unreachable) hfree .start rfl
    (i := 1) rfl rfl rfl rfl with ⟨-, hnot⟩ | ⟨hdead, -⟩
  · exact hnot
  · exact nomatch hdead

end Compiler
end PhpLowering
