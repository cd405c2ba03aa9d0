import PhpLowering.Proofs.Analysis.Hoisting
import PhpLowering.Proofs.Isolation
import PhpLowering.Proofs.Lowering.Exchange
import PhpLowering.Proofs.Reporting
import PhpLowering.Proofs.Stores

/-!
# Functions are declared anywhere

The functions of a unit are collected before it is analysed, and each of them is analysed and emitted on its own.  So
it does not matter where in the unit a function is declared.

**`hoisted`**: if a function declaration is moved to another place in a unit, the unit has errors if it had errors and
is emitted if it was emitted, with the same code of the unit itself and of every function in it.  The names of the
functions in the unit have to be different, or one would be taken for another; and in the functions there
must be nothing about constants, which are declared one after the other.

The nodes of the unit have to have different numbers, and chains have to give their slots back in one order.  What
is remembered of a label is kept under its number: if a label in a function has the number of a label
outside of it, that is marked or not according to which of them is met first, `not_hoisted_sharedLabel`.

Only the spans of the code may differ: the declaration itself stands in another place in the source.
-/

namespace PhpLowering
namespace Stmt

/-- A function declaration is moved behind some of the statements that follow it. -/
inductive Postponed : List Stmt → List Stmt → Prop where
  | mk (before between behind : List Stmt) (tag : StmtTag) (head : FunctionHead) (body : List Stmt) (dead : Bool) :
    Postponed (before ++ .function tag head body dead :: (between ++ behind))
      (before ++ (between ++ .function tag head body dead :: behind))

/-- A function declaration is moved to another place. -/
inductive Relocated : List Stmt → List Stmt → Prop where
  | mk {before behind before' behind' : List Stmt} (tag : StmtTag) (head : FunctionHead) (body : List Stmt) (dead : Bool)
    (h : before ++ behind = before' ++ behind') :
    Relocated (before ++ .function tag head body dead :: behind) (before' ++ .function tag head body dead :: behind')

variable {xs ys : List Stmt}

theorem Relocated.postponed (h : Relocated xs ys) : Postponed xs ys ∨ Postponed ys xs := by
  obtain ⟨tag, head, body, dead, h⟩ := h
  rename_i before behind before' behind'
  rcases List.append_eq_append_iff.mp h with ⟨between, rfl, rfl⟩ | ⟨between, rfl, rfl⟩
  · rw [List.append_assoc]
    exact .inl (.mk before between behind' tag head body dead)
  · rw [List.append_assoc]
    exact .inr (.mk before' between behind tag head body dead)

theorem Relocated.perm (h : Relocated xs ys) : xs.Perm ys := by
  obtain ⟨tag, head, body, dead, h⟩ := h
  exact List.perm_middle.trans ((List.Perm.of_eq h).cons _ |>.trans List.perm_middle.symm)

theorem exists_expr_of_copies (h : copyOf .plain ys = copyOf .plain xs) {e : Expr} (he : .expr e ∈ nodesOf xs) :
    ∃ e', .expr e' ∈ nodesOf ys ∧ e'.copy .plain = e.copy .plain := by
  have hnodes : (nodesOf ys).map (Node.copy .plain) = (nodesOf xs).map (Node.copy .plain) := by
    rw [← nodesOf_copyOf rfl, ← nodesOf_copyOf rfl, h]
  obtain ⟨n, hn, heq⟩ := List.mem_map.mp (hnodes ▸ List.mem_map_of_mem he)
  cases n with
  | expr e' => exact ⟨e', hn, Node.expr.inj heq⟩
  | stmt => exact nomatch heq

/-- Every expression has its counterpart in the tree with the moved declaration. -/
theorem Moved.exists_expr (h : Moved xs ys) {e : Expr} (he : .expr e ∈ nodesOf xs) :
    ∃ e', .expr e' ∈ nodesOf ys ∧ e'.copy .plain = e.copy .plain := by
  obtain ⟨before, tag, head, dead, dead', hbody, hbetween, hbehind⟩ := h
  simp only [nodesOf_append, nodesOf, nodes, List.mem_append, List.mem_cons, reduceCtorEq, false_or] at he ⊢
  rcases he with he | he | he | he
  · exact ⟨e, .inl he, rfl⟩
  · obtain ⟨e', he', hcopy⟩ := exists_expr_of_copies hbody he
    exact ⟨e', .inr (.inr (.inl he')), hcopy⟩
  · obtain ⟨e', he', hcopy⟩ := exists_expr_of_copies hbetween he
    exact ⟨e', .inr (.inl he'), hcopy⟩
  · obtain ⟨e', he', hcopy⟩ := exists_expr_of_copies hbehind he
    exact ⟨e', .inr (.inr (.inr he')), hcopy⟩

end Stmt

/-- The functions in a unit may be declared anywhere. -/
structure SourceUnit.Hoistable (symbols : Symbols) (unit : SourceUnit) : Prop where
  /-- No name of a function is that of another one, or known from outside. -/
  distinct : Declarations.Distinct symbols (Node.heads (Stmt.nodesOf unit.statements))
  /-- No function has to do with constants. -/
  plain : ∀ f ∈ Stmt.functionsOf unit.statements, ∀ n ∈ Stmt.nodesOf f.2, n.isConstant = false

theorem SourceUnit.Hoistable.perm {symbols : Symbols} {unit : SourceUnit} (h : unit.Hoistable symbols) {ys : List Stmt}
    (hperm : unit.statements.Perm ys) : SourceUnit.Hoistable symbols { unit with statements := ys } where
  distinct := h.distinct.perm ((Stmt.perm_nodesOf hperm).filterMap _)
  plain f hf := h.plain f ((Stmt.perm_functionsOf hperm).mem_iff.mpr hf)

/-- A function declaration is postponed in the analysis of a unit. -/
theorem Analysis.exists_postponed {cfg : Setting} {s : State} {xs ys : List Stmt} (hcfg : cfg.registry = .standard)
    (h : Stmt.Postponed xs ys) (hs : Tidy s) (henclosing : s.enclosing = [])
    (hempty : ∀ i, s.memory.labels[(Home.node i : Home StmtKind)]? = none) (hnodup : (labelIds xs).Nodup)
    (hplain : ∀ f ∈ Stmt.functionsOf xs, ∀ n ∈ Stmt.nodesOf f.2, n.isConstant = false) :
    ∃ xs' ys' t u, analyzeStmts cfg xs s = (.ok xs', t) ∧
      analyzeStmts cfg ys s = (.ok ys', u) ∧ Stmt.Moved xs' ys' ∧
      (∀ i, u.finish.memory.labelReferenced (.node i) = t.finish.memory.labelReferenced (.node i)) ∧
      u.finish.diagnostics.any Diagnostic.isError = t.finish.diagnostics.any Diagnostic.isError := by
  obtain ⟨before, between, behind, tag, head, body, dead⟩ := h
  have hmem : (head, body) ∈ Stmt.functionsOf (before ++ .function tag head body dead :: (between ++ behind)) := by
    simp [Stmt.functionsOf_append, Stmt.functionsOf, Stmt.functions]
  exact exists_moved hcfg before between behind tag head body dead hs henclosing hempty hnodup (hplain _ hmem)

/-- Two chunks hold the same code, up to the places in the source and the order of the functions. -/
structure Chunk.SameRoutines (c c' : Chunk) : Prop where
  main : c.main.SameCode c'.main
  function? : ∀ name, Option.Rel Routine.SameCode (c.function? name) (c'.function? name)

theorem Chunk.SameRoutines.symm {c c' : Chunk} (h : c.SameRoutines c') : c'.SameRoutines c where
  main := h.main.symm
  function? name := by
    have hfunction := h.function? name
    generalize c.function? name = f at hfunction ⊢
    generalize c'.function? name = f' at hfunction ⊢
    cases hfunction with
    | none => exact .none
    | some hsame => exact .some hsame.symm

/-! ## Functions in another order -/

section

open Routine (SameCode)

variable {ds ds' es : List Routine}

theorem rel_find?_of_sameCode (h : List.Forall₂ SameCode ds es) (name : String) :
    Option.Rel SameCode (ds.find? fun r => Text.sameName r.name name) (es.find? fun r => Text.sameName r.name name) := by
  induction h with
  | nil => exact .none
  | @cons r r' _ _ hfirst _ ih =>
    rw [List.find?_cons, List.find?_cons, show r'.name = r.name from congrArg Routine.Head.name hfirst.head]
    cases Text.sameName r.name name with
    | true => exact .some hfirst
    | false => exact ih

/-- Functions have the names under which they are declared. -/
theorem map_key_of_declares {heads : List FunctionHead} (h : List.Forall₂ Lowering.Declares heads ds) :
    heads.map Declarations.key = ds.map fun r => Text.foldCase r.name := by
  induction h with
  | nil => rfl
  | cons hfirst _ ih => rw [List.map_cons, List.map_cons, ih, hfirst.name]; rfl

/-- If no two functions have one name, each is found in whatever order they are. -/
theorem rel_find?_of_reordered (h : Reordered ds ds')
    (hnodup : (ds.map fun r => Text.foldCase r.name).Nodup) (name : String) :
    Option.Rel SameCode (ds.find? fun r => Text.sameName r.name name) (ds'.find? fun r => Text.sameName r.name name) := by
  obtain ⟨es, hsame, hperm⟩ := h
  have hnames : (es.map fun r => Text.foldCase r.name) = ds.map fun r => Text.foldCase r.name := by
    clear hnodup hperm
    induction hsame with
    | nil => rfl
    | cons hfirst _ ih =>
      rw [List.map_cons, List.map_cons, ih]
      exact congrArg (Text.foldCase · :: _) (congrArg Routine.Head.name hfirst.head)
  have hunique : {r ∈ es | Text.sameName r.name name = true}.Subsingleton := by
    intro r hr r' hr'
    have hname := (Text.sameName_iff _ _).mp hr.2
    have hname' := (Text.sameName_iff _ _).mp hr'.2
    exact List.inj_on_of_nodup_map (hnames ▸ hnodup) hr.1 hr'.1 (hname.trans hname'.symm)
  rw [← List.find?_eq_find?_of_perm hperm hunique]
  exact rel_find?_of_sameCode hsame name

end

namespace Compiler

open Lowering (Declares Sides)

variable {c : Compiler} {unit unit' : SourceUnit} {analyzed analyzed' : AnalyzedUnit}
  {diagnostics diagnostics' : Array Diagnostic} {name : String} {filePath : Option String} {tempLimit : Option Nat}

/-- The order of the declarations does not matter to the functions that are found. -/
theorem kindred_unitSetting (hunit : unit.Hoistable c.symbols) (hunit' : unit'.Hoistable c.symbols)
    (hperm : unit.statements.Perm unit'.statements) : Analysis.Kindred (c.unitSetting unit) (c.unitSetting unit') where
  registry := rfl
  symbols := rfl
  foldConstants := rfl
  function? name := by
    obtain ⟨hfunctions, -⟩ := Declarations.collect_eq hunit.distinct
    obtain ⟨hfunctions', -⟩ := Declarations.collect_eq hunit'.distinct
    have hentries : (Declarations.collect c.symbols unit.statements).functions.Perm
        (Declarations.collect c.symbols unit'.statements).functions := by
      rw [hfunctions, hfunctions']
      exact ((Stmt.perm_nodesOf hperm).filterMap _).map _
    have hnodup : ((Declarations.collect c.symbols unit.statements).functions.map Prod.fst).Nodup := by
      rw [hfunctions, List.map_map]
      exact hunit.distinct.nodup
    unfold Analysis.State.function?
    dsimp only [unitSetting, analysisSetting]
    rw [Declarations.lookup_eq_of_perm hentries hnodup]

/-- A unit with a postponed declaration is analysed in the setting and from the state of the original. -/
theorem analyzeStmts_unitSetting (hunit : unit.Hoistable c.symbols) (hunit' : unit'.Hoistable c.symbols)
    (hperm : unit.statements.Perm unit'.statements) (hnextId : unit'.nextId = unit.nextId) (xs : List Stmt) :
    Analysis.analyzeStmts (c.unitSetting unit') xs (c.analysisStart unit') =
      Analysis.analyzeStmts (c.unitSetting unit) xs (c.analysisStart unit) := by
  have : Analysis.Accord (c.unitSetting unit) (c.unitSetting unit') {} True Eq :=
    Analysis.accord_eq (kindred_unitSetting hunit hunit' hperm) rfl
  have hstart : c.analysisStart unit = c.analysisStart unit' := by
    unfold analysisStart
    rw [(Declarations.collect_eq hunit.distinct).2, (Declarations.collect_eq hunit'.distinct).2, hnextId]
  obtain ⟨hanswer, hstate⟩ := Analysis.analyzeStmts_eq xs hstart
  exact Prod.ext hanswer hstate.symm

theorem analyze_of_run {statements : List Stmt} {s : Analysis.State}
    (h : Analysis.analyzeStmts (c.unitSetting unit) unit.statements (c.analysisStart unit) = (.ok statements, s)) :
    c.analyze unit = (.ok { name := unit.name, statements, table := s.finish.table, memory := s.finish.memory },
      s.finish.diagnostics) := by
  unfold unitSetting analysisStart at h
  simp only [analyze, h]

/-- **A postponed declaration makes no difference to the analysis.** -/
theorem exists_analyze_postponed (hc : c.registry = .standard) (hnumbered : unit.Numbered)
    (hunit : unit.Hoistable c.symbols) (hpostponed : Stmt.Postponed unit.statements unit'.statements)
    (hnextId : unit'.nextId = unit.nextId) (hunit' : unit'.Hoistable c.symbols)
    (hperm : unit.statements.Perm unit'.statements) :
    ∃ analyzed analyzed' diagnostics diagnostics', c.analyze unit = (.ok analyzed, diagnostics) ∧
      c.analyze unit' = (.ok analyzed', diagnostics') ∧ Stmt.Moved analyzed.statements analyzed'.statements ∧
      (∀ i, analyzed'.memory.labelReferenced (.node i) = analyzed.memory.labelReferenced (.node i)) ∧
      hasErrors diagnostics' = hasErrors diagnostics := by
  obtain ⟨xs, ys, t, u, hrun, hrun', hmoved, hlabels, herrors⟩ :=
    Analysis.exists_postponed (show (c.unitSetting unit).registry = .standard from hc) hpostponed
      (Analysis.tidy_start _ _) rfl (fun i => Std.HashMap.getElem?_empty) (Analysis.nodup_labelIds hnumbered) hunit.plain
  have hsame := analyzeStmts_unitSetting hunit hunit' hperm hnextId unit'.statements
  exact ⟨_, _, _, _, analyze_of_run hrun, analyze_of_run (hsame.trans hrun'), hmoved, hlabels, herrors⟩

/-- If statements cannot be emitted, neither can the routine that consists of them. -/
theorem lowerRoutine_of_error {cfg : Lowering.Setting} {body : List Stmt} {start t : Lowering.State Chunk}
    {e : CompileError} (hframe : start.frame = {}) (h : Lowering.lowerStmts cfg body start = (.error e, t)) :
    (Lowering.lowerRoutine cfg body false start).1 = .error e := by
  have hfresh : Lowering.updateFrame (fun _ => { returnsRef := false }) start = (.ok (), start) := by
    rw [Lowering.updateFrame, Pass.update_apply, ← hframe]
  rw [Lowering.lowerRoutine, Lowering.routineCode,
    Pass.bind_of_ok (show Lowering.frame start = (.ok start.frame, start) from rfl), Pass.bind_of_ok hfresh,
    Lowering.thenFrame, Pass.ensuring_apply, Pass.bind_apply, h]

/-- The emission of a unit without errors reports an error if it fails in a statement. -/
theorem hasErrors_emit_iff {sink : Chunk}
    (hanalyze : c.analyze unit = (.ok analyzed, diagnostics)) (hclean : hasErrors diagnostics = false) :
    hasErrors (c.emit analyzed diagnostics sink).diagnostics = true ↔
      ∃ e, (Lowering.lowerStmts c.loweringSetting analyzed.statements (c.emissionStart analyzed diagnostics sink)).1 =
        .error e := by
  have hseverity : ∀ d ∈ diagnostics, d.severity ≠ .error := fun d hd herror =>
    absurd (hasErrors_eq_false_iff.mp hclean d hd) (by simp [Diagnostic.isError, herror])
  have hends : Concludes c unit sink (c.emit analyzed diagnostics sink) := concludes_emit hanalyze hseverity
  generalize hout : c.emit analyzed diagnostics sink = out at hends
  cases hends with
  | analysisFailed hfailed => cases hfailed.symm.trans hanalyze
  | notEmitted hanalyze' herror =>
    cases hanalyze.symm.trans hanalyze'
    obtain ⟨d, hd, herror⟩ := herror
    exact absurd herror (hseverity d hd)
  | emitted hanalyze' =>
    cases hanalyze.symm.trans hanalyze'
    refine ⟨fun herror => absurd (hclean.symm.trans herror) Bool.false_ne_true, ?_⟩
    rintro ⟨e, herror⟩
    have hroutine := lowerRoutine_of_error rfl (Prod.ext herror rfl)
    rw [emit_of_error (Prod.ext hroutine rfl)] at hout
    cases hout
  | failedInStatement hanalyze' _ hinnermost =>
    cases hanalyze.symm.trans hanalyze'
    obtain ⟨source, t, hreported, -⟩ := hinnermost.reported
    refine ⟨fun _ => ⟨_, congrArg Prod.fst hreported⟩, fun _ => ?_⟩
    unfold hasErrors
    rw [Array.any_push]
    exact Bool.or_true _
  | failedAtEnd hanalyze' _ hstatements =>
    cases hanalyze.symm.trans hanalyze'
    refine ⟨fun herror => absurd (hclean.symm.trans herror) Bool.false_ne_true, ?_⟩
    rintro ⟨e, herror⟩
    rw [hstatements] at herror
    cases herror

/-- Two emissions into the same chunk begin beside each other. -/
theorem beside_emissionStart (horder : c.ReleasesInOneOrder) (htable : analyzed.table.Regular)
    (htable' : analyzed'.table.Regular) (diagnostics diagnostics' : Array Diagnostic) (chunk : Chunk) :
    Lowering.Beside Routine.SameCode (.plain (c.releases 0) analyzed.memory analyzed'.memory)
      (c.emissionStart analyzed diagnostics chunk) (c.emissionStart analyzed' diagnostics' chunk) where
  memory := rfl
  memory' := rfl
  table := htable
  table' := htable'
  chains := rfl
  releases := rfl
  order := by
    rintro _ ⟨⟩
    exact funext horder
  rest _ := rfl
  shared := rfl
  active := Routine.Twins.refl _
  frame := rfl

/-- **A moved declaration makes no difference to the emission**, if the same is remembered of the tree. -/
theorem emit_moved (hc : c.registry = .standard) (horder : c.ReleasesInOneOrder)
    (htable : analyzed.table.Regular) (htable' : analyzed'.table.Regular)
    (hmoved : Stmt.Moved analyzed.statements analyzed'.statements)
    (hagrees : (Sides.plain (c.releases 0) analyzed.memory analyzed'.memory).AgreesOn (Stmt.ownOf analyzed.statements)
      (Stmt.functionsOf analyzed.statements))
    (hnodup : (((Stmt.functionsOf analyzed.statements).map Prod.fst).map Declarations.key).Nodup)
    (diagnostics diagnostics' : Array Diagnostic) (name : String) (filePath : Option String) (tempLimit : Option Nat) :
    (c.emit analyzed' diagnostics' (Chunk.new name filePath tempLimit)).isEmitted =
        (c.emit analyzed diagnostics (Chunk.new name filePath tempLimit)).isEmitted ∧
      ((c.emit analyzed diagnostics (Chunk.new name filePath tempLimit)).isEmitted = true →
        (c.emit analyzed diagnostics (Chunk.new name filePath tempLimit)).sink.SameRoutines
          (c.emit analyzed' diagnostics' (Chunk.new name filePath tempLimit)).sink) := by
  have hcfg : c.loweringSetting.registry = .standard := hc
  have hroutines := (Lowering.accompanies_moved hcfg hmoved hagrees).routineCode rfl false
  have hstart := beside_emissionStart horder htable htable' diagnostics diagnostics' (Chunk.new name filePath tempLimit)
  rcases hrun : Lowering.lowerRoutine c.loweringSetting analyzed.statements false
    (c.emissionStart analyzed diagnostics (Chunk.new name filePath tempLimit)) with ⟨result, s⟩
  cases result with
  | error e =>
    obtain ⟨e', herror⟩ := hroutines.error _ _ hstart e (congrArg Prod.fst hrun)
    rw [emit_of_error hrun, emit_of_error (Prod.ext herror rfl)]
    exact ⟨rfl, nofun⟩
  | ok a =>
    obtain ⟨t, hrun', hbeside, ds, ds', hds, hds', hdeclares, hreordered⟩ :=
      hroutines.ok _ _ hstart _ _ hrun
    rw [emit_of_ok hrun, emit_of_ok hrun']
    refine ⟨rfl, fun _ => ⟨?_, fun name => ?_⟩⟩
    · have hmain : s.active = s.sink.main := Chunk.active_of_outside hds.outside
      have hmain' : t.active = t.sink.main := Chunk.active_of_outside hds'.outside
      exact hmain ▸ hmain' ▸ hbeside.active
    · have hfunctions : s.sink.functions.toList = ds := hds.functions
      have hfunctions' : t.sink.functions.toList = ds' := hds'.functions
      show Option.Rel Routine.SameCode (s.sink.functions.find? _) (t.sink.functions.find? _)
      rw [← Array.find?_toList, ← Array.find?_toList, hfunctions, hfunctions']
      exact rel_find?_of_reordered hreordered (map_key_of_declares hdeclares ▸ hnodup) name

/-- A moved declaration makes no difference to whether the emission reports an error. -/
theorem hasErrors_emit_moved (hc : c.registry = .standard) (horder : c.ReleasesInOneOrder)
    (hanalyze : c.analyze unit = (.ok analyzed, diagnostics))
    (hanalyze' : c.analyze unit' = (.ok analyzed', diagnostics')) (hclean : hasErrors diagnostics = false)
    (hclean' : hasErrors diagnostics' = false) (htable : analyzed.table.Regular) (htable' : analyzed'.table.Regular)
    (hmoved : Stmt.Moved analyzed.statements analyzed'.statements)
    (hagrees : (Sides.plain (c.releases 0) analyzed.memory analyzed'.memory).AgreesOn (Stmt.ownOf analyzed.statements)
      (Stmt.functionsOf analyzed.statements)) (chunk : Chunk) :
    hasErrors (c.emit analyzed' diagnostics' chunk).diagnostics =
      hasErrors (c.emit analyzed diagnostics chunk).diagnostics := by
  have hcfg : c.loweringSetting.registry = .standard := hc
  have hstatements := Lowering.accompanies_moved hcfg hmoved hagrees
  have hstart := beside_emissionStart horder htable htable' diagnostics diagnostics' chunk
  rw [Bool.eq_iff_iff, hasErrors_emit_iff hanalyze hclean, hasErrors_emit_iff hanalyze' hclean']
  refine ⟨fun ⟨e', herror'⟩ => ?_, fun ⟨e, herror⟩ => hstatements.error _ _ hstart e herror⟩
  rcases hrun : Lowering.lowerStmts c.loweringSetting analyzed.statements (c.emissionStart analyzed diagnostics chunk)
    with ⟨result, s⟩
  cases result with
  | error e => exact ⟨e, rfl⟩
  | ok a =>
    obtain ⟨t, hrun', -⟩ := hstatements.ok _ _ hstart _ _ hrun
    rw [hrun'] at herror'
    exact nomatch herror'

/-- What is in the statements of a routine and of the functions in it agrees, if it agrees for all nodes. -/
theorem agreesOn_of_nodes {p : Sides} {statements : List Stmt}
    (hkeys : ∀ {tag : ExprTag} {elements : List ArrayElement}, .expr (.array tag elements) ∈ Stmt.nodesOf statements →
      p.memory'.keyCount (.node (p.copying.node tag.id)) = p.memory.keyCount (.node tag.id))
    (hlabels : ∀ i, p.memory'.labelReferenced (.node (p.copying.node i)) = p.memory.labelReferenced (.node i)) :
    p.AgreesOn (Stmt.ownOf statements) (Stmt.functionsOf statements) where
  keys hy he harray := hkeys (Stmt.nodesOf_of_ownOf hy (Stmt.expr_mem_nodes he harray))
  labels _ := hlabels _
  bodies _ _ hf :=
    { keys := fun hy he harray =>
        hkeys (Stmt.nodesOf_of_functionsOf hf (Stmt.nodesOf_of_ownOf hy (Stmt.expr_mem_nodes he harray)))
      labels := fun _ => hlabels _ }

/-- The same is remembered of a tree and of the tree with a moved declaration. -/
theorem agreesOn_of_moved (hc : c.registry = .standard) (hnumbered : unit.Numbered) (hnumbered' : unit'.Numbered)
    (hanalyze : c.analyze unit = (.ok analyzed, diagnostics))
    (hanalyze' : c.analyze unit' = (.ok analyzed', diagnostics'))
    (hmoved : Stmt.Moved analyzed.statements analyzed'.statements)
    (hlabels : ∀ i, analyzed'.memory.labelReferenced (.node i) = analyzed.memory.labelReferenced (.node i)) :
    (Sides.plain (c.releases 0) analyzed.memory analyzed'.memory).AgreesOn (Stmt.ownOf analyzed.statements)
      (Stmt.functionsOf analyzed.statements) := by
  refine agreesOn_of_nodes (fun {tag elements} harray => ?_) hlabels
  obtain ⟨e', he', hcopy⟩ := hmoved.exists_expr harray
  obtain ⟨tag', elements', rfl, hid, hkeys⟩ := Expr.exists_array_of_copy hcopy
  have hleft := keyCount_of_analyze hc hnumbered hanalyze harray
  have hright := keyCount_of_analyze hc hnumbered' hanalyze' he'
  rw [show tag'.id = tag.id from hid] at hright
  exact hright.trans (hkeys.trans hleft.symm)

/-- The functions in an analysed tree are some of those in the source. -/
theorem nodup_key_of_analyze (hc : c.registry = .standard) (hunit : unit.Hoistable c.symbols)
    (hanalyze : c.analyze unit = (.ok analyzed, diagnostics)) :
    (((Stmt.functionsOf analyzed.statements).map Prod.fst).map Declarations.key).Nodup := by
  obtain ⟨known, -, hremains⟩ := remains_of_analyze hc hanalyze
  exact (((Stmt.perm_heads_nodesOf analyzed.statements).map _).nodup_iff).mpr
    (hunit.distinct.nodup.sublist (hremains.heads.map _))

/-- What becomes of a unit and of the unit with a declaration in another place. -/
structure Alike (c : Compiler) (chunk : Chunk) (unit unit' : SourceUnit) : Prop where
  /-- The analysis of the one reports an error if that of the other does, -/
  hasErrors : hasErrors (c.analyze unit').2 = hasErrors (c.analyze unit).2
  /-- and so does its compilation. -/
  reported : Compiler.hasErrors (c.compile unit' chunk).diagnostics =
    Compiler.hasErrors (c.compile unit chunk).diagnostics
  isEmitted : (c.compile unit' chunk).isEmitted = (c.compile unit chunk).isEmitted
  sameRoutines : (c.compile unit chunk).isEmitted = true →
    (c.compile unit chunk).sink.SameRoutines (c.compile unit' chunk).sink

theorem Alike.symm {chunk : Chunk} (h : c.Alike chunk unit unit') : c.Alike chunk unit' unit where
  hasErrors := h.hasErrors.symm
  reported := h.reported.symm
  isEmitted := h.isEmitted.symm
  sameRoutines hemitted := (h.sameRoutines (h.isEmitted ▸ hemitted)).symm

theorem alike_of_postponed (hc : c.registry = .standard) (horder : c.ReleasesInOneOrder) (hnumbered : unit.Numbered)
    (hnumbered' : unit'.Numbered) (hunit : unit.Hoistable c.symbols)
    (hunit' : unit'.Hoistable c.symbols) (hperm : unit.statements.Perm unit'.statements)
    (hpostponed : Stmt.Postponed unit.statements unit'.statements) (hnextId : unit'.nextId = unit.nextId) (name : String)
    (filePath : Option String) (tempLimit : Option Nat) : c.Alike (Chunk.new name filePath tempLimit) unit unit' := by
  obtain ⟨analyzed, analyzed', diagnostics, diagnostics', hanalyze, hanalyze', hmoved, hlabels, herrors⟩ :=
    exists_analyze_postponed hc hnumbered hunit hpostponed hnextId hunit' hperm
  have hagrees := agreesOn_of_moved hc hnumbered hnumbered' hanalyze hanalyze' hmoved hlabels
  obtain ⟨hemitted, hsame⟩ := emit_moved hc horder (regular_of_analyze hc hanalyze)
    (regular_of_analyze hc hanalyze') hmoved hagrees (nodup_key_of_analyze hc hunit hanalyze) diagnostics diagnostics'
    name filePath tempLimit
  have hcompile {unit : SourceUnit} {analyzed : AnalyzedUnit} {diagnostics : Array Diagnostic}
      (h : c.analyze unit = (.ok analyzed, diagnostics)) (chunk : Chunk) : c.compile unit chunk =
        if hasErrors diagnostics then { result := .ok (analyzed.compiled false), sink := chunk, diagnostics }
        else c.emit analyzed diagnostics chunk := by
    rw [compile, h]
  refine ⟨by rw [hanalyze, hanalyze', herrors], ?_, ?_, ?_⟩
  all_goals
    rw [hcompile hanalyze, hcompile hanalyze', herrors]
    split
  · exact herrors
  · rename_i hclean
    have hclean := Bool.eq_false_iff.mpr hclean
    exact hasErrors_emit_moved hc horder hanalyze hanalyze' hclean (herrors.trans hclean) (regular_of_analyze hc hanalyze)
      (regular_of_analyze hc hanalyze') hmoved hagrees _
  · rfl
  · exact hemitted
  · rintro ⟨⟩
  · exact hsame

/-- **It does not matter where in a unit a function is declared.**  If a declaration is moved, there are errors
if there were errors, the unit is emitted if it was emitted, and its code and that of each function is the same.
This is so if all nodes have different numbers, `unit.Numbered`, and all chains give their slots back in one
order, `c.ReleasesInOneOrder`; for labels with one number see `not_hoisted_sharedLabel`. -/
theorem hoisted (hc : c.registry = .standard) (horder : c.ReleasesInOneOrder) (hnumbered : unit.Numbered)
    (hunit : unit.Hoistable c.symbols) {statements : List Stmt}
    (hrelocated : Stmt.Relocated unit.statements statements) (name : String) (filePath : Option String)
    (tempLimit : Option Nat) : c.Alike (Chunk.new name filePath tempLimit) unit { unit with statements } := by
  have hperm := hrelocated.perm
  have hnodes := Stmt.perm_nodesOf hperm
  have hnumbered' : SourceUnit.Numbered { unit with statements } := (hnodes.map Node.id).nodup_iff.mp hnumbered
  have hunit' := hunit.perm hperm
  rcases hrelocated.postponed with h | h
  · exact alike_of_postponed hc horder hnumbered hnumbered' hunit hunit' hperm h rfl name filePath tempLimit
  · exact (alike_of_postponed hc horder hnumbered' hnumbered hunit' hunit hperm.symm h rfl name filePath
      tempLimit).symm

/-- A function with a parameter that is bound by reference, and a function in it. -/
def nestedDeclaration : Stmt :=
  .function ⟨0, {}⟩ { name := "f", byRef := false, params := [{ name := "a", byRef := true }] }
    [.function ⟨1, {}⟩ { name := "g", byRef := true, params := [] } [] false,
      .echo ⟨2, {}⟩ [.var ⟨3, {}, .none⟩ "a"]] false

/-- A call of the function, and nothing that is executed behind it. -/
def callAndReturn : List Stmt :=
  [.expression ⟨4, {}⟩ (.call ⟨5, {}, .none⟩ "f" [.var ⟨6, {}, .none⟩ "x"]), .jump ⟨7, {}⟩ .return none]

/-- The function is declared ahead of the call. -/
def declaredFirst : SourceUnit :=
  { name := "unit", nextId := 8, span := {}, statements := nestedDeclaration :: callAndReturn }

theorem hoisted_declaredFirst :
    declaredFirst.Numbered ∧ declaredFirst.Hoistable ({} : Compiler).symbols ∧
      Stmt.Relocated declaredFirst.statements (callAndReturn ++ [nestedDeclaration]) ∧
      ({} : Compiler).Alike (Chunk.new "unit" none none) declaredFirst
        { declaredFirst with statements := callAndReturn ++ [nestedDeclaration] } ∧
      (({} : Compiler).compile declaredFirst (Chunk.new "unit" none none)).isEmitted = true := by
  have hnumbered : declaredFirst.Numbered := by
    unfold SourceUnit.Numbered
    decide +kernel
  have hunit : declaredFirst.Hoistable ({} : Compiler).symbols :=
    ⟨⟨by decide +kernel, by decide +kernel⟩, by decide +kernel⟩
  have hrelocated : Stmt.Relocated ([] ++ nestedDeclaration :: callAndReturn)
      (callAndReturn ++ nestedDeclaration :: []) :=
    .mk _ _ _ _ (List.append_nil callAndReturn).symm
  exact ⟨hnumbered, hunit, hrelocated, hoisted rfl (fun _ => rfl) hnumbered hunit hrelocated "unit" none none,
    by decide +kernel⟩

/-! ## Labels with one number -/

/-- A function with a label in a loop that never runs. -/
def hiddenLabel : Stmt :=
  .function ⟨0, {}⟩ { name := "f", byRef := false, params := [] }
    [.loop ⟨1, {}⟩ (.literal ⟨2, {}, .none⟩ (.bool false)) [.label ⟨3, {}⟩ "M"]] false

/-- A `goto` and its label, which has the number of the label in the function. -/
def gotoLabel : List Stmt :=
  [.goto ⟨4, {}⟩ "L", .label ⟨3, {}⟩ "L"]

/-- A unit in which two labels have one number. -/
def sharedLabel (statements : List Stmt) : SourceUnit :=
  { name := "unit", nextId := 5, span := {}, statements }

/-- What is left of the function. -/
def emptyFunction : Stmt :=
  .function ⟨0, {}⟩ { name := "f", byRef := false, params := [] } [.empty ⟨5, {}⟩ .skipped] false

/-- The code of the function. -/
def emptyRoutine : Routine :=
  { name := "f", code := #[.const 0, .ret], constants := #[.null], spans := #[{}, {}] }

theorem hoistable_sharedLabel : (sharedLabel (hiddenLabel :: gotoLabel)).Hoistable ({} : Compiler).symbols :=
  ⟨⟨by decide +kernel, by decide +kernel⟩, by decide +kernel⟩

theorem relocated_sharedLabel : Stmt.Relocated (hiddenLabel :: gotoLabel) (gotoLabel ++ [hiddenLabel]) :=
  show Stmt.Relocated ([] ++ hiddenLabel :: gotoLabel) _ from .mk _ _ _ _ (List.append_nil gotoLabel).symm

section

open Analysis (analyzeStmt analyzeStmts)

variable {cfg : Analysis.Setting} {table : RuleTable}

/-- With a regular table a label is analysed, also if another one has its number. -/
theorem exists_analyzeStmt_label (hcfg : cfg.registry = .standard) (htable : table.Regular) (tag : StmtTag)
    (name : String) : ∃ table', table'.Regular ∧ ∀ s : Analysis.State, s.table = table →
      analyzeStmt cfg (.label tag name) s =
        Analysis.analyzeLabel tag name (.node tag.id) { s.leaveUnreachable with table := table' } := by
  obtain ⟨table', hfound, hregular⟩ := RuleTable.exists_stmt htable .label tag.id
  exact ⟨table', hregular, fun s hs => Analysis.analyzeStmt_label_of_stmt hcfg name (hs ▸ hfound)⟩

/-- Of the function only its declaration is left, but the label in it has got a cell. -/
theorem exists_analyzeStmts_hiddenLabel (hcfg : cfg = ({} : Compiler).unitSetting unit) (htable : table.Regular) :
    ∃ table', table'.Regular ∧ ∀ s : Analysis.State, s.table = table → s.flow = {} → s.nextId = 5 →
      analyzeStmts cfg [hiddenLabel] s = (.ok [emptyFunction],
        { s with nextId := 6, table := table', memory := s.memory.newCell.2.setLabel (.node 3) s.memory.newCell.1 }) := by
  have hstandard : cfg.registry = .standard := hcfg ▸ rfl
  obtain ⟨table', htable', hinner⟩ := exists_analyzeStmt_label hstandard htable ⟨3, {}⟩ "M"
  refine ⟨table', htable', fun s hs hflow hnext => ?_⟩
  have hlabel := hinner (Analysis.State.enterRoutine false s).enterLoop.enterDead hs
  have hloop : analyzeStmt cfg (.loop ⟨1, {}⟩ (.literal ⟨2, {}, .none⟩ (.bool false)) [.label ⟨3, {}⟩ "M"])
      (Analysis.State.enterRoutine false s) = (do
        Analysis.inLoop (Analysis.asDead (analyzeStmts cfg [.label ⟨3, {}⟩ "M"]))
        Analysis.emptyStmt {} .skipped : Analyze Stmt) (Analysis.State.enterRoutine false s) := by
    rw [analyzeStmt, Analysis.ifAlive_of_stmt hstandard rfl rfl rfl, hcfg]
    rfl
  rw [hiddenLabel, analyzeStmts, Pass.bind_apply, analyzeStmt,
    Analysis.ifAlive_of_stmt hstandard rfl (show s.unreachable = false by rw [Analysis.State.unreachable, hflow]) rfl]
  simp only [Pass.bind_apply, Analysis.inLoop, Analysis.asDead, Pass.update_apply, Pass.ensuring_apply,
    Pass.peek_apply, analyzeStmts, hloop, hlabel]
  obtain ⟨nextId, table, memory, diagnostics, flow, scope, enclosing, constants⟩ := s
  cases hflow
  cases hnext
  rfl

/-- The label gets its cell with the `goto`. -/
theorem exists_analyzeStmts_gotoLabel (hcfg : cfg = ({} : Compiler).unitSetting unit) (htable : table.Regular) :
    ∃ table', table'.Regular ∧ ∀ s : Analysis.State, s.table = table → s.flow = {} → s.scope = {} →
      analyzeStmts cfg gotoLabel s = (.ok gotoLabel,
        { s with
          table := table'
          scope := { labels := [("L", ⟨s.memory.newCell.1, some {}, some {}⟩)] }
          memory := (s.memory.newCell.2.markReferenced s.memory.newCell.1).setLabel (.node 3) s.memory.newCell.1 }) := by
  obtain ⟨table', htable', hlabel⟩ :=
    exists_analyzeStmt_label (show cfg.registry = .standard from hcfg ▸ rfl) htable ⟨3, {}⟩ "L"
  refine ⟨table', htable', fun s hs hflow hscope => ?_⟩
  have hgoto : analyzeStmt cfg (.goto ⟨4, {}⟩ "L") s =
      (.ok (.goto ⟨4, {}⟩ "L"), (s.gotoLabel "L" {}).enterUnreachable) := by
    rw [analyzeStmt, Analysis.ifAlive_of_stmt (hcfg ▸ rfl) rfl
      (show s.unreachable = false by rw [Analysis.State.unreachable, hflow]) rfl]
    rfl
  obtain ⟨nextId, table, memory, diagnostics, flow, scope, enclosing, constants⟩ := s
  cases hflow
  cases hscope
  have hbehind := hlabel (Analysis.State.gotoLabel "L" {}
    { nextId, table, memory, diagnostics, enclosing, constants }).enterUnreachable hs
  simp only [gotoLabel, analyzeStmts, Pass.bind_apply, hgoto, hbehind]
  rfl

end

theorem analysisStart_sharedLabel {statements : List Stmt}
    (h : (sharedLabel statements).Hoistable ({} : Compiler).symbols) :
    ({} : Compiler).analysisStart (sharedLabel statements) = { nextId := 5 } := by
  unfold analysisStart
  rw [(Declarations.collect_eq h.distinct).2]
  rfl

/-- The number goes on to stand for the label that is met first. -/
theorem labelReferenced_sharedLabel {memory : RuleMemory} {referenced : Bool}
    (hcells : memory.labels = (RuleMemory.setLabel (RuleMemory.setLabel {} (.node 3) 0) (.node 3) 1).labels)
    (hreferenced : memory.isReferenced 0 = referenced) : memory.labelReferenced (.node 3) = referenced := by
  have hfirst : (RuleMemory.setLabel {} (.node 3) 0).labels[Home.node 3]? = some 0 :=
    RuleMemory.labels_setLabel Std.HashMap.getElem?_empty 0
  have hcell := (RuleMemory.extends_setLabel _ (.node 3) 1).cells hfirst
  rw [RuleMemory.labelReferenced, hcells, hcell]
  exact hreferenced

open Analysis (analyzeStmts) in
/-- If the function is declared first, the label is that in the function, and no `goto` goes to it. -/
theorem exists_analyze_hiddenFirst : ∃ table memory,
    ({} : Compiler).analyze (sharedLabel (hiddenLabel :: gotoLabel)) =
      (.ok { name := "unit", statements := emptyFunction :: gotoLabel, table, memory }, #[]) ∧
    table.Regular ∧ memory.labelReferenced (.node 3) = false := by
  obtain ⟨cfg, hcfg⟩ : ∃ cfg, cfg = ({} : Compiler).unitSetting (sharedLabel (hiddenLabel :: gotoLabel)) := ⟨_, rfl⟩
  obtain ⟨table, htable, hfirst⟩ := exists_analyzeStmts_hiddenLabel hcfg RuleTable.regular_empty
  obtain ⟨table', htable', hsecond⟩ := exists_analyzeStmts_gotoLabel hcfg htable
  obtain ⟨t, hrun, hregular, hcells, hreferenced, hreported⟩ : ∃ t,
      analyzeStmts cfg (hiddenLabel :: gotoLabel) { nextId := 5 } = (.ok (emptyFunction :: gotoLabel), t) ∧
      t.finish.table = table' ∧
      t.finish.memory.labels = (RuleMemory.setLabel (RuleMemory.setLabel {} (.node 3) 0) (.node 3) 1).labels ∧
      t.finish.memory.isReferenced 0 = false ∧ t.finish.diagnostics = #[] := by
    exact ⟨_, Analysis.analyzeStmts_append (hfirst _ rfl rfl rfl) (hsecond _ rfl rfl rfl), rfl, rfl, rfl, rfl⟩
  rw [hcfg, ← analysisStart_sharedLabel hoistable_sharedLabel] at hrun
  exact ⟨_, _, hreported ▸ analyze_of_run hrun, hregular ▸ htable', labelReferenced_sharedLabel hcells hreferenced⟩

open Analysis (analyzeStmts) in
/-- If it is declared last, the label is that behind the `goto`. -/
theorem exists_analyze_hiddenLast : ∃ table memory,
    ({} : Compiler).analyze (sharedLabel (gotoLabel ++ [hiddenLabel])) =
      (.ok { name := "unit", statements := gotoLabel ++ [emptyFunction], table, memory }, #[]) ∧
    table.Regular ∧ memory.labelReferenced (.node 3) = true := by
  obtain ⟨cfg, hcfg⟩ : ∃ cfg, cfg = ({} : Compiler).unitSetting (sharedLabel (gotoLabel ++ [hiddenLabel])) := ⟨_, rfl⟩
  obtain ⟨table, htable, hfirst⟩ := exists_analyzeStmts_gotoLabel hcfg RuleTable.regular_empty
  obtain ⟨table', htable', hsecond⟩ := exists_analyzeStmts_hiddenLabel hcfg htable
  obtain ⟨t, hrun, hregular, hcells, hreferenced, hreported⟩ : ∃ t,
      analyzeStmts cfg (gotoLabel ++ [hiddenLabel]) { nextId := 5 } = (.ok (gotoLabel ++ [emptyFunction]), t) ∧
      t.finish.table = table' ∧
      t.finish.memory.labels = (RuleMemory.setLabel (RuleMemory.setLabel {} (.node 3) 0) (.node 3) 1).labels ∧
      t.finish.memory.isReferenced 0 = true ∧ t.finish.diagnostics = #[] := by
    exact ⟨_, Analysis.analyzeStmts_append (hfirst _ rfl rfl rfl) (hsecond _ rfl rfl rfl), rfl, rfl, rfl, rfl⟩
  rw [hcfg, ← analysisStart_sharedLabel (hoistable_sharedLabel.perm relocated_sharedLabel.perm)] at hrun
  exact ⟨_, _, hreported ▸ analyze_of_run hrun, hregular ▸ htable', labelReferenced_sharedLabel hcells hreferenced⟩

section

open Lowering (lowerStmt lowerStmts)

variable {table : RuleTable} {memory : RuleMemory}

/-- The emission of the unit when some of it has been emitted. -/
def halfway (table : RuleTable) (memory : RuleMemory) (main : Routine) (functions : Array Routine)
    (labels : List (String × Label)) : Lowering.State Chunk :=
  { sink := { main, functions }, table, memory, frame := { labels } }

/-- The `goto` and its label in the code. -/
def gotoRoutine (memory : RuleMemory) : Routine :=
  { name := "unit", code := #[.branch ⟨0⟩], spans := #[{}]
    labels := #[if memory.labelReferenced (.node 3) then some 1 else none] }

theorem lowerStmt_emptyFunction (code : Array Instruction) (spans : Array Span) (marks : Array (Option Nat))
    (labels : List (String × Label)) : lowerStmt ({} : Compiler).loweringSetting emptyFunction
        (halfway table memory { name := "unit", code, spans, labels := marks } #[] labels) =
      (.ok (), halfway table memory { name := "unit", code, spans, labels := marks } #[emptyRoutine] labels) := by
  with_unfolding_all rfl

theorem lowerStmt_goto (functions : Array Routine) : lowerStmt ({} : Compiler).loweringSetting (.goto ⟨4, {}⟩ "L")
      (halfway table memory { name := "unit" } functions []) =
    (.ok (), halfway table memory { name := "unit", code := #[.branch ⟨0⟩], spans := #[{}], labels := #[none] }
      functions [("L", ⟨0⟩)]) := by
  with_unfolding_all rfl

/-- The label behind the `goto` is marked if a `goto` goes to the label that the number stands for. -/
theorem exists_lowerStmts_gotoLabel (memory : RuleMemory) (htable : table.Regular) (functions : Array Routine) :
    ∃ table', ∀ behind, lowerStmts ({} : Compiler).loweringSetting (gotoLabel ++ behind)
        (halfway table memory { name := "unit" } functions []) =
      lowerStmts ({} : Compiler).loweringSetting behind
        (halfway table' memory (gotoRoutine memory) functions [("L", ⟨0⟩)]) := by
  obtain ⟨table', hlabel⟩ := Lowering.exists_lowerStmt_label
    (show ({} : Compiler).loweringSetting.registry = .standard from rfl) htable ⟨3, {}⟩ "L"
  refine ⟨table', fun behind => ?_⟩
  rw [gotoLabel, List.cons_append, lowerStmts, Pass.bind_apply, lowerStmt_goto]
  dsimp only
  rw [List.cons_append, lowerStmts, Pass.bind_apply, hlabel _ rfl, show (halfway _ _ _ _ _).memory = memory from rfl,
    gotoRoutine]
  cases memory.labelReferenced (.node 3) <;> rfl

/-- The code of the unit is the same wherever the function stands, if the same is remembered of the label. -/
theorem emit_sharedLabel (htable : table.Regular) {statements : List Stmt}
    (h : statements = emptyFunction :: gotoLabel ∨ statements = gotoLabel ++ [emptyFunction]) :
    (({} : Compiler).emit { name := "unit", statements, table, memory } #[]
        (Chunk.new "unit" none none)).isEmitted = true ∧
      (({} : Compiler).emit { name := "unit", statements, table, memory } #[]
        (Chunk.new "unit" none none)).sink.main.labels = (gotoRoutine memory).labels := by
  obtain ⟨table', hcode⟩ : ∃ table', lowerStmts ({} : Compiler).loweringSetting statements
      (halfway table memory { name := "unit" } #[] []) =
        (.ok (), halfway table' memory (gotoRoutine memory) #[emptyRoutine] [("L", ⟨0⟩)]) := by
    rcases h with rfl | rfl
    · obtain ⟨table', hbehind⟩ := exists_lowerStmts_gotoLabel memory htable #[emptyRoutine]
      refine ⟨table', ?_⟩
      rw [lowerStmts, Pass.bind_apply, lowerStmt_emptyFunction]
      exact hbehind []
    · obtain ⟨table', hahead⟩ := exists_lowerStmts_gotoLabel memory htable #[]
      refine ⟨table', ?_⟩
      rw [hahead, lowerStmts, Pass.bind_apply, gotoRoutine, lowerStmt_emptyFunction]
      rfl
  have hroutine : Lowering.lowerRoutine ({} : Compiler).loweringSetting statements false
      (({} : Compiler).emissionStart { name := "unit", statements, table, memory } #[] (Chunk.new "unit" none none)) =
      Pass.ensuring (do lowerStmts ({} : Compiler).loweringSetting statements; Lowering.routineEnd false)
        (fun s => { s with frame := {} }) (halfway table memory { name := "unit" } #[] []) := rfl
  rw [Pass.ensuring_apply, Pass.bind_apply, hcode] at hroutine
  unfold emit
  rw [hroutine]
  constructor
  all_goals with_unfolding_all rfl

end

theorem compile_sharedLabel {statements statements' : List Stmt} {table : RuleTable} {memory : RuleMemory}
    (hanalyze : ({} : Compiler).analyze (sharedLabel statements) =
      (.ok { name := "unit", statements := statements', table, memory }, #[])) (htable : table.Regular)
    (h : statements' = emptyFunction :: gotoLabel ∨ statements' = gotoLabel ++ [emptyFunction]) :
    (({} : Compiler).compile (sharedLabel statements) (Chunk.new "unit" none none)).isEmitted = true ∧
      (({} : Compiler).compile (sharedLabel statements) (Chunk.new "unit" none none)).sink.main.labels =
        (gotoRoutine memory).labels := by
  have hcompile : ({} : Compiler).compile (sharedLabel statements) (Chunk.new "unit" none none) =
      ({} : Compiler).emit { name := "unit", statements := statements', table, memory } #[]
        (Chunk.new "unit" none none) := by
    rw [compile, hanalyze]
    exact if_neg (by simp [hasErrors])
  rw [hcompile]
  exact emit_sharedLabel htable h

/-- **It does matter where a function is declared if a label in it has the number of another one.** -/
theorem not_hoisted_sharedLabel :
    (sharedLabel (hiddenLabel :: gotoLabel)).Hoistable ({} : Compiler).symbols ∧
      Stmt.Relocated (hiddenLabel :: gotoLabel) (gotoLabel ++ [hiddenLabel]) ∧
      (({} : Compiler).compile (sharedLabel (hiddenLabel :: gotoLabel)) (Chunk.new "unit" none none)).isEmitted = true ∧
      (({} : Compiler).compile (sharedLabel (hiddenLabel :: gotoLabel)) (Chunk.new "unit" none none)).sink.main.labels =
        #[none] ∧
      (({} : Compiler).compile (sharedLabel (gotoLabel ++ [hiddenLabel])) (Chunk.new "unit" none none)).sink.main.labels =
        #[some 1] ∧
      ¬ ({} : Compiler).Alike (Chunk.new "unit" none none) (sharedLabel (hiddenLabel :: gotoLabel))
        (sharedLabel (gotoLabel ++ [hiddenLabel])) := by
  obtain ⟨table, memory, hanalyze, htable, hreferenced⟩ := exists_analyze_hiddenFirst
  obtain ⟨table', memory', hanalyze', htable', hreferenced'⟩ := exists_analyze_hiddenLast
  obtain ⟨hemitted, hlabels⟩ := compile_sharedLabel hanalyze htable (Or.inl rfl)
  obtain ⟨-, hlabels'⟩ := compile_sharedLabel hanalyze' htable' (Or.inr rfl)
  rw [gotoRoutine, hreferenced] at hlabels
  rw [gotoRoutine, hreferenced'] at hlabels'
  refine ⟨hoistable_sharedLabel, relocated_sharedLabel, hemitted, hlabels, hlabels', fun halike => ?_⟩
  obtain ⟨spans, currentSpan, hmain⟩ := (halike.sameRoutines hemitted).main
  have hsame := congrArg Routine.labels hmain
  dsimp only at hsame
  rw [hlabels, hlabels'] at hsame
  exact absurd hsame (by decide)

end Compiler
end PhpLowering
