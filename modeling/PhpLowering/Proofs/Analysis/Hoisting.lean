import PhpLowering.Proofs.Analysis.Renaming
import PhpLowering.Proofs.Analysis.Stmt
import PhpLowering.Proofs.DeadCode

/-!
# Statements around a function declaration

A function declaration can stand anywhere.  What is analysed behind it goes on as if it were not there, only that
the cells of its labels are taken (`AnalyzesFunction.gap`); and what is analysed in it does not depend on where it stands,
as long as nothing in it has to do with constants (`AnalyzesFunction.twins`).  Together this says what becomes of a
declaration that is moved: `exists_moved`.

With the standard registry every analysis comes to its end, so everything here is about analyses that do.
-/

namespace PhpLowering

theorem Stmt.nodesOf_append (xs ys : List Stmt) : nodesOf (xs ++ ys) = nodesOf xs ++ nodesOf ys := by
  induction xs with
  | nil => rfl
  | cons x rest ih => rw [List.cons_append, nodesOf, ih, nodesOf, List.append_assoc]

namespace Analysis

variable {f : Renaming} {known : Prop} {base base' : Array Diagnostic} {s s' t t' u u' : State} {cfg : Setting}
  {xs xs' xs'' ys ys' body body' body'' : List Stmt} {head : FunctionHead}

namespace Renaming

/-- Every cell stands for itself. -/
def same : Renaming where
  cell := id
  injective := Function.injective_id

/-- Some cells have been given out in between. -/
def gap (n k : Nat) (looked : Nat → Prop) : Renaming where
  cell c := if c < n then c else c + k
  injective c c' h := by
    dsimp only at h
    split at h <;> split at h <;> omega
  looked

/-- The first cells are not looked at, and the others come later. -/
def shift (n k : Nat) (looked : Nat → Prop) : Renaming where
  cell c := c + k
  injective _ _ := Nat.add_right_cancel
  floor := n
  looked

end Renaming

/-- The rules are found as they should, and all cells that have been given are there. -/
abbrev Tidy (s : State) : Prop :=
  Renames .same True #[] #[] s s

theorem tidy_start (nextId : Nat) (diagnostics : Array Diagnostic) : Tidy { nextId, diagnostics } where
  table := RuleTable.regular_empty
  table' := RuleTable.regular_empty
  flow := rfl
  scope := rfl
  cells := nofun
  floor := Nat.le_refl _
  fresh _ := rfl
  referenced _ _ := rfl
  homes _ _ := by rw [Std.HashMap.getElem?_empty]; rfl
  given i _ c hc := by
    rw [Std.HashMap.getElem?_empty] at hc
    exact nomatch hc
  constants _ := rfl
  reports := ⟨diagnostics, (Array.empty_append).symm, (Array.empty_append).symm⟩

theorem Tidy.sound (h : Tidy s) : Sound s :=
  ⟨h.table, fun hlookup => (h.cells _ (mem_of_lookup hlookup)).2⟩

theorem Tidy.enter (h : Tidy s) {table : RuleTable} (ht : table.Regular) (returnsRef : Bool) :
    Tidy (State.enterRoutine returnsRef { s with table }) :=
  (h.withTables ht ht).enterRoutine returnsRef

/-! ## Statements -/

/-- The numbers of the label statements in statements. -/
abbrev labelIds (xs : List Stmt) : List Nat :=
  Node.labelIds (Stmt.nodesOf xs)

/-- The analysis of statements comes to its end. -/
structure Analyzes (cfg : Setting) (xs : List Stmt) (s : State) (xs' : List Stmt) (t : State) : Prop where
  run : analyzeStmts cfg xs s = (.ok xs', t)
  tidy : Tidy t
  contained : Contained s t
  given : ∀ i, t.memory.labels[(Home.node i : Home StmtKind)]?.isSome = true →
    s.memory.labels[(Home.node i : Home StmtKind)]?.isSome = true ∨ i ∈ labelIds xs

/-- Statements are analysed one part after the other. -/
theorem analyzeStmts_append (h : analyzeStmts cfg xs s = (.ok xs', t)) (h' : analyzeStmts cfg ys t = (.ok ys', u)) :
    analyzeStmts cfg (xs ++ ys) s = (.ok (xs' ++ ys'), u) := by
  induction xs generalizing s xs' with
  | nil =>
    cases h
    exact h'
  | cons x rest ih =>
    rw [analyzeStmts] at h
    obtain ⟨x', v, hx, hrest⟩ := (Pass.bind_eq_ok_iff _ _ _ _ _).mp h
    obtain ⟨rest', w, hrun, hpure⟩ := (Pass.bind_eq_ok_iff _ _ _ _ _).mp hrest
    cases hpure
    rw [List.cons_append, analyzeStmts]
    refine (Pass.bind_eq_ok_iff _ _ _ _ _).mpr ⟨x', v, hx, ?_⟩
    exact (Pass.bind_eq_ok_iff _ _ _ _ _).mpr ⟨rest' ++ ys', u, ih hrun, rfl⟩

namespace Analyzes

/-- From related states the same statements come to related states, and what they become has a copy in common. -/
theorem renames (hcfg : cfg.registry = .standard) (h : Analyzes cfg xs s xs' t) (h' : Analyzes cfg xs s' xs'' t')
    (hs : Renames f known base base' s s') (hknown : CertainAll known (Stmt.nodesOf xs)) :
    Renames f known base base' t t' ∧ Stmt.copyOf .plain xs'' = Stmt.copyOf .plain xs' := by
  have : Accord cfg cfg .plain known (Renames f known base base') :=
    accord_renames ⟨rfl, rfl, rfl, fun _ => rfl⟩ hcfg rfl
  obtain ⟨ht, hshape⟩ := agrees_analyzeStmts xs hknown s s' hs
  rw [h.run, h'.run] at ht hshape
  refine ⟨ht, ?_⟩
  rw [← Stmt.copyOf_shapeOf rfl xs'', ← Stmt.copyOf_shapeOf rfl xs']
  exact congrArg (Stmt.copyOf {}) (Except.ok.inj hshape)

theorem append (h : Analyzes cfg xs s xs' t) (h' : Analyzes cfg ys t ys' u) :
    Analyzes cfg (xs ++ ys) s (xs' ++ ys') u where
  run := analyzeStmts_append h.run h'.run
  tidy := h'.tidy
  contained := h.contained.trans h'.contained
  given i hi := by
    rw [labelIds, Stmt.nodesOf_append, Node.labelIds_append, List.mem_append, ← or_assoc]
    exact (h'.given i hi).imp_left (h.given i)

/-- Other label statements have no cell behind the analysis if they had none before. -/
theorem unlabelled (h : Analyzes cfg xs s xs' t) {i : Nat} (hi : i ∉ labelIds xs)
    (hcell : s.memory.labels[(Home.node i : Home StmtKind)]? = none) :
    t.memory.labels[(Home.node i : Home StmtKind)]? = none := by
  rw [← Option.not_isSome_iff_eq_none]
  intro hsome
  rcases h.given i hsome with hgiven | hgiven
  · rw [hcell] at hgiven
    exact nomatch hgiven
  · exact hi hgiven

/-- Nothing is done to the label statements of routines that are behind. -/
theorem labelReferenced (h : Analyzes cfg xs s xs' t) {i : Nat} (hi : i ∉ labelIds xs)
    (hforeign : ∀ c ∈ s.memory.labels[(Home.node i : Home StmtKind)]?, s.Foreign c) :
    t.memory.labelReferenced (.node i) = s.memory.labelReferenced (.node i) := by
  unfold RuleMemory.labelReferenced
  cases hcell : s.memory.labels[(Home.node i : Home StmtKind)]? with
  | some c =>
    rw [h.contained.labels hcell]
    have hsame := (h.contained.foreign c (hforeign c hcell)).2
    show t.memory.isReferenced c = s.memory.isReferenced c
    simp only [RuleMemory.isReferenced, Array.getD_eq_getD_getElem?, hsame]
  | none => rw [h.unlabelled hi hcell]

end Analyzes

/-- **With the standard registry the analysis of statements comes to its end.** -/
theorem exists_analyzes (hcfg : cfg.registry = .standard) (xs : List Stmt) (hs : Tidy s) :
    ∃ xs' t, Analyzes cfg xs s xs' t := by
  obtain ⟨xs', t, hrun, h⟩ := (settles_analyzeStmts hcfg xs s hs.sound).exists_ok
  have : Accord cfg cfg .plain True (Renames .same True #[] #[]) :=
    accord_renames ⟨rfl, rfl, rfl, fun _ => rfl⟩ hcfg rfl
  have htidy := (agrees_analyzeStmts xs (fun _ _ _ => trivial) s s hs).1
  have hcontained := (contained_analyzeStmts cfg xs).run s
  rw [hrun] at htidy hcontained
  exact ⟨xs', t, hrun, htidy, hcontained, h.given⟩

/-! ## Functions -/

/-- The analysis of a function declaration comes to the end of its body in a state, and leaves the routine. -/
structure AnalyzesFunction (cfg : Setting) (head : FunctionHead) (body : List Stmt) (s : State)
    (body' : List Stmt) (u : State) : Prop where
  entered : ∃ table : RuleTable, table.Regular ∧
    Analyzes cfg body (State.enterRoutine head.byRef { s with table }) body' u

/-- **With the standard registry the analysis of a function declaration comes to its end.** -/
theorem exists_analyzesFunction (hcfg : cfg.registry = .standard) (tag : StmtTag) (head : FunctionHead) (body : List Stmt)
    (dead : Bool) (hs : Tidy s) : ∃ body' u,
      AnalyzesFunction cfg head body s body' u ∧
        Analyzes cfg [.function tag head body dead] s [.function tag head body' s.unreachable] u.leaveRoutine := by
  obtain ⟨table, htable, hregular⟩ := RuleTable.exists_stmt hs.table .function tag.id
  obtain ⟨body', u, h⟩ := exists_analyzes hcfg body (hs.enter hregular head.byRef)
  refine ⟨body', u, ⟨table, hregular, h⟩, ?_⟩
  have hrule : onTable (RuleTable.stmt cfg.registry (Stmt.function tag head body dead).kind
      (Stmt.function tag head body dead).id) s =
        (.ok ⟨.function, RuleTable.stmtHome .function tag.id⟩, { s with table }) := by
    show (match RuleTable.stmt cfg.registry .function tag.id s.table with | (r, table) => (r, { s with table })) = _
    rw [hcfg, htable]
  have hrun : analyzeStmt cfg (.function tag head body dead) s =
      (.ok (.function tag head body' s.unreachable), u.leaveRoutine) := by
    rw [analyzeStmt_function_eq, byStmtRule, Pass.bind_apply, hrule]
    show (Pass.ensuring (analyzeStmts cfg body) State.leaveRoutine >>= fun body => pure (Stmt.function tag head body
      s.unreachable)) (State.enterRoutine head.byRef { s with table }) = _
    rw [Pass.bind_apply, Pass.ensuring_apply, h.run]
    rfl
  obtain ⟨xs', t, hanalyzes⟩ := exists_analyzes hcfg [.function tag head body dead] hs
  have hsingle : analyzeStmts cfg [.function tag head body dead] s =
      (.ok [.function tag head body' s.unreachable], u.leaveRoutine) := by
    rw [analyzeStmts, Pass.bind_apply, hrun]
    rfl
  cases hsingle.symm.trans hanalyzes.run
  exact hanalyzes

namespace AnalyzesFunction

theorem leaveRoutine_eq (h : AnalyzesFunction cfg head body s body' u) :
    ∃ diagnostics, u.leaveRoutine =
      { u with diagnostics, scope := s.scope, flow := s.flow, enclosing := s.enclosing } := by
  obtain ⟨table, -, hbody⟩ := h.entered
  have hleave := Analysis.leaveRoutine_eq hbody.contained
  exact hleave

/-- Constants that are not declared in a function are what they were. -/
theorem constants (h : AnalyzesFunction cfg head body s body' u)
    (hplain : ∀ n ∈ Stmt.nodesOf body, n.isConstant = false) :
    u.constants = s.constants := by
  obtain ⟨table, -, hbody⟩ := h.entered
  have : Stable fun t : State => t.constants = s.constants :=
    { alike := fun h _ hconstants => hconstants.trans h, report := fun _ _ _ h => h }
  have hcarries : KeepsAt (fun t : State => t.constants = s.constants) (analyzeStmts cfg body)
      (State.enterRoutine head.byRef { s with table }) :=
    carries_analyzeStmts body _ fun tag name value t hcomes =>
      absurd (hplain _ (hcomes.nodes List.mem_cons_self)) nofun
  exact hcarries.of_run rfl hbody.run

/-- Behind a function declaration there is a gap in the cells, and nothing else is different. -/
theorem gap (h : AnalyzesFunction cfg head body s body' u) (hs : Tidy s)
    (hplain : ∀ n ∈ Stmt.nodesOf body, n.isConstant = false) :
    Renames (.gap s.memory.referenced.size (u.memory.referenced.size - s.memory.referenced.size) (· ∉ labelIds body))
      True s.diagnostics u.leaveRoutine.diagnostics s u.leaveRoutine := by
  have hconstants := h.constants hplain
  obtain ⟨diagnostics, hleave⟩ := h.leaveRoutine_eq
  obtain ⟨table, -, hbody⟩ := h.entered
  have hsize : s.memory.referenced.size ≤ u.memory.referenced.size := hbody.contained.size
  have hbefore {c : Nat} (hc : c < s.memory.referenced.size) (k : Nat) :
      (if c < s.memory.referenced.size then c else k) = c :=
    if_pos hc
  rw [hleave]
  refine
    { table := hs.table, table' := hbody.tidy.table, flow := rfl
      scope := congrArg (Scope.mk _) (renameLabels_of_eq fun p hp => hbefore (hs.cells p hp).2 _).symm
      cells := fun p hp => ⟨Nat.zero_le _, (hs.cells p hp).2⟩
      floor := Nat.zero_le _, fresh := fun i => ?_, referenced := fun c _ => ?_, homes := fun i hi => ?_
      given := fun i _ c hc => ⟨Nat.zero_le _, (hs.given i trivial c hc).2⟩
      constants := fun _ => hconstants
      reports := ⟨#[], Array.append_empty.symm, Array.append_empty.symm⟩ }
  · dsimp only [Renaming.gap]
    rw [if_neg (by omega)]
    omega
  · dsimp only [Renaming.gap]
    by_cases hc : c < s.memory.referenced.size
    · rw [if_pos hc]
      have hsame := getElem?_of_enterRoutine hbody.contained hc
      show u.memory.isReferenced c = s.memory.isReferenced c
      simp only [RuleMemory.isReferenced, Array.getD_eq_getD_getElem?]
      exact congrArg (Option.getD · false) hsame
    · rw [if_neg hc, RuleMemory.isReferenced_of_size_le (Nat.le_of_not_lt hc),
        RuleMemory.isReferenced_of_size_le (by omega)]
  · dsimp only [Renaming.gap]
    cases hcell : s.memory.labels[(Home.node i : Home StmtKind)]? with
    | some c =>
      rw [hbody.contained.labels hcell, Option.map_some, hbefore (hs.given i trivial c hcell).2]
    | none => exact hbody.unlabelled hi hcell

/-- The label statements in a function have cells that no other routine has. -/
theorem foreign (h : AnalyzesFunction cfg head body s body' u) (hs : Tidy s) {c : Nat}
    (hle : s.memory.referenced.size ≤ c) (hlt : c < u.memory.referenced.size) : u.leaveRoutine.Foreign c := by
  obtain ⟨diagnostics, hleave⟩ := h.leaveRoutine_eq
  rw [hleave]
  exact ⟨hlt, fun p hp heq => Nat.not_lt_of_le hle (heq ▸ (hs.cells p hp).2)⟩

/-- **What is analysed in a function does not depend on where it stands.** -/
theorem twins (hcfg : cfg.registry = .standard) (h : AnalyzesFunction cfg head body s body' u)
    (h' : AnalyzesFunction cfg head body s' body'' u') (hs : Tidy s) (hs' : Tidy s')
    (hle : s.memory.referenced.size ≤ s'.memory.referenced.size)
    (hplain : ∀ n ∈ Stmt.nodesOf body, n.isConstant = false)
    (hfresh : ∀ i ∈ labelIds body, s.memory.labels[(Home.node i : Home StmtKind)]? = none)
    (hfresh' : ∀ i ∈ labelIds body, s'.memory.labels[(Home.node i : Home StmtKind)]? = none) :
    Stmt.copyOf .plain body'' = Stmt.copyOf .plain body' ∧
      (∃ more, u.leaveRoutine.diagnostics = s.diagnostics ++ more ∧
        u'.leaveRoutine.diagnostics = s'.diagnostics ++ more) ∧
      ∀ i ∈ labelIds body,
        u'.leaveRoutine.memory.labelReferenced (.node i) = u.leaveRoutine.memory.labelReferenced (.node i) ∧
        (∀ c ∈ u.leaveRoutine.memory.labels[(Home.node i : Home StmtKind)]?, u.leaveRoutine.Foreign c) ∧
        ∀ c ∈ u'.leaveRoutine.memory.labels[(Home.node i : Home StmtKind)]?, u'.leaveRoutine.Foreign c := by
  obtain ⟨diagnostics, hleave⟩ := h.leaveRoutine_eq
  obtain ⟨diagnostics', hleave'⟩ := h'.leaveRoutine_eq
  obtain ⟨table, htable, hbody⟩ := h.entered
  obtain ⟨table', htable', hbody'⟩ := h'.entered
  have hstart : Renames (.shift s.memory.referenced.size (s'.memory.referenced.size - s.memory.referenced.size)
      (· ∈ labelIds body)) False s.diagnostics s'.diagnostics (State.enterRoutine head.byRef { s with table })
      (State.enterRoutine head.byRef { s' with table := table' }) :=
    { table := htable, table' := htable', flow := rfl, scope := rfl, cells := nofun, floor := Nat.le_refl _
      fresh := fun i => by
        show s.memory.referenced.size + i + _ = s'.memory.referenced.size + i
        omega
      referenced := fun c hc => by
        have hc : s.memory.referenced.size ≤ c := hc
        show s'.memory.isReferenced (c + _) = s.memory.isReferenced c
        rw [RuleMemory.isReferenced_of_size_le hc, RuleMemory.isReferenced_of_size_le (by omega)]
      homes := fun i hi => (hfresh' i hi).trans (congrArg (Option.map _) (hfresh i hi)).symm
      given := fun i hi c hc => nomatch (hfresh i hi).symm.trans hc
      constants := nofun
      reports := ⟨#[], Array.append_empty.symm, Array.append_empty.symm⟩ }
  obtain ⟨hend, hcopies⟩ := hbody.renames hcfg hbody' hstart fun n hn hconstant =>
    absurd ((hplain n hn).symm.trans hconstant) nofun
  refine ⟨hcopies, ?_, fun i hi => ?_⟩
  · have hreports := hend.reportUndefined.reports
    rwa [leaveRoutine_of_enclosing hbody.contained.enclosing, leaveRoutine_of_enclosing hbody'.contained.enclosing]
  · have hsame := hend.labelReferenced hi
    have hgiven := hend.given i hi
    have hhomes := hend.homes i hi
    refine ⟨by rw [hleave, hleave']; exact hsame, fun c hc => ?_, fun c hc => ?_⟩
    · rw [hleave] at hc
      obtain ⟨hfloor, hlt⟩ := hgiven c hc
      exact h.foreign hs hfloor hlt
    · rw [hleave'] at hc
      obtain ⟨c, hcell, rfl⟩ := Option.map_eq_some_iff.mp (hhomes.symm.trans hc)
      obtain ⟨hfloor, hlt⟩ := hgiven c hcell
      have hfloor : s.memory.referenced.size ≤ c := hfloor
      refine h'.foreign hs' ?_ (hend.lt hlt)
      show s'.memory.referenced.size ≤ c + _
      omega

end AnalyzesFunction

/-! ## A declaration that is moved -/

/-- **A function declaration can be moved.**  The analysis of a unit leaves the same tree as before with the
declaration in its new place, the same labels are gone to, and there are errors if there were errors. -/
theorem exists_moved (hcfg : cfg.registry = .standard) (before between behind : List Stmt) (tag : StmtTag)
    (head : FunctionHead) (body : List Stmt) (dead : Bool) (hs : Tidy s) (henclosing : s.enclosing = [])
    (hempty : ∀ i, s.memory.labels[(Home.node i : Home StmtKind)]? = none)
    (hnodup : (labelIds (before ++ .function tag head body dead :: (between ++ behind))).Nodup)
    (hplain : ∀ n ∈ Stmt.nodesOf body, n.isConstant = false) :
    ∃ xs ys t u, analyzeStmts cfg (before ++ .function tag head body dead :: (between ++ behind)) s = (.ok xs, t) ∧
      analyzeStmts cfg (before ++ (between ++ .function tag head body dead :: behind)) s = (.ok ys, u) ∧
      Stmt.Moved xs ys ∧
      (∀ i, u.finish.memory.labelReferenced (.node i) = t.finish.memory.labelReferenced (.node i)) ∧
      u.finish.diagnostics.any Diagnostic.isError = t.finish.diagnostics.any Diagnostic.isError := by
  have hids : labelIds (before ++ .function tag head body dead :: (between ++ behind)) =
      labelIds before ++ (labelIds body ++ (labelIds between ++ labelIds behind)) := by
    simp only [labelIds, Stmt.nodesOf_append, Stmt.nodesOf, Stmt.nodes, Node.labelIds_append]
    rfl
  rw [hids] at hnodup
  obtain ⟨-, hrest, hbefore⟩ := List.nodup_append.mp hnodup
  obtain ⟨-, -, hdisjoint⟩ := List.nodup_append.mp hrest
  obtain ⟨before', p, hP⟩ := exists_analyzes hcfg before hs
  obtain ⟨body₁, v, hbody, hF⟩ := exists_analyzesFunction hcfg tag head body dead hP.tidy
  obtain ⟨between₁, w, hM⟩ := exists_analyzes hcfg between hF.tidy
  obtain ⟨behind₁, t, hQ⟩ := exists_analyzes hcfg behind hM.tidy
  -- the same without the declaration, and with the declaration in its new place
  obtain ⟨between₂, m, hM₂⟩ := exists_analyzes hcfg between hP.tidy
  obtain ⟨behind₀, q, hQ₀⟩ := exists_analyzes hcfg behind hM₂.tidy
  obtain ⟨body₂, v₂, hbody₂, hF₂⟩ := exists_analyzesFunction hcfg tag head body dead hM₂.tidy
  obtain ⟨behind₂, u, hQ₂⟩ := exists_analyzes hcfg behind hF₂.tidy
  obtain ⟨hwm, hbetween⟩ := hM₂.renames hcfg hM (hbody.gap hP.tidy hplain) fun _ _ _ => trivial
  obtain ⟨hqt, hbehind⟩ := hQ₀.renames hcfg hQ hwm fun _ _ _ => trivial
  obtain ⟨hqu, hbehind₂⟩ := hQ₀.renames hcfg hQ₂ (hbody₂.gap hM₂.tidy hplain) fun _ _ _ => trivial
  have hfresh (i : Nat) (hi : i ∈ labelIds body) : p.memory.labels[(Home.node i : Home StmtKind)]? = none :=
    hP.unlabelled (fun hmem => hbefore i hmem i (List.mem_append_left _ hi) rfl) (hempty i)
  have hfresh₂ (i : Nat) (hi : i ∈ labelIds body) : m.memory.labels[(Home.node i : Home StmtKind)]? = none :=
    hM₂.unlabelled (fun hmem => hdisjoint i hi i (List.mem_append_left _ hmem) rfl) (hfresh i hi)
  obtain ⟨hbodies, ⟨more, hv, hv₂⟩, hlabels⟩ :=
    hbody.twins hcfg hbody₂ hP.tidy hM₂.tidy hM₂.contained.size hplain hfresh hfresh₂
  have hrun := (hP.append (hF.append (hM.append hQ)))
  have hrun₂ := (hP.append (hM₂.append (hF₂.append hQ₂)))
  have hfinish {xs xs' : List Stmt} {t : State} (h : Analyzes cfg xs s xs' t) : t.finish = t.reportUndefined := by
    simp only [State.finish, h.contained.enclosing, henclosing, List.foldl_nil]
  have hmemory (t : State) : t.reportUndefined.memory = t.memory := by
    obtain ⟨diagnostics, heq⟩ := exists_reportUndefined_eq t
    rw [heq]
  have hmoved := Stmt.Moved.mk before' tag head p.unreachable m.unreachable hbodies hbetween.symm
    (hbehind₂.trans hbehind.symm)
  refine ⟨_, _, t, u, hrun.run, hrun₂.run, hmoved, fun i => ?_, ?_⟩
  · rw [hfinish hrun, hfinish hrun₂, hmemory, hmemory]
    by_cases hi : i ∈ labelIds body
    · obtain ⟨hsame, hforeign, hforeign₂⟩ := hlabels i hi
      have hother : i ∉ labelIds (between ++ behind) := by
        rw [labelIds, Stmt.nodesOf_append, Node.labelIds_append]
        exact fun hmem => hdisjoint i hi i hmem rfl
      have hbehind : i ∉ labelIds behind := fun hmem => hdisjoint i hi i (List.mem_append_right _ hmem) rfl
      rw [(hM.append hQ).labelReferenced hother hforeign, hQ₂.labelReferenced hbehind hforeign₂, hsame]
    · rw [hqt.labelReferenced hi, hqu.labelReferenced hi]
  · rw [hfinish hrun, hfinish hrun₂]
    obtain ⟨later, hq, ht⟩ := hqt.reportUndefined.reports
    obtain ⟨later₂, hq₂, hu⟩ := hqu.reportUndefined.reports
    have hany := congrArg (Array.any · Diagnostic.isError) (hq.symm.trans hq₂)
    simp only [Array.any_append] at hany
    rw [ht, hu, hv, hv₂]
    simp only [Array.any_append]
    rw [Bool.or_right_comm, ← hany, Bool.or_right_comm]

end Analysis
end PhpLowering
