import PhpLowering.Proofs.Identity
import PhpLowering.Proofs.Lowering.Reads
import PhpLowering.Proofs.Lowering.Stretches
import PhpLowering.Proofs.Resolution

/-!
# How large new arrays are

An array is created with room for the keys that the analysis has counted in the literal.  They are counted under
the number of the node, and the emission asks for them by it.  So nothing must be counted twice, or under the
number of another literal, however literals are nested (`Compiler.keyCount_of_analyze`).

**`Compiler.capacities_of_emitted`**: the capacities of every array are those of a literal, and the array that is
created for a literal has the capacities of that literal.
-/

namespace PhpLowering

/-! ## Keys -/

/-- Whether an element of an array literal is counted as one with an integer key. -/
def ArrayElement.isInteger (element : ArrayElement) : Bool :=
  keyIsInteger element.key?

theorem ArrayElement.countP_add_countP (elements : List ArrayElement) :
    elements.countP isInteger + elements.countP (fun element => !element.isInteger) = elements.length := by
  rw [elements.length_eq_countP_add_countP isInteger]
  simp

/-- The keys of a literal are counted by their kinds. -/
theorem KeyCount.addAll_eq (elements : List ArrayElement) :
    KeyCount.addAll {} elements =
      ⟨elements.countP ArrayElement.isInteger, elements.countP fun element => !element.isInteger⟩ := by
  have haddAll (es : List ArrayElement) (n : KeyCount) : n.addAll es =
      ⟨n.integers + es.countP ArrayElement.isInteger, n.others + es.countP fun element => !element.isInteger⟩ := by
    induction es generalizing n with
    | nil => rfl
    | cons element rest ih =>
      have hkind : element.isInteger = keyIsInteger element.key? := rfl
      rw [KeyCount.addAll_cons, ih, List.countP_cons, List.countP_cons, hkind, KeyCount.add]
      cases keyIsInteger element.key? <;> simp <;> omega
  rw [haddAll]
  simp only [Nat.zero_add]

namespace Lowering

/-! ## The code of a literal -/

open Pass (Ends)

variable {cfg : Setting} {M : RuleMemory} {i : Instruction} {R : Bool → ReadOrder} {α β : Type} {use : Use}
  {elements : Emit Chunk Unit}

/-- The first instruction of what a step adds is `i`, if the rules remember `M`. -/
def StartsWith (M : RuleMemory) (i : Instruction) (x : Emit Chunk α) : Prop :=
  ∀ s, s.memory = M →
    Ends x s (fun _ t => ∃ added, t.active.code.toList = s.active.code.toList ++ i :: added) anyFailure

theorem StartsWith.seq {x : Emit Chunk α} {f : α → Emit Chunk β} (hx : StartsWith M i x) (hf : ∀ a, Hears R (f a)) :
    StartsWith M i (x >>= f) := by
  intro s hs
  refine (hx s hs).bind ?_
  rintro a t ⟨added, ht⟩
  refine (hf a t).mono ?_
  rintro _ u ⟨-, _, ⟨more, hu, -⟩, -⟩
  exact ⟨added ++ more, by rw [hu, ht, List.append_assoc, List.cons_append]⟩

theorem startsWith_arrayValue (access : Access) (home : Home ExprKind) (helements : Hears R elements) :
    StartsWith M (.newArray (M.keyCount home).integers (M.keyCount home).others) (arrayValue access home elements) := by
  have hnew : StartsWith M (.newArray (M.keyCount home).integers (M.keyCount home).others) (newArray home) := by
    rintro s rfl
    refine (ends_emit (.newArray (s.memory.keyCount home).integers (s.memory.keyCount home).others) s).mono ?_
    rintro _ _ rfl
    rw [State.active_withActive]
    exact ⟨[], Array.toList_push ..⟩
  rw [arrayValue_eq]
  exact hnew.seq fun _ => helements.behind

theorem startsWith_valueCode {kind : ExprKind} {value : Emit Chunk TypeCode} (h : StartsWith M i value) (use : Use) :
    StartsWith M i (valueCode kind value use) := by
  cases use with
  | value => exact h
  | arrayForWrite | containerRead => exact h.seq fun code => (inferInstance : Mute (box code)).hears
  | prepare | load | store | loadRef | unset => exact fun _ _ => .fail trivial

/-- The code that the rule of a node gives to it, with the place in the memory that its entry says. -/
theorem startsWith_byRule {kind : ExprKind} {tag : ExprTag} {code : Home ExprKind → Code Chunk}
    (h : ∀ entry, cfg.registry.expr kind = some entry → StartsWith M i (code (entry.exprHandle kind tag.id).home use)) :
    StartsWith M i (byRule cfg kind tag code use) := by
  intro s hs
  unfold byRule
  have hrule : Ends (onTable (RuleTable.expr cfg.registry kind tag.id)) s (fun handle t =>
      (∃ entry, cfg.registry.expr kind = some entry ∧ handle = entry.exprHandle kind tag.id) ∧
        t.memory = s.memory ∧ t.active = s.active) anyFailure := by
    refine .intro (fun handle t hrun => ?_) fun _ _ _ => trivial
    unfold onTable at hrun
    rcases hask : RuleTable.expr cfg.registry kind tag.id s.table with ⟨_ | found, table⟩ <;> rw [hask] at hrun
    · cases hrun
    · cases hrun
      exact ⟨RuleTable.exists_entry_of_ok (congrArg Prod.fst hask), rfl, rfl⟩
  refine hrule.bind ?_
  rintro _ t ⟨⟨entry, hentry, rfl⟩, hmemory, hactive⟩
  show Ends (if entry.rule = kind then _ else wrongRuleCode entry.rule kind tag.access use) t _ _
  split
  · refine (h entry hentry t (hmemory.trans hs)).mono ?_
    rw [hactive]
    exact fun _ _ h => h
  · exact ends_wrongRuleCode _ _ _ _

/-- **The code of an array literal begins with the creation of the array**, with room for the keys that are
remembered of the literal. -/
theorem startsWith_array (hcfg : cfg.registry = .standard) (tag : ExprTag) (elements : List ArrayElement) (use : Use) :
    StartsWith M (.newArray (M.keyCount (.node tag.id)).integers (M.keyCount (.node tag.id)).others)
      (lower cfg (.array tag elements) use) := by
  rw [lower]
  refine startsWith_byRule fun entry hentry => startsWith_valueCode ?_ use
  rw [hcfg] at hentry
  cases hentry
  exact startsWith_arrayValue tag.access (.node tag.id) (hears_storeElements cfg elements)

/-! ## Literals that are emitted -/

section

open RuleTable (exprHome)

variable {n m l : Nat} {a : α} {b : β} {code code' : TypeCode}

theorem emit_ok {i : Instruction} (hi : i.target? = none) (s : State Chunk) :
    (emit i : Emit Chunk Unit) s = (.ok (), s.withActive (s.active.push i)) := by
  have hrun : Routine.emit i s.active = (.ok (), s.active.push i) := by
    unfold Routine.emit
    rw [hi]
  exact toSink_ok hrun

theorem routineCode_apply (body : Emit Chunk Unit) (s : State Chunk) : routineCode false body s =
    Pass.ensuring (do body; routineEnd false) (fun t => { t with frame := s.frame })
      { s with frame := { returnsRef := false } } := by
  rfl

/-- A step comes to its end with an answer wherever the constant pool has room for `n` more constants. -/
def Affords (n : Nat) (a : α) (x : Emit Chunk α) : Prop :=
  ∀ s : State Chunk, s.table.Regular → s.active.constants.size + n ≤ Routine.maxConstants →
    ∃ t, x s = (.ok a, t) ∧ t.table.Regular ∧ t.frame = s.frame ∧
      t.active.constants.size ≤ s.active.constants.size + n

theorem Affords.bind {x : Emit Chunk α} {f : α → Emit Chunk β} (hx : Affords n a x) (hf : Affords m b (f a))
    (h : n + m ≤ l) : Affords l b (x >>= f) := by
  intro s hs hroom
  obtain ⟨t, hrun, ht, hframe, hsize⟩ := hx s hs (by omega)
  obtain ⟨u, hrun', hu, hframe', hsize'⟩ := hf t ht (by omega)
  exact ⟨u, (Pass.bind_of_ok hrun).trans hrun', hu, hframe'.trans hframe, by omega⟩

theorem Affords.pure (a : α) : Affords 0 a (Pure.pure a) :=
  fun s hs _ => ⟨s, rfl, hs, rfl, Nat.le_refl _⟩

theorem affords_emit {i : Instruction} (hi : i.target? = none) : Affords 0 () (emit i) :=
  fun s hs _ => ⟨_, emit_ok hi s, hs, rfl, by rw [State.active_withActive]; exact Nat.le_refl _⟩

theorem affords_pushLiteral (v : Literal) : Affords 1 (.ofLiteral v) (pushLiteral v) := by
  intro s hs hroom
  obtain ⟨k, r, hpool, hsize⟩ : ∃ k r, s.active.addConstant v = (.ok k, r) ∧ r.constants.size ≤ s.active.constants.size + 1 := by
    unfold Routine.addConstant
    cases s.active.constants.findIdx? (· == v) with
    | some k => exact ⟨k, _, rfl, Nat.le_succ _⟩
    | none => exact ⟨_, _, if_pos (Nat.lt_of_succ_le hroom), Nat.le_of_eq (Array.size_push v)⟩
  have hfiled : (toSink (Sink.addConstant v) : Emit Chunk Nat) s = (.ok k, s.withActive r) := toSink_ok hpool
  refine ⟨(s.withActive r).withActive (r.push (.const k)), ?_, hs, rfl, ?_⟩
  · unfold pushLiteral
    rw [Pass.bind_of_ok hfiled, Pass.bind_of_ok (emit_ok rfl _), State.active_withActive]
    rfl
  · rw [State.active_withActive]
    exact hsize

theorem affords_box (h : code.isValue = true) :
    Affords 0 (if code.isPrimitive then .object else code) (box code) := by
  unfold box
  cases code.isPrimitive with
  | true => exact (affords_emit (i := .box code) rfl).bind (.pure TypeCode.object) (Nat.le_refl 0)
  | false =>
    rw [if_neg Bool.false_ne_true, if_neg Bool.false_ne_true, if_pos h]
    exact .pure code

theorem affords_boxed {x : Code Chunk} (hx : Affords n code (x .value)) (h : code.isValue = true) :
    Affords n (if code.isPrimitive then .object else code) (boxed x) :=
  hx.bind (affords_box h) (Nat.le_refl n)

/-- The rule for a node is found in a regular table. -/
theorem affords_byRule (hcfg : cfg.registry = .standard) {kind : ExprKind} {tag : ExprTag}
    {x : Home ExprKind → Code Chunk} {use : Use} (hx : Affords n code (x (exprHome kind tag.id) use)) :
    Affords n code (byRule cfg kind tag x use) := by
  intro s hs hroom
  obtain ⟨table, hfound, hregular⟩ := RuleTable.exists_expr hs kind tag.id
  have hrule : (onTable (RuleTable.expr cfg.registry kind tag.id) : Emit Chunk (Handle ExprKind)) s =
      (.ok ⟨kind, exprHome kind tag.id⟩, { s with table }) := by
    rw [hcfg]
    exact onTable_ok hfound
  obtain ⟨t, hrun, ht⟩ := hx { s with table } hregular hroom
  refine ⟨t, ?_, ht⟩
  unfold byRule
  rw [Pass.bind_of_ok hrule, if_pos rfl]
  exact hrun

theorem affords_literal (hcfg : cfg.registry = .standard) (id : Nat) (span : Span) (v : Literal) :
    Affords 1 (.ofLiteral v) (lower cfg (.literal ⟨id, span, .read⟩ v) .value) := by
  rw [lower]
  exact affords_byRule hcfg (affords_pushLiteral v)

theorem affords_var (hcfg : cfg.registry = .standard) (id : Nat) (span : Span) (name : String) :
    Affords 0 .object (lower cfg (.var ⟨id, span, .read⟩ name) .value) := by
  rw [lower]
  exact affords_byRule hcfg ((affords_emit (i := .loadVar name) rfl).bind (.pure TypeCode.object) (Nat.le_refl 0))

theorem affords_unlessDropped (access : Access) (h : code.isValue = true) :
    Affords 0 (if access = .none then .void else code) (unlessDropped access code) := by
  unfold unlessDropped
  split
  · unfold discard
    rw [if_pos h]
    exact (affords_emit (i := .pop) rfl).bind (.pure TypeCode.void) (Nat.le_refl 0)
  · exact .pure code

/-- A literal needs the room that its elements need. -/
theorem affords_array (hcfg : cfg.registry = .standard) (tag : ExprTag) {elements : List ArrayElement}
    (helements : Affords n () (storeElements cfg elements)) :
    Affords n (if tag.access = .none then .void else .arrayHandle) (lower cfg (.array tag elements) .value) := by
  have hnew (home : Home ExprKind) : Affords 0 () (newArray home : Emit Chunk Unit) := fun s =>
    affords_emit (i := .newArray (s.memory.keyCount home).integers (s.memory.keyCount home).others) rfl s
  rw [lower]
  refine affords_byRule hcfg ?_
  show Affords n _ (arrayValue tag.access (.node tag.id) (storeElements cfg elements))
  rw [arrayValue_eq]
  exact (hnew _).bind (helements.bind (affords_unlessDropped tag.access rfl) (Nat.le_refl n)) (Nat.zero_add n).le

theorem affords_valueToStore (value : Expr) {x : Code Chunk} (hx : Affords n code (x .value)) (h : code.isValue = true) :
    Affords n () (valueToStore value x) := by
  refine (affords_boxed hx h).bind (m := 0) ?_ (Nat.le_refl n)
  cases value.isPlace && TypeCode.mayBeArray _ with
  | true => exact affords_emit (i := .call .deepCopy) rfl
  | false => exact .pure ()

theorem affords_plain {value : Expr} (hvalue : Affords n code (lower cfg value .value)) (h : code.isValue = true)
    {span : Span} {rest : List ArrayElement} (hrest : Affords m () (storeElements cfg rest)) :
    Affords (n + m) () (storeElements cfg (.plain span value :: rest)) := by
  have hstore : Affords n () (storePlain value (lower cfg value)) :=
    (affords_emit (i := .dup) rfl).bind
      ((affords_valueToStore value hvalue h).bind (affords_emit (i := .call .append) rfl) (Nat.le_refl n)) (by omega)
  rw [storeElements]
  exact hstore.bind hrest (Nat.le_refl _)

theorem affords_keyed {key value : Expr} (hkey : Affords n code (lower cfg key .value)) (hcode : code.isValue = true)
    (hvalue : Affords m code' (lower cfg value .value)) (hcode' : code'.isValue = true)
    {span : Span} {rest : List ArrayElement} (hrest : Affords l () (storeElements cfg rest)) :
    Affords (n + m + l) () (storeElements cfg (.keyed span key value :: rest)) := by
  have hstore : Affords (n + m) () (storeKeyed (lower cfg key) value (lower cfg value)) :=
    (affords_emit (i := .dup) rfl).bind ((affords_boxed hkey hcode).bind
      ((affords_valueToStore value hvalue hcode').bind (affords_emit (i := .call .setItem) rfl) (Nat.le_refl m))
      (Nat.le_refl _)) (by omega)
  rw [storeElements]
  exact hstore.bind hrest (Nat.le_refl _)

/-- A routine in which nobody returns can be ended. -/
theorem routineEnd_ok {s : State Chunk} (hs : s.table.Regular) (hframe : s.frame = {})
    (hroom : s.active.constants.size < Routine.maxConstants) : ∃ t, routineEnd false s = (.ok (), t) := by
  obtain ⟨t, hnull, -, hsame, -⟩ := affords_pushLiteral .null s hs hroom
  have hret := emit_ok (i := .ret) rfl t
  unfold routineEnd
  rw [if_neg Bool.false_ne_true]
  simp only [Pass.bind_apply, hnull, frame, Pass.peek_apply, hsame, hframe, hret]
  exact ⟨_, rfl⟩

theorem affords_discarded {x : Emit Chunk TypeCode} (hx : Affords n code x) :
    Affords n () (do let _ ← discard (← x)) := by
  have hdiscard : Affords 0 TypeCode.void (discard code) := by
    unfold discard
    cases code.isValue with
    | true => exact (affords_emit (i := .pop) rfl).bind (.pure TypeCode.void) (Nat.le_refl 0)
    | false => exact .pure TypeCode.void
  exact hx.bind (hdiscard.bind (.pure ()) (Nat.le_refl 0)) (Nat.le_refl n)

theorem affords_reporting {x : Emit Chunk Unit} (hx : Affords n () x) (span : Span) : Affords n () (reporting span x) := by
  intro s hs hroom
  obtain ⟨t, hrun, ht⟩ := hx s hs hroom
  refine ⟨t, ?_, ht⟩
  unfold reporting
  rw [hrun]

end

end Lowering

namespace Compiler

open Analysis (analyzeStmts)

variable {c : Compiler} {unit : SourceUnit} {analyzed : AnalyzedUnit} {diagnostics : Array Diagnostic}

/-! ## Emitted units -/

/-- The arrays that a chunk creates, compared with the literals of a unit. -/
structure Capacities (c : Compiler) (analyzed : AnalyzedUnit) (chunk : Chunk) : Prop where
  /-- Every array is created with the capacities of a literal in the tree: as many elements with an integer key, or
  with none, as the literal has, and as many others. -/
  literal : ∀ r ∈ chunk.routines, ∀ {integers others : Nat}, .newArray integers others ∈ r.code →
    ∃ tag elements, .expr (.array tag elements) ∈ Stmt.nodesOf analyzed.statements ∧
      integers = elements.countP ArrayElement.isInteger ∧
      others = elements.countP (fun element => !element.isInteger) ∧ integers + others = elements.length
  /-- The code of a literal in the tree begins with the creation of an array that has the capacities of this
  literal, wherever it is emitted and for whatever use. -/
  own : ∀ {tag : ExprTag} {elements : List ArrayElement},
    .expr (.array tag elements) ∈ Stmt.nodesOf analyzed.statements →
      ∀ {use : Lowering.Use} {s t : Lowering.State Chunk} {code : TypeCode}, s.memory = analyzed.memory →
        Lowering.lower c.loweringSetting (.array tag elements) use s = (.ok code, t) →
          ∃ added, t.active.code.toList = s.active.code.toList ++
            .newArray (elements.countP ArrayElement.isInteger) (elements.countP fun element => !element.isInteger) ::
              added

/-- **Every array is created with room for the elements of its literal**, whatever other literals there are around it,
in it and elsewhere in the unit. -/
theorem capacities_of_emitted (hc : c.registry = .standard) (hnumbered : unit.Numbered) {name : String}
    {filePath : Option String} {tempLimit : Option Nat}
    (h : (c.compile unit (Chunk.new name filePath tempLimit)).isEmitted = true) :
    ∃ analyzed diagnostics, c.analyze unit = (.ok analyzed, diagnostics) ∧
      c.Capacities analyzed (c.compile unit (Chunk.new name filePath tempLimit)).sink := by
  obtain ⟨analyzed, diagnostics, hanalyze, -, hemit⟩ := emit_of_isEmitted h
  rw [hemit] at h ⊢
  have hkeys {tag : ExprTag} {elements : List ArrayElement}
      (hmem : .expr (.array tag elements) ∈ Stmt.nodesOf analyzed.statements) :
      analyzed.memory.keyCount (.node tag.id) =
        ⟨elements.countP ArrayElement.isInteger, elements.countP fun element => !element.isInteger⟩ :=
    (keyCount_of_analyze hc hnumbered hanalyze hmem).trans (KeyCount.addAll_eq elements)
  refine ⟨analyzed, diagnostics, hanalyze, fun r hr integers others hi => ?_, fun hmem use s t code hs hrun => ?_⟩
  · let Counted (i : Instruction) : Prop := ∀ keys, i.capacity? = some keys →
      ∃ tag elements, .expr (.array tag elements) ∈ Stmt.nodesOf analyzed.statements ∧
        keys = ⟨elements.countP ArrayElement.isInteger, elements.countP fun element => !element.isInteger⟩
    have hlenient : Lenient Counted := by
      refine ⟨fun _ hplain keys hcapacity => ?_⟩
      rw [hplain] at hcapacity
      cases hcapacity
    have hcode := codeIn_of_emit (I := Counted) (fun n hn => ?_) h r hr _ hi ⟨integers, others⟩ rfl
    · obtain ⟨tag, elements, hmem, heq⟩ := hcode
      obtain ⟨rfl, rfl⟩ := KeyCount.mk.inj heq
      exact ⟨tag, elements, hmem, rfl, rfl, ArrayElement.countP_add_countP elements⟩
    · cases n with
      | stmt => trivial
      | expr e =>
        cases e with
        | array tag elements =>
          rintro entry hentry _ _ ⟨⟩
          rw [show c.loweringSetting.registry = .standard from hc] at hentry
          cases hentry
          exact ⟨tag, elements, hn, hkeys hn⟩
        | call => rintro _ ⟨⟩
        | _ => trivial
  · have hstandard : c.loweringSetting.registry = .standard := hc
    have hends := (Lowering.startsWith_array hstandard _ _ use s hs).of_ok hrun
    rwa [hkeys hmem] at hends

/-! ## A literal in another one -/

section

open Analysis (analyzeElements)

/-- The literal `[$x, 1 => $y]`. -/
def innerLiteral : Expr :=
  .array ⟨3, {}, .read⟩
    [.plain {} (.var ⟨4, {}, .read⟩ "x"), .keyed {} (.literal ⟨5, {}, .read⟩ (.int 1)) (.var ⟨6, {}, .read⟩ "y")]

/-- The literal `["a" => [$x, 1 => $y], $z]`. -/
def nestedLiteral : Expr :=
  .array ⟨1, {}, .none⟩
    [.keyed {} (.literal ⟨2, {}, .read⟩ (.string "a")) innerLiteral, .plain {} (.var ⟨7, {}, .read⟩ "z")]

/-- A unit that consists of the literal. -/
def nestedUnit : SourceUnit :=
  { name := "unit", nextId := 8, span := {}, statements := [.expression ⟨0, {}⟩ nestedLiteral] }

/-- With a regular table a literal is analysed element by element. -/
theorem exists_analyze_array {cfg : Analysis.Setting} (hcfg : cfg.registry = .standard) {table : RuleTable}
    (htable : table.Regular) (tag : ExprTag) (elements : List ArrayElement) (access : Access) :
    ∃ table', table'.Regular ∧ ∀ s : Analysis.State, s.table = table →
      Analysis.analyze cfg (.array tag elements) access s =
        (do return .residual (.array { tag with access } (← analyzeElements cfg elements (.node tag.id))) :
          Analyze Evaluation) { s with table := table' } := by
  obtain ⟨table', hfound, hregular⟩ := RuleTable.exists_expr htable .array tag.id
  refine ⟨table', hregular, fun s hs => ?_⟩
  have hrule : Analysis.onTable (RuleTable.expr cfg.registry .array tag.id) s =
      (.ok ⟨.array, .node tag.id⟩, { s with table := table' }) := by
    unfold Analysis.onTable
    rw [hcfg, hs, hfound]
    rfl
  rw [Analysis.analyze, Analysis.byRule, Pass.bind_apply]
  dsimp only [Expr.kind, Expr.id, Expr.tag]
  rw [hrule]
  rfl

theorem kept_var {cfg : Analysis.Setting} (hcfg : cfg.registry = .standard) (tag : ExprTag) (name : String)
    (access : Access) (s : Analysis.State) : Analysis.kept (Analysis.analyze cfg (.var tag name) access) s =
      (.ok (.var { tag with access } name), s) := by
  rw [Analysis.kept, Pass.bind_apply, Analysis.analyze, Analysis.byRule, Pass.bind_apply, Analysis.onTable, hcfg]
  rfl

theorem kept_literal {cfg : Analysis.Setting} (hcfg : cfg.registry = .standard) (tag : ExprTag) (v : Literal)
    (access : Access) (s : Analysis.State) : Analysis.kept (Analysis.analyze cfg (.literal tag v) access) s =
      (.ok (.literal { tag with access } v), s) := by
  rw [Analysis.kept, Pass.bind_apply, Analysis.analyze, Analysis.byRule, Pass.bind_apply, Analysis.onTable, hcfg]
  rfl

/-- The two literals are analysed, and their keys are counted. -/
theorem exists_analyze_nestedLiteral {cfg : Analysis.Setting} (hcfg : cfg.registry = .standard) {s : Analysis.State}
    (hs : s.table.Regular) : ∃ table memory, table.Regular ∧
      Analysis.analyze cfg nestedLiteral .none s = (.ok (.residual nestedLiteral), { s with table, memory }) := by
  obtain ⟨table, htable, houter⟩ := exists_analyze_array hcfg hs ⟨1, {}, .none⟩
    [.keyed {} (.literal ⟨2, {}, .read⟩ (.string "a")) innerLiteral, .plain {} (.var ⟨7, {}, .read⟩ "z")] .none
  obtain ⟨table', htable', hinner⟩ := exists_analyze_array hcfg htable ⟨3, {}, .read⟩
    [.plain {} (.var ⟨4, {}, .read⟩ "x"), .keyed {} (.literal ⟨5, {}, .read⟩ (.int 1)) (.var ⟨6, {}, .read⟩ "y")] .read
  have hkept : Analysis.kept (Analysis.analyze cfg innerLiteral .read) { s with table } = (.ok innerLiteral,
      { s with table := table', memory := (s.memory.countKey (.node 3) true).countKey (.node 3) true }) := by
    rw [innerLiteral, Analysis.kept, Pass.bind_apply, hinner _ rfl]
    simp only [Pass.bind_apply, analyzeElements, kept_var hcfg, kept_literal hcfg]
    rfl
  refine ⟨table', (((s.memory.countKey (.node 3) true).countKey (.node 3) true).countKey (.node 1) false).countKey
    (.node 1) true, htable', ?_⟩
  rw [nestedLiteral, houter _ rfl]
  simp only [Pass.bind_apply, analyzeElements, kept_var hcfg, kept_literal hcfg, hkept]
  rfl

end

/-- What is left of the unit. -/
def nestedKept (table : RuleTable) (memory : RuleMemory) : AnalyzedUnit :=
  { name := "unit", statements := nestedUnit.statements, table, memory }

theorem exists_analyze_nestedUnit : ∃ (table : RuleTable) (memory : RuleMemory), table.Regular ∧
    ({} : Compiler).analyze nestedUnit = (.ok (nestedKept table memory), #[]) := by
  obtain ⟨start, hstart⟩ : ∃ start, start = ({} : Compiler).analysisStart nestedUnit := ⟨_, rfl⟩
  obtain ⟨table, memory, hregular, hliteral⟩ :=
    exists_analyze_nestedLiteral (show (({} : Compiler).unitSetting nestedUnit).registry = .standard from rfl)
      (hstart ▸ RuleTable.regular_empty : start.table.Regular)
  have hstatement : analyzeStmts (({} : Compiler).unitSetting nestedUnit) nestedUnit.statements start = (do
      let x ← Analysis.analyzeExpression (({} : Compiler).unitSetting nestedUnit) ⟨0, {}⟩ nestedLiteral
      return [x]) start := by
    rw [hstart]
    with_unfolding_all rfl
  rw [Pass.bind_apply, Analysis.analyzeExpression, Pass.bind_apply, hliteral] at hstatement
  exact ⟨table, memory, hregular, analyze_of_run (hstart ▸ hstatement)⟩

theorem affords_nestedLiteral : Lowering.Affords 2 .void
    (Lowering.lower ({} : Compiler).loweringSetting nestedLiteral .value : Emit Chunk TypeCode) := by
  have hnothing : Lowering.Affords 0 () (Lowering.storeElements ({} : Compiler).loweringSetting []) := .pure ()
  have hinner : Lowering.Affords 1 .arrayHandle
      (Lowering.lower ({} : Compiler).loweringSetting innerLiteral .value : Emit Chunk TypeCode) :=
    Lowering.affords_array rfl ⟨3, {}, .read⟩
      (Lowering.affords_plain (Lowering.affords_var rfl 4 {} "x") rfl
        (Lowering.affords_keyed (Lowering.affords_literal rfl 5 {} (.int 1)) rfl
          (Lowering.affords_var rfl 6 {} "y") rfl hnothing))
  exact Lowering.affords_array rfl ⟨1, {}, .none⟩
    (Lowering.affords_keyed (Lowering.affords_literal rfl 2 {} (.string "a")) rfl hinner rfl
      (Lowering.affords_plain (Lowering.affords_var rfl 7 {} "z") rfl hnothing))

/-- The unit is emitted, whatever is remembered. -/
theorem isEmitted_nestedKept {table : RuleTable} (htable : table.Regular) (memory : RuleMemory) :
    (({} : Compiler).emit (nestedKept table memory) #[] (Chunk.new "unit" none none)).isEmitted = true := by
  let start : Lowering.State Chunk := { sink := Chunk.new "unit" none none, table, memory }
  obtain ⟨u, hliteral, hu, hframe, hsize⟩ :=
    Lowering.affords_reporting (Lowering.affords_discarded affords_nestedLiteral) {}
    { start with sink := Sink.sequencePoint {} start.sink } htable (show 0 + 2 ≤ Routine.maxConstants by decide)
  obtain ⟨t, hend⟩ := Lowering.routineEnd_ok hu hframe
    (Nat.lt_of_le_of_lt hsize (show 0 + 2 < Routine.maxConstants by decide))
  have hstatements : Lowering.lowerStmts ({} : Compiler).loweringSetting nestedUnit.statements start = (.ok (), u) := by
    show Lowering.lowerStmts _ [.expression ⟨0, {}⟩ nestedLiteral] start = _
    rw [Lowering.lowerStmts, Lowering.lowerStmts, Lowering.lowerStmt, Lowering.statement]
    exact Pass.bind_of_ok hliteral
  have hcode : Lowering.lowerRoutine ({} : Compiler).loweringSetting (nestedKept table memory).statements false
      (emissionStart {} (nestedKept table memory) #[] (Chunk.new "unit" none none)) =
        Pass.ensuring (do
          Lowering.lowerStmts ({} : Compiler).loweringSetting nestedUnit.statements
          Lowering.routineEnd false) (fun s => { s with frame := {} }) start :=
    Lowering.routineCode_apply _ _
  rw [Pass.ensuring_apply, Pass.bind_of_ok hstatements, hend] at hcode
  rw [emit_of_ok hcode]
  rfl

theorem isEmitted_nestedUnit :
    (({} : Compiler).compile nestedUnit (Chunk.new "unit" none none)).isEmitted = true := by
  obtain ⟨table, memory, hregular, hanalyze⟩ := exists_analyze_nestedUnit
  have hclean : ¬ hasErrors #[] = true := by decide +kernel
  have hcompile : ({} : Compiler).compile nestedUnit (Chunk.new "unit" none none) =
      ({} : Compiler).emit (nestedKept table memory) #[] (Chunk.new "unit" none none) := by
    simp only [compile, hanalyze, if_neg hclean]
  rw [hcompile]
  exact isEmitted_nestedKept hregular memory

theorem capacities_of_nestedUnit :
    nestedUnit.Numbered ∧
      (({} : Compiler).compile nestedUnit (Chunk.new "unit" none none)).isEmitted = true ∧
      ∃ analyzed diagnostics, ({} : Compiler).analyze nestedUnit = (.ok analyzed, diagnostics) ∧
        ({} : Compiler).Capacities analyzed
          (({} : Compiler).compile nestedUnit (Chunk.new "unit" none none)).sink := by
  have hnumbered : nestedUnit.Numbered := by
    unfold SourceUnit.Numbered
    decide +kernel
  exact ⟨hnumbered, isEmitted_nestedUnit, capacities_of_emitted rfl hnumbered isEmitted_nestedUnit⟩

end Compiler
end PhpLowering
