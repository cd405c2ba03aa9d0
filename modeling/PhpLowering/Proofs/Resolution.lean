import PhpLowering.Proofs.Hoisting
import PhpLowering.Proofs.Lowering.Callees
import PhpLowering.Proofs.Text.Names

/-!
# Calls and the functions that they find

The name of a function is looked up twice.  When the analysis comes to a call it looks for the signature of the
function, which decides how the arguments are accessed; whoever runs the code looks for the function itself in the
chunk.  **`lookups_agree_of_emitted`** compares the two.

* Every function that the code calls is called in the analysed tree with as many arguments, and every call in the tree
  is one of the source, with the accesses that go with the signature that was found.
* If that is the signature of a function that the unit declares, there is a function of that name in the chunk.  It
  stands directly in the unit, or it was left by the analysis: a block is thrown away where the code is dead, with the
  functions in it.
* If all functions of that name in the unit bind the same parameters by reference, so does the one that is found, and
  the accesses of the arguments are those that go with it.

But the name that the code calls is not always the one under which the function is found.  The analysis drops a leading
backslash and the emission keeps it, so nothing is found in the chunk under a name that is written with one:
`nothing_found_with_backslash`.
-/

namespace PhpLowering

/-! ## Functions in a chunk -/

/-- The signature under which a routine is declared. -/
def Routine.signature (r : Routine) : Signature :=
  { name := r.name, returnsRef := r.returnsRef, byRefParams := r.params.map Param.byRef }

/-- The signature of the first function with a name, in a list of declarations. -/
def Declarations.first? (heads : List FunctionHead) (name : String) : Option Signature :=
  (heads.find? fun head => Text.sameName head.name name).map signatureOf

namespace Chunk

open Lowering (Declares)

variable {chunk : Chunk} {heads : List FunctionHead} {head : FunctionHead} {name : String} {f : Routine}

/-- Functions are found like the declarations that they come from. -/
theorem signature_function? (h : List.Forall₂ Declares heads chunk.functions.toList) (name : String) :
    (chunk.function? name).map Routine.signature = Declarations.first? heads name := by
  rw [function?, ← Array.find?_toList, Declarations.first?]
  generalize chunk.functions.toList = functions at h
  induction h with
  | nil => rfl
  | @cons head r _ _ hfirst _ ih =>
    rw [List.find?_cons, List.find?_cons, hfirst.name]
    cases Text.sameName head.name name with
    | true =>
      have hsignature : r.signature = Declarations.signatureOf head := by
        unfold Routine.signature
        rw [hfirst.name, hfirst.returnsRef, hfirst.params]
        rfl
      exact congrArg some hsignature
    | false => exact ih

/-- A function that is found is declared under the name, -/
theorem exists_head_of_function? (h : List.Forall₂ Declares heads chunk.functions.toList)
    (hf : chunk.function? name = some f) : ∃ head ∈ heads,
      Text.foldCase head.name = Text.foldCase name ∧ f.signature = Declarations.signatureOf head := by
  have hsignature := signature_function? h name
  rw [hf] at hsignature
  obtain ⟨head, hhead, heq⟩ := Option.map_eq_some_iff.mp hsignature.symm
  have hname := List.find?_some hhead
  rw [Text.sameName_iff] at hname
  exact ⟨head, List.mem_of_find?_eq_some hhead, hname, heq.symm⟩

/-- and a function that is declared under the name is found, or another one. -/
theorem isSome_function? (h : List.Forall₂ Declares heads chunk.functions.toList) (hhead : head ∈ heads)
    (hname : Text.foldCase head.name = Text.foldCase name) : (chunk.function? name).isSome = true := by
  have hsignature := congrArg Option.isSome (signature_function? h name)
  rw [Option.isSome_map, Declarations.first?, Option.isSome_map] at hsignature
  rw [hsignature, List.find?_isSome]
  exact ⟨head, hhead, (Text.sameName_iff _ _).mpr hname⟩

end Chunk

/-! ## Functions in a unit -/

namespace Analysis

variable {cfg : Setting} {name : String} {head : FunctionHead}

/-- The name is that of a function which the unit declares, and this is the declaration that was collected. -/
def Setting.Resolves (cfg : Setting) (name : String) (head : FunctionHead) : Prop :=
  cfg.functions.lookup (Text.foldCase (Text.globalName name)) = some (Declarations.signatureOf head)

instance (cfg : Setting) (name : String) (head : FunctionHead) : Decidable (cfg.Resolves name head) :=
  inferInstanceAs (Decidable (_ = _))

theorem function?_of_resolves (h : cfg.Resolves name head) :
    State.function? cfg name = some (Declarations.signatureOf head) := by
  unfold Setting.Resolves at h
  simp only [State.function?, h]

/-- What is accessed how depends on the parameters only. -/
theorem argumentAccess_eq_of_byRefParams {s s' : Signature} (h : s.byRefParams = s'.byRefParams) :
    argumentAccess (some s) = argumentAccess (some s') := by
  have hparam : s.paramByRef = s'.paramByRef := by
    funext position
    rw [Signature.paramByRef, h, Signature.paramByRef]
  funext position arg
  unfold argumentAccess
  dsimp only
  rw [hparam]

/-- A function that is declared among the statements themselves is not left out. -/
theorem mem_heads_of_function {s t : State} {xs xs' : List Stmt} {tag : StmtTag} {body : List Stmt} {dead : Bool}
    (hcfg : cfg.registry = .standard) (hs : Tidy s) (hmem : .function tag head body dead ∈ xs)
    (hrun : analyzeStmts cfg xs s = (.ok xs', t)) : head ∈ Node.heads (Stmt.nodesOf xs') := by
  obtain ⟨before, behind, rfl⟩ := List.append_of_mem hmem
  obtain ⟨before', u, hbefore⟩ := exists_analyzes hcfg before hs
  obtain ⟨body', v, -, hfunction⟩ := exists_analyzesFunction hcfg tag head body dead hbefore.tidy
  obtain ⟨behind', w, hbehind⟩ := exists_analyzes hcfg behind hfunction.tidy
  cases hrun.symm.trans (hbefore.append (hfunction.append hbehind)).run
  rw [Stmt.nodesOf_append, Stmt.nodesOf_append, Node.heads_append, Node.heads_append]
  refine List.mem_append_right _ (List.mem_append_left _ ?_)
  rw [Stmt.nodesOf, Stmt.nodes, List.cons_append, Node.heads_cons]
  exact List.mem_append_left _ (List.mem_singleton.mpr rfl)

end Analysis

namespace Compiler

open Analysis (State argumentAccess)

variable {c : Compiler} {unit : SourceUnit} {analyzed : AnalyzedUnit} {diagnostics : Array Diagnostic} {chunk : Chunk}
  {name : String} {filePath : Option String} {tempLimit : Option Nat} {callee : String} {head : FunctionHead}

/-- A function is declared directly in a unit, or it is left by the analysis. -/
def Declared (unit : SourceUnit) (analyzed : AnalyzedUnit) (head : FunctionHead) : Prop :=
  (∃ tag body dead, .function tag head body dead ∈ unit.statements) ∨
    head ∈ Node.heads (Stmt.nodesOf analyzed.statements)

/-- The functions that are found in a chunk, compared with those that the analysis of a unit has found. -/
structure LookupsAgree (c : Compiler) (unit : SourceUnit) (analyzed : AnalyzedUnit) (chunk : Chunk) : Prop where
  /-- All functions that the code calls are called in the analysed tree. -/
  calls : ∀ r ∈ chunk.routines, r.CallsIn (· ∈ Node.invocations (Stmt.nodesOf analyzed.statements))
  /-- The calls in the tree are calls of the source, the arguments with the accesses that go with the signature. -/
  arguments : ∀ {tag callee args}, .expr (.call tag callee args) ∈ Stmt.nodesOf analyzed.statements →
    ∃ tag' args', .expr (.call tag' callee args') ∈ Stmt.nodesOf unit.statements ∧
      args.map Expr.access = args'.mapIdx (argumentAccess (State.function? (c.unitSetting unit) callee))
  /-- The function that is found under a name in the chunk is the first one to be completed. -/
  first : ∀ callee, (chunk.function? callee).map Routine.signature =
    Declarations.first? ((Stmt.functionsOf analyzed.statements).map Prod.fst) callee
  /-- If the signature is that of a declared function, a function is found in the chunk. -/
  found : ∀ {callee head}, (c.unitSetting unit).Resolves callee head → Declared unit analyzed head →
    (chunk.function? (Text.globalName callee)).isSome = true
  /-- It has the parameters that decided the accesses, if there is no choice in the unit. -/
  parameters : ∀ {callee head f}, (c.unitSetting unit).Resolves callee head →
    (∀ other ∈ Node.heads (Stmt.nodesOf unit.statements), Text.sameName other.name head.name = true →
      other.params.map Param.byRef = head.params.map Param.byRef) →
    chunk.function? (Text.globalName callee) = some f →
      f.params.map Param.byRef = head.params.map Param.byRef ∧
        argumentAccess (State.function? (c.unitSetting unit) callee) = argumentAccess (some f.signature)
  /-- Under a name that is written with a leading backslash nothing is found. -/
  unfound : (∀ head ∈ Node.heads (Stmt.nodesOf unit.statements), Text.globalName head.name = head.name) →
    ∀ {callee}, Text.globalName callee ≠ callee → chunk.function? callee = none

/-- A name is resolved to a function of that name. -/
theorem foldCase_of_resolves (h : (c.unitSetting unit).Resolves callee head) :
    Text.foldCase head.name = Text.foldCase (Text.globalName callee) := by
  obtain ⟨before, behind, heq, -⟩ := List.lookup_eq_some_iff.mp h
  have hmem : (Text.foldCase (Text.globalName callee), Declarations.signatureOf head) ∈
      (c.unitSetting unit).functions := by
    rw [heq]
    exact List.mem_append_right _ List.mem_cons_self
  exact (Declarations.keyed_collect unit.statements _ hmem).symm

/-- The functions in an analysed tree are some of those in the source, and a declared one is among them. -/
theorem mem_heads_of_declared (hc : c.registry = .standard) (hanalyze : c.analyze unit = (.ok analyzed, diagnostics))
    (h : Declared unit analyzed head) : head ∈ Node.heads (Stmt.nodesOf analyzed.statements) := by
  have hcfg : (c.unitSetting unit).registry = .standard := hc
  rcases h with ⟨tag, body, dead, hmem⟩ | h
  · obtain ⟨xs, t, h⟩ := Analysis.exists_analyzes hcfg unit.statements (Analysis.tidy_start _ _)
    cases hanalyze.symm.trans (analyze_of_run h.run)
    exact Analysis.mem_heads_of_function hcfg (Analysis.tidy_start _ _) hmem h.run
  · exact h

/-- **The code of a unit consists of what its nodes allow.** -/
theorem codeIn_of_emit {I : Instruction → Prop} [Lenient I]
    (hnodes : ∀ n ∈ Stmt.nodesOf analyzed.statements, Lowering.Sanctions I analyzed.memory c.loweringSetting n)
    (h : (c.emit analyzed diagnostics (Chunk.new name filePath tempLimit)).isEmitted = true) :
    ∀ r ∈ (c.emit analyzed diagnostics (Chunk.new name filePath tempLimit)).sink.routines, r.CodeIn I := by
  have hstatements : Lowering.Says I analyzed.memory
      (Lowering.lowerStmts (σ := Chunk) c.loweringSetting analyzed.statements) :=
    Lowering.says_lowerStmts _ analyzed.statements hnodes
  have hroutine : Lowering.Says I analyzed.memory
      (Lowering.lowerRoutine (σ := Chunk) c.loweringSetting analyzed.statements false) :=
    Lowering.says_routineCode false
  have hstart : (Chunk.new name filePath tempLimit).Every (Routine.CodeIn I) := ⟨nofun, nofun, nofun⟩
  have hevery := hstart.told
    (hroutine.told (c.emissionStart analyzed diagnostics (Chunk.new name filePath tempLimit)) rfl)
  rcases hrun : Lowering.lowerRoutine c.loweringSetting analyzed.statements false
    (c.emissionStart analyzed diagnostics (Chunk.new name filePath tempLimit)) with ⟨_ | _, t⟩
  · rw [emit_of_error hrun] at h
    exact nomatch h
  · rw [hrun] at hevery
    rw [emit_of_ok hrun]
    exact List.forall_mem_cons.mpr ⟨hevery.main, fun r hr => hevery.functions r (Array.mem_toList_iff.mp hr)⟩

/-- The code of a unit calls nothing but what is called in its tree. -/
theorem callsIn_of_emit (h : (c.emit analyzed diagnostics (Chunk.new name filePath tempLimit)).isEmitted = true) :
    ∀ r ∈ (c.emit analyzed diagnostics (Chunk.new name filePath tempLimit)).sink.routines,
      r.CallsIn (· ∈ Node.invocations (Stmt.nodesOf analyzed.statements)) := by
  have hlenient : Lenient fun i => ∀ v, i.invocation? = some v →
      v ∈ Node.invocations (Stmt.nodesOf analyzed.statements) := by
    refine ⟨fun hcall _ v hv => ?_⟩
    rw [hcall] at hv
    cases hv
  refine codeIn_of_emit (fun n hn => ?_) h
  cases n with
  | stmt => trivial
  | expr e =>
    cases e with
    | call tag callee args =>
      rintro _ ⟨⟩
      exact List.mem_filterMap.mpr ⟨_, hn, rfl⟩
    | array => rintro _ _ _ _ ⟨⟩
    | _ => trivial

/-- **What a call is resolved to is what is found under its name in the code**, but for a leading backslash.  Every
function that the code of an emitted unit calls is called in the analysed tree, and these calls are some of the source,
with the accesses for their arguments that go with the signatures found by the analysis.  If the unit declares the
function, one is found in the chunk under the name without a leading backslash; and it binds those parameters by
reference which decided the accesses, if all functions of that name in the unit do. -/
theorem lookups_agree_of_emitted (hc : c.registry = .standard)
    (h : (c.compile unit (Chunk.new name filePath tempLimit)).isEmitted = true) :
    ∃ analyzed diagnostics, c.analyze unit = (.ok analyzed, diagnostics) ∧
      c.LookupsAgree unit analyzed (c.compile unit (Chunk.new name filePath tempLimit)).sink := by
  obtain ⟨analyzed, diagnostics, hanalyze, -, hemit⟩ := emit_of_isEmitted h
  rw [hemit] at h ⊢
  refine ⟨analyzed, diagnostics, hanalyze, ?_⟩
  obtain ⟨known, -, hremains⟩ := remains_of_analyze hc hanalyze
  obtain ⟨-, hdeclares, -⟩ := exists_copy_of_emit hc (regular_of_analyze hc hanalyze) h _ rfl rfl
    (fun _ (ho : none = some _) => nomatch ho) (agreesOn_same analyzed.memory _ _) (regular_of_analyze hc hanalyze)
  have hheads := Stmt.perm_heads_nodesOf analyzed.statements
  have hcalls := callsIn_of_emit h
  generalize (c.emit analyzed diagnostics (Chunk.new name filePath tempLimit)).sink = chunk at hdeclares hcalls ⊢
  -- Whatever is found is declared in the source.
  have hsource {callee : String} {f : Routine} (hf : chunk.function? callee = some f) :
      ∃ other ∈ Node.heads (Stmt.nodesOf unit.statements),
        Text.foldCase other.name = Text.foldCase callee ∧ f.signature = Declarations.signatureOf other := by
    obtain ⟨other, hother, hfound⟩ := Chunk.exists_head_of_function? hdeclares hf
    exact ⟨other, hremains.heads.subset (hheads.mem_iff.mp hother), hfound⟩
  exact
    { calls := hcalls
      arguments := fun hcall => by
        obtain ⟨x, hx, hxy⟩ := hremains.calls _ hcall rfl
        cases hxy with
        | call haccess => exact ⟨_, _, hx, haccess⟩
      first := Chunk.signature_function? hdeclares
      found := fun hresolves hdeclared =>
        Chunk.isSome_function? hdeclares (hheads.mem_iff.mpr (mem_heads_of_declared hc hanalyze hdeclared))
          (foldCase_of_resolves hresolves)
      parameters := fun {callee head f} hresolves hsame hf => by
        obtain ⟨other, hother, hname, hsignature⟩ := hsource hf
        have hparams := hsame other hother
          ((Text.sameName_iff _ _).mpr (hname.trans (foldCase_of_resolves hresolves).symm))
        have hflags : f.signature.byRefParams = (Declarations.signatureOf head).byRefParams :=
          (congrArg Signature.byRefParams hsignature).trans hparams
        rw [Analysis.function?_of_resolves hresolves]
        exact ⟨hflags, Analysis.argumentAccess_eq_of_byRefParams hflags.symm⟩
      unfound := fun hplain callee hne => by
        cases hf : chunk.function? callee with
        | none => rfl
        | some f =>
          obtain ⟨other, hother, hname, -⟩ := hsource hf
          exact (hne (Text.globalName_eq_self_of_foldCase hname (hplain other hother))).elim }

/-! ## A call of a declared function -/

/-- A function with a parameter that is bound by reference. -/
def sharing : FunctionHead :=
  { name := "f", byRef := false, params := [{ name := "a", byRef := true }] }

/-- The function, and what is executed in it, and a call. -/
def sharingCall (callee : String) (body : List Stmt) : SourceUnit :=
  { name := "unit", nextId := 5, span := {}
    statements := [
      .function ⟨0, {}⟩ sharing body false,
      .expression ⟨1, {}⟩ (.call ⟨2, {}, .none⟩ callee [.var ⟨3, {}, .none⟩ "x"])] }

theorem lookups_agree_sharingCall :
    (({} : Compiler).compile (sharingCall "F" []) (Chunk.new "unit" none none)).isEmitted = true ∧
      (({} : Compiler).unitSetting (sharingCall "F" [])).Resolves "F" sharing ∧
      ∃ f, (({} : Compiler).compile (sharingCall "F" []) (Chunk.new "unit" none none)).sink.function? "F" = some f ∧
        f.params.map Param.byRef = [true] ∧
        argumentAccess (State.function? (({} : Compiler).unitSetting (sharingCall "F" [])) "F") =
          argumentAccess (some f.signature) := by
  have hemitted : (({} : Compiler).compile (sharingCall "F" []) (Chunk.new "unit" none none)).isEmitted = true := by
    decide +kernel
  have hname : Text.globalName "F" = "F" := by decide +kernel
  have hfolded : Text.foldCase "F" = "f" := by
    rw [← String.toList_inj, Text.foldCase, String.toList_map]
    decide
  have hresolves : (({} : Compiler).unitSetting (sharingCall "F" [])).Resolves "F" sharing := by
    rw [Analysis.Setting.Resolves, hname, hfolded]
    decide +kernel
  obtain ⟨analyzed, diagnostics, -, hagree⟩ := lookups_agree_of_emitted rfl hemitted
  have hfound := hagree.found hresolves (Or.inl ⟨_, _, _, List.mem_cons_self⟩)
  rw [hname] at hfound
  obtain ⟨f, hf⟩ := Option.isSome_iff_exists.mp hfound
  refine ⟨hemitted, hresolves, f, hf, hagree.parameters hresolves (by decide +kernel) ?_⟩
  rw [hname]
  exact hf

/-- A function in the function, with the same name and a parameter that is not bound by reference. -/
def copyingTwin : Stmt :=
  .function ⟨4, {}⟩ { name := "f", byRef := false, params := [{ name := "a", byRef := false }] } [] false

/-- The analysis finds the function around, and in the chunk the one in it is found, which is completed first. -/
example :
    (({} : Compiler).compile (sharingCall "f" [copyingTwin]) (Chunk.new "unit" none none)).isEmitted = true ∧
      (State.function? (({} : Compiler).unitSetting (sharingCall "f" [copyingTwin])) "f").map Signature.byRefParams =
        some [true] ∧
      ((({} : Compiler).compile (sharingCall "f" [copyingTwin]) (Chunk.new "unit" none none)).sink.function? "f").map
        (fun f => f.params.map Param.byRef) = some [false] := by
  decide +kernel

/-- **A function that is called with a leading backslash is not found under that name.**  The analysis resolves the call
and reports nothing, but the name in the code still has the backslash. -/
theorem nothing_found_with_backslash :
    (({} : Compiler).compile (sharingCall "\\f" []) (Chunk.new "unit" none none)).isEmitted = true ∧
      (({} : Compiler).compile (sharingCall "\\f" []) (Chunk.new "unit" none none)).diagnostics.isEmpty = true ∧
      (({} : Compiler).unitSetting (sharingCall "\\f" [])).Resolves "\\f" sharing ∧
      .callFunction "\\f" 1 ∈
        (({} : Compiler).compile (sharingCall "\\f" []) (Chunk.new "unit" none none)).sink.main.code.toList ∧
      ((({} : Compiler).compile (sharingCall "\\f" []) (Chunk.new "unit" none none)).sink.function? "\\f").isSome =
        false := by
  decide +kernel

end Compiler
end PhpLowering
