import Mathlib
import PhpLowering.Proofs.Analysis.Wants
import PhpLowering.Proofs.Emission
import PhpLowering.Proofs.Lowering.Returning
import PhpLowering.Proofs.Reporting

/-!
# What routines return, and where

A function that is declared to return by reference returns reference cells, and any other routine does not return
what was produced as one (`Compiler.returnsAs_of_emitted`).  The analysis sees to one half of it: what is given to a
`return` is evaluated for a reference if it is a place and the routine around it returns references
(`Analysis.returnedIn_of_descends`), whatever routine there is around that one.  The emission sees to the other
half: what is no place gets a cell of its own, and so does what is returned behind the last statement.

All returns of a routine have a piece of code of their own, from which control goes to the one place where the
routine ends, out of any loops and regions that are around.
-/

namespace PhpLowering

/-! ## The analysis -/

namespace Analysis

variable {cfg : Setting} {byRef : Bool} {e node : Expr} {y : Stmt} {ys : List Stmt}

/-- What is left of the expression of a `return` is what the routine returns. -/
theorem KeptOf.returned (hcfg : cfg.registry = .standard) (h : KeptOf cfg e (jumpAccess .return byRef e) node) :
    node.Returned byRef := by
  obtain ⟨declared, hnode⟩ := h.becomesNode hcfg
  have hsuits := hnode.suits
  refine ⟨hnode.wanted, ?_⟩
  unfold jumpAccess at hsuits
  split at hsuits
  · rename_i href
    obtain ⟨hplace, haccess⟩ := hsuits.place href.2.2
    exact Or.inr ⟨href.2.1, hplace, haccess⟩
  · exact Or.inl (hsuits.access (Or.inr rfl))

theorem Descends.returned (hcfg : cfg.registry = .standard) (h : Descends cfg byRef y) {expr : Option Expr}
    (hreturn : y.return? = some expr) (hnode : node ∈ expr) : node.Returned byRef := by
  obtain ⟨tag, rfl⟩ : ∃ tag, y = .jump tag .return expr := by
    unfold Stmt.return? at hreturn
    split at hreturn
    · obtain rfl := Option.some.inj hreturn
      exact ⟨_, rfl⟩
    · exact nomatch hreturn
  obtain ⟨e, hkept⟩ := h.exprs node (Option.mem_toList.mpr hnode)
  exact hkept.returned hcfg

theorem returnedIn_of_descends (hcfg : cfg.registry = .standard) (h : ∀ y ∈ ys, Descends cfg byRef y) :
    Stmt.ReturnedIn byRef ys := by
  intro expr hexpr node hnode
  obtain ⟨y, hy, hreturn⟩ := List.mem_filterMap.mp hexpr
  exact (h y hy).returned hcfg hreturn hnode

end Analysis

/-! ## Routines -/

namespace Routine.ReturnsAs

variable {cfg : Lowering.Setting} {byRef : Bool} {exprs : List (Option Expr)} {r : Routine}

/-- **Where a routine returns, there is a reference cell if it returns references**, and otherwise there is not. -/
theorem mark_of_ret (h : r.ReturnsAs cfg byRef exprs) {host : Host} {c : Config host.marking}
    (hc : Config.Reached r c) (hret : r.code[c.pc]? = some .ret) : c.HasOnTop r.returnsRef := by
  obtain ⟨returns, hconveys, -⟩ := h.conveys
  rw [h.returnsRef]
  exact hconveys.mark_of_ret hc hret

theorem exists_conveys (h : r.ReturnsAs cfg byRef exprs) :
    ∃ returns, r.Conveys byRef returns ∧ returns.length = exprs.length := by
  obtain ⟨returns, hconveys, hreturns⟩ := h.conveys
  exact ⟨returns, hconveys, hreturns.length_eq.symm⟩

end Routine.ReturnsAs

namespace Compiler

variable {c : Compiler} {unit : SourceUnit} {analyzed : AnalyzedUnit} {diagnostics : Array Diagnostic}

/-- What is given to the returns of a unit is what the routines around them return. -/
theorem returned_of_analyze (hc : c.registry = .standard) (h : c.analyze unit = (.ok analyzed, diagnostics)) :
    Stmt.ReturnedIn false (Stmt.ownOf analyzed.statements) ∧
      Stmt.ReturnedFrom (Stmt.functionsOf analyzed.statements) := by
  have hcfg : (c.unitSetting unit).registry = .standard := hc
  have hdescend := descends_of_analyze hc h
  exact ⟨Analysis.returnedIn_of_descends hcfg hdescend.own, fun f hf =>
    Analysis.returnedIn_of_descends hcfg (hdescend.functions f hf)⟩

/-- **What routines return, and where.**  In an emitted unit the main routine returns no references, and a function
returns references if its head says so.  All returns of a routine, whatever loops and regions they are in, have a
delivery each, and go to the one place where the routine returns (`Routine.Conveys`).  What is on top of the stack
there was produced by an instruction that leaves a reference cell if the routine returns references, and otherwise
by one that does not. -/
theorem returnsAs_of_emitted (hc : c.registry = .standard) (name : String) (filePath : Option String)
    (tempLimit : Option Nat) (h : (c.compile unit (Chunk.new name filePath tempLimit)).isEmitted = true) :
    ∃ analyzed diagnostics, c.analyze unit = (.ok analyzed, diagnostics) ∧
      (c.compile unit (Chunk.new name filePath tempLimit)).sink.main.ReturnsAs c.loweringSetting false
        (Stmt.returns (Stmt.ownOf analyzed.statements)) ∧
      List.Forall₂ (fun (function : FunctionHead × List Stmt) (r : Routine) =>
          r.ReturnsAs c.loweringSetting function.1.byRef (Stmt.returns (Stmt.ownOf function.2)))
        (Stmt.functionsOf analyzed.statements)
        (c.compile unit (Chunk.new name filePath tempLimit)).sink.functions.toList ∧
      ∀ r ∈ (c.compile unit (Chunk.new name filePath tempLimit)).sink.routines,
        ∀ (host : Host) (config : Config host.marking), Config.Reached r config →
          r.code[config.pc]? = some .ret → config.HasOnTop r.returnsRef := by
  obtain ⟨analyzed, diagnostics, hanalyze, -, heq⟩ := emit_of_isEmitted h
  obtain ⟨hown, hfunctions⟩ := returned_of_analyze hc hanalyze
  rw [heq] at h ⊢
  refine ⟨analyzed, diagnostics, hanalyze, ?_⟩
  have hbody : Lowering.Seals c.loweringSetting false [] (Stmt.returns (Stmt.ownOf analyzed.statements))
      (Stmt.functionsOf analyzed.statements) (Lowering.lowerStmts c.loweringSetting analyzed.statements) :=
    Lowering.seals_lowerStmts hc analyzed.statements hown hfunctions
  have hends := Lowering.ends_routineCode_sealed
    (s := c.emissionStart analyzed diagnostics (Chunk.new name filePath tempLimit)) hbody ⟨rfl, rfl, rfl, rfl⟩
    ⟨List.nodup_nil, nofun⟩ rfl
  rcases hrun : Lowering.lowerRoutine c.loweringSetting analyzed.statements false
    (c.emissionStart analyzed diagnostics (Chunk.new name filePath tempLimit)) with ⟨_ | _, t⟩
  · rw [emit_of_error hrun] at h
    exact nomatch h
  · obtain ⟨-, hreturns, houtside, Fs, hFs, hall⟩ := hends.of_ok hrun
    have hmain : t.active = t.sink.main := Chunk.active_of_outside houtside
    rw [emit_of_ok hrun]
    obtain rfl : t.sink.functions.toList = Fs := hFs
    refine ⟨hmain ▸ hreturns, hall, List.forall_mem_cons.mpr ⟨?_, fun r hr => ?_⟩⟩
    · exact fun _ _ hc hret => (hmain ▸ hreturns).mark_of_ret hc hret
    · obtain ⟨n, hn, rfl⟩ := List.getElem_of_mem hr
      exact fun _ _ hc hret => (hall.get (hall.length_eq ▸ hn) hn).mark_of_ret hc hret

/-- A function that returns a reference from a loop and from a handler in it, and in it one that returns a value of
a variable; the unit returns what a call has left. -/
def nestedReturns : SourceUnit :=
  { name := "unit", nextId := 15, span := {}
    statements := [
      .function ⟨0, {}⟩ ⟨"f", true, []⟩ [
        .function ⟨1, {}⟩ ⟨"g", false, []⟩ [.jump ⟨2, {}⟩ .return (some (.var ⟨3, {}, .none⟩ "x"))] false,
        .loop ⟨4, {}⟩ (.var ⟨5, {}, .none⟩ "c") [
          .tryCatch ⟨6, {}⟩ [
            .jump ⟨7, {}⟩ .return
              (some (.item ⟨8, {}, .none⟩ (.var ⟨9, {}, .none⟩ "a") (.var ⟨10, {}, .none⟩ "i")))]
            [.clause {} "E" none [.jump ⟨11, {}⟩ .return (some (.call ⟨12, {}, .none⟩ "g" []))] none] none]] false,
      .jump ⟨13, {}⟩ .return (some (.call ⟨14, {}, .none⟩ "f" []))] }

theorem returnsAs_nestedReturns :
    (({} : Compiler).compile nestedReturns (Chunk.new "unit" none none)).isEmitted = true ∧
      List.Forall₂ (fun (p : Bool × Nat) (r : Routine) => r.returnsRef = p.1 ∧
          ∃ returns, r.Conveys p.1 returns ∧ returns.length = p.2)
        [(false, 1), (false, 1), (true, 2)]
        (({} : Compiler).compile nestedReturns (Chunk.new "unit" none none)).sink.routines ∧
      ∀ r ∈ (({} : Compiler).compile nestedReturns (Chunk.new "unit" none none)).sink.routines,
        ∀ (host : Host) (config : Config host.marking), Config.Reached r config →
          r.code[config.pc]? = some .ret → config.HasOnTop r.returnsRef := by
  have h : (({} : Compiler).compile nestedReturns (Chunk.new "unit" none none)).isEmitted = true := by cbv
  obtain ⟨analyzed, diagnostics, hanalyze, hmain, hfunctions, hmarks⟩ :=
    returnsAs_of_emitted (c := {}) rfl "unit" none none h
  -- The number of returns in each routine, as the analysis leaves them.
  have hcounts : (({} : Compiler).analyze nestedReturns).1.toOption.map (fun analyzed =>
      ((Stmt.returns (Stmt.ownOf analyzed.statements)).length,
        (Stmt.functionsOf analyzed.statements).map fun function =>
          (function.1.byRef, (Stmt.returns (Stmt.ownOf function.2)).length))) =
      some (1, [(false, 1), (true, 2)]) := by cbv
  rw [hanalyze] at hcounts
  obtain ⟨hown, hinner⟩ := Prod.mk.inj (Option.some.inj hcounts)
  refine ⟨h, .cons ⟨hmain.returnsRef, hown ▸ hmain.exists_conveys⟩ ?_, hmarks⟩
  rw [← hinner, List.forall₂_map_left_iff]
  exact hfunctions.imp fun _ _ hr => ⟨hr.returnsRef, hr.exists_conveys⟩

end Compiler
end PhpLowering
