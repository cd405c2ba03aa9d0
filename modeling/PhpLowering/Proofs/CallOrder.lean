import PhpLowering.Proofs.Analysis.Survival
import PhpLowering.Proofs.Lowering.Rounds

/-!
# Calls are emitted in order

Between the source and the code of an expression stand two passes, and neither of them loses,
doubles or moves a call.  Analysis keeps the numbers of nodes apart (`Expr.Leaves.numbers`), so no
operand is taken for another one, and emission makes every call that is left, arguments first
(`calls_of_emitted`).

Increments and decrements are different: their target is addressed twice.  Of a chain of items only
the indices are kept in between, so whatever is called at the root of the chain is called twice
(`calls_of_incDec`).
-/

namespace PhpLowering

namespace Expr

variable {decided : Expr → Option Bool} {e node : Expr}

/-- No two nodes of an expression have the same number. -/
def Numbered (e : Expr) : Prop :=
  (e.subexprs.map Expr.id).Nodup

instance : DecidablePred Numbered := fun e =>
  inferInstanceAs (Decidable (e.subexprs.map Expr.id).Nodup)

theorem Numbered.numbers (h : e.Numbered) : e.numbers.Nodup := by
  refine h.sublist ?_
  unfold Expr.numbers
  induction e.subexprs with
  | nil => exact List.Sublist.refl _
  | cons x rest ih =>
    cases x with
    | literal => exact ih.cons _
    | _ => exact ih.cons_cons _

/-- Analysis makes up no numbers but those of literals. -/
theorem Leaves.numbers (h : Leaves decided e node) (he : e.Numbered) : node.numbers.Nodup :=
  he.numbers.sublist h.remains.numbers

/-- Analysis makes up no increments and no destructurings. -/
theorem Leaves.direct (h : Leaves decided e node) (he : e.Direct) : node.Direct := by
  intro y hy
  by_cases hstores : y.stores = true
  · obtain ⟨x, hx, hxy⟩ := h.remains.writers y hy hstores
    rw [hxy.kind]
    exact he x hx
  · cases y with
    | incDec | list => exact absurd rfl hstores
    | _ => exact ⟨nofun, nofun⟩

end Expr

namespace Lowering

open Expr (Leaves)

variable {acfg : Analysis.Setting} {cfg : Setting} {a b : Analysis.State} {s t : State Chunk}
  {e node target target' : Expr} {access : Access} {tag tag' : ExprTag} {increment post : Bool}
  {kind : TypeCode}

/-- What is left of an expression, in the state in which it is analysed. -/
theorem leaves_of_kept (hcfg : acfg.registry = .standard) (ha : a.table.Regular)
    (hnode : Analysis.kept (Analysis.analyze acfg e access) a = (.ok node, b)) :
    Leaves (Analysis.settled acfg a.constants) e node :=
  (Analysis.becomesNode_of_kept hcfg ha hnode).leaves

/-- The calls that are emitted for a node whose operands are all new. -/
theorem calls_of_lower (hnodup : node.numbers.Nodup) (hnew : ∀ x ∈ node.subexprs, x.id ∉ s.kept)
    (hrun : lower cfg node .value s = (.ok kind, t)) : Calls s t (node.invoked .first) := by
  refine ((tells_lower cfg node .first hnodup .value s ⟨fun i hi => ?_, nofun⟩).of_ok hrun).calls
  obtain ⟨x, hx, hi⟩ := List.mem_filterMap.mp hi
  cases x with
  | literal => exact nomatch hi
  | _ => exact Option.some.inj hi ▸ hnew _ hx

/-- **The code of an expression makes every call that analysis leaves in it, once and in order**: the
arguments come before the call, and the parts of a node in the order of the text.  There must be no
increment and no destructuring, no two nodes with the same number, and none of the operands may be
kept already by the chain at hand. -/
theorem calls_of_emitted (hcfg : acfg.registry = .standard) (ha : a.table.Regular)
    (hnode : Analysis.kept (Analysis.analyze acfg e access) a = (.ok node, b))
    (hids : e.Numbered ∨ node.Numbered) (hdirect : e.Direct ∨ node.Direct)
    (hnew : ∀ x ∈ node.subexprs, x.id ∉ s.kept)
    (hrun : lower cfg node .value s = (.ok kind, t)) :
    ∃ added, t.active.code.toList = s.active.code.toList ++ added ∧
      added.filterMap Instruction.invocation? = node.calls := by
  have hleaves := leaves_of_kept hcfg ha hnode
  have hnodup : node.numbers.Nodup := hids.elim hleaves.numbers Expr.Numbered.numbers
  have hplain : node.Direct := hdirect.elim hleaves.direct id
  obtain ⟨added, hcode, hcalls⟩ := calls_of_lower hnodup hnew hrun
  exact ⟨added, hcode, hcalls.trans (Expr.invoked_first node hplain)⟩

/-- The state in which an expression is emitted by itself. -/
def alone : State Chunk := { sink := Chunk.new "unit" none none }

/-- An expression that is analysed and emitted by itself: what is left of it, and the state afterwards. -/
def alone? (e : Expr) (nextId : Nat) : Option (Expr × State Chunk) :=
  match Analysis.kept (Analysis.analyze {} e .read) { nextId } with
  | (.ok node, _) =>
    match lower {} node .value { sink := Chunk.new "unit" none none } with
    | (.ok _, t) => some (node, t)
    | (.error _, _) => none
  | (.error _, _) => none

theorem alone?_eq_some {e : Expr} {nextId : Nat} {node : Expr} {t : State Chunk}
    (h : alone? e nextId = some (node, t)) :
    (∃ b, Analysis.kept (Analysis.analyze {} e .read) { nextId } = (.ok node, b)) ∧
      ∃ kind, lower {} node .value { sink := Chunk.new "unit" none none } = (.ok kind, t) := by
  unfold alone? at h
  split at h
  · rename_i hnode
    split at h
    · rename_i hrun
      obtain ⟨rfl, rfl⟩ := Prod.mk.inj (Option.some.inj h)
      exact ⟨⟨_, hnode⟩, _, hrun⟩
    · exact nomatch h
  · exact nomatch h

/-- `$a[f()][g()] = (string) $b[h($a)] . ($c ?: k(1))` -/
def orderedCalls : Expr :=
  .assign ⟨0, {}, .none⟩
    (.item ⟨1, {}, .none⟩
      (.item ⟨2, {}, .none⟩ (.var ⟨3, {}, .none⟩ "a") (.call ⟨4, {}, .none⟩ "f" []))
      (.call ⟨5, {}, .none⟩ "g" []))
    (.concat ⟨6, {}, .none⟩
      [.unary ⟨7, {}, .none⟩ .stringCast
        (.item ⟨8, {}, .none⟩ (.var ⟨9, {}, .none⟩ "b")
          (.call ⟨10, {}, .none⟩ "h" [.var ⟨11, {}, .none⟩ "a"])),
        .shortcut ⟨12, {}, .none⟩ (.var ⟨13, {}, .none⟩ "c")
          (.call ⟨14, {}, .none⟩ "k" [.literal ⟨15, {}, .none⟩ (.int 1)])])

theorem calls_orderedCalls :
    ∃ node t, alone? orderedCalls 16 = some (node, t) ∧
      t.active.code.toList.filterMap Instruction.invocation? =
        [⟨"f", 0⟩, ⟨"g", 0⟩, ⟨"h", 1⟩, ⟨"k", 1⟩] := by
  have hcalls : (alone? orderedCalls 16).map (fun p => p.1.calls) =
      some [⟨"f", 0⟩, ⟨"g", 0⟩, ⟨"h", 1⟩, ⟨"k", 1⟩] := by decide +kernel
  obtain ⟨⟨node, t⟩, halone, hcalls⟩ := Option.map_eq_some_iff.mp hcalls
  obtain ⟨⟨b, hnode⟩, kind, hrun⟩ := alone?_eq_some halone
  obtain ⟨added, hcode, hadded⟩ := calls_of_emitted rfl RuleTable.regular_empty hnode
    (Or.inl (by decide)) (Or.inl (by decide)) (fun _ _ => List.not_mem_nil) hrun
  refine ⟨node, t, halone, ?_⟩
  rw [hcode]
  exact hadded.trans hcalls

/-! ## Increments and decrements -/

theorem leaves_of_incDec (hcfg : acfg.registry = .standard) (ha : a.table.Regular)
    (hnode : Analysis.kept (Analysis.analyze acfg (.incDec tag increment post target) access) a =
      (.ok node, b)) :
    ∃ target', node = .incDec { tag with access } increment post target' ∧
      Leaves (Analysis.settled acfg a.constants) target target' := by
  obtain ⟨target', rfl, htarget⟩ := (Analysis.becomesNode_of_kept hcfg ha hnode).incDec
  exact ⟨target', rfl, htarget.leaves⟩

/-- **The code of an increment or decrement makes every call in its target once, and those at the root
of the target once more.**  So the calls are those in the target, each as often as it is there, exactly
if nothing is called at the root outside of indices, as is the case for a variable. -/
theorem calls_of_incDec (hcfg : acfg.registry = .standard) (ha : a.table.Regular)
    (hnode : Analysis.kept (Analysis.analyze acfg (.incDec tag increment post target) access) a =
      (.ok (.incDec tag' increment post target'), b))
    (hids : (Expr.incDec tag increment post target).Numbered ∨
      (Expr.incDec tag' increment post target').Numbered)
    (hdirect : target.Direct ∨ target'.Direct)
    (hnew : ∀ x ∈ (Expr.incDec tag' increment post target').subexprs, x.id ∉ s.kept)
    (hrun : lower cfg (.incDec tag' increment post target') .value s = (.ok kind, t)) :
    ∃ added, t.active.code.toList = s.active.code.toList ++ added ∧
      added.filterMap Instruction.invocation? = target'.calls ++ target'.root.invoked .again ∧
      ((added.filterMap Instruction.invocation?).Perm target'.calls ↔
        target'.root.invoked .again = []) := by
  obtain ⟨_, hsame, htarget⟩ := leaves_of_incDec hcfg ha hnode
  cases hsame
  have hleaves := leaves_of_kept hcfg ha hnode
  have hnodup := hids.elim hleaves.numbers Expr.Numbered.numbers
  have hplain : target'.Direct := hdirect.elim htarget.direct id
  obtain ⟨added, hcode, hcalls⟩ := calls_of_lower hnodup hnew hrun
  rw [Expr.invoked, Expr.invoked_first target' hplain, Expr.invoked_again] at hcalls
  refine ⟨added, hcode, hcalls, ?_⟩
  rw [hcalls]
  refine ⟨fun hperm => ?_, fun hnone => by rw [hnone, List.append_nil]⟩
  have hlength := hperm.length_eq
  rw [List.length_append] at hlength
  exact List.eq_nil_of_length_eq_zero (by omega)

/-- `++$a[f()][g(1)]` -/
def countedCalls : Expr :=
  .incDec ⟨0, {}, .none⟩ true false
    (.item ⟨1, {}, .none⟩
      (.item ⟨2, {}, .none⟩ (.var ⟨3, {}, .none⟩ "a") (.call ⟨4, {}, .none⟩ "f" []))
      (.call ⟨5, {}, .none⟩ "g" [.literal ⟨6, {}, .none⟩ (.int 1)]))

theorem calls_countedCalls :
    ∃ node t, alone? countedCalls 7 = some (node, t) ∧
      (t.active.code.toList.filterMap Instruction.invocation?).Perm [⟨"f", 0⟩, ⟨"g", 1⟩] := by
  have hcalls : (alone? countedCalls 7).map (fun p =>
      p.1.targets.map fun target => (target.calls, target.root.invoked .again)) =
        some [([⟨"f", 0⟩, ⟨"g", 1⟩], [])] := by decide +kernel
  obtain ⟨⟨node, t⟩, halone, hcalls⟩ := Option.map_eq_some_iff.mp hcalls
  obtain ⟨⟨b, hnode⟩, kind, hrun⟩ := alone?_eq_some halone
  obtain ⟨target', rfl, -⟩ := leaves_of_incDec rfl RuleTable.regular_empty hnode
  obtain ⟨hcalls, hroot⟩ := Prod.mk.inj (List.singleton_inj.mp hcalls)
  obtain ⟨added, hcode, -, hperm⟩ := calls_of_incDec rfl RuleTable.regular_empty hnode
    (Or.inl (by decide)) (Or.inl (by decide)) (fun _ _ => List.not_mem_nil) hrun
  refine ⟨_, t, halone, ?_⟩
  rw [hcode, ← hcalls]
  exact hperm.mpr hroot

/-- `f()[0]++` -/
def calledContainer : Expr :=
  .incDec ⟨0, {}, .none⟩ true true
    (.item ⟨1, {}, .none⟩ (.call ⟨2, {}, .none⟩ "f" []) (.literal ⟨3, {}, .none⟩ (.int 0)))

/-- The container of an item that is incremented is called twice. -/
theorem calls_twice_of_calledContainer :
    calledContainer.Numbered ∧
      (alone? calledContainer 4).map (fun p => p.1.calls) = some [⟨"f", 0⟩] ∧
      (alone? calledContainer 4).map (fun p =>
        p.2.active.code.toList.filterMap Instruction.invocation?) = some [⟨"f", 0⟩, ⟨"f", 0⟩] := by
  decide +kernel

end Lowering
end PhpLowering
