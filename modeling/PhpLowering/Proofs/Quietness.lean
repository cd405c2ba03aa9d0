import PhpLowering.Proofs.CallOrder
import PhpLowering.Proofs.Lowering.Charts
import PhpLowering.Proofs.Lowering.Reads

/-!
# How items are read for an `unset`

The location that an `unset` removes is addressed in a quiet chain, so that the items on the way to it may be missing.
But the chain is at hand as well when the indices on the way are evaluated.  So an item in an index is read
quietly, too, unless it is in a chain of its own (`quiet_firstOfB`).

**`reads_of_unset`** says how the items are read.  If nothing beside the way is read in the chain at hand
(`Expr.IsApart`), then the items on the way are read quietly and all others as they are anywhere else.
-/

namespace PhpLowering

open Lowering (Use)

namespace Expr

/-! ## What depends on the chain at hand -/

mutual

/-- Whether the code for a use of an expression reads an item in the chain at hand. -/
def readsHere : Expr → Use → Bool
  | .literal .., _ | .var .., _ | .constant .., _ => false
  | .item _ container index, .prepare .read | .item _ container index, .unset =>
    readsHere container .containerRead || readsHere index .value
  | .item _ container index, .prepare .write | .item _ container index, .arrayForWrite
  | .item _ container index, .loadRef => readsHere container .arrayForWrite || readsHere index .value
  | .item _ _ _, .load | .item _ _ _, .containerRead => true
  | .item tag container index, .value => if tag.access = .readRef ∨ tag.access = .readUnknown then
      readsHere container .arrayForWrite || readsHere index .value else true
  | .item _ _ _, .store | .append _ _, .store => false
  | .append _ container, _ => readsHere container .arrayForWrite
  | .array _ elements, _ => elementsReadHere elements
  | .concat _ operands, _ | .call _ _ operands, _ => anyReadsHere operands
  | .binary _ _ left right, _ => readsHere left .value || readsHere right .value
  | .unary _ _ operand, _ => readsHere operand .value
  | .conditional _ condition ifTrue ifFalse, _ =>
    readsHere condition .value || (readsHere ifTrue .value || readsHere ifFalse .value)
  | .shortcut _ condition ifFalse, _ => readsHere condition .value || readsHere ifFalse .value
  | .list _ _ value, _ => readsHere value .value
  | .assign .., _ | .incDec .., _ => false
termination_by structural e => e

/-- Whether the values of expressions in a row read an item in the chain at hand. -/
def anyReadsHere : List Expr → Bool
  | [] => false
  | e :: rest => readsHere e .value || anyReadsHere rest
termination_by structural es => es

/-- Whether the elements of an array literal read an item in the chain at hand. -/
def elementsReadHere : List ArrayElement → Bool
  | [] => false
  | .plain _ value :: rest => readsHere value .value || elementsReadHere rest
  | .keyed _ key value :: rest => readsHere key .value || (readsHere value .value || elementsReadHere rest)
termination_by structural es => es

end

mutual

/-- **Where nothing is read in the chain at hand, it makes no difference.** -/
theorem reads_eq_of_not_here : ∀ (e : Expr) (use : Use), e.readsHere use = false → e.reads true use = e.reads false use
  | .literal .., _, _ | .var .., _, _ | .constant .., _, _ => rfl
  | .item tag container index, use, h => by
    have hparts : ∀ c, (container.readsHere c || index.readsHere .value) = false →
        container.reads true c = container.reads false c ∧ index.reads true .value = index.reads false .value := by
      intro c hc
      rw [Bool.or_eq_false_iff] at hc
      exact ⟨reads_eq_of_not_here container c hc.1, reads_eq_of_not_here index .value hc.2⟩
    cases use with
    | prepare half =>
      cases half <;> obtain ⟨hcontainer, hindex⟩ := hparts _ h <;> simp only [reads, ReadOrder.item, hcontainer, hindex]
    | unset | arrayForWrite | loadRef =>
      obtain ⟨hcontainer, hindex⟩ := hparts _ h
      simp only [reads, ReadOrder.item, hcontainer, hindex]
    | value =>
      by_cases haccess : tag.access = .readRef ∨ tag.access = .readUnknown
      · obtain ⟨hcontainer, hindex⟩ := hparts .arrayForWrite (by simpa only [readsHere, if_pos haccess] using h)
        simp only [reads, ReadOrder.item, if_pos haccess, hcontainer, hindex]
      · simp only [readsHere, if_neg haccess, reduceCtorEq] at h
    | load | containerRead => exact nomatch h
    | store => rfl
  | .append _ container, use, h => by
    cases use with
    | store => rfl
    | _ => exact reads_eq_of_not_here container .arrayForWrite h
  | .array _ elements, _, h => readsElements_eq_of_not_here elements h
  | .concat _ operands, _, h | .call _ _ operands, _, h => readsAll_eq_of_not_here operands h
  | .binary _ _ left right, _, h => by
    obtain ⟨hleft, hright⟩ := Bool.or_eq_false_iff.mp h
    simp only [reads, reads_eq_of_not_here left .value hleft, reads_eq_of_not_here right .value hright]
  | .unary _ _ operand, _, h => reads_eq_of_not_here operand .value h
  | .conditional _ condition ifTrue ifFalse, _, h => by
    obtain ⟨hcondition, hbranches⟩ := Bool.or_eq_false_iff.mp h
    obtain ⟨htrue, hfalse⟩ := Bool.or_eq_false_iff.mp hbranches
    simp only [reads, reads_eq_of_not_here condition .value hcondition, reads_eq_of_not_here ifTrue .value htrue,
      reads_eq_of_not_here ifFalse .value hfalse]
  | .shortcut _ condition ifFalse, _, h => by
    obtain ⟨hcondition, hfalse⟩ := Bool.or_eq_false_iff.mp h
    simp only [reads, reads_eq_of_not_here condition .value hcondition, reads_eq_of_not_here ifFalse .value hfalse]
  | .list _ _ value, _, h => by
    simp only [reads, reads_eq_of_not_here value .value h]
  | .assign .., _, _ | .incDec .., _, _ => rfl
termination_by structural e => e

theorem readsAll_eq_of_not_here : ∀ es : List Expr, anyReadsHere es = false → readsAll true es = readsAll false es
  | [], _ => rfl
  | e :: rest, h => by
    obtain ⟨he, hrest⟩ := Bool.or_eq_false_iff.mp h
    simp only [readsAll, reads_eq_of_not_here e .value he, readsAll_eq_of_not_here rest hrest]
termination_by structural es => es

theorem readsElements_eq_of_not_here : ∀ es : List ArrayElement, elementsReadHere es = false →
    readsElements true es = readsElements false es
  | [], _ => rfl
  | .plain _ value :: rest, h => by
    obtain ⟨hvalue, hrest⟩ := Bool.or_eq_false_iff.mp h
    simp only [readsElements, reads_eq_of_not_here value .value hvalue, readsElements_eq_of_not_here rest hrest]
  | .keyed _ key value :: rest, h => by
    obtain ⟨hkey, hparts⟩ := Bool.or_eq_false_iff.mp h
    obtain ⟨hvalue, hrest⟩ := Bool.or_eq_false_iff.mp hparts
    simp only [readsElements, reads_eq_of_not_here key .value hkey, reads_eq_of_not_here value .value hvalue,
      readsElements_eq_of_not_here rest hrest]
termination_by structural es => es

end

/-! ## The way to a location -/

/-- What is evaluated beside the way to a location: where it starts, and the indices. -/
def beside : Expr → List Expr
  | .item _ container index => container.beside ++ [index]
  | e => [e]

/-- Nothing beside the way to a location reads an item in the chain at hand. -/
def IsApart (e : Expr) : Prop :=
  ∀ part ∈ e.beside, part.readsHere .value = false

/-- How a container is read along the way to a location.  Its items are read quietly, and what is beside the way
is read as it is outside of a quiet chain. -/
def readsOnWay : Expr → ReadOrder
  | .item _ container index =>
    (container.readsOnWay.andThen (index.reads false .value).unlessKept).andThen (.one .getItemQuiet)
  | e => e.reads false .value

/-- How items are read to remove a location. -/
def readsToRemove : Expr → ReadOrder
  | .item _ container index => container.readsOnWay.andThen (index.reads false .value).unlessKept
  | e => e.reads false .value

theorem isApart_item {tag : ExprTag} {container index : Expr} :
    (Expr.item tag container index).IsApart ↔ container.IsApart ∧ index.readsHere .value = false := by
  simp [IsApart, beside, or_imp, forall_and]

/-- What is no item is evaluated where a container is needed. -/
theorem reads_of_not_item {e : Expr} (hitem : ∀ tag container index, e ≠ .item tag container index) :
    e.beside = [e] ∧ e.readsOnWay = e.reads false .value ∧ e.readsToRemove = e.reads false .value ∧
      ∀ quiet, e.reads quiet .containerRead = e.reads quiet .value ∧ e.reads quiet .unset = e.reads quiet .value := by
  cases e with
  | item tag container index => exact absurd rfl (hitem tag container index)
  | _ => exact ⟨rfl, rfl, rfl, fun _ => ⟨rfl, rfl⟩⟩

theorem readsOnWay_of_isApart {e : Expr} (h : e.IsApart) : e.reads true .containerRead = e.readsOnWay := by
  induction e using readsOnWay.induct with
  | case1 tag container index ih =>
    obtain ⟨hcontainer, hindex⟩ := isApart_item.mp h
    simp only [reads, ReadOrder.item, readsOnWay, ih hcontainer, reads_eq_of_not_here index .value hindex,
      RuntimeOp.readItem, if_true]
  | case2 e hitem =>
    obtain ⟨hbeside, hway, -, hreads⟩ := reads_of_not_item hitem
    have hhere : e.readsHere .value = false := h e (by simp [hbeside])
    rw [(hreads true).1, hway, reads_eq_of_not_here e .value hhere]

/-- **If nothing beside the way is read in the chain at hand, only the way is read quietly.** -/
theorem readsToRemove_of_isApart {e : Expr} (h : e.IsApart) : e.reads true .unset = e.readsToRemove := by
  by_cases hitem : ∃ tag container index, e = .item tag container index
  · obtain ⟨tag, container, index, rfl⟩ := hitem
    obtain ⟨hcontainer, hindex⟩ := isApart_item.mp h
    simp only [reads, ReadOrder.item, readsToRemove, readsOnWay_of_isApart hcontainer,
      reads_eq_of_not_here index .value hindex]
  · obtain ⟨hbeside, -, hremove, hreads⟩ := reads_of_not_item (e := e) (by simpa using hitem)
    have hhere : e.readsHere .value = false := h e (by simp [hbeside])
    rw [(hreads true).2, hremove, reads_eq_of_not_here e .value hhere]

end Expr

namespace Lowering

open Pass (Ends)

variable {cfg : Setting} {tag : StmtTag} {targets : List Expr} {s t : State Chunk} {α : Type}

/-! ## Statements -/

/-- What is cleaned up in any case is cleaned up if all goes well. -/
theorem ends_ensuring {x : Emit Chunk α} {f : State Chunk → State Chunk} {Q : α → State Chunk → Prop}
    (h : Ends (do let a ← x; Pass.update f; return a) s Q anyFailure) : Ends (x.ensuring f) s Q anyFailure := by
  refine .ensuring (.intro (fun a t hrun => ?_) fun _ _ _ => trivial)
  exact h.of_ok (by rw [Pass.bind_apply, hrun]; rfl)

/-- Every target of an `unset` is addressed in a quiet chain. -/
theorem ends_unsetAll : ∀ (targets : List Expr) (s : State Chunk),
    Ends (unsetAll cfg targets) s (fun _ t => ∃ opss, Fetched s t opss.flatten ∧
      List.Forall₂ (fun target ops => target.reads true .unset ops) targets opss) anyFailure
  | [], s => .pure ⟨[], .of_eq rfl, .nil⟩
  | target :: rest, s => by
    have hchain := (hears_lower cfg target .unset).inChain true (f := fun kind => pure kind) s
    refine (ends_ensuring hchain).bind ?_
    rintro _ t ⟨-, ops, hops, hreads⟩
    refine (ends_unsetAll rest t).mono ?_
    rintro _ u ⟨opss, hopss, hrest⟩
    exact ⟨ops :: opss, hops.trans hopss, .cons hreads hrest⟩

/-- A statement reads what the code of the rule made for its kind reads. -/
theorem ends_statement (hcfg : cfg.registry = .standard) {kind : StmtKind} {code : Home StmtKind → Emit Chunk Unit}
    {Q : List RuntimeOp → Prop}
    (hcode : ∀ u, Ends (code (RuleTable.stmtHome kind tag.id)) u (fun _ t => ∃ ops, Fetched u t ops ∧ Q ops) anyFailure) :
    Ends (statement cfg kind tag code) s (fun _ t => ∃ ops, Fetched s t ops ∧ Q ops) anyFailure := by
  have hrule : ∀ u, Ends (reporting tag.span (byStmtRule cfg kind tag code)) u
      (fun _ t => ∃ ops, Fetched u t ops ∧ Q ops) anyFailure := by
    intro u
    refine ends_reporting tolerates_anyFailure ?_
    have htable := (mute_onTable (RuleTable.stmt cfg.registry kind tag.id)).hears u
    refine (htable.and (hcfg ▸ ends_onTable_stmt u kind tag.id)).bind ?_
    rintro _ v ⟨⟨-, before, hbefore, hnone⟩, rfl⟩
    obtain rfl := hnone
    rw [if_pos rfl]
    refine (hcode v).mono ?_
    rintro _ t ⟨ops, hops, hQ⟩
    exact ⟨ops, hbefore.trans hops, hQ⟩
  unfold statement
  split
  · -- The place in the source is no code.
    refine .update_bind ((hrule _).mono ?_)
    rintro _ t ⟨ops, hops, hQ⟩
    have hpoint : Fetched s { s with sink := Sink.sequencePoint tag.span s.sink } [] :=
      .of_eq (code_sequencePoint tag.span s.sink)
    exact ⟨ops, hpoint.trans hops, hQ⟩
  · exact hrule s

/-- **How items are read for an `unset`.**  In the code of every target, the items on the way to the location and all
items in the chain at hand are read quietly.  If nothing beside the way is read in the chain at hand, then the items on the
way are read quietly, and all others are read as they are anywhere else: as in any state in which no quiet chain is at
hand. -/
theorem reads_of_unset (hcfg : cfg.registry = .standard) (hrun : lowerStmt cfg (.unset tag targets) s = (.ok (), t)) :
    ∃ opss : List (List RuntimeOp), Fetched s t opss.flatten ∧
      List.Forall₂ (fun target ops => target.reads true .unset ops ∧ (target.IsApart → target.readsToRemove ops))
        targets opss ∧
      ∀ (part : Expr) (kind : TypeCode) (u v : State Chunk), u.isQuiet = false → lower cfg part .value u = (.ok kind, v) →
        ∃ ops, Fetched u v ops ∧ part.reads false .value ops := by
  have hends : Ends (lowerStmt cfg (.unset tag targets)) s (fun _ t => ∃ ops, Fetched s t ops ∧
      ∃ opss, ops = opss.flatten ∧ List.Forall₂ (fun target ops => target.reads true .unset ops) targets opss)
      anyFailure := by
    rw [lowerStmt]
    refine ends_statement hcfg fun u => (ends_unsetAll targets u).mono ?_
    rintro _ t ⟨opss, hopss, hreads⟩
    exact ⟨_, hopss, opss, rfl, hreads⟩
  obtain ⟨_, hops, opss, rfl, hreads⟩ := hends.of_ok hrun
  refine ⟨opss, hops, hreads.imp ?_, fun part kind u v hquiet hlower => ?_⟩
  · intro target ops htarget
    exact ⟨htarget, fun hapart => Expr.readsToRemove_of_isApart hapart ▸ htarget⟩
  · obtain ⟨-, ops, hfetched, hpart⟩ := (hears_lower cfg part .value u).of_ok hlower
    exact ⟨ops, hfetched, hquiet ▸ hpart⟩

/-- What is read when a statement is emitted by itself. -/
def fetched? (x : Stmt) : Option (List RuntimeOp) :=
  match lowerStmt {} x alone with
  | (.ok _, t) => some (t.active.code.toList.filterMap Instruction.read?)
  | (.error _, _) => none

theorem fetched?_eq_some {x : Stmt} {ops : List RuntimeOp} (h : fetched? x = some ops) :
    ∃ t, lowerStmt {} x alone = (.ok (), t) ∧ Fetched alone t ops := by
  unfold fetched? at h
  split at h
  · rename_i t hrun
    exact ⟨t, hrun, _, rfl, Option.some.inj h⟩
  · exact nomatch h

/-- `$b[0]` -/
def firstOfB : Expr :=
  .item ⟨5, {}, .read⟩ (.var ⟨6, {}, .read⟩ "b") (.literal ⟨7, {}, .read⟩ (.int 0))

/-- `$a[...][1]` -/
def secondOfA (index : Expr) : Expr :=
  .item ⟨0, {}, .read⟩ (.item ⟨1, {}, .read⟩ (.var ⟨2, {}, .read⟩ "a") index) (.literal ⟨3, {}, .read⟩ (.int 1))

/-- In `unset($a[$x = $b[0]][1])`, only the item of `$a` is read quietly, because an assignment has a chain of its own. -/
theorem reads_unset_assigned :
    ∃ t opss, lowerStmt {} (.unset ⟨10, {}⟩ [secondOfA (.assign ⟨4, {}, .read⟩ (.var ⟨8, {}, .write⟩ "x") firstOfB)]) alone =
        (.ok (), t) ∧ Fetched alone t [.getItem, .getItemQuiet] ∧ Fetched alone t opss.flatten ∧
      List.Forall₂ (fun target ops => target.IsApart ∧ target.readsToRemove ops)
        [secondOfA (.assign ⟨4, {}, .read⟩ (.var ⟨8, {}, .write⟩ "x") firstOfB)] opss := by
  have hread : fetched? (.unset ⟨10, {}⟩ [secondOfA (.assign ⟨4, {}, .read⟩ (.var ⟨8, {}, .write⟩ "x") firstOfB)]) =
      some [.getItem, .getItemQuiet] := by decide +kernel
  obtain ⟨t, hrun, hfetched⟩ := fetched?_eq_some hread
  obtain ⟨opss, hopss, hreads, -⟩ := reads_of_unset rfl hrun
  have hapart : (secondOfA (.assign ⟨4, {}, .read⟩ (.var ⟨8, {}, .write⟩ "x") firstOfB)).IsApart := by
    unfold Expr.IsApart
    decide
  refine ⟨t, opss, hrun, hfetched, hopss, ?_⟩
  cases hreads with
  | cons h hrest =>
    cases hrest
    exact .cons ⟨hapart, h.2 hapart⟩ .nil

/-- In `unset($a[$b[0]][1])`, the item in the index is read quietly as well, although `$b[0]` is not when it is shown. -/
theorem quiet_firstOfB :
    (∃ t, lowerStmt {} (.unset ⟨10, {}⟩ [secondOfA firstOfB]) alone = (.ok (), t) ∧
      Fetched alone t [.getItemQuiet, .getItemQuiet]) ∧
    ∃ t, lowerStmt {} (.echo ⟨10, {}⟩ [firstOfB]) alone = (.ok (), t) ∧ Fetched alone t [.getItem] := by
  have hunset : fetched? (.unset ⟨10, {}⟩ [secondOfA firstOfB]) = some [.getItemQuiet, .getItemQuiet] := by
    decide +kernel
  have hecho : fetched? (.echo ⟨10, {}⟩ [firstOfB]) = some [.getItem] := by decide +kernel
  exact ⟨fetched?_eq_some hunset, fetched?_eq_some hecho⟩

end Lowering
end PhpLowering
