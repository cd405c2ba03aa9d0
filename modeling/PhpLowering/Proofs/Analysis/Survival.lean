import PhpLowering.Proofs.Analysis.Expr
import PhpLowering.Proofs.Analysis.Folding
import PhpLowering.Proofs.Tree.Targets

/-!
# What analysis leaves of an expression

Analysis drops nodes and puts literals in their places, but it makes up nothing else.  The numbers
of the nodes that are left are numbers of the expression, in its order, and every node that stores
to something is one of the expression with what it stores to analysed.

What is stored to may change its form on the way: a conditional with a known condition becomes the
branch that the condition selects.  `Expr.Designates` are the expressions that can become a location
in this way.  Everything is put together in one relation between the nodes before and after
(`Remains`), and **`Becomes.leaves`** is the induction on what the rules make of an expression.

When the analysis comes to a call it looks the name up, and what it finds decides the accesses of the
arguments: a location at the place of a by-reference parameter is wanted as a reference, and if nothing is
found it may be wanted as one.  What is kept of an argument has the access that it was analysed for.  So every
call that is left of an expression is a call in the expression, of the same function, and its arguments have the
accesses that go with the signature of the name: **`Becomes.requests`**.
-/

namespace PhpLowering
namespace Expr

variable (decided : Expr → Option Bool)

/-- An expression designates a location, if the conditions in it that are decided are taken for
granted. -/
inductive Designates : Expr → Prop
  | place {e : Expr} (h : e.isPlace = true) : Designates e
  | ifTrue {tag : ExprTag} {c a b : Expr} (h : decided c = some true) (ha : Designates a) :
      Designates (.conditional tag c a b)
  | ifFalse {tag : ExprTag} {c a b : Expr} (h : decided c = some false) (hb : Designates b) :
      Designates (.conditional tag c a b)
  | otherwise {tag : ExprTag} {c b : Expr} (h : decided c = some false) (hb : Designates b) :
      Designates (.shortcut tag c b)

/-- One expression stands where the other one stood; if it is a location, the other one designated
one. -/
def Replaces (e node : Expr) : Prop :=
  node.isPlace = true → Designates decided e

/-- A node that stores to something is the other one with its parts analysed. -/
structure Rewritten (e node : Expr) : Prop where
  id : node.id = e.id
  kind : node.kind = e.kind
  targets : List.Forall₂ (Replaces decided) e.targets node.targets

/-- The nodes on the right are what is left of those on the left. -/
structure Remains (before after : List Expr) : Prop where
  numbers : (after.filterMap number?).Sublist (before.filterMap number?)
  writers : ∀ y ∈ after, y.stores = true → ∃ x ∈ before, Rewritten decided x y

variable {decided} {x y : Expr} {xs xs' ys ys' : List Expr}

namespace Remains

theorem nil : Remains decided xs [] :=
  ⟨List.nil_sublist _, nofun⟩

theorem literal {tag : ExprTag} {v : Literal} : Remains decided xs (Expr.literal tag v).subexprs :=
  ⟨List.nil_sublist _, List.forall_mem_singleton.mpr nofun⟩

theorem append (h : Remains decided xs ys) (h' : Remains decided xs' ys') :
    Remains decided (xs ++ xs') (ys ++ ys') where
  numbers := by
    rw [List.filterMap_append, List.filterMap_append]
    exact h.numbers.append h'.numbers
  writers y hy hw := by
    rcases List.mem_append.mp hy with hy | hy
    · obtain ⟨x, hx, hxy⟩ := h.writers y hy hw
      exact ⟨x, List.mem_append_left _ hx, hxy⟩
    · obtain ⟨x, hx, hxy⟩ := h'.writers y hy hw
      exact ⟨x, List.mem_append_right _ hx, hxy⟩

/-- Some of the nodes are dropped. -/
theorem drop (h : Remains decided xs ys) (hx : xs.Sublist xs') : Remains decided xs' ys where
  numbers := h.numbers.trans (hx.filterMap _)
  writers y hy hw := by
    obtain ⟨x, hmem, hxy⟩ := h.writers y hy hw
    exact ⟨x, hx.subset hmem, hxy⟩

/-- A node is built anew from what is left of its parts. -/
theorem writer (h : Remains decided xs ys) (hnumber : y.number? = x.number?)
    (hxy : Rewritten decided x y) : Remains decided (x :: xs) (y :: ys) where
  numbers := by
    rw [List.filterMap_cons, List.filterMap_cons, hnumber]
    split
    · exact h.numbers
    · exact h.numbers.cons_cons _
  writers := by
    refine List.forall_mem_cons.mpr ⟨fun _ => ⟨x, List.mem_cons_self, hxy⟩, fun z hz hw => ?_⟩
    obtain ⟨x', hx', hxz⟩ := h.writers z hz hw
    exact ⟨x', List.mem_cons_of_mem _ hx', hxz⟩

/-- The same for a node that stores to nothing. -/
theorem node (h : Remains decided xs ys) (hnumber : y.number? = x.number?)
    (hy : y.stores = false) : Remains decided (x :: xs) (y :: ys) where
  numbers := by
    rw [List.filterMap_cons, List.filterMap_cons, hnumber]
    split
    · exact h.numbers
    · exact h.numbers.cons_cons _
  writers := by
    refine List.forall_mem_cons.mpr ⟨fun hw => absurd (hy.symm.trans hw) nofun, fun z hz hw => ?_⟩
    obtain ⟨x', hx', hxz⟩ := h.writers z hz hw
    exact ⟨x', List.mem_cons_of_mem _ hx', hxz⟩

/-- Literals do not count. -/
theorem clean (h : Remains decided xs ys)
    (hnumbers : ys'.filterMap number? = ys.filterMap number?)
    (hmem : ∀ y ∈ ys', y ∈ ys ∨ y.stores = false) : Remains decided xs ys' where
  numbers := hnumbers ▸ h.numbers
  writers y hy hw := h.writers y ((hmem y hy).resolve_right fun hn => nomatch hn.symm.trans hw) hw

end Remains

/-- What is left of an expression stands in its place. -/
structure Leaves (decided : Expr → Option Bool) (e node : Expr) : Prop where
  remains : Remains decided e.subexprs node.subexprs
  replaces : Replaces decided e node

theorem Leaves.literal {e : Expr} {tag : ExprTag} {v : Literal} : Leaves decided e (.literal tag v) :=
  ⟨.literal, fun hplace => absurd hplace Bool.false_ne_true⟩

/-- One call is the other one with its arguments analysed for what the signature of the function says of
them. -/
inductive Requested (cfg : Analysis.Setting) : Expr → Expr → Prop
  | call {tag tag' : ExprTag} {name : String} {args args' : List Expr}
    (haccess : args'.map access =
      args.mapIdx (Analysis.argumentAccess (Analysis.State.function? cfg name))) :
    Requested cfg (.call tag name args) (.call tag' name args')

/-- The calls on the right come from calls on the left. -/
def Requests (cfg : Analysis.Setting) (before after : List Expr) : Prop :=
  ∀ y ∈ after, y.kind = .call → ∃ x ∈ before, Requested cfg x y

namespace Requests

variable {cfg : Analysis.Setting}

theorem nil : Requests cfg xs [] :=
  nofun

theorem literal {tag : ExprTag} {v : Literal} : Requests cfg xs (Expr.literal tag v).subexprs :=
  List.forall_mem_singleton.mpr nofun

/-- Some of the nodes are dropped. -/
theorem drop (h : Requests cfg xs ys) (hx : xs ⊆ xs') : Requests cfg xs' ys := by
  intro y hy hcall
  obtain ⟨x, hmem, hxy⟩ := h y hy hcall
  exact ⟨x, hx hmem, hxy⟩

theorem append (h : Requests cfg xs ys) (h' : Requests cfg xs' ys') : Requests cfg (xs ++ xs') (ys ++ ys') :=
  List.forall_mem_append.mpr
    ⟨h.drop (List.subset_append_left _ _), h'.drop (List.subset_append_right _ _)⟩

/-- A node that is no call is built anew from what is left of its parts. -/
theorem node (h : Requests cfg xs ys) (hy : y.kind ≠ .call) : Requests cfg (x :: xs) (y :: ys) :=
  List.forall_mem_cons.mpr ⟨fun hcall => absurd hcall hy, h.drop (List.subset_cons_self _ _)⟩

theorem call (h : Requests cfg xs ys) (hxy : Requested cfg x y) : Requests cfg (x :: xs) (y :: ys) :=
  List.forall_mem_cons.mpr ⟨fun _ => ⟨x, List.mem_cons_self, hxy⟩, h.drop (List.subset_cons_self _ _)⟩

end Requests
end Expr

namespace Analysis

open Expr (Leaves Remains Rewritten Replaces Designates Requests Requested)

variable {cfg : Setting} {declared : List (String × Literal)} {decided : Expr → Option Bool}
  {e node : Expr} {ev : Evaluation} {access : Access} {xs es es' : List Expr}

/-! ## The steps between the parts -/

theorem StandsFor.leaves (h : StandsFor ev node) (hev : Leaves decided e ev.node) : Leaves decided e node :=
  h.elim hev fun _ _ => .literal

theorem StandsFor.requests (h : StandsFor ev node) (hev : Requests cfg xs ev.node.subexprs) :
    Requests cfg xs node.subexprs :=
  h.elim (P := fun node => Requests cfg xs node.subexprs) hev fun _ _ => .literal

theorem subexprsOf_append (es es' : List Expr) :
    Expr.subexprsOf (es ++ es') = Expr.subexprsOf es ++ Expr.subexprsOf es' := by
  induction es with
  | nil => rfl
  | cons e rest ih => rw [List.cons_append, Expr.subexprsOf, ih, Expr.subexprsOf, List.append_assoc]

/-- Literals have no numbers that count. -/
theorem Interspersed.numbersOf_eq (h : Interspersed es es') : Expr.numbersOf es = Expr.numbersOf es' := by
  induction h with
  | nil => rfl
  | literal _ _ ih => exact ih
  | @cons e es es' _ ih =>
    show (e.subexprs ++ Expr.subexprsOf es).filterMap _ = (e.subexprs ++ Expr.subexprsOf es').filterMap _
    rw [List.filterMap_append, List.filterMap_append]
    exact congrArg (_ ++ ·) ih

theorem Interspersed.mem_subexprsOf (h : Interspersed es es') (he : e ∈ Expr.subexprsOf es) :
    e ∈ Expr.subexprsOf es' ∨ ∃ tag v, e = .literal tag v := by
  induction h with
  | nil => exact nomatch he
  | literal _ _ ih =>
    rcases List.mem_cons.mp he with rfl | he
    · exact Or.inr ⟨_, _, rfl⟩
    · exact ih he
  | cons _ ih =>
    rcases List.mem_append.mp he with he | he
    · exact Or.inl (List.mem_append_left _ he)
    · exact (ih he).imp_left (List.mem_append_right _)

theorem Interspersed.remains (h : Interspersed es es') (hx : Remains decided xs (Expr.subexprsOf es')) :
    Remains decided xs (Expr.subexprsOf es) := by
  refine hx.clean h.numbersOf_eq fun y hy => (h.mem_subexprsOf hy).imp_right ?_
  rintro ⟨tag, v, rfl⟩
  rfl

theorem Interspersed.requests (h : Interspersed es es') (hx : Requests cfg xs (Expr.subexprsOf es')) :
    Requests cfg xs (Expr.subexprsOf es) := by
  intro y hy hcall
  rcases h.mem_subexprsOf hy with hy | ⟨tag, v, rfl⟩
  · exact hx y hy hcall
  · exact nomatch hcall

/-- Joining operands leaves a literal, or a concatenation of what is left to run time. -/
theorem Answers.of_joinOperands {tag : ExprTag} {evs : List Evaluation}
    (h : Answers declared (joinOperands cfg tag evs) ev) :
    (∃ tag v, ev.node = .literal tag v) ∨
      ∃ es, ev.node = .concat tag es ∧ Interspersed es (residuals evs) := by
  have hrebuild : Answers declared (joinOperands.rebuild tag (Concat.runs evs cfg.options.foldConstants)) ev →
      ∃ es, ev.node = .concat tag es ∧ Interspersed es (residuals evs) := by
    intro h
    obtain ⟨s, rfl⟩ := h.of_transform
    exact ⟨_, rfl, interspersed_runs evs _ s.nextId⟩
  unfold joinOperands at h
  dsimp only at h
  split at h
  · rename_i v span hruns
    split at h
    · obtain ⟨s, rfl⟩ := h.of_transform
      exact Or.inl ⟨_, v, rfl⟩
    · exact Or.inr (hrebuild (hruns ▸ h))
  · exact Or.inr (hrebuild h)

/-- An operand with a value is not there at run time. -/
theorem remains_residuals {es : List Expr} {evs : List Evaluation} (ev : Evaluation)
    (h : Remains decided xs ev.node.subexprs) (hrest : Remains decided es (Expr.subexprsOf (residuals evs))) :
    Remains decided (xs ++ es) (Expr.subexprsOf (residuals (ev :: evs))) := by
  cases ev with
  | value v node => exact hrest.drop (List.sublist_append_right _ _)
  | residual node => exact h.append hrest

theorem requests_residuals {es : List Expr} {evs : List Evaluation} (ev : Evaluation)
    (h : Requests cfg xs ev.node.subexprs) (hrest : Requests cfg es (Expr.subexprsOf (residuals evs))) :
    Requests cfg (xs ++ es) (Expr.subexprsOf (residuals (ev :: evs))) := by
  cases ev with
  | value v node => exact hrest.drop (List.subset_append_right _ _)
  | residual node => exact h.append hrest

/-! ## What is left -/

/-- A condition that is decided has a value, and is kept as a literal. -/
theorem literal_of_decided {b : Bool} (hdecided : decided? cfg ev = some b)
    (hkeep : Answers declared (keep ev) node) : ∃ tag v, node = .literal tag v := by
  have hvalue := (finds_keep_value hdecided).of_answers hkeep
  cases node with
  | literal tag v => exact ⟨tag, v, rfl⟩
  | _ => exact nomatch hvalue

mutual

/-- **What analysis finds is what is left of the expression.** -/
theorem Becomes.leaves {e : Expr} {access : Access} {ev : Evaluation} :
    Becomes cfg declared e access ev → Leaves (settled cfg declared) e ev.node
  | .literal => .literal
  | .var => ⟨Remains.nil.node rfl rfl, fun _ => .place rfl⟩
  | .constant => by
    rw [node_ofParts]
    exact ⟨Remains.nil.node rfl rfl, nofun⟩
  | .array helements => ⟨helements.remains.node rfl rfl, nofun⟩
  | .concat hoperands hjoin => by
    rcases hjoin.of_joinOperands with ⟨tag, v, hnode⟩ | ⟨es, hnode, hes⟩
    · exact hnode ▸ .literal
    · exact hnode ▸ ⟨(hes.remains hoperands.remains).node rfl rfl, nofun⟩
  | .binary hleft hright hfold => by
    obtain ⟨hl, hr⟩ := hfold.of_foldBinary
    rw [node_ofParts]
    exact ⟨((hl.leaves hleft.leaves).remains.append (hr.leaves hright.leaves).remains).node rfl rfl, nofun⟩
  | .unary hoperand hfold => by
    rw [node_ofParts]
    exact ⟨(hfold.of_foldUnary.leaves hoperand.leaves).remains.node rfl rfl, nofun⟩
  | .incDec htarget => by
    have ht := htarget.leaves
    exact ⟨ht.remains.writer rfl ⟨rfl, rfl, .cons ht.replaces .nil⟩, nofun⟩
  | .ifTrue hcondition hdecided htrue => by
    rw [decided?_eq hcondition.faithful] at hdecided
    refine ⟨htrue.leaves.remains.drop ?_, fun hplace => .ifTrue hdecided (htrue.leaves.replaces hplace)⟩
    exact .cons _ ((List.sublist_append_right _ _).trans (List.sublist_append_left _ _))
  | .ifFalse hcondition hdecided hfalse => by
    rw [decided?_eq hcondition.faithful] at hdecided
    refine ⟨hfalse.leaves.remains.drop ?_, fun hplace => .ifFalse hdecided (hfalse.leaves.replaces hplace)⟩
    exact .cons _ (List.sublist_append_right _ _)
  | .conditional hcondition _ hkeep htrue hfalse => by
    have hc := hkeep.of_keep.leaves hcondition.leaves
    exact ⟨((hc.remains.append htrue.leaves.remains).append hfalse.leaves.remains).node rfl rfl, nofun⟩
  | .holds _ hdecided hkeep => by
    obtain ⟨tag, v, rfl⟩ := literal_of_decided hdecided hkeep
    exact .literal
  | .otherwise hcondition hdecided hfalse => by
    rw [decided?_eq hcondition.faithful] at hdecided
    refine ⟨hfalse.leaves.remains.drop ?_, fun hplace => .otherwise hdecided (hfalse.leaves.replaces hplace)⟩
    exact .cons _ (List.sublist_append_right _ _)
  | .shortcut hcondition _ hkeep hfalse => by
    have hc := hkeep.of_keep.leaves hcondition.leaves
    exact ⟨(hc.remains.append hfalse.leaves.remains).node rfl rfl, nofun⟩
  | .list hvalue htargets => by
    obtain ⟨hremains, hreplaces⟩ := htargets.leaves
    exact ⟨(hremains.append hvalue.leaves.remains).writer rfl ⟨rfl, rfl, hreplaces⟩, nofun⟩
  | .item hcontainer hindex =>
    ⟨(hcontainer.leaves.remains.append hindex.leaves.remains).node rfl rfl, fun _ => .place rfl⟩
  | .append hcontainer => ⟨hcontainer.leaves.remains.node rfl rfl, fun _ => .place rfl⟩
  | .assign htarget hvalue => by
    have ht := htarget.leaves
    exact ⟨(ht.remains.append hvalue.leaves.remains).writer rfl ⟨rfl, rfl, .cons ht.replaces .nil⟩, nofun⟩
  | .call hargs => ⟨hargs.remains.node rfl rfl, nofun⟩

theorem BecomesNode.leaves {e : Expr} {access : Access} {node : Expr} :
    BecomesNode cfg declared e access node → Leaves (settled cfg declared) e node
  | .mk h hkeep => hkeep.of_keep.leaves h.leaves

theorem BecomesOperands.remains {es : List Expr} {evs : List Evaluation} : BecomesOperands cfg declared es evs →
    Remains (settled cfg declared) (Expr.subexprsOf es) (Expr.subexprsOf (residuals evs))
  | .nil => .nil
  | .nested hoperands hrest => by
    rw [residuals_append, subexprsOf_append]
    exact (hoperands.remains.drop (List.sublist_cons_self _ _)).append hrest.remains
  | .cons _ he hrest => remains_residuals _ he.leaves.remains hrest.remains

theorem BecomesArgs.remains {signature : Option Signature} {position : Nat} {es es' : List Expr} :
    BecomesArgs cfg declared signature position es es' →
      Remains (settled cfg declared) (Expr.subexprsOf es) (Expr.subexprsOf es')
  | .nil => .nil
  | .cons harg hrest => harg.leaves.remains.append hrest.remains

theorem BecomesElements.remains {es es' : List ArrayElement} : BecomesElements cfg declared es es' →
    Remains (settled cfg declared) (Expr.subexprsOfElements es) (Expr.subexprsOfElements es')
  | .nil => .nil
  | .plain hvalue hrest => hvalue.leaves.remains.append hrest.remains
  | .keyed hkey hvalue hrest => (hkey.leaves.remains.append hvalue.leaves.remains).append hrest.remains

theorem BecomesTargets.leaves {ts ts' : List ListTarget} : BecomesTargets cfg declared ts ts' →
    Remains (settled cfg declared) (Expr.subexprsOfTargets ts) (Expr.subexprsOfTargets ts') ∧
      List.Forall₂ (Replaces (settled cfg declared)) (ListTarget.leavesOf ts) (ListTarget.leavesOf ts')
  | .nil => ⟨.nil, .nil⟩
  | .skip hrest => hrest.leaves
  | .leaf htarget hrest =>
    ⟨htarget.leaves.remains.append hrest.leaves.1, .cons htarget.leaves.replaces hrest.leaves.2⟩
  | .nested htargets hrest =>
    ⟨htargets.leaves.1.append hrest.leaves.1, List.rel_append htargets.leaves.2 hrest.leaves.2⟩

end

/-! ## The calls that are left -/

/-- An argument has the access that it was analysed for. -/
theorem access_of_suits {signature : Option Signature} {position : Nat} {arg node : Expr}
    (h : Suits arg (argumentAccess signature position arg) node) :
    node.access = argumentAccess signature position arg := by
  by_cases harg : arg.isPlace = true
  · exact (h.place harg).2
  · exact h.access (Or.inr (if_neg harg))

mutual

/-- **Every call that analysis leaves of an expression is a call of the expression**, and its arguments have the
accesses that go with the signature of the function. -/
theorem Becomes.requests {e : Expr} {access : Access} {ev : Evaluation} :
    Becomes cfg declared e access ev → Requests cfg e.subexprs ev.node.subexprs
  | .literal => .literal
  | .var => Requests.nil.node nofun
  | .constant => by
    rw [node_ofParts]
    exact Requests.nil.node nofun
  | .array helements => helements.requests.node nofun
  | .concat hoperands hjoin => by
    rcases hjoin.of_joinOperands with ⟨tag, v, hnode⟩ | ⟨es, hnode, hes⟩
    · exact hnode ▸ .literal
    · exact hnode ▸ (hes.requests hoperands.requests).node nofun
  | .binary hleft hright hfold => by
    obtain ⟨hl, hr⟩ := hfold.of_foldBinary
    rw [node_ofParts]
    exact ((hl.requests hleft.requests).append (hr.requests hright.requests)).node nofun
  | .unary hoperand hfold => by
    rw [node_ofParts]
    exact (hfold.of_foldUnary.requests hoperand.requests).node nofun
  | .incDec htarget => htarget.requests.node nofun
  | .ifTrue _ _ htrue => by
    refine htrue.requests.drop (List.Subset.trans ?_ (List.subset_cons_self _ _))
    exact ((List.sublist_append_right _ _).trans (List.sublist_append_left _ _)).subset
  | .ifFalse _ _ hfalse =>
    hfalse.requests.drop (List.Subset.trans (List.subset_append_right _ _) (List.subset_cons_self _ _))
  | .conditional hcondition _ hkeep htrue hfalse => by
    have hc := hkeep.of_keep.requests hcondition.requests
    exact ((hc.append htrue.requests).append hfalse.requests).node nofun
  | .holds _ hdecided hkeep => by
    obtain ⟨tag, v, rfl⟩ := literal_of_decided hdecided hkeep
    exact .literal
  | .otherwise _ _ hfalse =>
    hfalse.requests.drop (List.Subset.trans (List.subset_append_right _ _) (List.subset_cons_self _ _))
  | .shortcut hcondition _ hkeep hfalse =>
    ((hkeep.of_keep.requests hcondition.requests).append hfalse.requests).node nofun
  | .list hvalue htargets => (htargets.requests.append hvalue.requests).node nofun
  | .item hcontainer hindex => (hcontainer.requests.append hindex.requests).node nofun
  | .append hcontainer => hcontainer.requests.node nofun
  | .assign htarget hvalue => (htarget.requests.append hvalue.requests).node nofun
  | .call hargs => by
    obtain ⟨hrequests, haccess⟩ := hargs.requests
    simp only [Nat.zero_add] at haccess
    exact .call hrequests (.call haccess)

theorem BecomesNode.requests {e : Expr} {access : Access} {node : Expr} :
    BecomesNode cfg declared e access node → Requests cfg e.subexprs node.subexprs
  | .mk h hkeep => hkeep.of_keep.requests h.requests

theorem BecomesOperands.requests {es : List Expr} {evs : List Evaluation} : BecomesOperands cfg declared es evs →
    Requests cfg (Expr.subexprsOf es) (Expr.subexprsOf (residuals evs))
  | .nil => .nil
  | .nested hoperands hrest => by
    rw [residuals_append, subexprsOf_append]
    exact (hoperands.requests.drop (List.subset_cons_self _ _)).append hrest.requests
  | .cons _ he hrest => requests_residuals _ he.requests hrest.requests

/-- Every argument has the access of its place. -/
theorem BecomesArgs.requests {signature : Option Signature} {position : Nat} {es es' : List Expr} :
    BecomesArgs cfg declared signature position es es' →
      Requests cfg (Expr.subexprsOf es) (Expr.subexprsOf es') ∧
        es'.map Expr.access = es.mapIdx fun i => argumentAccess signature (position + i)
  | .nil => ⟨.nil, rfl⟩
  | .cons harg hrest => by
    obtain ⟨hrequests, haccess⟩ := hrest.requests
    refine ⟨harg.requests.append hrequests, ?_⟩
    rw [List.map_cons, List.mapIdx_cons, haccess, access_of_suits harg.suits]
    simp only [Nat.add_zero, Nat.add_assoc, Nat.add_comm 1]

theorem BecomesElements.requests {es es' : List ArrayElement} : BecomesElements cfg declared es es' →
    Requests cfg (Expr.subexprsOfElements es) (Expr.subexprsOfElements es')
  | .nil => .nil
  | .plain hvalue hrest => hvalue.requests.append hrest.requests
  | .keyed hkey hvalue hrest => (hkey.requests.append hvalue.requests).append hrest.requests

theorem BecomesTargets.requests {ts ts' : List ListTarget} : BecomesTargets cfg declared ts ts' →
    Requests cfg (Expr.subexprsOfTargets ts) (Expr.subexprsOfTargets ts')
  | .nil => .nil
  | .skip hrest => hrest.requests
  | .leaf htarget hrest => htarget.requests.append hrest.requests
  | .nested htargets hrest => htargets.requests.append hrest.requests

end

end Analysis
end PhpLowering
