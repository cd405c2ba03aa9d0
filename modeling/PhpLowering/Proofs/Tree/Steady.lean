import PhpLowering.Proofs.Tree.Invocations
import PhpLowering.Proofs.Tree.Paths

/-!
# Indices that are kept whatever way control takes

The indices that an expression keeps are its `operands`.  A conditional evaluates only one of its two
branches, so of the indices in there it keeps none for sure; `Expr.sure` lists those that it keeps
whatever way control takes.

An increment addresses its location twice, and the second time it takes for granted that every index
is kept.  It is `Steady` if that is so.
-/

namespace PhpLowering
namespace Expr

mutual

/-- The numbers of the indices that are kept once an expression has been evaluated, whatever way control
takes through it. -/
def sure : Expr → List Nat
  | .literal .. => []
  | .var .. => []
  | .constant .. => []
  | .array _ elements => sureOfElements elements
  | .concat _ es => sureOf es
  | .call _ _ args => sureOf args
  | .binary _ _ left right => sure left ++ sure right
  | .unary _ _ operand => sure operand
  | .conditional _ condition _ _ => sure condition
  | .shortcut _ condition _ => sure condition
  | .item _ container index =>
    sure container ++ if index.isRepeatable then [] else [index.id]
  | .append _ container => sure container
  | .assign .. => []
  | .incDec .. => []
  | .list _ _ value => sure value
termination_by structural e => e

/-- The indices that are kept for sure of expressions in a row. -/
def sureOf : List Expr → List Nat
  | [] => []
  | e :: rest => sure e ++ sureOf rest
termination_by structural es => es

/-- The indices that are kept for sure of the elements of an array literal. -/
def sureOfElements : List ArrayElement → List Nat
  | [] => []
  | .plain _ value :: rest => sure value ++ sureOfElements rest
  | .keyed _ key value :: rest => sure key ++ sure value ++ sureOfElements rest
termination_by structural es => es

end

/-- An increment finds all that it takes to be kept: no index that has to be kept is in a branch of a
conditional.  Other nodes take nothing to be kept. -/
def isSteady : Expr → Bool
  | .incDec _ _ _ target => target.operands.all fun i => target.sure.contains i
  | _ => true

/-- All increments in an expression find what they take to be kept. -/
def Steady (e : Expr) : Prop :=
  ∀ x ∈ e.subexprs, x.isSteady = true

instance : DecidablePred Steady := fun e =>
  inferInstanceAs (Decidable (∀ x ∈ e.subexprs, x.isSteady = true))

/-- All increments in the elements of an array literal find what they take to be kept. -/
def SteadyElements (es : List ArrayElement) : Prop :=
  ∀ x ∈ subexprsOfElements es, x.isSteady = true

/-- All increments in the targets of a destructuring find what they take to be kept. -/
def SteadyTargets (ts : List ListTarget) : Prop :=
  ∀ x ∈ subexprsOfTargets ts, x.isSteady = true

/-- All increments in expressions in a row find what they take to be kept. -/
def SteadyAll (es : List Expr) : Prop :=
  ∀ x ∈ subexprsOf es, x.isSteady = true

section Parts

variable {tag : ExprTag} {name : String} {span : Span} {e a b c : Expr} {es : List Expr}
  {elems : List ArrayElement} {ts rest : List ListTarget}

theorem Steady.binary {op : BinaryOp} (h : Steady (.binary tag op a b)) : a.Steady ∧ b.Steady :=
  List.forall_mem_append.mp (List.forall_mem_cons.mp h).2

theorem Steady.conditional (h : Steady (.conditional tag c a b)) : c.Steady ∧ a.Steady ∧ b.Steady := by
  obtain ⟨hca, hb⟩ := List.forall_mem_append.mp (List.forall_mem_cons.mp h).2
  obtain ⟨hc, ha⟩ := List.forall_mem_append.mp hca
  exact ⟨hc, ha, hb⟩

theorem Steady.shortcut (h : Steady (.shortcut tag c b)) : c.Steady ∧ b.Steady :=
  List.forall_mem_append.mp (List.forall_mem_cons.mp h).2

theorem Steady.item (h : Steady (.item tag a b)) : a.Steady ∧ b.Steady :=
  List.forall_mem_append.mp (List.forall_mem_cons.mp h).2

theorem Steady.assign (h : Steady (.assign tag a b)) : a.Steady ∧ b.Steady :=
  List.forall_mem_append.mp (List.forall_mem_cons.mp h).2

theorem Steady.list (h : Steady (.list tag ts a)) : SteadyTargets ts ∧ a.Steady :=
  List.forall_mem_append.mp (List.forall_mem_cons.mp h).2

theorem Steady.operand {op : UnaryOp} (h : Steady (.unary tag op a)) : a.Steady :=
  (List.forall_mem_cons.mp h).2

theorem Steady.container (h : Steady (.append tag a)) : a.Steady :=
  (List.forall_mem_cons.mp h).2

theorem Steady.elements (h : Steady (.array tag elems)) : SteadyElements elems :=
  (List.forall_mem_cons.mp h).2

theorem Steady.operands (h : Steady (.concat tag es)) : SteadyAll es :=
  (List.forall_mem_cons.mp h).2

theorem Steady.args (h : Steady (.call tag name es)) : SteadyAll es :=
  (List.forall_mem_cons.mp h).2

/-- An increment takes nothing to be kept that may not be. -/
theorem Steady.incDec {increment post : Bool} (h : Steady (.incDec tag increment post a)) :
    a.operands ⊆ a.sure ∧ a.Steady := by
  obtain ⟨hnode, ha⟩ := List.forall_mem_cons.mp h
  refine ⟨fun i hi => ?_, ha⟩
  simpa using List.all_eq_true.mp hnode i hi

theorem SteadyAll.cons (h : SteadyAll (e :: es)) : e.Steady ∧ SteadyAll es :=
  List.forall_mem_append.mp h

theorem SteadyElements.plain (h : SteadyElements (.plain span a :: elems)) :
    a.Steady ∧ SteadyElements elems :=
  List.forall_mem_append.mp h

theorem SteadyElements.keyed (h : SteadyElements (.keyed span a b :: elems)) :
    a.Steady ∧ b.Steady ∧ SteadyElements elems := by
  obtain ⟨hab, hrest⟩ := List.forall_mem_append.mp h
  obtain ⟨ha, hb⟩ := List.forall_mem_append.mp hab
  exact ⟨ha, hb, hrest⟩

theorem SteadyTargets.leaf (h : SteadyTargets (.leaf a :: rest)) : a.Steady ∧ SteadyTargets rest :=
  List.forall_mem_append.mp h

theorem SteadyTargets.nested (h : SteadyTargets (.nested ts :: rest)) :
    SteadyTargets ts ∧ SteadyTargets rest :=
  List.forall_mem_append.mp h

end Parts

end Expr

/-- All increments in the statements of a routine find what they take to be kept. -/
def Stmt.Steady (body : List Stmt) : Prop :=
  ∀ x ∈ ownOf body, ∀ e ∈ x.exprs, e.Steady

instance : DecidablePred Stmt.Steady := fun body =>
  inferInstanceAs (Decidable (∀ x ∈ Stmt.ownOf body, ∀ e ∈ x.exprs, e.Steady))

end PhpLowering
