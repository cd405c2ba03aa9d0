import PhpLowering.Analysis.Stmt
import PhpLowering.Proofs.Outcome
import PhpLowering.Proofs.Rule.Standard

/-!
# Steps of the analysis that leave the labels alone

While an expression is analysed new nodes are numbered, keys are counted and warnings are
reported, but nothing happens to labels, loops and routines.  `Calm s t` says that the state
`t` can come after `s` in such a way; going into a loop and leaving it is only `Still`.

With the standard registry the analysis of an expression cannot fail.  `Finds x Q` is the
form in which this is used: the computation `x` answers with something that satisfies `Q`, and
the state stays calm.
-/

namespace PhpLowering
namespace Analysis

open Pass (Ends)

variable {α β : Type} {cfg : Setting} {s t u : State} {Q R : α → Prop} {x : Analyze α}

/-- Nothing happens to labels and routines. -/
structure Still (s t : State) : Prop where
  table : s.table.Regular → t.table.Regular
  scope : t.scope = s.scope
  enclosing : t.enclosing = s.enclosing
  labels : t.memory.labels = s.memory.labels
  referenced : t.memory.referenced = s.memory.referenced
  diagnostics : ∀ d ∈ s.diagnostics, d ∈ t.diagnostics

/-- Nothing happens to labels, routines and loops. -/
structure Calm (s t : State) : Prop extends Still s t where
  loops : t.flow.loops = s.flow.loops

namespace Calm

theorem refl (s : State) : Calm s s :=
  ⟨⟨id, rfl, rfl, rfl, rfl, fun _ hd => hd⟩, rfl⟩

theorem trans (h : Calm s t) (h' : Calm t u) : Calm s u where
  table hs := h'.table (h.table hs)
  scope := h'.scope.trans h.scope
  enclosing := h'.enclosing.trans h.enclosing
  labels := h'.labels.trans h.labels
  referenced := h'.referenced.trans h.referenced
  diagnostics d hd := h'.diagnostics d (h.diagnostics d hd)
  loops := h'.loops.trans h.loops

end Calm

theorem calm_report (problem : Problem) (span : Span) (s : State) : Calm s (s.report problem span) :=
  { Calm.refl s with diagnostics := fun _ hd => Array.mem_push_of_mem _ hd }

theorem calm_restore (r : Reachability) (s : State) : Calm s (s.restore r) :=
  { Calm.refl s with }

theorem calm_enterConditional (s : State) : Calm s s.enterConditional :=
  { Calm.refl s with }

theorem calm_leaveConditional (s : State) : Calm s s.leaveConditional :=
  { Calm.refl s with }

theorem calm_withNextId (nextId : Nat) (s : State) : Calm s { s with nextId } :=
  { Calm.refl s with }

/-- A computation answers with something that satisfies a predicate, and changes little. -/
def Finds (x : Analyze α) (Q : α → Prop) : Prop :=
  ∀ s : State, s.table.Regular → Ends x s (fun a t => Calm s t ∧ Q a) fun _ => False

namespace Finds

theorem mono (h : Finds x Q) (hQ : ∀ a, Q a → R a) : Finds x R :=
  fun s hs => (h s hs).mono fun a _ ht => ⟨ht.1, hQ a ht.2⟩

theorem pure {a : α} (h : Q a) : Finds (Pure.pure a) Q :=
  fun s _ => .pure ⟨.refl s, h⟩

theorem peek {f : State → α} (h : ∀ a, Q a) : Finds (Pass.peek f) Q :=
  fun s _ => .peek ⟨.refl s, h _⟩

theorem update {f : State → State} (h : ∀ s, Calm s (f s)) :
    Finds (Pass.update f) fun _ => True :=
  fun s _ => .update ⟨h s, trivial⟩

theorem bind {f : α → Analyze β} {R : β → Prop} (hx : Finds x Q) (hf : ∀ a, Q a → Finds (f a) R) :
    Finds (x >>= f) R := by
  intro s hs
  refine (hx s hs).bind ?_
  rintro a t ⟨hst, ha⟩
  refine (hf a ha t (hst.table hs)).mono ?_
  rintro b u ⟨htu, hb⟩
  exact ⟨hst.trans htu, hb⟩

/-- A computation whose answer does not matter, and another one. -/
theorem andThen {f : α → Analyze β} {R : β → Prop} (hx : Finds x Q) (hf : ∀ a, Finds (f a) R) :
    Finds (x >>= f) R :=
  hx.bind fun a _ => hf a

end Finds

/-! ## Rules -/

/-- A question to the rule table that is answered as long as the table is regular. -/
theorem ends_onTable {q : Pass Fault RuleTable α} (hs : s.table.Regular)
    (h : Ends q s.table (fun a t => Q a ∧ (s.table.Regular → t.Regular))
      fun _ => ¬ s.table.Regular) :
    Ends (onTable q) s (fun a t => Calm s t ∧ Q a) fun _ => False := by
  rcases hrun : q s.table with ⟨result, table⟩
  have heq : onTable q s = (result, { s with table }) := by
    simp only [onTable, hrun]
  unfold Ends
  rw [heq]
  cases result with
  | ok a =>
    obtain ⟨ha, htable⟩ := h.of_ok hrun
    exact ⟨{ Calm.refl s with table := htable }, ha⟩
  | error f => exact h.of_error hrun hs

/-! ## Operands -/

/-- An operand that is no concatenation itself. -/
theorem analyzeOperands_cons {e : Expr} (h : ∀ tag operands, e ≠ .concat tag operands) (rest : List Expr) :
    analyzeOperands cfg (e :: rest) = (do
      let e ← analyze cfg e .read
      return e :: (← analyzeOperands cfg rest)) := by
  cases e with
  | concat tag operands => exact (h tag operands rfl).elim
  | _ => rw [analyzeOperands]; exact h

end Analysis
end PhpLowering
