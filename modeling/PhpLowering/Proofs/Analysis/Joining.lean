import Mathlib.Data.List.Forall2
import PhpLowering.Proofs.Analysis.Evaluations

/-!
# Concatenations that are joined ahead of time

The operands of a concatenation are evaluated one by one, those of nested concatenations among
them, and then put together in runs.  Runs keep what is left to run time (`flatMap_runNodes`), and
join known operands to one with their bytes (`runs_of_bytes`); a concatenation in which nothing is
left to run time is therefore a single known run.  The operands that stand for the runs are what is
left to run time with literals put among it (`interspersed_runs`).
-/

namespace PhpLowering
namespace Analysis

open Expr (effects effectsOf)

variable {cfg : Setting} {declared : List (String × Literal)} {tag tag' : ExprTag}

/-- The nodes among evaluations that are left to run time. -/
def residuals : List Evaluation → List Expr
  | [] => []
  | .value _ _ :: rest => residuals rest
  | .residual node :: rest => node :: residuals rest

/-- The nodes in a run. -/
def runNodes : Concat.Run → List Expr
  | .value .. => []
  | .residual nodes => nodes

/-- The bytes of evaluations that all have a value. -/
def bytesOf? : List Evaluation → Option (List UInt8)
  | [] => some []
  | ev :: rest => ev.value?.bind fun v => (bytesOf? rest).map (v.toBytes ++ ·)

theorem flatMap_runNodes_push (ev : Evaluation) (runs : List Concat.Run) :
    (Concat.push ev runs).flatMap runNodes = residuals [ev] ++ runs.flatMap runNodes := by
  cases ev with
  | value v node =>
    simp only [Concat.push]
    split
    · rfl
    · split <;> rfl
  | residual node =>
    simp only [Concat.push]
    split <;> rfl

theorem residuals_cons (ev : Evaluation) (rest : List Evaluation) :
    residuals (ev :: rest) = residuals [ev] ++ residuals rest := by
  cases ev <;> rfl

theorem residuals_append (evs evs' : List Evaluation) :
    residuals (evs ++ evs') = residuals evs ++ residuals evs' := by
  induction evs with
  | nil => rfl
  | cons ev rest ih => cases ev <;> simp [residuals, ih]

/-- Runs keep what is left to run time, in its order. -/
theorem flatMap_runNodes (evs : List Evaluation) (fold : Bool) :
    (Concat.runs evs fold).flatMap runNodes = residuals evs := by
  have hpush : (evs.foldr Concat.push []).flatMap runNodes = residuals evs := by
    induction evs with
    | nil => rfl
    | cons ev rest ih => rw [List.foldr_cons, flatMap_runNodes_push, ih, ← residuals_cons]
  unfold Concat.runs
  split
  · split
    · rename_i hnil
      rw [hnil] at hpush
      exact hpush
    · exact hpush
  · clear hpush
    induction evs with
    | nil => rfl
    | cons ev rest ih =>
      rw [List.map_cons, List.flatMap_cons, ih, residuals_cons]
      cases ev <;> rfl

/-- Known operands are joined to one run with their bytes, or to none if there are no bytes. -/
def Joined (bytes : List UInt8) (runs : List Concat.Run) : Prop :=
  (runs = [] ∧ bytes = []) ∨
    ∃ v span, runs = [.value v span] ∧ v.isString = true ∧ v.toBytes = bytes

theorem joined_push {bytes : List UInt8} {runs : List Concat.Run} (h : Joined bytes runs) (v : Literal)
    (node : Expr) : Joined (v.toBytes ++ bytes) (Concat.push (.value v node) runs) := by
  simp only [Concat.push]
  split
  · rename_i hempty
    rwa [Literal.toBytes_of_isEmptyText hempty]
  · rcases h with ⟨rfl, rfl⟩ | ⟨w, span, rfl, -, rfl⟩
    · refine Or.inr ⟨_, _, rfl, Literal.isString_concat _ _, ?_⟩
      exact Literal.toBytes_concat v (.string "")
    · exact Or.inr ⟨_, _, rfl, Literal.isString_concat _ _, Literal.toBytes_concat _ _⟩

theorem runs_of_bytes {evs : List Evaluation} {bytes : List UInt8} (h : bytesOf? evs = some bytes) :
    ∃ v span, Concat.runs evs true = [.value v span] ∧ v.isString = true ∧ v.toBytes = bytes := by
  have hjoined : Joined bytes (evs.foldr Concat.push []) := by
    induction evs generalizing bytes with
    | nil => exact Or.inl ⟨rfl, (Option.some_inj.mp h).symm⟩
    | cons ev rest ih =>
      rw [bytesOf?] at h
      obtain ⟨v, hv, h⟩ := Option.bind_eq_some_iff.mp h
      obtain ⟨b, hb, rfl⟩ := Option.map_eq_some_iff.mp h
      cases ev with
      | residual node => exact nomatch hv
      | value w node =>
        cases hv
        exact joined_push (ih hb) v node
  rcases hjoined with ⟨hruns, rfl⟩ | ⟨v, span, hruns, hv⟩
  · exact ⟨.string "", Concat.wholeSpan evs, by simp [Concat.runs, hruns], rfl, rfl⟩
  · exact ⟨v, span, by simp [Concat.runs, hruns], hv⟩

theorem residuals_of_bytes {evs : List Evaluation} : residuals evs = [] ↔ (bytesOf? evs).isSome = true := by
  induction evs with
  | nil => exact ⟨fun _ => rfl, fun _ => rfl⟩
  | cons ev rest ih =>
    cases ev with
    | value v node => simpa [residuals, bytesOf?, Evaluation.value?] using ih
    | residual node => simp [residuals, bytesOf?, Evaluation.value?]

/-! ## What the operands of the runs are -/

/-- The expressions on the left are those on the right with literals put among them. -/
inductive Interspersed : List Expr → List Expr → Prop where
  | nil : Interspersed [] []
  | literal {tag v es es'} (htag : tag.access = .read) (h : Interspersed es es') :
    Interspersed (.literal tag v :: es) es'
  | cons {e es es'} (h : Interspersed es es') : Interspersed (e :: es) (e :: es')

namespace Interspersed

variable {e : Expr} {es es' : List Expr}

theorem append_left (nodes : List Expr) (h : Interspersed es es') : Interspersed (nodes ++ es) (nodes ++ es') := by
  induction nodes with
  | nil => exact h
  | cons node rest ih => exact .cons ih

theorem subset (h : Interspersed es es') : es' ⊆ es := by
  induction h with
  | nil => exact List.Subset.refl _
  | literal _ _ ih => exact List.Subset.trans ih (List.subset_cons_self _ _)
  | cons _ ih => exact List.cons_subset_cons _ ih

/-- Literals have no effects. -/
theorem effectsOf_eq {decided : Expr → Option Bool} (h : Interspersed es es') :
    effectsOf decided es = effectsOf decided es' := by
  induction h with
  | nil => rfl
  | literal _ _ ih => exact Expr.effectsOf_cons.trans ih
  | cons _ ih => rw [Expr.effectsOf_cons, ih, Expr.effectsOf_cons]

end Interspersed

theorem interspersed_operands (runs : List Concat.Run) (nextId : Nat) :
    Interspersed (Concat.operands runs nextId).1 (runs.flatMap runNodes) := by
  induction runs generalizing nextId with
  | nil => exact .nil
  | cons run rest ih =>
    rw [List.flatMap_cons]
    cases run with
    | value v span => exact .literal rfl (ih (nextId + 1))
    | residual nodes => exact (ih nextId).append_left nodes

theorem interspersed_runs (evs : List Evaluation) (fold : Bool) (nextId : Nat) :
    Interspersed (Concat.operands (Concat.runs evs fold) nextId).1 (residuals evs) :=
  flatMap_runNodes evs fold ▸ interspersed_operands _ nextId

/-! ## Faithful operands -/

section Operands

variable {es : List Expr} {evs : List Evaluation}

theorem effectsOf_residuals (h : List.Forall₂ (Faithful cfg declared) es evs) :
    effectsOf (settled cfg declared) (residuals evs) = effectsOf (settled cfg declared) es := by
  induction h with
  | nil => rfl
  | @cons e ev es evs h _ ih =>
    rw [Expr.effectsOf_cons, ← ih]
    cases ev with
    | value v node => rw [h.pure rfl]; rfl
    | residual node => rw [residuals, Expr.effectsOf_cons]; exact congrArg (· ++ _) (h.residual rfl).1

theorem bytesOf?_eq (hfold : cfg.options.foldConstants = true)
    (h : List.Forall₂ (Faithful cfg declared) es evs) :
    bytesOf? evs = Expr.bytes? (known cfg declared) es := by
  induction h with
  | nil => rfl
  | @cons e ev es evs h _ ih =>
    have hvalue := h.value
    rw [worth_of_fold hfold] at hvalue
    rw [bytesOf?, Expr.bytes?, ih]
    revert hvalue
    generalize ev.value? = o
    generalize e.eval? (known cfg declared) = o'
    rintro (halike | _)
    · simp only [Option.bind_some, halike.toBytes]
    · rfl

theorem eval?_of_mem_residuals (hfold : cfg.options.foldConstants = true)
    (h : List.Forall₂ (Faithful cfg declared) es evs) :
    ∀ node ∈ residuals evs, node.eval? (known cfg declared) = none := by
  induction h with
  | nil => nofun
  | @cons e ev es evs h _ ih =>
    cases ev with
    | value v node => exact ih
    | residual node => exact List.forall_mem_cons.mpr ⟨(h.residual rfl).2 hfold, ih⟩

/-- Unless all operands are folded, a concatenation of what is left takes the place of the one that there was. -/
theorem joinOperands_eq_rebuild (h : cfg.options.foldConstants = true → residuals evs ≠ []) :
    joinOperands cfg tag' evs = joinOperands.rebuild tag' (Concat.runs evs cfg.options.foldConstants) := by
  unfold joinOperands
  dsimp only
  split
  · rename_i v span hruns
    split
    · rename_i hfold
      refine absurd ?_ (h hfold)
      rw [← flatMap_runNodes evs cfg.options.foldConstants, hruns]
      rfl
    · rw [hruns]
  · rfl

theorem effectsOf_residuals_flatten (h : List.Forall₂ (Faithful cfg declared) (Concat.flatten es) evs) :
    effectsOf (settled cfg declared) (residuals evs) = effects (settled cfg declared) (.concat tag es) := by
  rw [effectsOf_residuals h, Expr.effectsOf_flatten, Expr.effects_concat]

theorem effects_rebuilt (h : List.Forall₂ (Faithful cfg declared) (Concat.flatten es) evs) (nextId : Nat) :
    effects (settled cfg declared)
      (.concat tag' (Concat.operands (Concat.runs evs cfg.options.foldConstants) nextId).1) =
        effects (settled cfg declared) (.concat tag es) := by
  rw [Expr.effects_concat, (interspersed_runs evs _ nextId).effectsOf_eq, effectsOf_residuals_flatten h]

theorem bytesOf?_flatten (hfold : cfg.options.foldConstants = true)
    (h : List.Forall₂ (Faithful cfg declared) (Concat.flatten es) evs) :
    bytesOf? evs = ((Expr.concat tag es).eval? (known cfg declared)).map Literal.toBytes := by
  rw [bytesOf?_eq hfold h, Expr.bytes?_flatten, Expr.eval?_concat_map_toBytes]

/-- A concatenation of operands that all have a value. -/
theorem keeps_joinOperands_value (hfold : cfg.options.foldConstants = true)
    (h : List.Forall₂ (Faithful cfg declared) (Concat.flatten es) evs) {w : Literal}
    (heval : (Expr.concat tag es).eval? (known cfg declared) = some w) :
    Keeps declared (joinOperands cfg tag' evs) (Faithful cfg declared (.concat tag es)) := by
  have hbytes : bytesOf? evs = ((Expr.concat tag es).eval? (known cfg declared)).map Literal.toBytes :=
    bytesOf?_flatten hfold h
  rw [heval, Option.map_some] at hbytes
  obtain ⟨v, span, hruns, hstring, htoBytes⟩ := runs_of_bytes hbytes
  have hjoin : joinOperands cfg tag' evs = Pass.transform fun s =>
      (.value v (.literal { tag' with id := nodeId s.nextId } v), { s with nextId := s.nextId + 1 }) := by
    simp only [joinOperands, hfold, hruns, if_true]
  rw [hjoin]
  refine fun s hs => .transform ⟨⟨hs.table, hs.constants⟩, ⟨?_, fun _ => ?_, nofun, ?_⟩⟩
  · rw [worth_of_fold hfold, heval]
    exact .some (Literal.alike_of_toBytes hstring (Expr.isString_of_eval?_concat heval) htoBytes)
  · rw [← effectsOf_residuals_flatten h, residuals_of_bytes.mpr (by rw [hbytes]; rfl)]
    rfl
  · rintro u tag u' hu
    cases hu
    rfl

/-- A concatenation of operands of which some are left to run time. -/
theorem keeps_joinOperands_residual (hfold : cfg.options.foldConstants = true)
    (h : List.Forall₂ (Faithful cfg declared) (Concat.flatten es) evs)
    (heval : (Expr.concat tag es).eval? (known cfg declared) = none) :
    Keeps declared (joinOperands cfg tag' evs) (Faithful cfg declared (.concat tag es)) := by
  have hbytes : bytesOf? evs = ((Expr.concat tag es).eval? (known cfg declared)).map Literal.toBytes :=
    bytesOf?_flatten hfold h
  rw [heval, Option.map_none] at hbytes
  have hne : residuals evs ≠ [] := fun hnil => by
    rw [residuals_of_bytes, hbytes] at hnil
    exact nomatch hnil
  obtain ⟨node, hnode⟩ := List.exists_mem_of_ne_nil _ hne
  rw [joinOperands_eq_rebuild fun _ => hne]
  refine fun s hs => .transform ⟨⟨hs.table, hs.constants⟩, ?_⟩
  refine .atRunTime (effects_rebuilt h _) (fun _ => heval) (fun _ => ?_) rfl
  have hmem := (interspersed_runs evs cfg.options.foldConstants s.nextId).subset hnode
  have hnone := Expr.bytes?_eq_none_of_mem hmem (eval?_of_mem_residuals hfold h node hnode)
  rw [← Expr.eval?_concat_map_toBytes tag'] at hnone
  exact Option.map_eq_none_iff.mp hnone

/-- **A concatenation is folded if all its operands are, and otherwise leaves the others in order.** -/
theorem keeps_joinOperands (h : List.Forall₂ (Faithful cfg declared) (Concat.flatten es) evs) :
    Keeps declared (joinOperands cfg tag' evs) (Faithful cfg declared (.concat tag es)) := by
  by_cases hfold : cfg.options.foldConstants = true
  · cases heval : (Expr.concat tag es).eval? (known cfg declared) with
    | some w => exact keeps_joinOperands_value hfold h heval
    | none => exact keeps_joinOperands_residual hfold h heval
  · rw [joinOperands_eq_rebuild fun hfold' => absurd hfold' hfold]
    refine fun s hs => .transform ⟨⟨hs.table, hs.constants⟩, ?_⟩
    exact .unfolded hfold (effects_rebuilt h s.nextId) rfl

end Operands

end Analysis
end PhpLowering
