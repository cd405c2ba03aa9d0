import PhpLowering.Proofs.Outcome
import PhpLowering.Rule.Memory

/-!
# The standard registry

With the standard registry every node gets the rule made for its kind.  The table could
stand in the way: a number that is attached to a node of one kind is refused to a node of
another.  But only array literals and labels are ever attached, so this does not happen as
long as the table is `Regular`, and looking up rules keeps it so.
-/

namespace PhpLowering
namespace RuleTable

open Pass (Ends)

/-- The home of the memory of an expression's rule. -/
def exprHome (kind : ExprKind) (id : Nat) : Home ExprKind :=
  RuleTable.homeOf kind.hasMemory (!kind.hasMemory) kind id

/-- The home of the memory of a statement's rule. -/
def stmtHome (kind : StmtKind) (id : Nat) : Home StmtKind :=
  RuleTable.homeOf kind.hasMemory (!kind.hasMemory) kind id

/-- Only nodes of one kind are attached to their rules. -/
def OnlyKind {κ : Type} (kind : κ) (seen : Std.HashMap Nat κ) : Prop :=
  ∀ (id : Nat) (k : κ), seen[id]? = some k → k = kind

/-- Where only one kind of rule has a memory of its own, a node always gets the rule made for it. -/
theorem ends_lookup {κ : Type} [DecidableEq κ] (kinds : κ → NodeKind) (hasMemory : κ → Bool)
    (own kind : κ) (id : Nat) (seen : Std.HashMap Nat κ) (hown : ∀ k, hasMemory k = true → k = own) :
    Ends (RuleTable.lookup kinds hasMemory (some ⟨kind, !hasMemory kind⟩) kind id) seen
      (fun handle seen' => handle = ⟨kind, RuleTable.homeOf (hasMemory kind) (!hasMemory kind) kind id⟩ ∧
        (OnlyKind own seen → OnlyKind own seen'))
      fun _ => ¬ OnlyKind own seen := by
  by_cases hm : hasMemory kind = true
  · have hkind : kind = own := hown kind hm
    cases hseen : seen[id]? with
    | some attached =>
      have hattach : RuleTable.attach seen id kind = (attached, seen) := by
        simp only [RuleTable.attach, hseen]
      by_cases hsame : attached = kind
      · refine .intro (fun handle seen' h => ?_) (fun e seen' h => ?_)
        · simp only [RuleTable.lookup, hm, hattach, if_pos hsame] at h
          obtain ⟨h₁, rfl⟩ := Prod.mk.inj h
          exact ⟨by simpa [hm] using (Except.ok.inj h₁).symm, fun honly => honly⟩
        · simp only [RuleTable.lookup, hm, hattach, if_pos hsame] at h
          exact nomatch h
      · refine .intro (fun handle seen' h => ?_) (fun e seen' h => ?_)
        · simp only [RuleTable.lookup, hm, hattach, if_neg hsame] at h
          exact nomatch h
        · exact fun honly => hsame ((honly id attached hseen).trans hkind.symm)
    | none =>
      have hattach : RuleTable.attach seen id kind = (kind, seen.insert id kind) := by
        simp only [RuleTable.attach, hseen]
      refine .intro (fun handle seen' h => ?_) (fun e seen' h => ?_)
      · simp only [RuleTable.lookup, hm, hattach, if_pos] at h
        obtain ⟨h₁, rfl⟩ := Prod.mk.inj h
        refine ⟨by simpa [hm] using (Except.ok.inj h₁).symm, fun honly id' k hk => ?_⟩
        rw [Std.HashMap.getElem?_insert] at hk
        split at hk
        · exact (Option.some.inj hk).symm.trans hkind
        · exact honly id' k hk
      · simp only [RuleTable.lookup, hm, hattach, if_pos] at h
        exact nomatch h
  · have hm' : hasMemory kind = false := by simpa using hm
    refine .of_eq (t := seen) ?_ ⟨rfl, fun honly => honly⟩
    simp [RuleTable.lookup, hm']

/-- The numbers that are attached stand for arrays and labels only. -/
def Regular (t : RuleTable) : Prop :=
  OnlyKind .array t.exprs ∧ OnlyKind .label t.stmts

theorem regular_empty : ({} : RuleTable).Regular := by
  constructor
  all_goals
    intro id k hk
    rw [Std.HashMap.getElem?_empty] at hk
    exact nomatch hk

/-- An expression gets the rule made for its kind. -/
theorem ends_expr (t : RuleTable) (kind : ExprKind) (id : Nat) :
    Ends (RuleTable.expr .standard kind id) t
      (fun handle t' => handle = ⟨kind, exprHome kind id⟩ ∧ (t.Regular → t'.Regular))
      fun _ => ¬ t.Regular := by
  have hlookup := ends_lookup .expr ExprKind.hasMemory .array kind id t.exprs
    fun k hk => by simpa [ExprKind.hasMemory] using hk
  rcases hl : lookup .expr ExprKind.hasMemory (Registry.standard.expr kind) kind id t.exprs
    with ⟨result, exprs⟩
  have hrun : RuleTable.expr .standard kind id t = (result, { t with exprs }) := by
    simp only [RuleTable.expr, hl]
  unfold Ends
  rw [hrun]
  cases result with
  | ok handle =>
    obtain ⟨hhandle, honly⟩ := hlookup.of_ok hl
    exact ⟨hhandle, fun ht => ⟨honly ht.1, ht.2⟩⟩
  | error e => exact fun ht => hlookup.of_error hl ht.1

/-- A statement gets the rule made for its kind. -/
theorem ends_stmt (t : RuleTable) (kind : StmtKind) (id : Nat) :
    Ends (RuleTable.stmt .standard kind id) t
      (fun handle t' => handle = ⟨kind, stmtHome kind id⟩ ∧ (t.Regular → t'.Regular))
      fun _ => ¬ t.Regular := by
  have hlookup := ends_lookup .stmt StmtKind.hasMemory .label kind id t.stmts
    fun k hk => by simpa [StmtKind.hasMemory] using hk
  rcases hl : lookup .stmt StmtKind.hasMemory (Registry.standard.stmt kind) kind id t.stmts
    with ⟨result, stmts⟩
  have hrun : RuleTable.stmt .standard kind id t = (result, { t with stmts }) := by
    simp only [RuleTable.stmt, hl]
  unfold Ends
  rw [hrun]
  cases result with
  | ok handle =>
    obtain ⟨hhandle, honly⟩ := hlookup.of_ok hl
    exact ⟨hhandle, fun ht => ⟨ht.1, honly ht.2⟩⟩
  | error e => exact fun ht => hlookup.of_error hl ht.2

/-- A regular table answers for every expression. -/
theorem exists_expr {t : RuleTable} (ht : t.Regular) (kind : ExprKind) (id : Nat) :
    ∃ t', RuleTable.expr .standard kind id t = (.ok ⟨kind, exprHome kind id⟩, t') ∧ t'.Regular := by
  have hends := ends_expr t kind id
  rcases hrun : RuleTable.expr .standard kind id t with ⟨r, t'⟩
  cases r with
  | ok handle =>
    obtain ⟨rfl, hregular⟩ := hends.of_ok hrun
    exact ⟨t', rfl, hregular ht⟩
  | error f => exact (hends.of_error hrun ht).elim

/-- A regular table answers for every statement. -/
theorem exists_stmt {t : RuleTable} (ht : t.Regular) (kind : StmtKind) (id : Nat) :
    ∃ t', RuleTable.stmt .standard kind id t = (.ok ⟨kind, stmtHome kind id⟩, t') ∧ t'.Regular := by
  have hends := ends_stmt t kind id
  rcases hrun : RuleTable.stmt .standard kind id t with ⟨r, t'⟩
  cases r with
  | ok handle =>
    obtain ⟨rfl, hregular⟩ := hends.of_ok hrun
    exact ⟨t', rfl, hregular ht⟩
  | error f => exact (hends.of_error hrun ht).elim

end RuleTable
end PhpLowering
