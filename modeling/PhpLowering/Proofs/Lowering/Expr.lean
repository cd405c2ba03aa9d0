import PhpLowering.Lowering.Expr
import PhpLowering.Proofs.Lowering.Assignment
import PhpLowering.Proofs.Lowering.Operator

/-!
# What the code of an expression does to the stack

**`fulfils_lower`**: the code of every expression does what is asked of it in every role that
the expression can serve in.  The induction follows the recursion of `lower`; every case is
the lemma about the definition that puts the code together.
-/

namespace PhpLowering

/-- What is no location is evaluated for its value or for nothing. -/
theorem Expr.Serves.access_of_value {E : CompileError → Prop} {e : Expr} (h : e.Serves E .value)
    (hplace : ¬ e.isPlace = true) : e.access = .none ∨ e.access = .read := by
  rcases h.1.1 with h | h | ⟨h, -⟩
  · exact Or.inl h
  · exact Or.inr h
  · exact (hplace h).elim

namespace Lowering

variable {E : CompileError → Prop} {cfg : Setting}

/-- The branches of a conditional have a value if the conditional has one. -/
theorem Fulfils.branch {e : Expr} {code : Code Chunk} {access : Access} (h : Fulfils E e code)
    (hs : Granted E (e.Serves E (.ofBranch access))) :
    Yields E (access ≠ .none) (code .value) := by
  by_cases hnone : access = .none
  · rw [Role.ofBranch, if_pos hnone] at hs
    exact (h.value hs).mono (.mk fun hne => (hne hnone).elim)
  · rw [Role.ofBranch, if_neg hnone] at hs
    exact (h.operand hs).mono (.mk fun _ => trivial)

mutual

/-- **The code of an expression serves in all its roles.** -/
theorem fulfils_lower (hE : Tolerates E) (hcfg : cfg.registry = .standard) :
    ∀ e : Expr, Fulfils E e (lower cfg e)
  | .literal tag v => by
    rw [lower]
    refine .byRule hcfg fun _ => .ofValue nofun fun hs => ?_
    exact yields_literal hE v (hs.imp fun hs => hs.access_of_value nofun)
  | .constant tag name => by
    rw [lower]
    exact .byRule hcfg fun _ => .ofValue nofun fun _ => yields_constant name
  | .var tag name => by
    rw [lower]
    exact .byRule hcfg fun _ => Place.Meets.fulfils (e := .var tag name) rfl fun _ =>
      variablePlace_meets tag name
  | .item tag container index => by
    rw [lower]
    refine .byRule hcfg fun _ => Place.Meets.fulfils (e := .item tag container index) rfl fun hs => ?_
    have hc := fulfils_lower hE hcfg container
    have hi := fulfils_lower hE hcfg index
    exact itemPlace_meets (hc.containerRead (hs.imp fun hs => hs.1))
      (hc.arrayForWrite (hs.imp fun hs => hs.1))
      (moves_chainOperand hE index (hi.boxes (hs.imp fun hs => hs.2)))
  | .append tag container => by
    rw [lower]
    refine .byRule hcfg fun _ => Place.Meets.fulfils (e := .append tag container) rfl fun hs => ?_
    exact appendPlace_meets ((fulfils_lower hE hcfg container).arrayForWrite hs)
  | .array tag elements => by
    rw [lower]
    refine .byRule hcfg fun home => .ofValue nofun fun hs => ?_
    exact yields_array home (moves_storeElements hE hcfg elements (hs.imp fun hs => hs.2))
  | .concat tag operands => by
    rw [lower]
    refine .byRule hcfg fun _ => .ofValue nofun fun hs => ?_
    exact yields_concat hE (yields_lowerAll hE hcfg operands (hs.imp fun hs => hs.2))
  | .binary tag op left right => by
    rw [lower]
    refine .byRule hcfg fun _ => .ofValue nofun fun hs => ?_
    exact yields_binary op ((fulfils_lower hE hcfg left).boxes (hs.imp fun hs => hs.2.1))
      ((fulfils_lower hE hcfg right).boxes (hs.imp fun hs => hs.2.2))
  | .unary tag op operand => by
    rw [lower]
    refine .byRule hcfg fun _ => .ofValue nofun fun hs => ?_
    have ho := fulfils_lower hE hcfg operand
    by_cases hop : op = .silence
    · have hparts := hs.imp fun hs => hs.parts_of_value
      simp only [Expr.Parts, if_pos hop] at hparts
      rw [hop]
      refine yields_silence ((ho.value (hparts.imp fun h => h.1)).mono (hparts.imp fun h hne => ?_))
      exact fun hnone => hne (h.2 hnone)
    · have hparts := hs.imp fun hs => hs.parts_of_value
      simp only [Expr.Parts, if_neg hop] at hparts
      exact yields_unary hE hop (ho.operand hparts)
  | .incDec tag increment post target => by
    rw [lower]
    refine .byRule hcfg fun _ => .ofValue nofun fun hs => ?_
    have htarget : Granted E (target.Serves E .updated) := hs.imp fun hs => hs.2
    have ht := fulfils_lower hE hcfg target
    exact yields_incDec hE hcfg (hs.imp fun hs => hs.access_of_value nofun) increment post
      (ht.target (htarget.imp fun h => h.imp fun h => h.2)) (ht.updated htarget) htarget
  | .conditional tag condition ifTrue ifFalse => by
    rw [lower]
    refine .byRule hcfg fun _ => .ofValue nofun fun hs => ?_
    exact yields_conditional ((fulfils_lower hE hcfg condition).operand (hs.imp fun hs => hs.2.1))
      ((fulfils_lower hE hcfg ifTrue).branch (hs.imp fun hs => hs.2.2.1))
      ((fulfils_lower hE hcfg ifFalse).branch (hs.imp fun hs => hs.2.2.2))
  | .shortcut tag condition ifFalse => by
    rw [lower]
    refine .byRule hcfg fun _ => .ofValue nofun fun hs => ?_
    exact yields_shortcut ((fulfils_lower hE hcfg condition).operand (hs.imp fun hs => hs.2.1))
      ((fulfils_lower hE hcfg ifFalse).branch (hs.imp fun hs => hs.2.2))
  | .list tag targets value => by
    rw [lower]
    refine .byRule hcfg fun _ => .ofValue nofun fun hs => ?_
    have htargets : Granted E (Expr.PartsOfTargets E targets) := hs.imp fun hs => hs.2.1
    exact yields_list ((fulfils_lower hE hcfg value).boxes (hs.imp fun hs => hs.2.2))
      (moves_unpack (moves_assignElements hE hcfg targets htargets 0)
        (moves_assignNulls hE hcfg targets htargets))
  | .assign tag target value => by
    rw [lower]
    refine .byRule hcfg fun _ => .ofValue nofun fun hs => ?_
    exact yields_assign hE value ((fulfils_lower hE hcfg target).target (hs.imp fun hs => hs.2.1))
      ((fulfils_lower hE hcfg value).boxes (hs.imp fun hs => hs.2.2))
  | .call tag name args => by
    rw [lower]
    refine .byRule hcfg fun _ => .ofValue nofun fun hs => ?_
    exact yields_call hE name (yields_lowerAll hE hcfg args (hs.imp fun hs => hs.2))
termination_by structural e => e

theorem yields_lowerAll (hE : Tolerates E) (hcfg : cfg.registry = .standard) :
    ∀ es : List Expr, Granted E (Expr.PartsOf E es) →
      ∀ p ∈ lowerAll (σ := Chunk) cfg es, Yields E True (p.2 .value)
  | [], _ => by
    rw [lowerAll]
    nofun
  | e :: rest, hs => by
    rw [lowerAll]
    intro p hp
    rcases List.mem_cons.mp hp with rfl | hp
    · exact (fulfils_lower hE hcfg e).operand (hs.imp fun hs => hs.1)
    · exact yields_lowerAll hE hcfg rest (hs.imp fun hs => hs.2) p hp
termination_by structural es => es

theorem moves_storeElements (hE : Tolerates E) (hcfg : cfg.registry = .standard) :
    ∀ es : List ArrayElement, Granted E (Expr.PartsOfElements E es) →
      ∀ S, Moves E (.boxed :: S) (storeElements cfg es) fun _ S' => S' = .boxed :: S
  | [], _, S => by
    rw [storeElements]
    exact .pure rfl
  | .plain _ value :: rest, hs, S => by
    rw [storeElements]
    have hv := (fulfils_lower hE hcfg value).boxes (hs.imp fun hs => hs.1)
    refine (moves_storePlain value hv S).andThen fun _ => ?_
    exact moves_storeElements hE hcfg rest (hs.imp fun hs => hs.2) S
  | .keyed _ key value :: rest, hs, S => by
    rw [storeElements]
    have hk := (fulfils_lower hE hcfg key).boxes (hs.imp fun hs => hs.1)
    have hv := (fulfils_lower hE hcfg value).boxes (hs.imp fun hs => hs.2.1)
    refine (moves_storeKeyed value hk hv S).andThen fun _ => ?_
    exact moves_storeElements hE hcfg rest (hs.imp fun hs => hs.2.2) S
termination_by structural es => es

theorem moves_assignElements (hE : Tolerates E) (hcfg : cfg.registry = .standard) :
    ∀ es : List ListTarget, Granted E (Expr.PartsOfTargets E es) → ∀ index S,
      Moves E (.boxed :: S) (assignElements cfg index es) fun _ S' => S' = .boxed :: S
  | [], _, index, S => by
    rw [assignElements]
    exact .pure rfl
  | .skip :: rest, hs, index, S => by
    rw [assignElements]
    exact moves_assignElements hE hcfg rest hs (index + 1) S
  | .leaf target :: rest, hs, index, S => by
    rw [assignElements]
    have ht := (fulfils_lower hE hcfg target).target (hs.imp fun hs => hs.1)
    refine (moves_assignElements hE hcfg rest (hs.imp fun hs => hs.2) (index + 1) S).andThen
      fun _ => ?_
    exact moves_assignElement hE index ht S
  | .nested targets :: rest, hs, index, S => by
    rw [assignElements]
    have htargets : Granted E (Expr.PartsOfTargets E targets) := hs.imp fun hs => hs.1
    refine (moves_assignElements hE hcfg rest (hs.imp fun hs => hs.2) (index + 1) S).andThen
      fun _ => ?_
    refine (moves_fetch hE index S).andThen fun _ => ?_
    exact moves_unpack (moves_assignElements hE hcfg targets htargets 0)
      (moves_assignNulls hE hcfg targets htargets) _
termination_by structural es => es

theorem moves_assignNulls (hE : Tolerates E) (hcfg : cfg.registry = .standard) :
    ∀ es : List ListTarget, Granted E (Expr.PartsOfTargets E es) → ∀ S,
      Moves E S (assignNulls cfg es) fun _ S' => S' = S
  | [], _, S => by
    rw [assignNulls]
    exact .pure rfl
  | .skip :: rest, hs, S => by
    rw [assignNulls]
    exact moves_assignNulls hE hcfg rest hs S
  | .leaf target :: rest, hs, S => by
    rw [assignNulls]
    have ht := (fulfils_lower hE hcfg target).target (hs.imp fun hs => hs.1)
    refine (moves_assignNulls hE hcfg rest (hs.imp fun hs => hs.2) S).andThen fun _ => ?_
    exact moves_assignNull hE ht S
  | .nested targets :: rest, hs, S => by
    rw [assignNulls]
    refine (moves_assignNulls hE hcfg rest (hs.imp fun hs => hs.2) S).andThen fun _ => ?_
    exact moves_assignNulls hE hcfg targets (hs.imp fun hs => hs.1) S
termination_by structural es => es

end

end Lowering
end PhpLowering
