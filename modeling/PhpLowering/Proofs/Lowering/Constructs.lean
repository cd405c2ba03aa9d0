import PhpLowering.Lowering.Stmt
import PhpLowering.Proofs.Lowering.Expr
import PhpLowering.Proofs.Lowering.Regions

/-!
# What stands before and behind the parts of a statement

A branch, a loop or a `try` has code of its own in front of its parts, between them and
behind them.  For each of these pieces there is one lemma: it takes the scene around the
statement to the scene around the part, or back.  The scenes are `Scene.addLabel` for a
branch, `Scene.inLoop` for a loop and `Scene.inRegion` for a `try`.
-/

namespace PhpLowering
namespace Lowering

open Pass (Ends)

variable {E : CompileError → Prop} {c : Scene} {S : List Slot} {s : State Chunk} {l : Label}
  {cfg : Setting}

/-! ## Any statement -/

theorem ends_reporting (hE : Tolerates E) {x : Emit Chunk Unit} {span : Span}
    {Q : Unit → State Chunk → Prop} (h : Ends x s Q E) : Ends (reporting span x) s Q E := by
  rcases hx : x s with ⟨result, t⟩
  cases result with
  | ok a =>
    refine .of_eq (a := a) (t := t) ?_ (h.of_ok hx)
    simp only [Lowering.reporting, hx]
  | error e =>
    have hEe : E e := h.of_error hx
    refine .intro (fun a u hu => ?_) (fun e' u hu => ?_)
    · simp only [Lowering.reporting, hx] at hu
      split at hu <;> exact nomatch hu
    · simp only [Lowering.reporting, hx] at hu
      split at hu
      · exact Except.error.inj (Prod.mk.inj hu).1 ▸ hEe
      · exact Except.error.inj (Prod.mk.inj hu).1 ▸ hE.reported span e hEe

/-- A statement is handled by the rule made for its kind. -/
theorem Ready.statement (hs : Ready E c S s) (hE : Tolerates E) (hcfg : cfg.registry = .standard)
    {kind : StmtKind} {tag : StmtTag} {code : Home StmtKind → Emit Chunk Unit}
    {Q : Unit → State Chunk → Prop}
    (h : ∀ t, Ready E c S t → Ends (code (RuleTable.stmtHome kind tag.id)) t Q E) :
    Ends (statement cfg kind tag code) s Q E := by
  have hrule : ∀ t, Ready E c S t →
      Ends (Lowering.reporting tag.span (byStmtRule cfg kind tag code)) t Q E := by
    intro t ht
    refine ends_reporting hE ?_
    unfold byStmtRule
    rw [hcfg]
    refine (ht.onTable (RuleTable.ends_stmt t.table kind tag.id)).bind ?_
    rintro handle u ⟨rfl, hu⟩
    rw [if_pos rfl]
    exact h u hu
  unfold Lowering.statement
  split
  · exact Ends.bind (Q := fun _ t => Ready E c S t) (.update (hs.withPoint tag.span))
      fun _ t ht => hrule t ht
  · exact hrule s hs

/-! ## Branches -/

theorem Ready.branchHead (hs : Ready E c [] s) (hE : Tolerates E) (hcfg : cfg.registry = .standard)
    {condition : Expr} (hc : Granted E (condition.Serves E .operand)) :
    Ends (Lowering.branchHead cfg condition) s (fun l t => Ready E (c.addLabel l []) [] t) E := by
  refine (hs.defineLabel []).bind ?_
  rintro l s ⟨hs, -⟩
  have hcode := ((fulfils_lower hE hcfg condition).operand hc).converted (.mk trivial)
    (rfl : converter? .boolean = some .toBool) []
  refine (hcode _ s hs).bind ?_
  rintro _ s ⟨_, ⟨rfl, rfl⟩, hs⟩
  refine (Ready.emitBranchIf hs (Or.inl rfl) List.mem_cons_self).bind fun _ s hs => ?_
  exact .pure hs

theorem Ready.elseHead (hs : Ready E (c.addLabel l []) [] s) (hin : c.LoopsIn c.pending) :
    Ends (Lowering.elseHead l) s (fun done t => Ready E (c.addLabel done []) [] t) E := by
  refine (hs.defineLabel []).bind ?_
  rintro done s ⟨hs, -⟩
  refine (hs.emitBranch List.mem_cons_self []).bind fun _ s hs => ?_
  refine (hs.swap.markLast (hin.cons done)).bind fun _ s hs => ?_
  exact .pure hs

/-! ## Loops -/

/-- The scene inside of a loop. -/
def Scene.inLoop (c : Scene) (loop : Loop) : Scene :=
  { c with
    typed := (loop.breakLabel, []) :: (loop.continueLabel, []) :: c.typed
    pending := loop.breakLabel :: c.pending
    loops := loop :: c.loops }

/-- The scene behind the body of a loop, where only the exit is left to be marked. -/
def Scene.behindLoop (c : Scene) (loop : Loop) : Scene :=
  { c.inLoop loop with loops := c.loops }

theorem Ready.loopHead (hs : Ready E c [] s) (hE : Tolerates E) (hcfg : cfg.registry = .standard)
    {condition : Expr} (hc : Granted E (condition.Serves E .operand)) :
    Ends (Lowering.loopHead cfg condition) s (fun loop t => Ready E (c.inLoop loop) [] t ∧
      loop.exceptionLevel = c.nesting ∧
        t.active.mark? loop.continueLabel = some (some s.active.position)) E := by
  have hin := hs.loopsIn
  obtain ⟨p, hp⟩ : ∃ p, p = s.active.position := ⟨_, rfl⟩
  rw [← hp]
  refine (hs.defineLabel []).bind ?_
  rintro test s ⟨hs, -, hposition⟩
  rw [← hposition] at hp
  clear hposition
  refine (hs.defineLabel []).bind ?_
  rintro exit s ⟨hs, -, hposition⟩
  rw [← hposition] at hp
  have hswap : ((c.addLabel test []).addLabel exit []).pending.Perm (test :: exit :: c.pending) :=
    List.Perm.swap test exit c.pending
  refine (hs.mark (List.mem_cons_of_mem _ List.mem_cons_self) hswap (hin.cons exit)).bind ?_
  rintro _ t ⟨ht, heq⟩
  have hgrows := ht.grows
  have hmarked : t.active.mark? test = some (some p) := by
    obtain ⟨-, m, hm⟩ := hs
    have hnone := hm.labelled.pending test (List.mem_cons_of_mem _ List.mem_cons_self)
    rw [heq, State.active_withActive, Routine.mark?_marking hnone, if_pos rfl, hp]
  -- From here on the test is known to be marked, as the routine only grows.
  obtain ⟨d, hd⟩ : ∃ d : Scene, d = { (c.addLabel test []).addLabel exit [] with
    pending := exit :: c.pending, base := t.active } := ⟨_, rfl⟩
  have hrest : ∀ u, Ready E d [] u → Ends (do
      let nesting := (← frame).exceptionNesting
      updateFrame (Frame.enterLoop exit test)
      return (⟨exit, test, nesting⟩ : Loop)) u (fun loop t => Ready E (c.inLoop loop) [] t ∧
        loop.exceptionLevel = c.nesting ∧ t.active.mark? loop.continueLabel = some (some p)) E := by
    rintro u hu
    rw [hd] at hu
    have hnesting : u.frame.exceptionNesting = c.nesting := hu.1.nesting
    have htest : u.active.mark? test = some (some p) := hu.grows.marked hmarked
    refine ends_frame ?_
    rw [hnesting]
    refine Ends.bind (Q := fun _ t => Ready E (c.inLoop ⟨exit, test, c.nesting⟩) [] t ∧
      t.active.mark? test = some (some p)) (.update ⟨?_, htest⟩) fun _ t ht => .pure ⟨ht.1, rfl, ht.2⟩
    refine Ready.unbase (c := c.inLoop ⟨exit, test, c.nesting⟩) ?_ hgrows
    exact hu.enterLoop List.mem_cons_self List.mem_cons_self
      (List.mem_cons_of_mem _ List.mem_cons_self) ⟨p, htest⟩
  have ht' : Ready E d [] t := by
    rw [hd]
    exact ht.rebase
  split
  · have hcode := ((fulfils_lower hE hcfg condition).operand hc).converted (.mk trivial)
      (rfl : converter? .boolean = some .toBool) []
    refine (hcode _ t ht').bind ?_
    rintro _ u ⟨_, ⟨rfl, rfl⟩, hu⟩
    have hmem : (exit, []) ∈ d.typed := by
      rw [hd]
      exact List.mem_cons_self
    exact (Ready.emitBranchIf hu (Or.inl rfl) hmem).bind fun _ u hu => hrest u hu
  · exact hrest t ht'

/-- Behind the body control goes back to the test, and the exit is behind that. -/
theorem Ready.loopEnd {loop : Loop} (hs : Ready E (c.behindLoop loop) [] s)
    (hin : c.LoopsIn c.pending) :
    Ends (do Lowering.emit (.branch loop.continueLabel); Lowering.mark loop.breakLabel) s
      (fun _ t => Ready E c [] t ∧ t.active.mark? loop.breakLabel = some (some t.active.position)) E := by
  refine (hs.emitBranch (List.mem_cons_of_mem _ List.mem_cons_self) []).bind fun _ s hs => ?_
  refine (hs.mark List.mem_cons_self (List.Perm.refl _) hin).mono ?_
  rintro _ t ⟨ht, heq⟩
  refine ⟨ht.relabel (fun p hp => List.mem_cons_of_mem _ (List.mem_cons_of_mem _ hp)) (List.Perm.refl _), ?_⟩
  obtain ⟨-, m, hm⟩ := hs
  have hnone := hm.labelled.pending loop.breakLabel List.mem_cons_self
  rw [heq, State.active_withActive, Routine.mark?_marking hnone, if_pos rfl]
  rfl

/-! ## Clauses and handlers -/

theorem Ready.clauseHead (hs : Ready E c [] s) (exception : Temp) (type : String)
    (var : Option String) :
    Ends (Lowering.clauseHead exception type var) s
      (fun next t => Ready E (c.addLabel next []) [] t) E := by
  refine (hs.defineLabel []).bind ?_
  rintro next s ⟨hs, -⟩
  refine ((moves_loadTemp exception []).ends hs).bind fun _ s hs => ?_
  have htest : Moves E [.boxed] (Lowering.emit (.instanceOf type)) fun _ S' => S' = [.primitive .boolean] :=
    moves_emit (.instanceOf type) [.boxed] [.primitive .boolean] [] rfl
      Instruction.eq_boxed_of_mem (fun _ => rfl) rfl nofun
  refine (htest.ends hs).bind fun _ s hs => ?_
  refine (Ready.emitBranchIf hs (Or.inl rfl) List.mem_cons_self).bind fun _ s hs => ?_
  cases var with
  | none => exact .pure hs
  | some name =>
    refine ((moves_loadTemp exception []).ends hs).bind fun _ s hs => ?_
    have hstore : Moves E [.boxed] (Lowering.emit (.storeVar name)) fun _ S' => S' = [] :=
      moves_take (.storeVar name) [] rfl Instruction.eq_boxed_of_mem (fun _ => rfl) rfl nofun
    exact (hstore.ends hs).bind fun _ s hs => .pure hs

/-- Behind the body of a clause control goes to the end of the region. -/
theorem Ready.clauseEnd {regionEnd next : Label} (hs : Ready E (c.addLabel next []) [] s)
    (hend : (regionEnd, []) ∈ c.typed) (hin : c.LoopsIn c.pending) :
    Ends (do Lowering.emit (.leave regionEnd); Lowering.mark next) s (fun _ t => Ready E c [] t) E := by
  refine (hs.emit (.leave regionEnd) [] [] nofun rfl nofun (fun m hm l hl => ?_) nofun).bind ?_
  · obtain rfl := List.mem_singleton.mp hl
    exact hm.typed (List.mem_cons_of_mem _ hend)
  rintro _ s ⟨hs, -⟩
  exact hs.markLast hin

theorem Ready.rethrow (hs : Ready E c S s) (S' : List Slot) :
    Ends (Lowering.emit .rethrow) s (fun _ t => Ready E c S' t) E :=
  (hs.emit .rethrow S S' nofun rfl nofun nofun nofun).mono fun _ _ ht => ht.1

/-- In front of the clauses the exception is put into a slot. -/
theorem Ready.handlersHead {o : OpenRegion} (hs : Ready E (c.inRegion o) [] s) (hE : Tolerates E)
    (hblock : o.block = .guarded) :
    Ends Lowering.handlersHead s (fun _ t => ∃ o' : OpenRegion, o'.endLabel = o.endLabel ∧
      o'.tryStart = o.tryStart ∧ o'.block = .handler (.catching hostType) ∧
        Ready E (c.inRegion o') [] t) E := by
  refine (hs.beginHandler (.catching uncatchableType) (by rw [hblock]; nofun)).bind ?_
  rintro _ s ⟨o₁, hend₁, hstart₁, hblock₁, hs, -⟩
  refine (hs.rethrow []).bind fun _ s hs => ?_
  refine (hs.beginHandler (.catching hostType) (by rw [hblock₁]; nofun)).bind ?_
  rintro _ s ⟨o₂, hend₂, hstart₂, hblock₂, hs, -⟩
  refine ((moves_call .wrapHostException []).ends hs).bind fun _ s hs => ?_
  refine ((moves_declareTemp hE _).ends hs).bind fun k s hs => ?_
  refine ((moves_storeTemp k [] (Or.inl rfl)).ends hs).bind fun _ s hs => ?_
  exact .pure ⟨o₂, hend₂.trans hend₁, hstart₂.trans hstart₁, hblock₂, hs⟩

end Lowering
end PhpLowering
