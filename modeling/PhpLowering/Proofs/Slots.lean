import PhpLowering.Proofs.Lowering.AtRest
import PhpLowering.Proofs.Reporting
import PhpLowering.Proofs.Stores

/-!
# No slot leaks

A routine declares slots for operands that a chain keeps, for results that are saved, for elements of lists,
for exceptions that are caught, for levels of jumps and for the value to return.  All of them are given
back: at the end of an emission the free slots of every routine are all slots that the routine has, each
once (`Chunk.Released`).  In between, the slots that have been declared and not given back are distinct in
every routine (`Sink.NeverShares`), whatever part of the calls has been made.

The calls are those that a transcript in front of the chunk has written down.  What is said of them is said
of the chunk behind the transcript as well, which is told the same (`Transcript.talk_inner`).
-/

namespace PhpLowering

open Sink (Call Talk slotEvents)

/-- In every routine all slots have been given back, each once. -/
def Chunk.Released (c : Chunk) : Prop :=
  ∀ r ∈ c.routines, r.freeTemps.Perm r.slots

/-- At every moment while the calls are made, the slots that have been declared in a routine and have not
been given back are distinct.  What is used or given back has been declared. -/
def Sink.NeverShares {σ : Type} [Sink σ] (k : σ) (calls : List (Call × Bool)) : Prop :=
  ∀ front back, calls = front ++ back →
    ∃ stack, account [[]] (slotEvents k front) = some stack ∧ ∀ held ∈ stack, held.Nodup

/-! ## A chunk behind a transcript -/

namespace Transcript

variable {σ : Type} [Sink σ] {k k' : Transcript σ} {calls : List (Call × Bool)}

theorem make_inner (c : Call) (k : Transcript σ) :
    (c.make k).1 = (c.make k.inner).1 ∧ (c.make k).2.inner = (c.make k.inner).2 := by
  cases c <;> exact ⟨rfl, rfl⟩

theorem slotEvents_inner (c : Call) (k : Transcript σ) : c.slotEvents k = c.slotEvents k.inner := by
  cases c with
  | declareTemp =>
    have hinner : (Sink.declareTemp : Pass SinkError (Transcript σ) Temp) k =
        passed .declareTemp Sink.declareTemp k := rfl
    rw [Call.slotEvents, Call.slotEvents, hinner, passed]
    rcases (Sink.declareTemp : Pass SinkError σ Temp) k.inner with ⟨_ | _, _⟩ <;> rfl
  | _ => rfl

/-- **What is behind a transcript is told the same.** -/
theorem talk_inner (h : Talk k calls k') :
    Talk k.inner calls k'.inner ∧ slotEvents k calls = slotEvents k.inner calls := by
  induction h with
  | nil k => exact ⟨.nil _, rfl⟩
  | @cons k k' calls c _ ih =>
    obtain ⟨haccepted, hinner⟩ := make_inner c k
    obtain ⟨htalk, hevents⟩ := ih
    rw [hinner] at htalk hevents
    refine ⟨?_, ?_⟩
    · rw [haccepted]
      exact .cons c htalk
    · rw [slotEvents, slotEvents, slotEvents_inner, hevents]

end Transcript

/-! ## Chunks and the calls that made them -/

namespace Chunk

variable {c c' : Chunk} {calls : List (Call × Bool)}

/-- An empty chunk has no slots. -/
theorem balances_new (name : String) (filePath : Option String) (tempLimit : Option Nat) :
    (Chunk.new name filePath tempLimit).Balances [[]] where
  routines := .cons (Routine.balances_nil rfl rfl) .nil
  complete _ hr := nomatch hr

/-- If nothing is held in the only routine that is not complete, all slots are free. -/
theorem Balances.released (h : c.Balances [[]]) : c.Released := by
  obtain ⟨hactive, hwaiting⟩ := List.forall₂_cons.mp h.routines
  have hmain : c.main.Balances [] := by
    rcases c with ⟨main, functions, _ | ⟨r, outer⟩⟩
    · exact hactive
    · have hlength := hwaiting.length_eq
      simp [waiting] at hlength
  intro r hr
  rcases List.mem_cons.mp hr with rfl | hr
  · exact hmain
  · exact h.complete r (Array.mem_toList_iff.mp hr)

/-- Calls that can be accounted for never share a slot. -/
theorem Balances.neverShares {stack : List (List Temp)} (h : c.Balances [[]]) (htalk : Talk c calls c')
    (haccepted : Sink.Accepted calls) (haccount : account [[]] (slotEvents c calls) = some stack) :
    Sink.NeverShares c calls := by
  rintro front back rfl
  obtain ⟨mid, hfront, -⟩ := htalk.exists_of_append
  rw [Sink.slotEvents_append hfront] at haccount
  obtain ⟨held, hheld, -⟩ := exists_account_of_append haccount
  exact ⟨held, hheld, (h.talk hfront (List.forall_mem_append.mp haccepted).1 hheld).nodup⟩

end Chunk

/-! ## Emission -/

namespace Compiler

variable {σ : Type} [Sink σ] {c : Compiler} {unit : SourceUnit}

/-- The calls that emit a unit can be accounted for, and in the end nothing is held. -/
theorem account_of_emitted (hc : c.registry = .standard) (hnumbered : unit.Numbered) {k : σ}
    (h : (c.compile unit k).isEmitted = true) :
    ∃ calls, Talk k calls (c.compile unit k).sink ∧ Sink.Accepted calls ∧
      account [[]] (slotEvents k calls) = some [[]] := by
  obtain ⟨analyzed, diagnostics, hanalyze, -, heq⟩ := emit_of_isEmitted h
  obtain ⟨known, -, hremains⟩ := remains_of_analyze hc hanalyze
  rw [heq] at h ⊢
  have hnumbers : (Node.numbers (Stmt.nodesOf analyzed.statements)).Nodup :=
    (hnumbered.sublist (Node.sublist_numbers _)).sublist hremains.numbers
  have hbody : Lowering.Tidies [] (Lowering.lowerStmts c.loweringSetting analyzed.statements : Emit σ Unit) :=
    Lowering.tidies_lowerStmts _ hnumbers
  have hstart : (c.emissionStart analyzed diagnostics k).Holds k [] [] :=
    ⟨[], .nil k, fun _ hcall => absurd hcall List.not_mem_nil, [], rfl, .refl _⟩
  have hends := Lowering.ends_routineCode_held false hbody rfl hstart
  rcases hrun : Lowering.lowerRoutine c.loweringSetting analyzed.statements false
    (c.emissionStart analyzed diagnostics k) with ⟨_ | _, t⟩
  · rw [emit_of_error hrun] at h
    exact nomatch h
  · obtain ⟨-, -, calls, htalk, haccepted, stack, haccount, hstack⟩ := hends.of_ok hrun
    obtain rfl := hstack.eq_nil
    rw [emit_of_ok hrun]
    exact ⟨calls, htalk, haccepted, haccount⟩

/-- **No slot leaks.**  When a unit has been emitted, all slots of all routines have been given back, each
once, and the calls that have led there have never made two holders share a slot.  This is so for a chunk,
and for a chunk behind a transcript, where the calls are those that were written down, and in whatever orders
chains give their slots back.

The nodes of the unit have to have different numbers, because a chain finds its operands by their numbers:
`not_released_sharedKey` is a unit where they do not and a slot is lost. -/
theorem slots_of_emitted (hc : c.registry = .standard) (hnumbered : unit.Numbered) (name : String)
    (filePath : Option String) (tempLimit : Option Nat) :
    ((c.compile unit (Chunk.new name filePath tempLimit)).isEmitted = true →
      (c.compile unit (Chunk.new name filePath tempLimit)).sink.Released ∧
        ∃ calls, Talk (Chunk.new name filePath tempLimit) calls
            (c.compile unit (Chunk.new name filePath tempLimit)).sink ∧
          Sink.NeverShares (Chunk.new name filePath tempLimit) calls) ∧
    ((c.compile unit ({ inner := Chunk.new name filePath tempLimit } : Transcript Chunk)).isEmitted = true →
      (c.compile unit ({ inner := Chunk.new name filePath tempLimit } : Transcript Chunk)).sink.inner.Released ∧
        Sink.NeverShares (Chunk.new name filePath tempLimit)
          (c.compile unit ({ inner := Chunk.new name filePath tempLimit } : Transcript Chunk)).sink.calls) := by
  have hbalances := Chunk.balances_new name filePath tempLimit
  refine ⟨fun h => ?_, fun h => ?_⟩
  · obtain ⟨calls, htalk, haccepted, haccount⟩ := account_of_emitted hc hnumbered h
    exact ⟨(hbalances.talk htalk haccepted haccount).released, calls, htalk,
      hbalances.neverShares htalk haccepted haccount⟩
  · obtain ⟨calls, htalk, haccepted, haccount⟩ := account_of_emitted hc hnumbered h
    obtain ⟨hinner, hevents⟩ := Transcript.talk_inner htalk
    rw [hevents] at haccount
    rw [Transcript.talk_transcript htalk]
    exact ⟨(hbalances.talk hinner haccepted haccount).released,
      hbalances.neverShares hinner haccepted haccount⟩

/-- An operand of an update is used twice, a result is saved, elements are taken from an array, an exception
is caught, a level is computed, and a function returns in two places. -/
def slotUsers : SourceUnit :=
  { name := "unit", nextId := 31, span := {}
    statements := [
      .function ⟨0, {}⟩ ⟨"f", false, []⟩ [
        .branch ⟨1, {}⟩ (.var ⟨2, {}, .none⟩ "x")
          [.jump ⟨3, {}⟩ .return (some (.literal ⟨4, {}, .none⟩ (.int 1)))] none,
        .jump ⟨5, {}⟩ .return (some (.literal ⟨6, {}, .none⟩ (.int 2)))] false,
      .loop ⟨7, {}⟩ (.var ⟨8, {}, .none⟩ "y") [
        .tryCatch ⟨9, {}⟩ [
          .expression ⟨10, {}⟩ (.incDec ⟨11, {}, .none⟩ true true
            (.item ⟨12, {}, .none⟩ (.var ⟨13, {}, .none⟩ "b")
              (.call ⟨14, {}, .none⟩ "f" []))),
          .jump ⟨15, {}⟩ .break (some (.var ⟨16, {}, .none⟩ "n"))]
          [.clause {} "E" (some "e") [
            .expression ⟨17, {}⟩ (.list ⟨18, {}, .none⟩
              [.leaf (.var ⟨19, {}, .none⟩ "p"), .leaf (.var ⟨20, {}, .none⟩ "q")]
              (.var ⟨21, {}, .none⟩ "a"))] none] none]] }

theorem slots_slotUsers :
    (({} : Compiler).compile slotUsers (Chunk.new "unit" none none)).isEmitted = true ∧
      (({} : Compiler).compile slotUsers (Chunk.new "unit" none none)).sink.Released ∧
      Sink.NeverShares (Chunk.new "unit" none none) (({} : Compiler).compile slotUsers
        ({ inner := Chunk.new "unit" none none } : Transcript Chunk)).sink.calls := by
  have hnumbered : slotUsers.Numbered := by
    unfold SourceUnit.Numbered
    decide
  obtain ⟨hchunk, htranscript⟩ := slots_of_emitted (c := {}) rfl hnumbered "unit" none none
  have h : (({} : Compiler).compile slotUsers (Chunk.new "unit" none none)).isEmitted = true := by
    decide +kernel
  exact ⟨h, (hchunk h).1, (htranscript (by decide +kernel)).2⟩

/-- `$a[$b[$c[0]]] = 1`, where the two items in the brackets have the same number. -/
def sharedKey : SourceUnit :=
  { name := "unit", nextId := 9, span := {}
    statements := [
      .expression ⟨8, {}⟩ (.assign ⟨7, {}, .none⟩
        (.item ⟨5, {}, .none⟩ (.var ⟨4, {}, .none⟩ "a")
          (.item ⟨3, {}, .none⟩ (.var ⟨2, {}, .none⟩ "b")
            (.item ⟨3, {}, .none⟩ (.var ⟨1, {}, .none⟩ "c") (.literal ⟨0, {}, .none⟩ (.int 0)))))
        (.literal ⟨6, {}, .none⟩ (.int 1)))] }

/-- The outer item takes the place of the inner one among the operands of the chain, and the slot of the inner one
is never given back. -/
theorem not_released_sharedKey :
    (({} : Compiler).compile sharedKey (Chunk.new "unit" none none)).isEmitted = true ∧
      ¬ (({} : Compiler).compile sharedKey (Chunk.new "unit" none none)).sink.Released := by
  refine ⟨by decide +kernel, fun h => ?_⟩
  have hfree := (h _ List.mem_cons_self).length_eq
  have hlengths : (({} : Compiler).compile sharedKey (Chunk.new "unit" none none)).sink.main.freeTemps.length = 1 ∧
      (({} : Compiler).compile sharedKey (Chunk.new "unit" none none)).sink.main.slots.length = 2 := by
    decide +kernel
  rw [hlengths.1, hlengths.2] at hfree
  exact absurd hfree (by decide)

end Compiler
end PhpLowering
