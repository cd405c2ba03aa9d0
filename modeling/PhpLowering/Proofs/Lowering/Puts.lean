import PhpLowering.Proofs.Code.SlotMap
import PhpLowering.Proofs.Lowering.Account
import PhpLowering.Proofs.Lowering.Slots

/-!
# Pieces of code that are known instruction by instruction

Most of what is proved of code holds wherever the code stands, and says what the code does.  Some pieces
have to be known exactly, because a run is followed through them: the table of a computed level, or the
tests of the clauses of a `try`.  `Puts is s t` says that a piece of the emission has added the
instructions `is` to the routine at hand.
-/

namespace PhpLowering

namespace Routine

/-- A routine has these instructions from a position on. -/
def HasCode (r : Routine) (p : Nat) (is : List Instruction) : Prop :=
  ∀ n i, is[n]? = some i → r.code[p + n]? = some i

variable {r r' : Routine} {p : Nat} {is is' : List Instruction}

theorem HasCode.grows (h : r.HasCode p is) (hr : r.Grows r') : r'.HasCode p is :=
  fun n i hi => hr.code (h n i hi)

theorem HasCode.left (h : r.HasCode p (is ++ is')) : r.HasCode p is := by
  intro n i hi
  refine h n i ?_
  rwa [List.getElem?_append_left (List.getElem?_eq_some_iff.mp hi).1]

theorem HasCode.right (h : r.HasCode p (is ++ is')) : r.HasCode (p + is.length) is' := by
  intro n i hi
  rw [Nat.add_assoc]
  refine h _ i ?_
  rwa [List.getElem?_append_right (Nat.le_add_right ..), Nat.add_sub_cancel_left]

end Routine

namespace Lowering

open Pass (Ends)

variable {s t u : State Chunk} {is is' : List Instruction} {r : Routine}

/-- A piece of the emission adds these instructions to the routine at hand, in the same regions. -/
structure Puts (is : List Instruction) (s t : State Chunk) : Prop where
  grows : s.active.Grows t.active
  frame : t.frame = s.frame
  code : t.active.code.toList = s.active.code.toList ++ is
  opened : t.active.openRegions = s.active.openRegions

namespace Puts

theorem trans (h : Puts is s t) (h' : Puts is' t u) : Puts (is ++ is') s u where
  grows := h.grows.trans h'.grows
  frame := h'.frame.trans h.frame
  code := by rw [h'.code, h.code, List.append_assoc]
  opened := h'.opened.trans h.opened

theorem position (h : Puts is s t) : t.active.position = s.active.position + is.length := by
  have hlength := congrArg List.length h.code
  rwa [List.length_append, Array.length_toList, Array.length_toList] at hlength

theorem getElem? (h : Puts is s t) {n : Nat} {i : Instruction} (hi : is[n]? = some i) :
    t.active.code[s.active.position + n]? = some i := by
  have hle : s.active.code.toList.length ≤ s.active.position + n := by
    rw [Array.length_toList]
    exact Nat.le_add_right ..
  rw [← Array.getElem?_toList, h.code, List.getElem?_append_right hle, Array.length_toList]
  show is[s.active.position + n - s.active.position]? = some i
  rwa [Nat.add_sub_cancel_left]

/-- The instructions are still there in whatever comes of the routine. -/
theorem hasCode (h : Puts is s t) (hr : t.active.Grows r) : r.HasCode s.active.position is :=
  fun _ _ hi => hr.code (h.getElem? hi)

/-- Something happens to the routine at hand, but not to its code. -/
theorem withActive (hgrows : s.active.Grows r) (hcode : r.code = s.active.code)
    (hopened : r.openRegions = s.active.openRegions) : Puts [] s (s.withActive r) where
  grows := by rwa [State.active_withActive]
  frame := rfl
  code := by rw [State.active_withActive, hcode, List.append_nil]
  opened := by rw [State.active_withActive, hopened]

theorem refl (s : State Chunk) : Puts [] s s :=
  ⟨.refl _, rfl, (List.append_nil _).symm, rfl⟩

end Puts

theorem puts_emit (i : Instruction) (s : State Chunk) :
    Ends (emit i) s (fun _ t => Puts [i] s t) anyFailure := by
  refine (ends_emit i s).mono ?_
  rintro _ _ rfl
  refine ⟨?_, rfl, ?_, ?_⟩
  all_goals rw [State.active_withActive]
  · exact s.active.grows_push i
  · exact Array.toList_push
  · rfl

theorem puts_declareTemp (s : State Chunk) : Ends declareTemp s (fun _ t => Puts [] s t) anyFailure := by
  show Ends (toSink (Chunk.onActive Routine.declareTemp)) s _ _
  refine ends_toSink (.intro (fun k r hrun => ?_) fun _ _ _ => trivial)
  have hsame := s.active.sameText_declareTemp
  rw [hrun] at hsame
  exact .withActive hsame.grows hsame.code hsame.opened

theorem puts_defineLabel (s : State Chunk) : Ends defineLabel s (fun _ t => Puts [] s t) anyFailure := by
  refine .transform ?_
  show Puts [] s { s with sink := (Chunk.onActive Routine.defineLabel s.sink).2 }
  rw [Chunk.onActive_eq]
  exact .withActive s.active.grows_defineLabel rfl rfl

theorem puts_returnTemp (k : Temp) (s : State Chunk) :
    Ends (returnTemp k) s (fun _ t => Puts [] s t) anyFailure := by
  have hcode : (Sink.returnTemp k s.sink).active.code = s.active.code := code_active_returnTemp k s.sink
  refine .update ⟨grows_active_returnTemp k s.sink, rfl, ?_, (sameBesides_returnTemp k s.sink).opened⟩
  rw [List.append_nil]
  exact congrArg _ hcode

/-- A label that is marked stands for the position at hand. -/
theorem puts_mark (l : Label) (s : State Chunk) :
    Ends (mark l) s (fun _ t => Puts [] s t ∧ t.active.labelPosition? l = some s.active.position) anyFailure := by
  show Ends (toSink (Chunk.onActive (Routine.markLabel l))) s _ _
  refine ends_toSink (.intro (fun _ r hrun => ?_) fun _ _ _ => trivial)
  obtain ⟨hl, rfl⟩ := Routine.markLabel_ok hrun
  refine ⟨.withActive (Routine.grows_marking hl) rfl rfl, ?_⟩
  rw [State.active_withActive, Routine.labelPosition?_eq, Routine.mark?_marking hl, if_pos rfl]
  rfl

end Lowering
end PhpLowering
