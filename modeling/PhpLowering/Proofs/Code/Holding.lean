import Mathlib.Data.List.Forall2
import Mathlib.Data.List.Range
import PhpLowering.Code.Chunk
import PhpLowering.Proofs.Code.Talk
import PhpLowering.Proofs.Lowering.Outline
import PhpLowering.Proofs.Lowering.Slots

/-!
# Who holds a slot

Of the calls to a sink, some have to do with slots: a slot is declared, given back, or used by an
instruction, and a function that is begun has slots of its own.  `Sink.slotEvents` lists what happens to
slots in a series of calls.  `account` goes along such a list and keeps the slots that are held, in the
routine at hand and in the routines that wait; it gives up if a slot is given back or used that is not
held, or if a function ends in which a slot is still held.

A chunk finds slots for those who ask.  In every routine the slots that are held and the free ones are
together all slots of the routine, each once (`Chunk.Balances`).  Each call keeps it so, and hence every
series of calls that can be accounted for does (`Chunk.Balances.talk`): at no moment is a slot held twice.
-/

namespace PhpLowering

/-- What happens to slots. -/
inductive SlotEvent where
  | declared (temp : Temp)
  | returned (temp : Temp)
  /-- An instruction reads or writes the slot. -/
  | used (temp : Temp)
  /-- A function begins, which has slots of its own. -/
  | began
  /-- The innermost function ends. -/
  | ended
  deriving DecidableEq, Repr

/-- What an event does to the slots that are held, those of the innermost routine first; none if it must
not happen. -/
def SlotEvent.act : SlotEvent → List (List Temp) → Option (List (List Temp))
  | .declared t, held :: outer => some ((t :: held) :: outer)
  | .returned t, held :: outer => if t ∈ held then some (held.erase t :: outer) else none
  | .used t, held :: outer => if t ∈ held then some (held :: outer) else none
  | .began, stack => some ([] :: stack)
  | .ended, [] :: outer => some outer
  | _, _ => none

namespace SlotEvent

variable {stack stack' : List (List Temp)} {t : Temp}

theorem act_declared (h : (declared t).act stack = some stack') :
    ∃ held outer, stack = held :: outer ∧ stack' = (t :: held) :: outer := by
  cases stack with
  | nil => exact nomatch h
  | cons held outer => exact ⟨held, outer, rfl, (Option.some.inj h).symm⟩

theorem act_returned (h : (returned t).act stack = some stack') :
    ∃ held outer, stack = held :: outer ∧ t ∈ held ∧ stack' = held.erase t :: outer := by
  cases stack with
  | nil => exact nomatch h
  | cons held outer =>
    by_cases ht : t ∈ held
    · exact ⟨held, outer, rfl, ht, (Option.some.inj ((if_pos ht).symm.trans h)).symm⟩
    · exact nomatch (if_neg ht).symm.trans h

theorem act_used (h : (used t).act stack = some stack') : stack' = stack := by
  cases stack with
  | nil => exact nomatch h
  | cons held outer =>
    by_cases ht : t ∈ held
    · exact (Option.some.inj ((if_pos ht).symm.trans h)).symm
    · exact nomatch (if_neg ht).symm.trans h

theorem act_ended (h : ended.act stack = some stack') : stack = [] :: stack' := by
  rcases stack with _ | ⟨_ | _, outer⟩
  · exact nomatch h
  · exact congrArg _ (Option.some.inj h)
  · exact nomatch h

end SlotEvent

/-- The slots that are held after some events. -/
def account (stack : List (List Temp)) (events : List SlotEvent) : Option (List (List Temp)) :=
  events.foldlM (fun stack e => e.act stack) stack

theorem account_append (stack : List (List Temp)) (events events' : List SlotEvent) :
    account stack (events ++ events') = (account stack events).bind (account · events') :=
  List.foldlM_append

@[simp] theorem account_nil (stack : List (List Temp)) : account stack [] = some stack := rfl

theorem account_singleton (stack : List (List Temp)) (e : SlotEvent) : account stack [e] = e.act stack := by
  rw [account, List.foldlM_cons]
  cases e.act stack <;> rfl

/-- What can be accounted for can be accounted for up to any moment. -/
theorem exists_account_of_append {stack stack' : List (List Temp)} {events events' : List SlotEvent}
    (h : account stack (events ++ events') = some stack') :
    ∃ mid, account stack events = some mid ∧ account mid events' = some stack' := by
  rw [account_append] at h
  exact Option.bind_eq_some_iff.mp h

namespace Sink

variable {σ : Type} [Sink σ]

/-- What a call means for the slots. -/
def Call.slotEvents (k : σ) : Call → List SlotEvent
  | .emit i => i.slot?.toList.map .used
  | .declareTemp =>
    match Sink.declareTemp k with
    | (.ok t, _) => [.declared t]
    | (.error _, _) => []
  | .returnTemp t => [.returned t]
  | .beginFunction _ => [.began]
  | .endFunction => [.ended]
  | .addConstant _ | .defineLabel | .markLabel _ | .beginTry | .beginCatch _ | .beginFinally
  | .endRegion | .sequencePoint _ => []

/-- What happens to slots in a series of calls. -/
def slotEvents (k : σ) : List (Call × Bool) → List SlotEvent
  | [] => []
  | (c, _) :: rest => c.slotEvents k ++ slotEvents (c.make k).2 rest

theorem slotEvents_append {k k' : σ} {calls : List (Call × Bool)} (h : Talk k calls k')
    (calls' : List (Call × Bool)) :
    slotEvents k (calls ++ calls') = slotEvents k calls ++ slotEvents k' calls' := by
  induction h with
  | nil => rfl
  | cons c _ ih => rw [List.cons_append, slotEvents, slotEvents, ih, List.append_assoc]

/-- Calls that are made one after another lead to a sink in between. -/
theorem Talk.exists_of_append {k k' : σ} {front back : List (Call × Bool)} (h : Talk k (front ++ back) k') :
    ∃ mid, Talk k front mid ∧ Talk mid back k' := by
  induction front generalizing k with
  | nil => exact ⟨k, .nil k, h⟩
  | cons first front ih =>
    cases h with
    | cons c rest =>
      obtain ⟨mid, hfront, hback⟩ := ih rest
      exact ⟨mid, .cons c hfront, hback⟩

end Sink

/-! ## Slots of a routine -/

namespace Routine

variable {r r' : Routine} {t : Temp} {held : List Temp}

/-- The slots that have ever been in use. -/
def slots (r : Routine) : List Temp :=
  (List.range r.tempCount).map Temp.mk

theorem nodup_slots (r : Routine) : r.slots.Nodup :=
  List.nodup_range.map fun _ _ h => Temp.mk.inj h

/-- The slots that are held and the free ones are all slots, each once. -/
def Balances (held : List Temp) (r : Routine) : Prop :=
  (held ++ r.freeTemps).Perm r.slots

theorem Balances.nodup (h : r.Balances held) : held.Nodup :=
  (List.nodup_append'.mp (h.nodup_iff.mpr r.nodup_slots)).1

/-- At first there are no slots. -/
theorem balances_nil (hcount : r.tempCount = 0) (hfree : r.freeTemps = []) : r.Balances [] := by
  rw [Balances, slots, hcount, hfree]
  exact .nil

theorem Balances.declareTemp (h : r.Balances held) (hrun : declareTemp r = (.ok t, r')) :
    r'.Balances (t :: held) := by
  unfold Routine.declareTemp at hrun
  split at hrun
  · rename_i first rest hfree
    obtain ⟨ht, rfl⟩ := Prod.mk.inj hrun
    obtain rfl := Except.ok.inj ht
    rw [Balances, hfree] at h
    exact List.perm_middle.symm.trans h
  · rename_i hfree
    split at hrun
    · obtain ⟨ht, rfl⟩ := Prod.mk.inj hrun
      obtain rfl := Except.ok.inj ht
      rw [Balances, hfree, List.append_nil] at h
      show ((⟨r.tempCount⟩ :: held) ++ r.freeTemps).Perm ((List.range (r.tempCount + 1)).map Temp.mk)
      rw [hfree, List.append_nil, List.range_succ, List.map_append]
      exact ((h.cons _).trans (List.perm_append_singleton _ _).symm)
    · cases hrun

theorem Balances.returnTemp (h : r.Balances held) (ht : t ∈ held) :
    (r.returnTemp t).Balances (held.erase t) := by
  have hnodup : (held ++ r.freeTemps).Nodup := h.nodup_iff.mpr r.nodup_slots
  have hfree : t ∉ r.freeTemps := fun hfree => (List.nodup_append'.mp hnodup).2.2 ht hfree
  unfold Routine.returnTemp
  rw [if_neg (by simpa using hfree)]
  have hperm : (held.erase t ++ t :: r.freeTemps).Perm (held ++ r.freeTemps) :=
    List.perm_middle.trans ((List.perm_cons_erase ht).symm.append_right _)
  exact hperm.trans h

/-- The slots are the same in both routines. -/
def SameSlots (r r' : Routine) : Prop :=
  r'.freeTemps = r.freeTemps ∧ r'.tempCount = r.tempCount

theorem Balances.of_same (h : r.Balances held) (hsame : r.SameSlots r') : r'.Balances held := by
  rw [Balances, slots, hsame.1, hsame.2]
  exact h

theorem sameSlots_emit (i : Instruction) (r : Routine) : r.SameSlots (emit i r).2 := by
  unfold emit
  split
  · split <;> exact ⟨rfl, rfl⟩
  · exact ⟨rfl, rfl⟩

theorem sameSlots_addConstant (v : Literal) (r : Routine) : r.SameSlots (addConstant v r).2 := by
  unfold addConstant
  split
  · exact ⟨rfl, rfl⟩
  · split <;> exact ⟨rfl, rfl⟩

theorem sameSlots_markLabel (l : Label) (r : Routine) : r.SameSlots (markLabel l r).2 := by
  unfold markLabel
  split <;> exact ⟨rfl, rfl⟩

theorem sameSlots_beginHandler (kind : HandlerKind) (r : Routine) :
    r.SameSlots (beginHandler kind r).2 := by
  unfold beginHandler
  split
  · exact ⟨rfl, rfl⟩
  · split <;> exact ⟨rfl, rfl⟩

theorem sameSlots_endRegion (r : Routine) : r.SameSlots (endRegion r).2 := by
  unfold endRegion
  split
  · exact ⟨rfl, rfl⟩
  · split
    · exact ⟨rfl, rfl⟩
    · exact sameSlots_markLabel _ _

end Routine

/-! ## Slots of a chunk -/

namespace Chunk

/-- The routines that wait for the one at hand. -/
def waiting : Chunk → List Routine
  | ⟨_, _, []⟩ => []
  | ⟨main, _, _ :: outer⟩ => outer ++ [main]

/-- In every routine, the slots that are held and the free ones are all slots, each once.  In a routine
that is complete, all slots are free. -/
structure Balances (stack : List (List Temp)) (c : Chunk) : Prop where
  routines : List.Forall₂ (fun held r => Routine.Balances held r) stack (c.active :: c.waiting)
  complete : ∀ r ∈ c.functions, r.Balances []

variable {stack stack' : List (List Temp)} {c c' : Chunk} {held : List Temp} {r : Routine}

@[simp] theorem waiting_withActive (r : Routine) (c : Chunk) : (c.withActive r).waiting = c.waiting := by
  rcases c with ⟨_, _, _ | _⟩ <;> rfl

/-- No slot is held twice. -/
theorem Balances.nodup (h : c.Balances stack) : ∀ held ∈ stack, held.Nodup := by
  intro held hheld
  obtain ⟨k, hk, hget⟩ := List.mem_iff_getElem.mp hheld
  have hbalances := h.routines.get hk (h.routines.length_eq ▸ hk)
  rw [List.get_eq_getElem, hget] at hbalances
  exact hbalances.nodup

/-- Something has happened to the slots of the routine at hand. -/
theorem Balances.withActive (h : c.Balances (held :: stack)) {held' : List Temp} (hr : r.Balances held') :
    (c.withActive r).Balances (held' :: stack) where
  routines := by
    obtain ⟨-, hrest⟩ := List.forall₂_cons.mp h.routines
    rw [active_withActive, waiting_withActive]
    exact .cons hr hrest
  complete := by
    rw [functions_withActive]
    exact h.complete

/-- A call that has nothing to do with slots. -/
theorem Balances.onActive {α : Type} {f : Routine → α × Routine} (h : c.Balances stack)
    (hf : ∀ r, Routine.SameSlots r (f r).2) : (Chunk.onActive f c).2.Balances stack := by
  rw [onActive_eq]
  cases stack with
  | nil => exact nomatch h.routines
  | cons held stack =>
    obtain ⟨hactive, -⟩ := List.forall₂_cons.mp h.routines
    exact h.withActive (hactive.of_same (hf _))

/-- The routine at hand waits for a function that begins. -/
theorem waiting_beginFunction (head : FunctionHead) (c : Chunk) :
    (beginFunction head c).2.waiting = c.active :: c.waiting := by
  rcases c with ⟨_, _, _ | _⟩ <;> rfl

theorem Balances.beginFunction (h : c.Balances stack) (head : FunctionHead) :
    (Chunk.beginFunction head c).2.Balances ([] :: stack) where
  routines := by
    rw [waiting_beginFunction]
    exact .cons (Routine.balances_nil rfl rfl) h.routines
  complete := h.complete

theorem Balances.endFunction (h : c.Balances ([] :: stack))
    (haccepted : (Sink.answered (Chunk.endFunction c)).1 = true) :
    (Chunk.endFunction c).2.Balances stack := by
  rcases c with ⟨main, functions, _ | ⟨r, outer⟩⟩
  · exact nomatch haccepted
  · unfold Chunk.endFunction at haccepted ⊢
    dsimp only at haccepted ⊢
    split at haccepted
    · rename_i hopen
      rw [if_pos hopen]
      obtain ⟨hr, hrest⟩ := List.forall₂_cons.mp h.routines
      refine ⟨?_, fun f hf => ?_⟩
      · cases outer with
        | nil => exact hrest
        | cons => exact hrest
      · rcases Array.mem_push.mp hf with hf | rfl
        · exact h.complete f hf
        · exact hr
    · exact nomatch haccepted

/-- A slot is found in the routine at hand. -/
theorem declareTemp_eq (c : Chunk) : (Sink.declareTemp : Pass SinkError Chunk Temp) c =
    ((Routine.declareTemp c.active).1, c.withActive (Routine.declareTemp c.active).2) :=
  onActive_eq _ c

theorem Balances.declareTemp {t : Temp} (h : c.Balances (held :: stack))
    (hrun : (Sink.declareTemp : Pass SinkError Chunk Temp) c = (.ok t, c')) :
    c'.Balances ((t :: held) :: stack) := by
  rw [declareTemp_eq] at hrun
  obtain ⟨ht, rfl⟩ := Prod.mk.inj hrun
  obtain ⟨hactive, -⟩ := List.forall₂_cons.mp h.routines
  exact h.withActive (hactive.declareTemp (Prod.ext ht rfl))

theorem Balances.returnTemp {t : Temp} (h : c.Balances (held :: stack)) (ht : t ∈ held) :
    (Sink.returnTemp t c).Balances (held.erase t :: stack) := by
  obtain ⟨hactive, -⟩ := List.forall₂_cons.mp h.routines
  show (Chunk.onActive (fun r => ((), r.returnTemp t)) c).2.Balances _
  rw [onActive_eq]
  exact h.withActive (hactive.returnTemp ht)

/-- **A call that is accepted and accounted for keeps the balance.** -/
theorem Balances.make (h : c.Balances stack) (call : Sink.Call) (haccepted : (call.make c).1 = true)
    (haccount : account stack (call.slotEvents c) = some stack') : (call.make c).2.Balances stack' := by
  cases call with
  | emit i =>
    have hsame : stack' = stack := by
      rw [Sink.Call.slotEvents] at haccount
      cases hslot : i.slot? with
      | none =>
        rw [hslot] at haccount
        exact (Option.some.inj haccount).symm
      | some t =>
        rw [hslot] at haccount
        exact SlotEvent.act_used ((account_singleton _ _).symm.trans haccount)
    exact hsame ▸ h.onActive (Routine.sameSlots_emit i)
  | declareTemp =>
    rcases hrun : (Sink.declareTemp : Pass SinkError Chunk Temp) c with ⟨_ | t, c'⟩
    · rw [Sink.Call.make, hrun] at haccepted
      exact nomatch haccepted
    · rw [Sink.Call.slotEvents, hrun] at haccount
      rw [Sink.Call.make, hrun]
      obtain ⟨held, outer, rfl, rfl⟩ := SlotEvent.act_declared ((account_singleton _ _).symm.trans haccount)
      exact h.declareTemp hrun
  | returnTemp t =>
    rw [Sink.Call.slotEvents, account_singleton] at haccount
    obtain ⟨held, outer, rfl, ht, rfl⟩ := SlotEvent.act_returned haccount
    exact h.returnTemp ht
  | beginFunction head =>
    rw [Sink.Call.slotEvents, account_singleton] at haccount
    obtain rfl := Option.some.inj haccount
    exact h.beginFunction head
  | endFunction =>
    rw [Sink.Call.slotEvents, account_singleton] at haccount
    obtain rfl := SlotEvent.act_ended haccount
    exact h.endFunction haccepted
  | addConstant v =>
    obtain rfl := Option.some.inj haccount
    exact h.onActive (Routine.sameSlots_addConstant v)
  | defineLabel =>
    obtain rfl := Option.some.inj haccount
    exact h.onActive (f := Routine.defineLabel) fun _ => ⟨rfl, rfl⟩
  | markLabel l =>
    obtain rfl := Option.some.inj haccount
    exact h.onActive (Routine.sameSlots_markLabel l)
  | beginTry =>
    obtain rfl := Option.some.inj haccount
    exact h.onActive (f := fun r => ((.ok r.beginTry.1 : Except SinkError Label), r.beginTry.2))
      fun _ => ⟨rfl, rfl⟩
  | beginCatch type =>
    obtain rfl := Option.some.inj haccount
    exact h.onActive (Routine.sameSlots_beginHandler _)
  | beginFinally =>
    obtain rfl := Option.some.inj haccount
    exact h.onActive (Routine.sameSlots_beginHandler _)
  | endRegion =>
    obtain rfl := Option.some.inj haccount
    exact h.onActive Routine.sameSlots_endRegion
  | sequencePoint span =>
    obtain rfl := Option.some.inj haccount
    exact h.onActive (f := fun r => ((), { r with currentSpan := span })) fun _ => ⟨rfl, rfl⟩

/-- **Calls that are accepted and accounted for keep the balance.** -/
theorem Balances.talk {calls : List (Sink.Call × Bool)} (h : c.Balances stack)
    (htalk : Sink.Talk c calls c') (haccepted : Sink.Accepted calls)
    (haccount : account stack (Sink.slotEvents c calls) = some stack') : c'.Balances stack' := by
  induction htalk generalizing stack with
  | nil => exact Option.some.inj haccount ▸ h
  | cons call _ ih =>
    obtain ⟨hcall, hrest⟩ := List.forall_mem_cons.mp haccepted
    obtain ⟨mid, hmid, haccount'⟩ := exists_account_of_append haccount
    exact ih (h.make call hcall hmid) hrest haccount'

end Chunk
end PhpLowering
