import PhpLowering.Proofs.Code.Holding

/-!
# Slots are let to one user at a time

A routine lets its slots: `declareTemp` finds one that is free, and `returnTemp` takes it back.  A
`Tenancy` is a routine together with the slots that its users hold at the moment.  It changes with every
call; all that is asked of the users is that they give back nothing but what they hold (`Tenancy.Fair`).

A slot costs nothing until it is needed for the first time, and a routine never has more slots than
`slotLimit` allows.  What every call keeps is `Tenancy.Sound`: the slots that are held and the free ones
are together all slots of the routine, each once, and they do not exceed the limit.
-/

namespace PhpLowering
namespace Routine

variable {r r' : Routine} {t : Temp} {held : List Temp}

/-- The most slots that a routine can have: its own limit, as far as slots can be numbered. -/
def slotLimit (r : Routine) : Nat :=
  min (r.tempLimit.getD maxTemps) maxTemps

/-! ## One call -/

/-- What asking for a slot comes to. -/
inductive Lets (r : Routine) : Except SinkError Temp → Routine → Prop
  | again {t : Temp} {rest : List Temp} (hfree : r.freeTemps = t :: rest) :
      Lets r (.ok t) { r with freeTemps := rest }
  | new (hfree : r.freeTemps = []) (hroom : r.tempCount < r.slotLimit) :
      Lets r (.ok ⟨r.tempCount⟩) { r with tempCount := r.tempCount + 1 }
  | refused (hfree : r.freeTemps = []) (hfull : r.slotLimit ≤ r.tempCount) :
      Lets r (.error (.resourceExhausted .temporaries)) r

theorem lets_declareTemp (r : Routine) : r.Lets (declareTemp r).1 (declareTemp r).2 := by
  unfold declareTemp
  split
  · rename_i hfree
    exact .again hfree
  · rename_i hfree
    split
    · rename_i hroom
      exact .new hfree hroom
    · rename_i hfull
      exact .refused hfree (Nat.le_of_not_lt hfull)

/-- A slot is refused exactly if none is free and the limit is reached. -/
theorem Lets.refused_iff {answer : Except SinkError Temp} (h : r.Lets answer r') :
    (∃ e, answer = .error e) ↔ r.freeTemps = [] ∧ r.slotLimit ≤ r.tempCount := by
  cases h with
  | again hfree =>
    refine ⟨fun h => ?_, fun h => ?_⟩
    · obtain ⟨e, he⟩ := h
      cases he
    · exact absurd (hfree.symm.trans h.1) (List.cons_ne_nil _ _)
  | new hfree hroom =>
    refine ⟨fun h => ?_, fun h => absurd hroom (Nat.not_lt.mpr h.2)⟩
    obtain ⟨e, he⟩ := h
    cases he
  | refused hfree hfull => exact ⟨fun _ => ⟨hfree, hfull⟩, fun _ => ⟨_, rfl⟩⟩

/-! ## Many calls -/

/-- A call that has to do with slots. -/
inductive SlotCall where
  | declare
  | giveBack (t : Temp)
  deriving DecidableEq, Repr

/-- A routine and the slots of it that are held. -/
structure Tenancy where
  routine : Routine
  held : List Temp := []

namespace Tenancy

variable {s : Tenancy} {calls : List SlotCall}

/-- What a call does.  A slot is held from the call that yields it to the one that gives it back. -/
def step (s : Tenancy) : SlotCall → Tenancy
  | .declare =>
    match declareTemp s.routine with
    | (.ok t, r) => ⟨r, t :: s.held⟩
    | (.error _, r) => ⟨r, s.held⟩
  | .giveBack t => ⟨s.routine.returnTemp t, s.held.erase t⟩

/-- What calls do one after another. -/
def run (s : Tenancy) (calls : List SlotCall) : Tenancy :=
  calls.foldl step s

/-- Only slots that are held are given back. -/
def Fair (s : Tenancy) : List SlotCall → Prop
  | [] => True
  | .declare :: rest => (s.step .declare).Fair rest
  | .giveBack t :: rest => t ∈ s.held ∧ (s.step (.giveBack t)).Fair rest

/-- The slots that are held and the free ones are all slots, each once, and within the limit. -/
structure Sound (limit : Nat) (s : Tenancy) : Prop where
  balances : s.routine.Balances s.held
  limit_eq : s.routine.slotLimit = limit
  within : s.routine.tempCount ≤ limit

variable {limit : Nat}

theorem sound_fresh (hcount : r.tempCount = 0) (hfree : r.freeTemps = []) : Sound r.slotLimit { routine := r } where
  balances := balances_nil hcount hfree
  limit_eq := rfl
  within := hcount ▸ Nat.zero_le _

theorem Sound.declare (h : s.Sound limit) : (s.step .declare).Sound limit := by
  unfold step
  have hlets := lets_declareTemp s.routine
  rcases hrun : declareTemp s.routine with ⟨_ | t, r'⟩
  all_goals
    rw [hrun] at hlets
    dsimp only at hlets ⊢
  · cases hlets with
    | refused => exact h
  · have hbalances := h.balances.declareTemp hrun
    cases hlets with
    | again => exact ⟨hbalances, h.limit_eq, h.within⟩
    | new hfree hroom => exact ⟨hbalances, h.limit_eq, h.limit_eq ▸ hroom⟩

theorem slotLimit_returnTemp (t : Temp) (r : Routine) : (r.returnTemp t).slotLimit = r.slotLimit := by
  unfold returnTemp
  split <;> rfl

theorem tempCount_returnTemp (t : Temp) (r : Routine) : (r.returnTemp t).tempCount = r.tempCount := by
  unfold returnTemp
  split <;> rfl

theorem Sound.giveBack (h : s.Sound limit) (ht : t ∈ s.held) : (s.step (.giveBack t)).Sound limit where
  balances := h.balances.returnTemp ht
  limit_eq := (slotLimit_returnTemp t _).trans h.limit_eq
  within := (tempCount_returnTemp t s.routine).symm ▸ h.within

/-- **What every fair call keeps holds after any fair calls.** -/
theorem Sound.run (h : s.Sound limit) (hfair : s.Fair calls) : (s.run calls).Sound limit := by
  induction calls generalizing s with
  | nil => exact h
  | cons call rest ih =>
    cases call with
    | declare => exact ih h.declare hfair
    | giveBack t => exact ih (h.giveBack hfair.1) hfair.2

theorem Sound.length_held_le (h : s.Sound limit) : s.held.length ≤ limit := by
  have hlength := h.balances.length_eq
  rw [slots, List.length_map, List.length_range, List.length_append] at hlength
  exact Nat.le_trans (hlength ▸ Nat.le_add_right _ _) h.within

/-- A slot that is found is not held. -/
theorem Sound.not_mem_held (h : s.Sound limit) (hrun : declareTemp s.routine = (.ok t, r')) : t ∉ s.held :=
  (List.nodup_cons.mp (h.balances.declareTemp hrun).nodup).1

end Tenancy

/-- **Slots are let to one user at a time and within the limit.**  A routine starts without slots, and slots
are declared and given back in any order.  Then the slots that are held and the free ones are all slots of
the routine, each once; no more are held than the limit allows; whoever declares a slot gets one that nobody
holds; and the request is refused exactly if no slot is free and there are as many as the limit allows. -/
theorem slots_let_once (r : Routine) (calls : List SlotCall) (hcount : r.tempCount = 0)
    (hfree : r.freeTemps = []) (hfair : Tenancy.Fair { routine := r } calls) :
    let s := Tenancy.run { routine := r } calls
    (s.held ++ s.routine.freeTemps).Perm ((List.range s.routine.tempCount).map Temp.mk) ∧
      s.held.length ≤ r.slotLimit ∧
      (∀ t r', declareTemp s.routine = (.ok t, r') → t ∉ s.held) ∧
      ((∃ e, (declareTemp s.routine).1 = .error e) ↔
        s.routine.freeTemps = [] ∧ s.routine.tempCount = r.slotLimit) := by
  intro s
  have hsound : s.Sound r.slotLimit := (Tenancy.sound_fresh hcount hfree).run hfair
  refine ⟨hsound.balances, hsound.length_held_le, fun t r' hrun => hsound.not_mem_held hrun, ?_⟩
  rw [(lets_declareTemp s.routine).refused_iff, hsound.limit_eq]
  exact and_congr_right fun _ => ⟨Nat.le_antisymm hsound.within, fun heq => heq.ge⟩

/-- With a limit of one slot the second request is refused, and the third one gets the slot again. -/
theorem slots_let_once_limited :
    let r : Routine := { tempLimit := some 1 }
    let s := Tenancy.run { routine := r } [.declare, .declare, .giveBack ⟨0⟩, .declare]
    (s.held = [⟨0⟩] ∧ s.routine.freeTemps = [] ∧ s.routine.tempCount = 1 ∧ r.slotLimit = 1) ∧
      (s.held ++ s.routine.freeTemps).Perm ((List.range s.routine.tempCount).map Temp.mk) ∧
      s.held.length ≤ r.slotLimit ∧
      (∀ t r', declareTemp s.routine = (.ok t, r') → t ∉ s.held) ∧
      ((∃ e, (declareTemp s.routine).1 = .error e) ↔
        s.routine.freeTemps = [] ∧ s.routine.tempCount = r.slotLimit) :=
  ⟨⟨rfl, rfl, rfl, rfl⟩, slots_let_once { tempLimit := some 1 } [.declare, .declare, .giveBack ⟨0⟩, .declare]
    rfl rfl ⟨List.mem_singleton_self _, trivial⟩⟩

end Routine
end PhpLowering
