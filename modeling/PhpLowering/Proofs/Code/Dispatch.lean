import PhpLowering.Proofs.Code.Machine

/-!
# Runs through a table of branches

The machine of `Config.step` does not know numbers, so a `switch` has no step there.  Here it is told
what numbers values stand for, and an instruction with a table takes a value off the stack and goes to
the label at that place of the table.  If the table has no such place, control goes on to the next
instruction.  All other instructions are as before (`Config.advance`).

`Config.Executes number r c is d` says that a run comes from `c` to `d` by executing the instructions
`is`, one after the other.  `Config.Keeps number r p q c d` says that a run comes from `c` to `d` without
having left the code between two positions.
-/

namespace PhpLowering

/-- Where control goes from a table at a position with a number. -/
def Routine.switchTarget? (r : Routine) (pc : Nat) (table : List Label) : Int → Option Nat
  | .ofNat n => match table[n]? with
    | some l => r.labelPosition? l
    | none => some (pc + 1)
  | .negSucc _ => some (pc + 1)

theorem Routine.switchTarget?_of_getElem? {r : Routine} {pc n : Nat} {table : List Label} {l : Label}
    (h : table[n]? = some l) : r.switchTarget? pc table n = r.labelPosition? l := by
  simp only [switchTarget?, h]

/-- A number that is no place of the table. -/
theorem Routine.switchTarget?_of_outside {r : Routine} {pc : Nat} {table : List Label} {n : Int}
    (h : n < 0 ∨ (table.length : Int) ≤ n) : r.switchTarget? pc table n = some (pc + 1) := by
  cases n with
  | ofNat k =>
    have hk : table[k]? = none := List.getElem?_eq_none (by simp at h; omega)
    simp only [switchTarget?, hk]
  | negSucc k => rfl

namespace Config

variable {h : Host} {number : h.Value → Int} {r : Routine} {p q : Nat} {c c' d : Config h}
  {v : h.Value} {rest : List h.Value}

/-- One step of a run, in which values stand for numbers. -/
def advance (number : h.Value → Int) (r : Routine) (c : Config h) : Option (Config h) :=
  match r.code[c.pc]?, c.stack with
  | some (.switch table), v :: rest =>
    (r.switchTarget? c.pc table (number v)).map fun pc => { c with pc, stack := rest }
  | _, _ => (c.step r).map Prod.snd

/-- A run executes these instructions. -/
inductive Executes (number : h.Value → Int) (r : Routine) : Config h → List Instruction → Config h → Prop where
  | nil (c : Config h) : Executes number r c [] c
  | cons {c c' d : Config h} {i : Instruction} {is : List Instruction} (hi : r.code[c.pc]? = some i)
      (hstep : c.advance number r = some c') (rest : Executes number r c' is d) :
      Executes number r c (i :: is) d

/-- A run comes to a configuration and has not left the code between two positions. -/
inductive Keeps (number : h.Value → Int) (r : Routine) (p q : Nat) (c : Config h) : Config h → Prop where
  | here : Keeps number r p q c c
  | step {d d' : Config h} (before : Keeps number r p q c d) (hstep : d.advance number r = some d')
      (hp : p ≤ d'.pc) (hq : d'.pc < q) : Keeps number r p q c d'

theorem Executes.append {is is' : List Instruction} (hrun : Executes number r c is d)
    (hrun' : Executes number r d is' c') : Executes number r c (is ++ is') c' := by
  induction hrun with
  | nil => exact hrun'
  | cons hi hstep _ ih => exact .cons hi hstep (ih hrun')

/-! ## Single instructions -/

theorem advance_switch {table : List Label} (hi : r.code[c.pc]? = some (.switch table))
    (hstack : c.stack = v :: rest) : c.advance number r =
      (r.switchTarget? c.pc table (number v)).map fun pc => { c with pc, stack := rest } := by
  simp only [advance, hi, hstack]

/-- An instruction without a table does what it does elsewhere. -/
theorem advance_eq_step {i : Instruction} (hi : r.code[c.pc]? = some i) (hswitch : ∀ table, i ≠ .switch table) :
    c.advance number r = (c.step r).map Prod.snd := by
  unfold advance
  split
  · rename_i hi' _
    exact absurd (Option.some.inj (hi.symm.trans hi')) (hswitch _)
  · rfl

/-- A plain instruction replaces its operands. -/
theorem advance_plain {i : Instruction} (hi : r.code[c.pc]? = some i) (hplain : i.isPlain = true)
    (hswitch : ∀ table, i ≠ .switch table) (args : List h.Value) (hstack : c.stack = args ++ rest)
    (hargs : args.length = i.pops) : c.advance number r =
      (h.evaluate r c.slots i args c.world).map fun (out, world) =>
        ⟨c.pc + 1, out ++ rest, h.store c.slots i args, world⟩ := by
  have htake : c.stack.take i.pops = args := by rw [hstack, ← hargs, List.take_left]
  have hdrop : c.stack.drop i.pops = rest := by rw [hstack, ← hargs, List.drop_left]
  have hpops : i.pops ≤ c.stack.length := by
    rw [hstack, List.length_append, hargs]
    exact Nat.le_add_right _ _
  rw [advance_eq_step hi hswitch]
  simp only [step, hi, Option.bind_eq_bind, Option.bind_some, if_pos hpops, htake, hdrop,
    h.next_of_isPlain hplain]
  cases h.evaluate r c.slots i args c.world <;> rfl

/-- Behind a plain instruction comes the next one. -/
theorem pc_of_advance {i : Instruction} (hi : r.code[c.pc]? = some i) (hplain : i.isPlain = true)
    (hswitch : ∀ table, i ≠ .switch table) (hstep : c.advance number r = some d) : d.pc = c.pc + 1 := by
  rw [advance_eq_step hi hswitch] at hstep
  obtain ⟨⟨use, c'⟩, hc', rfl⟩ := Option.map_eq_some_iff.mp hstep
  simp only [step, hi, Option.bind_eq_bind, Option.bind_some, h.next_of_isPlain hplain] at hc'
  split at hc'
  · obtain ⟨⟨out, world⟩, -, hout⟩ := Option.bind_eq_some_iff.mp hc'
    obtain ⟨-, rfl⟩ := Prod.mk.inj (Option.some.inj hout)
    rfl
  · cases hc'

theorem advance_dup (hi : r.code[c.pc]? = some .dup) (hstack : c.stack = v :: rest) :
    c.advance number r = some { c with pc := c.pc + 1, stack := v :: v :: rest } :=
  advance_plain hi rfl nofun [v] hstack rfl

theorem advance_storeTemp {k : Temp} (hi : r.code[c.pc]? = some (.storeTemp k)) (hstack : c.stack = v :: rest) :
    c.advance number r = some { c with
      pc := c.pc + 1, stack := rest, slots := fun j => if j = k then v else c.slots j } :=
  advance_plain hi rfl nofun [v] hstack rfl

theorem advance_loadTemp {k : Temp} (hi : r.code[c.pc]? = some (.loadTemp k)) :
    c.advance number r = some { c with pc := c.pc + 1, stack := c.slots k :: c.stack } :=
  advance_plain hi rfl nofun [] rfl rfl

theorem advance_branch {l : Label} (hi : r.code[c.pc]? = some (.branch l)) :
    c.advance number r = (r.labelPosition? l).map fun pc => { c with pc } := by
  rw [advance_eq_step hi nofun]
  simp only [step, hi, Option.bind_eq_bind, Option.bind_some, Instruction.pops, Nat.zero_le, if_true,
    List.take_zero, List.drop_zero, Host.next]
  cases r.labelPosition? l <;> rfl

theorem advance_branchIfFalse {l : Label} (hi : r.code[c.pc]? = some (.branchIfFalse l))
    (hstack : c.stack = v :: rest) : c.advance number r =
      (if h.truth v then some (c.pc + 1) else r.labelPosition? l).map fun pc => { c with pc, stack := rest } := by
  rw [advance_eq_step hi nofun]
  simp only [step, hi, hstack, Option.bind_eq_bind, Option.bind_some, Instruction.pops, List.length_cons,
    Nat.le_add_left, if_true, List.take_succ_cons, List.take_zero, List.drop_succ_cons, List.drop_zero, Host.next]
  cases (if h.truth v then some (c.pc + 1) else r.labelPosition? l : Option Nat) <;> rfl

/-- A branch out of regions is no step of the machine. -/
theorem advance_leave {l : Label} (hi : r.code[c.pc]? = some (.leave l)) : c.advance number r = none := by
  rw [advance_eq_step hi nofun]
  simp [step, hi, Instruction.pops, Host.next, Instruction.isPlain, Instruction.labels]

end Config
end PhpLowering
