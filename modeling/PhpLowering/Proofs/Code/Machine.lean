import Mathlib.Logic.Relation
import PhpLowering.Proofs.Code.Stack

/-!
# Running the code of a routine

A machine for the code between two positions of a routine.  What values are, and what the world
around the routine is, the machine is told by a `Host`: it gives literals their values, decides what
is true, knows what a variable holds, and carries out all that the machine does not do itself.  The
machine itself moves values between the operand stack and the slots, and goes from one instruction to
the next.

An instruction that ends the routine, leaves a region or throws has no step here, and neither has one
that the host refuses, as when an exception is raised.  So `Arrives r q c trace d` speaks of the runs
of the routine `r` that come from the configuration `c` to the position `q` for the first time, in
the configuration `d`, without having gone through a handler.

The trace of a run lists where keys were used: every primitive that takes a container and a key is
recorded with the key, with the number of values that lie below its operands, and with the world.
-/

namespace PhpLowering

/-- The number of values that a type code stands for. -/
def TypeCode.height (c : TypeCode) : Nat :=
  if c.isValue then 1 else 0

/-- Where the key is among the operands of a primitive, the top first. -/
def RuntimeOp.keyPosition? : RuntimeOp → Option Nat
  | .getItem | .getItemQuiet | .getItemForWrite | .getItemRef | .unsetItem => some 0
  | .setItem => some 1
  | _ => none

namespace Instruction

/-- The number of values that an instruction puts on the stack. -/
def yields : Instruction → Nat
  | .dup => 2
  | .call op => op.result.height
  | .const _ | .loadTemp _ | .loadVar _ | .loadVarRef _ | .loadVarArray _ | .loadConstant _ | .box _
  | .callFunction .. | .newArray .. | .newValueArray _ | .instanceOf _ => 1
  | _ => 0

/-- An instruction does nothing with keys. -/
def KeyFree (i : Instruction) : Prop :=
  ∀ op, i = .call op → op.keyPosition? = none

/-- Whether control always goes on to the next instruction. -/
def isPlain (i : Instruction) : Bool :=
  i.labels.isEmpty && i.fallsThrough

end Instruction

/-- The values that code works on, and the world in which it runs. -/
structure Host where
  Value : Type
  World : Type
  literal : Literal → Value
  box : TypeCode → Value → Value
  truth : Value → Bool
  /-- What a variable holds. -/
  read : String → World → Value
  /-- Carries out an instruction on its operands, the top first; none if an exception is raised. -/
  perform : (i : Instruction) → List Value → World →
    Option ({ out : List Value // out.length = i.yields } × World)

/-- A use of a key. -/
structure KeyUse (h : Host) where
  op : RuntimeOp
  key : h.Value
  /-- The number of values on the stack below the operands. -/
  below : Nat
  world : h.World

/-- Where a run of a routine stands. -/
structure Config (h : Host) where
  pc : Nat
  /-- The operand stack, the top first. -/
  stack : List h.Value
  slots : Temp → h.Value
  world : h.World

namespace Host

variable (h : Host)

/-- What an instruction puts on the stack in place of its operands, and the world afterwards. -/
def evaluate (r : Routine) (slots : Temp → h.Value) (i : Instruction) (args : List h.Value)
    (world : h.World) : Option (List h.Value × h.World) :=
  match i, args with
  | .const k, _ => r.constants[k]?.map fun v => ([h.literal v], world)
  | .dup, [v] => some ([v, v], world)
  | .loadTemp t, _ => some ([slots t], world)
  | .loadVar name, _ => some ([h.read name world], world)
  | .box code, [v] => some ([h.box code v], world)
  | .nop, _ | .pop, _ | .storeTemp _, _ | .branch _, _ | .branchIfTrue _, _ | .branchIfFalse _, _ =>
    some ([], world)
  | i, args => (h.perform i args world).map fun p => (p.1.1, p.2)

/-- The slots after an instruction. -/
def store (slots : Temp → h.Value) (i : Instruction) (args : List h.Value) : Temp → h.Value :=
  match i, args with
  | .storeTemp t, [v] => fun t' => if t' = t then v else slots t'
  | _, _ => slots

/-- Where control goes from an instruction at a position. -/
def next (r : Routine) (pc : Nat) (i : Instruction) (args : List h.Value) : Option Nat :=
  match i, args with
  | .branch l, _ => r.labelPosition? l
  | .branchIfTrue l, [v] => if h.truth v then r.labelPosition? l else some (pc + 1)
  | .branchIfFalse l, [v] => if h.truth v then some (pc + 1) else r.labelPosition? l
  | i, _ => if i.isPlain then some (pc + 1) else none

/-- The use of a key that an instruction makes. -/
def keyUse? (i : Instruction) (args : List h.Value) (below : Nat) (world : h.World) :
    Option (KeyUse h) :=
  match i with
  | .call op => do
    let position ← op.keyPosition?
    let key ← args[position]?
    return { op, key, below, world }
  | _ => none

end Host

namespace Config

variable {h : Host} {r : Routine} {q pc pc' : Nat} {c d : Config h} {trace : List (KeyUse h)}

/-- One step of a run, with the key that is used in it, if there is one. -/
def step (r : Routine) (c : Config h) : Option (Option (KeyUse h) × Config h) := do
  let i ← r.code[c.pc]?
  if i.pops ≤ c.stack.length then
    let args := c.stack.take i.pops
    let rest := c.stack.drop i.pops
    let pc ← h.next r c.pc i args
    let (out, world) ← h.evaluate r c.slots i args c.world
    return (h.keyUse? i args rest.length c.world,
      { pc, stack := out ++ rest, slots := h.store c.slots i args, world })
  else none

/-- A run goes from one configuration to another. -/
def Leads (r : Routine) : Config h → Config h → Prop :=
  Relation.ReflTransGen fun c d => ∃ use, c.step r = some (use, d)

/-- A run comes to a position for the first time, with the uses of keys on the way. -/
inductive Arrives (r : Routine) (q : Nat) : Config h → List (KeyUse h) → Config h → Prop where
  | here {c : Config h} (hpc : c.pc = q) : Arrives r q c [] c
  | step {c c' d : Config h} {use : Option (KeyUse h)} {trace : List (KeyUse h)} (hpc : c.pc ≠ q)
      (hstep : c.step r = some (use, c')) (rest : Arrives r q c' trace d) :
      Arrives r q c (use.toList ++ trace) d

/-- Runs to a position for so many steps at most. -/
def follow (r : Routine) (q : Nat) : Nat → Config h → Option (List (KeyUse h) × Config h)
  | 0, _ => none
  | fuel + 1, c =>
    if c.pc = q then some ([], c)
    else do
      let (use, c') ← c.step r
      let (trace, d) ← follow r q fuel c'
      return (use.toList ++ trace, d)

theorem arrives_of_follow {fuel : Nat} (hrun : follow r q fuel c = some (trace, d)) :
    Arrives r q c trace d := by
  induction fuel generalizing c trace with
  | zero => exact nomatch hrun
  | succ fuel ih =>
    unfold follow at hrun
    split at hrun
    · rename_i hpc
      obtain ⟨rfl, rfl⟩ := Prod.mk.inj (Option.some.inj hrun)
      exact .here hpc
    · rename_i hpc
      obtain ⟨⟨use, c'⟩, hstep, hrun⟩ := Option.bind_eq_some_iff.mp hrun
      obtain ⟨⟨rest, d'⟩, hrest, hrun⟩ := Option.bind_eq_some_iff.mp hrun
      obtain ⟨rfl, rfl⟩ := Prod.mk.inj (Option.some.inj hrun)
      exact .step hpc hstep (ih hrest)

/-- A run that is not there yet takes a step. -/
theorem Arrives.next (hrun : Arrives r q c trace d) (hpc : c.pc ≠ q) :
    ∃ use c' rest, c.step r = some (use, c') ∧ trace = use.toList ++ rest ∧ Arrives r q c' rest d := by
  cases hrun with
  | here heq => exact absurd heq hpc
  | step _ hstep hrest => exact ⟨_, _, _, hstep, rfl, hrest⟩

/-- A run that is there already uses no keys. -/
theorem Arrives.eq_nil (hrun : Arrives r q c trace d) (hpc : c.pc = q) : trace = [] := by
  cases hrun with
  | here => rfl
  | step hne => exact absurd hpc hne

/-- A run that is there already goes no further. -/
theorem Arrives.eq_self (hrun : Arrives r q c trace d) (hpc : c.pc = q) : d = c := by
  cases hrun with
  | here => rfl
  | step hne => exact absurd hpc hne

/-- What a step does. -/
theorem of_step {i : Instruction} {args rest : List h.Value} {use : Option (KeyUse h)}
    (hi : r.code[c.pc]? = some i) (hstack : c.stack = args ++ rest) (hargs : args.length = i.pops)
    (hstep : c.step r = some (use, d)) :
    ∃ out, h.next r c.pc i args = some d.pc ∧
      h.evaluate r c.slots i args c.world = some (out, d.world) ∧ d.stack = out ++ rest ∧
      d.slots = h.store c.slots i args ∧ use = h.keyUse? i args rest.length c.world := by
  have htake : c.stack.take i.pops = args := by rw [hstack, ← hargs, List.take_left]
  have hdrop : c.stack.drop i.pops = rest := by rw [hstack, ← hargs, List.drop_left]
  have hpops : i.pops ≤ c.stack.length := by
    rw [hstack, List.length_append, hargs]
    exact Nat.le_add_right _ _
  simp only [step, hi, Option.bind_eq_bind, Option.bind_some, if_pos hpops, htake, hdrop] at hstep
  obtain ⟨pc, hpc, hstep⟩ := Option.bind_eq_some_iff.mp hstep
  obtain ⟨⟨out, world⟩, hout, hstep⟩ := Option.bind_eq_some_iff.mp hstep
  obtain ⟨rfl, rfl⟩ := Prod.mk.inj (Option.some.inj hstep)
  exact ⟨out, hpc, hout, rfl, rfl, rfl⟩

end Config

namespace Host

variable {h : Host} {r : Routine} {i : Instruction} {args out : List h.Value} {pc : Nat}
  {slots : Temp → h.Value} {w w' : h.World}

/-- An instruction puts as many values on the stack as it should. -/
theorem length_of_evaluate (hargs : args.length = i.pops)
    (hout : h.evaluate r slots i args w = some (out, w')) : out.length = i.yields := by
  unfold evaluate at hout
  split at hout
  case h_12 =>
    obtain ⟨p, -, hp⟩ := Option.map_eq_some_iff.mp hout
    obtain ⟨rfl, rfl⟩ := Prod.mk.inj hp
    exact p.1.2
  case h_1 =>
    obtain ⟨v, -, hv⟩ := Option.map_eq_some_iff.mp hout
    obtain ⟨rfl, rfl⟩ := Prod.mk.inj hv
    rfl
  all_goals
    obtain ⟨rfl, rfl⟩ := Prod.mk.inj (Option.some.inj hout)
    rfl

/-- Control goes on after a plain instruction. -/
theorem next_of_isPlain (hi : i.isPlain = true) : h.next r pc i args = some (pc + 1) := by
  unfold next
  split
  case h_4 => rw [if_pos hi]
  all_goals exact nomatch hi

/-- Keys are used by the primitives that take one. -/
theorem of_keyUse? {below : Nat} {use : KeyUse h} (huse : h.keyUse? i args below w = some use) :
    i = .call use.op ∧ use.op.keyPosition? ≠ none ∧ use.below = below := by
  unfold keyUse? at huse
  split at huse
  · obtain ⟨position, hposition, huse⟩ := Option.bind_eq_some_iff.mp huse
    obtain ⟨key, -, huse⟩ := Option.bind_eq_some_iff.mp huse
    obtain rfl := Option.some.inj huse
    exact ⟨rfl, Option.ne_none_iff_exists'.mpr ⟨position, hposition⟩, rfl⟩
  · exact nomatch huse

theorem store_apply (t : Temp) (ht : i ≠ .storeTemp t) : h.store slots i args t = slots t := by
  unfold store
  split
  · rename_i t' v
    refine if_neg fun heq => ht ?_
    rw [heq]
  · rfl

end Host

namespace Config

variable {h : Host} {r : Routine} {goal p q : Nat} {c d : Config h} {trace : List (KeyUse h)}
  {i : Instruction}

/-! ## Single instructions of a run -/

/-- A plain instruction is passed. -/
theorem Arrives.plain (hrun : Arrives r goal c trace d) (args : List h.Value) {rest : List h.Value}
    (hgoal : c.pc < goal) (hi : r.code[c.pc]? = some i) (hplain : i.isPlain = true)
    (hstack : c.stack = args ++ rest) (hargs : args.length = i.pops) :
    ∃ out world later, h.evaluate r c.slots i args c.world = some (out, world) ∧
      trace = (h.keyUse? i args rest.length c.world).toList ++ later ∧
      Arrives r goal ⟨c.pc + 1, out ++ rest, h.store c.slots i args, world⟩ later d := by
  obtain ⟨use, c', later, hstep, rfl, hlater⟩ := hrun.next (Nat.ne_of_lt hgoal)
  obtain ⟨out, hnext, hout, hout', hslots, rfl⟩ := of_step hi hstack hargs hstep
  rw [h.next_of_isPlain hplain] at hnext
  refine ⟨out, c'.world, later, hout, rfl, ?_⟩
  rwa [← hout', ← hslots, Option.some.inj hnext]

/-- Code that pushes a value and does nothing else. -/
def Pushes (h : Host) (r : Routine) (p q : Nat)
    (value : (Temp → h.Value) → h.World → Option h.Value) : Prop :=
  ∀ (goal : Nat) (c d : Config h) (trace : List (KeyUse h)), c.pc = p → q ≤ goal →
    Arrives r goal c trace d → ∃ v, value c.slots c.world = some v ∧
      Arrives r goal { c with pc := q, stack := v :: c.stack } trace d

theorem pushes_loadVar {name : String} (hi : r.code[p]? = some (.loadVar name)) :
    Pushes h r p (p + 1) fun _ world => some (h.read name world) := by
  rintro goal c d trace rfl hq hrun
  obtain ⟨_, _, _, heval, rfl, hlater⟩ := hrun.plain [] hq hi rfl rfl rfl
  cases heval
  exact ⟨_, rfl, hlater⟩

theorem pushes_loadTemp {k : Temp} (hi : r.code[p]? = some (.loadTemp k)) :
    Pushes h r p (p + 1) fun slots _ => some (slots k) := by
  rintro goal c d trace rfl hq hrun
  obtain ⟨_, _, _, heval, rfl, hlater⟩ := hrun.plain [] hq hi rfl rfl rfl
  cases heval
  exact ⟨_, rfl, hlater⟩

theorem pushes_const {k : Nat} {v : Literal} (hi : r.code[p]? = some (.const k))
    (hv : r.constants[k]? = some v) : Pushes h r p (p + 1) fun _ _ => some (h.literal v) := by
  rintro goal c d trace rfl hq hrun
  obtain ⟨_, _, _, heval, rfl, hlater⟩ := hrun.plain [] hq hi rfl rfl rfl
  rw [Host.evaluate, hv] at heval
  cases heval
  exact ⟨_, rfl, hlater⟩

/-- A value that was pushed is boxed. -/
theorem Pushes.box {value : (Temp → h.Value) → h.World → Option h.Value} {code : TypeCode}
    (hpush : Pushes h r p q value) (hi : r.code[q]? = some (.box code)) :
    Pushes h r p (q + 1) fun slots world => (value slots world).map (h.box code) := by
  rintro goal c d trace hpc hq hrun
  obtain ⟨v, hv, hrun⟩ := hpush goal c d trace hpc (Nat.le_of_succ_le hq) hrun
  obtain ⟨_, _, _, heval, rfl, hlater⟩ := hrun.plain [v] hq hi rfl rfl rfl
  cases heval
  exact ⟨h.box code v, congrArg (Option.map (h.box code)) hv, hlater⟩

/-- A container and a key are replaced by what is found. -/
theorem Arrives.keyed {op : RuntimeOp} {key container : h.Value} {rest : List h.Value}
    (hrun : Arrives r goal c trace d) (hgoal : c.pc < goal) (hi : r.code[c.pc]? = some (.call op))
    (hop : op.arity = 2) (hkey : op.keyPosition? = some 0) (hresult : op.result.isValue = true)
    (hstack : c.stack = key :: container :: rest) :
    ∃ v world later, trace = ⟨op, key, rest.length, c.world⟩ :: later ∧
      Arrives r goal ⟨c.pc + 1, v :: rest, c.slots, world⟩ later d := by
  obtain ⟨out, world, later, heval, rfl, hlater⟩ :=
    hrun.plain [key, container] hgoal hi rfl hstack hop.symm
  have hlength := h.length_of_evaluate (by exact hop.symm) heval
  obtain ⟨v, rfl⟩ : ∃ v, out = [v] := List.length_eq_one_iff.mp
    (hlength.trans (by rw [Instruction.yields, TypeCode.height, if_pos hresult]))
  refine ⟨v, world, later, ?_, hlater⟩
  rw [Host.keyUse?, hkey]
  rfl

/-- A value is stored under a key. -/
theorem Arrives.setItem {value key container : h.Value} {rest : List h.Value}
    (hrun : Arrives r goal c trace d) (hgoal : c.pc < goal) (hi : r.code[c.pc]? = some (.call .setItem))
    (hstack : c.stack = value :: key :: container :: rest) :
    ∃ world later, trace = ⟨.setItem, key, rest.length, c.world⟩ :: later ∧
      Arrives r goal ⟨c.pc + 1, rest, c.slots, world⟩ later d := by
  obtain ⟨out, world, later, heval, rfl, hlater⟩ :=
    hrun.plain [value, key, container] hgoal hi rfl hstack rfl
  have hlength := h.length_of_evaluate rfl heval
  obtain rfl := List.eq_nil_of_length_eq_zero hlength
  exact ⟨world, later, rfl, hlater⟩

end Config
end PhpLowering
