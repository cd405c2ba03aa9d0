import PhpLowering.Proofs.Code.Chronicle

/-!
# Where the values that are returned come from

Some instructions leave a reference cell on the stack, and a caller has to know whether what it gets is
one.  To say where a value comes from, every value gets a mark: it tells whether the instruction that
produced the value is one of these (`Host.marking`).  Moving a value between the stack and the slots does
not change its mark, and no run depends on the marks (`Config.step_plain`).

`Config.Reached r c` says that runs of the routine `r` can come to the configuration `c`, starting at the
first instruction or at any handler, with whatever the handler finds.  A branch out of regions runs their
cleanup blocks first (`Routine.CleansUp`), and what these have left in the slots has been stored there by
instructions of theirs.

`r.Conveys b returns` is about the text of a routine alone.  Every return has a piece of code of its own, one of
`returns`, that produces the value, with one entry; from there the value is stored to the slot of the routine, and
control goes to the one place where the slot is loaded and the routine ends.
**`Routine.Conveys.mark_of_ret`**: then whatever is on top of the stack where the routine returns has the
mark `b`, on every run.
-/

namespace PhpLowering

/-- An instruction leaves a reference cell. -/
def Instruction.yieldsCell : Instruction → Bool
  | .loadVarRef _ | .call .getItemRef | .call .appendReference | .call .newReference
  | .call .newReferenceEmpty => true
  | _ => false

namespace Host

variable (h : Host)

/-- The host with a mark on every value, which tells whether it was produced by an instruction that leaves
a reference cell. -/
abbrev marking : Host where
  Value := h.Value × Bool
  World := h.World
  literal v := (h.literal v, false)
  box code v := (h.box code v.1, false)
  truth v := h.truth v.1
  read name world := (h.read name world, false)
  perform i args world := (h.perform i (args.map Prod.fst) world).map fun p =>
    (⟨p.1.1.map (·, i.yieldsCell), by rw [List.length_map]; exact p.1.2⟩, p.2)

/-- A value without its mark. -/
def plain (v : h.marking.Value) : h.Value :=
  v.1

variable {h} {r : Routine} {i : Instruction} {slots : Temp → h.marking.Value}
  {args out : List h.marking.Value} {w w' : h.World}

/-- A value was produced by an instruction that leaves a reference cell. -/
def mark (v : h.marking.Value) : Bool :=
  v.2

/-- **What an instruction produces has its mark.** -/
theorem mark_of_evaluate (hdup : i ≠ .dup) (hload : ∀ k, i ≠ .loadTemp k)
    (hout : h.marking.evaluate r slots i args w = some (out, w')) : ∀ v ∈ out, mark v = i.yieldsCell := by
  unfold evaluate at hout
  split at hout
  case h_1 =>
    obtain ⟨v, -, hv⟩ := Option.map_eq_some_iff.mp hout
    obtain ⟨rfl, -⟩ := Prod.mk.inj hv
    exact List.forall_mem_singleton.mpr rfl
  case h_2 => exact absurd rfl hdup
  case h_3 => exact absurd rfl (hload _)
  case h_12 =>
    obtain ⟨p, hp, heq⟩ := Option.map_eq_some_iff.mp hout
    obtain ⟨p', -, rfl⟩ := Option.map_eq_some_iff.mp hp
    obtain ⟨rfl, -⟩ := Prod.mk.inj heq
    intro v hv
    obtain ⟨_, -, rfl⟩ := List.mem_map.mp hv
    rfl
  case h_4 | h_5 =>
    obtain ⟨rfl, -⟩ := Prod.mk.inj (Option.some.inj hout)
    exact List.forall_mem_singleton.mpr rfl
  all_goals
    obtain ⟨rfl, -⟩ := Prod.mk.inj (Option.some.inj hout)
    exact nofun

/-- What is carried out does not depend on the marks. -/
theorem evaluate_plain (i : Instruction) (args : List h.marking.Value) (w : h.World) :
    h.evaluate r (fun k => h.plain (slots k)) i (args.map h.plain) w =
      (h.marking.evaluate r slots i args w).map fun p => (p.1.map h.plain, p.2) := by
  have hperform (i : Instruction) (args : List h.marking.Value) :
      (h.perform i (args.map h.plain) w).map (fun p => (p.1.1, p.2)) =
        ((h.marking.perform i args w).map fun p => (p.1.1, p.2)).map fun p => (p.1.map h.plain, p.2) := by
    show _ = Option.map _ (Option.map _ (Option.map _ (h.perform i (args.map h.plain) w)))
    rcases h.perform i (args.map h.plain) w with _ | ⟨⟨out, hout⟩, w'⟩
    · rfl
    · have hmap : List.map h.plain (out.map fun v => ((v, i.yieldsCell) : h.Value × Bool)) = out :=
        List.map_map.trans (List.map_id out)
      exact congrArg (fun xs => some (xs, w')) hmap.symm
  cases i with
  | const k =>
    show Option.map _ r.constants[k]? = Option.map _ (Option.map _ r.constants[k]?)
    cases r.constants[k]? <;> rfl
  | dup | box =>
    rcases args with _ | ⟨v, _ | ⟨v', args⟩⟩
    · exact hperform _ []
    · rfl
    · exact hperform _ (v :: v' :: args)
  | nop | pop | storeTemp | loadTemp | loadVar | branch | branchIfTrue | branchIfFalse => rfl
  | _ => exact hperform _ _

/-- Where control goes does not depend on the marks. -/
theorem next_plain (pc : Nat) (i : Instruction) (args : List h.marking.Value) :
    h.next r pc i (args.map h.plain) = h.marking.next r pc i args := by
  cases i with
  | branchIfTrue l | branchIfFalse l => rcases args with _ | ⟨v, _ | ⟨v', args⟩⟩ <;> rfl
  | _ => rfl

theorem store_plain (i : Instruction) (args : List h.marking.Value) :
    h.store (fun k => h.plain (slots k)) i (args.map h.plain) = fun k => h.plain (h.marking.store slots i args k) := by
  cases i with
  | storeTemp k =>
    rcases args with _ | ⟨v, _ | ⟨v', args⟩⟩
    · rfl
    · funext j
      show (if j = k then _ else _) = h.plain (if j = k then _ else _)
      split <;> rfl
    · rfl
  | _ => rfl

end Host

namespace Config

variable {h : Host} {r : Routine} {c d : Config h.marking} {use : Option (KeyUse h.marking)}

/-- A configuration without the marks. -/
def plain (c : Config h.marking) : Config h where
  pc := c.pc
  stack := c.stack.map h.plain
  slots k := h.plain (c.slots k)
  world := c.world

/-- **No step depends on the marks.** -/
theorem step_plain (c : Config h.marking) :
    (c.plain.step r).map Prod.snd = (c.step r).map fun p => p.2.plain := by
  unfold step
  rw [show c.plain.pc = c.pc from rfl, show c.plain.stack = c.stack.map h.plain from rfl, List.length_map]
  rcases r.code[c.pc]? with _ | i
  · rfl
  · simp only [Option.bind_eq_bind, Option.bind_some]
    split
    · rw [← List.map_take, Host.next_plain, show c.plain.slots = fun k => h.plain (c.slots k) from rfl,
        show c.plain.world = c.world from rfl, Host.evaluate_plain, Host.store_plain]
      rcases h.marking.next r c.pc i (c.stack.take i.pops) with _ | pc
      · rfl
      · rcases h.marking.evaluate r c.slots i (c.stack.take i.pops) c.world with _ | ⟨out, w⟩
        · rfl
        · simp [plain, List.map_append, List.map_drop]
    · rfl

end Config

/-! ## Runs of a routine -/

namespace Routine

/-- An instruction goes to a position by one of its labels. -/
def JumpsTo (r : Routine) (pc p : Nat) : Prop :=
  ∃ i l, r.code[pc]? = some i ∧ l ∈ i.labels ∧ r.labelPosition? l = some p

/-- A handler starts at a position. -/
def HandlesAt (r : Routine) (p : Nat) : Prop :=
  ∃ region ∈ r.regions, ∃ x ∈ region.handlers, x.start = p

/-- A branch out of regions runs the cleanup of a region around it, unless it stands in that cleanup.  The
position `p` is in the cleanup or behind its start. -/
def CleansUp (r : Routine) (pc p : Nat) : Prop :=
  ∃ region ∈ r.regions, region.covers pc = true ∧
    ∃ x ∈ region.handlers, x.kind = .cleanup ∧ pc < x.start ∧ x.start ≤ p

end Routine

namespace Config

variable {h : Host} {r : Routine} {c d : Config h} {use : Option (KeyUse h)}

/-- The value on top of the stack is about to be stored to a slot. -/
def Stores (r : Routine) (c : Config h) (k : Temp) (v : h.Value) : Prop :=
  r.code[c.pc]? = some (.storeTemp k) ∧ ∃ rest, c.stack = v :: rest

/-- Runs of a routine can come to a configuration. -/
inductive Reached (r : Routine) : Config h → Prop where
  | start (slots : Temp → h.Value) (world : h.World) : Reached r ⟨0, [], slots, world⟩
  /-- An exception that is thrown, or a cleanup that is due. -/
  | handler {p : Nat} (hp : r.HandlesAt p) (stack : List h.Value) (slots : Temp → h.Value) (world : h.World) :
      Reached r ⟨p, stack, slots, world⟩
  | step {c d : Config h} {use : Option (KeyUse h)} (before : Reached r c) (hstep : c.step r = some (use, d)) :
      Reached r d
  | switch {c : Config h} {table : List Label} {v : h.Value} {rest : List h.Value} {p : Nat} (before : Reached r c)
      (hi : r.code[c.pc]? = some (.switch table)) (hstack : c.stack = v :: rest)
      (hp : p = c.pc + 1 ∨ r.JumpsTo c.pc p) : Reached r ⟨p, rest, c.slots, c.world⟩
  /-- The cleanup blocks on the way have been run.  They may have stored to the slots in `changed`, the last
  time in the configurations `last`. -/
  | leave {c : Config h} {l : Label} {p : Nat} (before : Reached r c) (hi : r.code[c.pc]? = some (.leave l))
      (hp : r.labelPosition? l = some p) (changed : Temp → Prop) (last : Temp → Config h)
      {slots : Temp → h.Value} (hlast : ∀ k, changed k → Reached r (last k))
      (hcleanup : ∀ k, changed k → r.CleansUp c.pc (last k).pc)
      (hstores : ∀ k, changed k → (last k).Stores r k (slots k)) (hkept : ∀ k, ¬ changed k → slots k = c.slots k)
      (stack : List h.Value) (world : h.World) : Reached r ⟨p, stack, slots, world⟩

/-- A step goes on to the next instruction or to a label. -/
theorem pc_of_step (hstep : c.step r = some (use, d)) : d.pc = c.pc + 1 ∨ r.JumpsTo c.pc d.pc := by
  obtain ⟨i, hi, hrest⟩ := Option.bind_eq_some_iff.mp hstep
  split at hrest
  · obtain ⟨pc, hpc, hrest⟩ := Option.bind_eq_some_iff.mp hrest
    obtain ⟨p, -, heq⟩ := Option.bind_eq_some_iff.mp hrest
    obtain ⟨-, rfl⟩ := Prod.mk.inj (Option.some.inj heq)
    unfold Host.next at hpc
    split at hpc
    · exact Or.inr ⟨_, _, hi, List.mem_singleton_self _, hpc⟩
    · split at hpc
      · exact Or.inr ⟨_, _, hi, List.mem_singleton_self _, hpc⟩
      · exact Or.inl (Option.some.inj hpc).symm
    · split at hpc
      · exact Or.inl (Option.some.inj hpc).symm
      · exact Or.inr ⟨_, _, hi, List.mem_singleton_self _, hpc⟩
    · split at hpc
      · exact Or.inl (Option.some.inj hpc).symm
      · exact nomatch hpc
  · exact nomatch hrest

end Config

/-! ## Values that are returned -/

/-- A piece of code that produces a value to return, up to where the value is stored. -/
structure Delivery where
  start : Nat
  stop : Nat
  deriving DecidableEq, Repr

/-- Control does not go away from an instruction but by a step of the machine. -/
def Instruction.isLocal : Instruction → Bool
  | .leave _ | .switch _ => false
  | _ => true

namespace Routine

/-- A run through a piece of code leaves a value with a mark. -/
structure Yields (r : Routine) (b : Bool) (d : Delivery) : Prop where
  le : d.start ≤ d.stop
  value : ∀ {h : Host} {c c' : Config h.marking} {trace : List (KeyUse h.marking)}, c.pc = d.start →
    Config.Arrives r d.stop c trace c' → ∃ v, c'.stack = v :: c.stack ∧ Host.mark v = b
  inside : ∀ {pc : Nat} {i : Instruction}, d.start ≤ pc → pc < d.stop → r.code[pc]? = some i → i.isLocal = true

/-- A piece of code leaves a value with a mark, and is entered at its start only. -/
structure Produces (r : Routine) (b : Bool) (d : Delivery) : Prop extends r.Yields b d where
  jumps : ∀ {pc p : Nat}, r.JumpsTo pc p → d.start < p → p ≤ d.stop → d.start ≤ pc ∧ pc < d.stop
  handlers : ∀ {p : Nat}, r.HandlesAt p → p ≤ d.start ∨ d.stop < p

/-- A delivery stores its value to a slot and goes to a label. -/
structure Delivers (r : Routine) (b : Bool) (k : Temp) (e : Label) (d : Delivery) : Prop extends r.Produces b d where
  store : r.code[d.stop]? = some (.storeTemp k)
  away : r.code[d.stop + 1]? = some (.branch e) ∨ r.code[d.stop + 1]? = some (.leave e)
  notJumped : ∀ pc, ¬ r.JumpsTo pc (d.stop + 1)
  notHandled : ¬ r.HandlesAt (d.stop + 1)

/-- The returns of a routine share its end, which has the label `e`: each delivers its value to the slot `k` and
goes to the end, and so does the code behind the last statement, which goes on with the end. -/
structure SharesEnd (r : Routine) (b : Bool) (k : Temp) (e : Label) (returns : List Delivery) (last : Delivery) : Prop
    extends r.Produces b last where
  store : r.code[last.stop]? = some (.storeTemp k)
  exit : r.labelPosition? e = some (last.stop + 1)
  load : r.code[last.stop + 1]? = some (.loadTemp k)
  delivers : ∀ d ∈ returns, r.Delivers b k e d
  /-- No two of them are the same code. -/
  ordered : returns.Pairwise fun d d' => d.stop + 2 ≤ d'.start
  entries : ∀ {pc : Nat}, r.JumpsTo pc (last.stop + 1) → ∃ d ∈ returns, d.stop + 1 = pc
  notJumped : ∀ pc, ¬ r.JumpsTo pc (last.stop + 2)
  notHandled : ¬ r.HandlesAt (last.stop + 1) ∧ ¬ r.HandlesAt (last.stop + 2)
  /-- What stores to the slot behind a return is a return. -/
  stores : ∀ d ∈ returns, ∀ {pc : Nat}, d.stop < pc → r.code[pc]? = some (.storeTemp k) →
    pc = last.stop ∨ ∃ d' ∈ returns, d'.stop = pc

/-- The values that a routine returns are produced for that, with a mark, and there is one place where it
returns. -/
inductive Conveys (r : Routine) (b : Bool) : List Delivery → Prop where
  | direct {last : Delivery} (value : r.Produces b last) (ret : ∀ pc, r.code[pc]? = some .ret ↔ pc = last.stop) :
      Conveys r b []
  | shared {k : Temp} {e : Label} {returns : List Delivery} {last : Delivery}
      (ends : r.SharesEnd b k e returns last) (ret : ∀ pc, r.code[pc]? = some .ret ↔ pc = last.stop + 2) :
      Conveys r b returns

end Routine

namespace Config

variable {h : Host} {r : Routine} {b : Bool} {k : Temp} {e : Label} {returns : List Delivery} {last d : Delivery}
  {c : Config h.marking}

/-- On top of the stack is a value with a mark. -/
def HasOnTop (b : Bool) (c : Config h.marking) : Prop :=
  ∃ v rest, c.stack = v :: rest ∧ Host.mark v = b

/-- Steps in front of a position. -/
def LeadsBefore (r : Routine) (q : Nat) : Config h → Config h → Prop :=
  Relation.ReflTransGen fun c d => c.pc < q ∧ ∃ use, c.step r = some (use, d)

theorem LeadsBefore.arrives {q : Nat} {c d : Config h} (hlead : LeadsBefore r q c d) (hd : d.pc = q) :
    ∃ trace, Arrives r q c trace d := by
  induction hlead using Relation.ReflTransGen.head_induction_on with
  | refl => exact ⟨[], .here hd⟩
  | head hstep _ ih =>
    obtain ⟨hpc, use, hstep⟩ := hstep
    obtain ⟨trace, hrest⟩ := ih
    exact ⟨_, .step (Nat.ne_of_lt hpc) hstep hrest⟩

/-- A run inside of a delivery has come through it from its start. -/
theorem Reached.through (hr : r.Produces b d) (hc : Reached r c) (hstart : d.start ≤ c.pc) (hstop : c.pc ≤ d.stop) :
    ∃ c₀, Reached r c₀ ∧ c₀.pc = d.start ∧ LeadsBefore r d.stop c₀ c := by
  rcases Nat.eq_or_lt_of_le hstart with heq | hlt
  · exact ⟨c, hc, heq.symm, .refl⟩
  -- Nothing but a step from inside leads further in.
  induction hc with
  | start => exact absurd hlt (Nat.not_lt_zero _)
  | handler hp =>
    rcases hr.handlers hp with hle | hgt
    · exact absurd hlt (Nat.not_lt_of_le hle)
    · exact absurd hstop (Nat.not_le_of_lt hgt)
  | @step c c' use before hstep ih =>
    have hin : d.start ≤ c.pc ∧ c.pc < d.stop := by
      rcases pc_of_step hstep with hnext | hjump
      · omega
      · exact hr.jumps hjump hlt hstop
    have hfrom : ∃ c₀, Reached r c₀ ∧ c₀.pc = d.start ∧ LeadsBefore r d.stop c₀ c := by
      rcases Nat.eq_or_lt_of_le hin.1 with heq | hgt
      · exact ⟨c, before, heq.symm, .refl⟩
      · exact ih hin.1 (Nat.le_of_lt hin.2) hgt
    obtain ⟨c₀, hc₀, hpc, hlead⟩ := hfrom
    exact ⟨c₀, hc₀, hpc, hlead.tail ⟨hin.2, use, hstep⟩⟩
  | @switch c table v rest p before hi hstack hp =>
    have hin : d.start ≤ c.pc ∧ c.pc < d.stop := by
      rcases hp with rfl | hjump
      · exact ⟨Nat.le_of_lt_succ hlt, hstop⟩
      · exact hr.jumps hjump hlt hstop
    exact nomatch hr.inside hin.1 hin.2 hi
  | @leave c l p before hi hp =>
    obtain ⟨hle, hlt'⟩ := hr.jumps ⟨_, l, hi, List.mem_singleton_self _, hp⟩ hlt hstop
    exact nomatch hr.inside hle hlt' hi

/-- **Where a delivery ends, its value is on top of the stack.** -/
theorem Reached.hasOnTop (hr : r.Produces b d) (hc : Reached r c) (hpc : c.pc = d.stop) : c.HasOnTop b := by
  obtain ⟨c₀, -, hstart, hlead⟩ := hc.through hr (hpc ▸ hr.le) (Nat.le_of_eq hpc)
  obtain ⟨trace, hrun⟩ := hlead.arrives hpc
  obtain ⟨v, hstack, hv⟩ := hr.value hstart hrun
  exact ⟨v, _, hstack, hv⟩

theorem slots_of_store {c d : Config h} {use : Option (KeyUse h)} {v : h.Value} {rest : List h.Value}
    (hi : r.code[c.pc]? = some (.storeTemp k)) (hstack : c.stack = v :: rest) (hstep : c.step r = some (use, d)) :
    d.slots k = v := by
  obtain ⟨_, _, _, _, hslots, _⟩ := of_step hi (show c.stack = [v] ++ rest from hstack) rfl hstep
  rw [hslots]
  exact if_pos rfl

/-- A step changes a slot only if it stores to it. -/
theorem slots_of_step {c d : Config h} {use : Option (KeyUse h)} (hi : r.code[c.pc]? ≠ some (.storeTemp k))
    (hstep : c.step r = some (use, d)) : d.slots k = c.slots k := by
  obtain ⟨i, hcode, hrest⟩ := Option.bind_eq_some_iff.mp hstep
  split at hrest
  · obtain ⟨pc, -, hrest⟩ := Option.bind_eq_some_iff.mp hrest
    obtain ⟨p, -, heq⟩ := Option.bind_eq_some_iff.mp hrest
    obtain ⟨-, rfl⟩ := Prod.mk.inj (Option.some.inj heq)
    exact h.store_apply k fun heq => hi (heq ▸ hcode)
  · exact nomatch hrest

theorem stack_of_load {c d : Config h} {use : Option (KeyUse h)} (hi : r.code[c.pc]? = some (.loadTemp k))
    (hstep : c.step r = some (use, d)) : d.stack = c.slots k :: c.stack := by
  obtain ⟨_, _, heval, hstack, -, -⟩ := of_step hi (List.nil_append c.stack).symm rfl hstep
  obtain ⟨rfl, -⟩ := Prod.mk.inj (Option.some.inj heval)
  exact hstack

/-- Behind a store of a value with a mark, the slot has the mark. -/
theorem mark_of_store (hr : r.Produces b d) {c' : Config h.marking} {use : Option (KeyUse h.marking)}
    (hi : r.code[d.stop]? = some (.storeTemp k)) (hc : Reached r c) (hpc : c.pc = d.stop)
    (hstep : c.step r = some (use, c')) : Host.mark (c'.slots k) = b := by
  obtain ⟨v, rest, hstack, hv⟩ := hc.hasOnTop hr hpc
  rw [slots_of_store (hpc ▸ hi) hstack hstep]
  exact hv

/-- Where nothing else leads, control has come from the instruction before. -/
theorem Reached.from_before {p : Nat} {i : Instruction} (hc : Reached r c) (hpc : c.pc = p + 1)
    (hi : r.code[p]? = some i) (hlocal : i.isLocal = true) (hjumped : ∀ pc, ¬ r.JumpsTo pc (p + 1))
    (hhandled : ¬ r.HandlesAt (p + 1)) : ∃ c' use, Reached r c' ∧ c'.pc = p ∧ c'.step r = some (use, c) := by
  cases hc with
  | start => exact nomatch hpc
  | handler hp => exact (hhandled (hpc ▸ hp)).elim
  | step before hstep =>
    rcases pc_of_step hstep with hnext | hjump
    · exact ⟨_, _, before, Nat.succ.inj (hnext.symm.trans hpc), hstep⟩
    · exact (hjumped _ (hpc ▸ hjump)).elim
  | switch before hi' hstack hp =>
    obtain rfl : _ = p + 1 := hpc
    rcases hp with hnext | hjump
    · obtain rfl := Nat.succ.inj hnext
      obtain rfl := Option.some.inj (hi.symm.trans hi')
      exact nomatch hlocal
    · exact (hjumped _ hjump).elim
  | leave before hi' hp => exact (hjumped _ ⟨_, _, hi', List.mem_singleton_self _, hpc ▸ hp⟩).elim

/-- Behind a delivery the slot has its value. -/
theorem Reached.mark_of_delivers (hr : r.Delivers b k e d) (hc : Reached r c) (hpc : c.pc = d.stop + 1) :
    Host.mark (c.slots k) = b := by
  obtain ⟨c', use, hc', hpc', hstep⟩ := hc.from_before hpc hr.store rfl hr.notJumped hr.notHandled
  exact mark_of_store hr.toProduces hr.store hc' hpc' hstep

/-- **Where the end of a routine begins, the slot has the value of a return.** -/
theorem Reached.mark_of_sharesEnd (hr : r.SharesEnd b k e returns last) (hc : Reached r c)
    (hpc : c.pc = last.stop + 1) : Host.mark (c.slots k) = b := by
  -- Behind a return there is a branch, and the slot has its value.
  have hentry {c' : Config h.marking} (before : Reached r c') (hjump : r.JumpsTo c'.pc (last.stop + 1)) :
      Host.mark (c'.slots k) = b ∧
        ∃ d ∈ returns, d.stop + 1 = c'.pc ∧ (r.code[c'.pc]? = some (.branch e) ∨ r.code[c'.pc]? = some (.leave e)) := by
    obtain ⟨d, hd, heq⟩ := hr.entries hjump
    have hdelivers := hr.delivers d hd
    exact ⟨before.mark_of_delivers hdelivers heq.symm, d, hd, heq, heq ▸ hdelivers.away⟩
  cases hc with
  | start => exact nomatch hpc
  | handler hp => exact (hr.notHandled.1 (hpc ▸ hp)).elim
  | step before hstep =>
    rcases pc_of_step hstep with hnext | hjump
    · exact mark_of_store hr.toProduces hr.store before (Nat.succ.inj (hnext.symm.trans hpc)) hstep
    · obtain ⟨hmark, d, -, -, hbranch | hleave⟩ := hentry before (hpc ▸ hjump)
      · rwa [slots_of_step (by rw [hbranch]; nofun) hstep]
      · rwa [slots_of_step (by rw [hleave]; nofun) hstep]
  | switch before hi hstack hp =>
    obtain rfl : _ = last.stop + 1 := hpc
    rcases hp with hnext | hjump
    · rw [← Nat.succ.inj hnext, hr.store] at hi
      exact nomatch hi
    · obtain ⟨-, d, -, -, hbranch | hleave⟩ := hentry before hjump
      · exact nomatch hbranch.symm.trans hi
      · exact nomatch hleave.symm.trans hi
  | leave before hi hp changed lastOf hlast hcleanup hstores hkept =>
    obtain ⟨hmark, d, hd, heq, -⟩ := hentry before ⟨_, _, hi, List.mem_singleton_self _, hpc ▸ hp⟩
    by_cases hk : changed k
    · obtain ⟨hcode, rest, hstack⟩ := hstores k hk
      obtain ⟨region, -, -, x, -, -, hbefore, hin⟩ := hcleanup k hk
      have htop : (lastOf k).HasOnTop b := by
        rcases hr.stores d hd (by omega) hcode with hstop | ⟨d', hd', hstop⟩
        · exact (hlast k hk).hasOnTop hr.toProduces hstop
        · exact (hlast k hk).hasOnTop (hr.delivers d' hd').toProduces hstop.symm
      obtain ⟨v, rest', hstack', hv⟩ := htop
      obtain ⟨rfl, -⟩ := List.cons.inj (hstack.symm.trans hstack')
      exact hv
    · exact (congrArg Host.mark (hkept k hk)).trans hmark

end Config

/-- **What a routine returns.**  On every run, the value on top of the stack where the routine returns was
produced by an instruction that leaves a reference cell if the mark is set, and by another one otherwise. -/
theorem Routine.Conveys.mark_of_ret {r : Routine} {b : Bool} {returns : List Delivery} (hr : r.Conveys b returns)
    {h : Host} {c : Config h.marking}
    (hc : Config.Reached r c) (hret : r.code[c.pc]? = some .ret) : c.HasOnTop b := by
  cases hr with
  | direct value ret => exact hc.hasOnTop value ((ret _).mp hret)
  | @shared k e returns last ends ret =>
    obtain ⟨c', use, hc', hpc', hstep⟩ :=
      hc.from_before ((ret _).mp hret) ends.load rfl ends.notJumped ends.notHandled.2
    exact ⟨_, _, Config.stack_of_load (hpc' ▸ ends.load) hstep, hc'.mark_of_sharesEnd ends hpc'⟩

end PhpLowering
