import PhpLowering.Proofs.Code.Stretch

/-!
# Chronicles of runs

What a run does is told as a list of events.  The machine itself moves values between the operand
stack, the constants and the slots, and goes from one place of the code to another; that is not worth
telling.  Everything else that happens is an event: the host carries out an instruction, or a part of
the code that belongs to somebody else, such as the code of an operand, is run from its front to its
end.  `Config.Chronicle r part c events d` says that a run from `c` to `d` consists of these events and
of moves between them.  What counts as the run of a part is up to `part`.

`Config.Does r part p q top R` is about the code between two positions: every run that finds the values
`top` on the stack and comes to a position behind the code tells these events and leaves these values
instead, as the relation `R` has it.
-/

namespace PhpLowering

/-- The machine carries out an instruction itself, and nothing but a value or the position moves. -/
def Instruction.isMove : Instruction → Bool
  | .nop | .pop | .dup | .const _ | .loadTemp _ | .storeTemp _ | .box _ | .branch _ | .branchIfTrue _
  | .branchIfFalse _ => true
  | _ => false

/-- What happens in a run besides the moves. -/
inductive Event (h : Host) (β : Type) where
  /-- The host has carried out an instruction on its operands, the top first. -/
  | ran (i : Instruction) (args out : List h.Value)
  /-- A part of the code has been run. -/
  | part (b : β)

/-- The part that was run. -/
def Event.part? {h : Host} {β : Type} : Event h β → Option β
  | .ran .. => none
  | .part b => some b

/-- An instruction can leave these values in place of its operands. -/
def Host.Yields (h : Host) (r : Routine) (i : Instruction) (args out : List h.Value) : Prop :=
  ∃ slots world world', h.evaluate r slots i args world = some (out, world')

theorem Host.Yields.length {h : Host} {r : Routine} {i : Instruction} {args out : List h.Value}
    (hyields : h.Yields r i args out) (hargs : args.length = i.pops) : out.length = i.yields := by
  obtain ⟨_, _, _, heval⟩ := hyields
  exact h.length_of_evaluate hargs heval

namespace Config

variable {h : Host} {β : Type}

/-- A run consists of these events and of moves between them. -/
inductive Chronicle (r : Routine) (part : β → Config h → Config h → Prop) :
    Config h → List (Event h β) → Config h → Prop where
  | nil (c : Config h) : Chronicle r part c [] c
  | move {c c' d : Config h} {i : Instruction} {use : Option (KeyUse h)} {events : List (Event h β)}
      (hi : r.code[c.pc]? = some i) (hmove : i.isMove = true) (hstep : c.step r = some (use, c'))
      (rest : Chronicle r part c' events d) : Chronicle r part c events d
  | ran {c c' d : Config h} {i : Instruction} {use : Option (KeyUse h)} {args out below : List h.Value}
      {events : List (Event h β)} (hi : r.code[c.pc]? = some i) (hstep : c.step r = some (use, c'))
      (hargs : c.stack = args ++ below) (hpops : args.length = i.pops) (hout : c'.stack = out ++ below)
      (rest : Chronicle r part c' events d) : Chronicle r part c (.ran i args out :: events) d
  | part {c c' d : Config h} {events : List (Event h β)} (b : β) (hpart : part b c c')
      (rest : Chronicle r part c' events d) : Chronicle r part c (.part b :: events) d

variable {r : Routine} {part : β → Config h → Config h → Prop} {c c' d : Config h}
  {events later : List (Event h β)} {i : Instruction} {use : Option (KeyUse h)}
  {p q s k goal : Nat} {trace : List (KeyUse h)} {v : h.Value} {args top below : List h.Value}

theorem Chronicle.append (first : Chronicle r part c events c') (second : Chronicle r part c' later d) :
    Chronicle r part c (events ++ later) d := by
  induction first with
  | nil => exact second
  | move hi hmove hstep _ ih => exact .move hi hmove hstep (ih second)
  | ran hi hstep hargs hpops hout _ ih => exact .ran hi hstep hargs hpops hout (ih second)
  | part b hpart _ ih => exact .part b hpart (ih second)

/-! ## Single steps -/

/-- A run that has not come to its goal takes a step, and what the step does is known from the operands. -/
theorem Arrives.steps (hrun : Arrives r goal c trace d) (hgoal : c.pc < goal) (hi : r.code[c.pc]? = some i)
    (hstack : c.stack = args ++ below) (hargs : args.length = i.pops) :
    ∃ use c' out later, c.step r = some (use, c') ∧ h.next r c.pc i args = some c'.pc ∧
      h.evaluate r c.slots i args c.world = some (out, c'.world) ∧ c'.stack = out ++ below ∧
      c'.slots = h.store c.slots i args ∧ Arrives r goal c' later d := by
  obtain ⟨use, c', later, hstep, -, hlater⟩ := hrun.next (Nat.ne_of_lt hgoal)
  obtain ⟨out, hnext, hout, hstack', hslots, -⟩ := of_step hi hstack hargs hstep
  exact ⟨use, c', out, later, hstep, hnext, hout, hstack', hslots, hlater⟩

/-- A plain instruction goes on to the next one. -/
theorem Arrives.stepsPlain (hrun : Arrives r goal c trace d) (hgoal : c.pc < goal)
    (hi : r.code[c.pc]? = some i) (hplain : i.isPlain = true) (hstack : c.stack = args ++ below)
    (hargs : args.length = i.pops) :
    ∃ use c' out later, c.step r = some (use, c') ∧ c'.pc = c.pc + 1 ∧
      h.evaluate r c.slots i args c.world = some (out, c'.world) ∧ c'.stack = out ++ below ∧
      c'.slots = h.store c.slots i args ∧ Arrives r goal c' later d := by
  obtain ⟨use, c', out, later, hstep, hnext, hrest⟩ := hrun.steps hgoal hi hstack hargs
  rw [h.next_of_isPlain hplain] at hnext
  exact ⟨use, c', out, later, hstep, (Option.some.inj hnext).symm, hrest⟩

/-! ## Code between two positions -/

/-- Every run through the code between two positions that finds these values on the stack tells such
events and leaves such values. -/
def Does (r : Routine) (part : β → Config h → Config h → Prop) (p q : Nat) (top : List h.Value)
    (R : List (Event h β) → List h.Value → Prop) : Prop :=
  ∀ ⦃goal : Nat⦄ ⦃c d : Config h⦄ ⦃trace : List (KeyUse h)⦄ ⦃base : List h.Value⦄, c.pc = p →
    c.stack = top ++ base → q ≤ goal → Arrives r goal c trace d →
    ∃ mid events out rest, mid.pc = q ∧ mid.stack = out ++ base ∧ Chronicle r part c events mid ∧
      R events out ∧ Arrives r goal mid rest d

variable {R : List (Event h β) → List h.Value → Prop}
  {S : List (Event h β) → List h.Value → List (Event h β) → List h.Value → Prop}

theorem does_nil : Does r part p p top fun events out => events = [] ∧ out = top :=
  fun _ c _ trace _ hpc hstack _ hrun => ⟨c, [], top, trace, hpc, hstack, .nil c, ⟨rfl, rfl⟩, hrun⟩

theorem Does.mono {R' : List (Event h β) → List h.Value → Prop} (hdoes : Does r part p q top R)
    (hR : ∀ events out, R events out → R' events out) : Does r part p q top R' := by
  intro goal c d trace base hpc hstack hgoal hrun
  obtain ⟨mid, events, out, rest, hmid, hout, hevents, hrel, hrest⟩ := hdoes hpc hstack hgoal hrun
  exact ⟨mid, events, out, rest, hmid, hout, hevents, hR _ _ hrel, hrest⟩

/-- One piece of code behind the other. -/
theorem Does.seq (hfirst : Does r part p q top R) (hle : q ≤ s)
    (hsecond : ∀ events out, R events out → Does r part q s out (S events out)) :
    Does r part p s top fun events out => ∃ before out' after, events = before ++ after ∧
      R before out' ∧ S before out' after out := by
  intro goal c d trace base hpc hstack hgoal hrun
  obtain ⟨mid, before, out', rest, hmid, hout', hbefore, hrel, hrest⟩ :=
    hfirst hpc hstack (Nat.le_trans hle hgoal) hrun
  obtain ⟨last, after, out, rest', hlast, hout, hafter, hrel', hrest'⟩ :=
    hsecond before out' hrel hmid hout' hgoal hrest
  exact ⟨last, before ++ after, out, rest', hlast, hout, hbefore.append hafter,
    ⟨before, out', after, rfl, hrel, hrel'⟩, hrest'⟩

/-- What lies below on the stack does not matter. -/
theorem Does.frame (hdoes : Does r part p q top R) (more : List h.Value) :
    Does r part p q (top ++ more) fun events out => ∃ out', out = out' ++ more ∧ R events out' := by
  intro goal c d trace base hpc hstack hgoal hrun
  rw [List.append_assoc] at hstack
  obtain ⟨mid, events, out, rest, hmid, hout, hevents, hrel, hrest⟩ := hdoes hpc hstack hgoal hrun
  exact ⟨mid, events, out ++ more, rest, hmid, by rw [List.append_assoc, hout], hevents,
    ⟨out, rfl, hrel⟩, hrest⟩

/-- A plain instruction that moves a value. -/
theorem does_move (hi : r.code[p]? = some i) (hplain : i.isPlain = true) (hmove : i.isMove = true)
    (hargs : args.length = i.pops) :
    Does r part p (p + 1) args fun events out => events = [] ∧ h.Yields r i args out := by
  rintro goal c d trace base rfl hstack hgoal hrun
  obtain ⟨use, mid, out, rest, hstep, hmid, heval, hout, -, hrest⟩ :=
    hrun.stepsPlain hgoal hi hplain hstack hargs
  exact ⟨mid, [], out, rest, hmid, hout, .move hi hmove hstep (.nil mid), ⟨rfl, _, _, _, heval⟩, hrest⟩

/-- An instruction that the host carries out. -/
theorem does_ran (hi : r.code[p]? = some i) (hplain : i.isPlain = true) (hargs : args.length = i.pops) :
    Does r part p (p + 1) args fun events out => events = [.ran i args out] ∧ h.Yields r i args out := by
  rintro goal c d trace base rfl hstack hgoal hrun
  obtain ⟨use, mid, out, rest, hstep, hmid, heval, hout, -, hrest⟩ :=
    hrun.stepsPlain hgoal hi hplain hstack hargs
  exact ⟨mid, [.ran i args out], out, rest, hmid, hout, .ran hi hstep hstack hargs hout (.nil mid),
    ⟨rfl, _, _, _, heval⟩, hrest⟩

variable (part) in
/-- A branch that is always taken. -/
theorem does_branch {l : Label} (hi : r.code[p]? = some (.branch l)) (hl : r.labelPosition? l = some k)
    {goal : Nat} {base : List h.Value} (hpc : c.pc = p) (hstack : c.stack = base) (hgoal : p < goal)
    (hrun : Arrives r goal c trace d) :
    ∃ mid rest, mid.pc = k ∧ mid.stack = base ∧ Chronicle r part c [] mid ∧ Arrives r goal mid rest d := by
  subst hpc
  obtain ⟨use, mid, out, rest, hstep, hnext, heval, hout, -, hrest⟩ :=
    hrun.steps hgoal hi (show c.stack = [] ++ base from hstack) rfl
  obtain ⟨rfl, -⟩ := Prod.mk.inj (Option.some.inj heval)
  rw [Host.next, hl] at hnext
  exact ⟨mid, rest, (Option.some.inj hnext).symm, hout, .move hi rfl hstep (.nil mid), hrest⟩

variable (part) in
/-- What a conditional branch finds on the stack decides where it goes. -/
theorem goes_of_branch {l : Label} {i : Instruction} (hb : i = .branchIfTrue l ∨ i = .branchIfFalse l)
    (hi : r.code[c.pc]? = some i) (hl : r.labelPosition? l = some k) (hstack : c.stack = v :: below)
    (hgoal : c.pc < goal) (hrun : Arrives r goal c trace d) :
    ∃ mid rest, mid.pc = (if (h.truth v = true) = (i = .branchIfTrue l) then k else c.pc + 1) ∧
      mid.stack = below ∧ Chronicle r part c [] mid ∧ Arrives r goal mid rest d := by
  obtain ⟨use, mid, out, rest, hstep, hnext, heval, hout, -, hrest⟩ :=
    hrun.steps hgoal hi (show c.stack = [v] ++ below from hstack) (by rcases hb with rfl | rfl <;> rfl)
  have hmove : i.isMove = true := by rcases hb with rfl | rfl <;> rfl
  refine ⟨mid, rest, ?_, ?_, .move hi hmove hstep (.nil mid), hrest⟩
  · rcases hb with rfl | rfl
    · rw [Host.next, hl] at hnext
      cases htruth : h.truth v <;> simp_all
    · rw [Host.next, hl] at hnext
      cases htruth : h.truth v <;> simp_all
  · rcases hb with rfl | rfl
    all_goals
      obtain ⟨rfl, -⟩ := Prod.mk.inj (Option.some.inj heval)
      exact hout

/-- Code that is skipped if the value on top is true. -/
theorem Does.skip {l : Label} (hi : r.code[p]? = some (.branchIfTrue l)) (hle : p + 1 ≤ q)
    (hbody : h.truth v = false → Does r part (p + 1) q top R) (hl : r.labelPosition? l = some q) :
    Does r part p q (v :: top) fun events out =>
      if h.truth v then events = [] ∧ out = top else R events out := by
  rintro goal c d trace base rfl hstack hgoal hrun
  obtain ⟨mid, rest, hmid, hmidstack, hnone, hrest⟩ :=
    goes_of_branch part (Or.inl rfl) hi hl hstack (by omega) hrun
  cases htruth : h.truth v with
  | true =>
    rw [htruth, if_pos (by simp)] at hmid
    exact ⟨mid, [], top, rest, hmid, hmidstack, hnone, ⟨rfl, rfl⟩, hrest⟩
  | false =>
    rw [htruth, if_neg (by simp)] at hmid
    obtain ⟨last, events, out, rest', hlast, hout, hevents, hrel, hrest'⟩ :=
      hbody htruth hmid hmidstack hgoal hrest
    exact ⟨last, events, out, rest', hlast, hout, hnone.append hevents, hrel, hrest'⟩

/-- Two alternatives, between which the value on top decides. -/
theorem Does.fork {l l' : Label} {R' : List (Event h β) → List h.Value → Prop}
    (hi : r.code[p]? = some (.branchIfFalse l)) (hle : p + 1 ≤ k)
    (hfirst : h.truth v = true → Does r part (p + 1) k top R) (hk : r.code[k]? = some (.branch l'))
    (hl : r.labelPosition? l = some (k + 1)) (hle' : k + 1 ≤ q)
    (hsecond : h.truth v = false → Does r part (k + 1) q top R') (hl' : r.labelPosition? l' = some q) :
    Does r part p q (v :: top) fun events out => if h.truth v then R events out else R' events out := by
  rintro goal c d trace base rfl hstack hgoal hrun
  obtain ⟨mid, rest, hmid, hmidstack, hnone, hrest⟩ :=
    goes_of_branch part (Or.inr rfl) hi hl hstack (by omega) hrun
  cases htruth : h.truth v with
  | true =>
    rw [htruth, if_neg (by simp)] at hmid
    obtain ⟨atEnd, events, out, rest', hatEnd, hout, hevents, hrel, hrest'⟩ :=
      hfirst htruth hmid hmidstack (by omega) hrest
    obtain ⟨last, rest'', hlast, hlaststack, hbranch, hrest''⟩ :=
      does_branch part hk hl' hatEnd hout (by omega) hrest'
    refine ⟨last, events, out, rest'', hlast, hlaststack, ?_, hrel, hrest''⟩
    exact (List.append_nil events) ▸ hnone.append (hevents.append hbranch)
  | false =>
    rw [htruth, if_pos (by simp)] at hmid
    obtain ⟨last, events, out, rest', hlast, hout, hevents, hrel, hrest'⟩ :=
      hsecond htruth hmid hmidstack hgoal hrest
    exact ⟨last, events, out, rest', hlast, hout, hnone.append hevents, hrel, hrest'⟩

end Config
end PhpLowering
