import PhpLowering.Code.Routine
import PhpLowering.Proofs.Code.Growth

/-!
# The operand stack of a routine

Every instruction takes a fixed number of values off the operand stack and puts others on
it.  What matters about a value here is only how it is represented: boxed, or as an unboxed
primitive of one of four sorts.  A list of such slots, the top first, describes a stack.

`Routine.Reaches r pc S` says that the stack can look like `S` when control is at `pc`.
Control starts at the first instruction and at every handler, goes from an instruction to
the next one or to the labels it mentions, and a label that is not marked leads nowhere.
`Routine.StackSafe r` is what a verifier checks: whatever way control takes, the stack at an
instruction is the same, and it holds what the instruction takes off.

To show it, one stack is written down for every position and every label, a `StackMap`, and
every instruction is checked against the map by itself.  That `Fits` is enough is
`StackMap.Fits.stackSafe`.
-/

namespace PhpLowering

/-- How a value on the operand stack is represented. -/
inductive Slot where
  | boxed
  | primitive (code : TypeCode)
  deriving DecidableEq, Repr

namespace TypeCode

/-- The slot of a value with a type code. -/
def slot (c : TypeCode) : Slot :=
  if c.isPrimitive then .primitive c else .boxed

/-- The stack with what a type code stands for on top. -/
def push (c : TypeCode) (S : List Slot) : List Slot :=
  if c.isValue then c.slot :: S else S

@[simp] theorem push_void (S : List Slot) : TypeCode.void.push S = S := rfl

@[simp] theorem push_object (S : List Slot) : TypeCode.object.push S = .boxed :: S := rfl

theorem isValue_of_isPrimitive {c : TypeCode} (h : c.isPrimitive = true) : c.isValue = true := by
  revert h
  cases c <;> decide

theorem push_of_isPrimitive {c : TypeCode} (h : c.isPrimitive = true) (S : List Slot) :
    c.push S = .primitive c :: S := by
  rw [push, if_pos (isValue_of_isPrimitive h), slot, if_pos h]

theorem push_of_isValue {c : TypeCode} (h : c.isValue = true) (hp : ¬ c.isPrimitive = true)
    (S : List Slot) : c.push S = .boxed :: S := by
  rw [push, if_pos h, slot, if_neg hp]

end TypeCode

/-- The stack on which a handler starts: an exception that is caught lies on it. -/
def HandlerKind.entry : HandlerKind → List Slot
  | .catching _ => [.boxed]
  | .cleanup => []

namespace Instruction

/-- The number of values that an instruction takes off the stack. -/
def pops : Instruction → Nat
  | .pop | .dup | .storeTemp _ | .storeVar _ | .defineConstant _ | .box _ | .branchIfTrue _
  | .branchIfFalse _ | .switch _ | .ret | .instanceOf _ | .throw => 1
  | .call op => op.arity
  | .callFunction _ count | .newValueArray count => count
  | .nop | .const _ | .loadTemp _ | .loadVar _ | .loadVarRef _ | .loadVarArray _ | .unsetVar _
  | .loadConstant _ | .newArray .. | .branch _ | .leave _ | .rethrow | .endFinally => 0

/-- What the values that an instruction takes off have to be.  A slot can keep a 64-bit integer
unboxed, the level of a `break` that is computed at run time. -/
def Accepts : Instruction → List Slot → Prop
  | .pop, _ | .dup, _ => True
  | .box code, top => top = [.primitive code]
  | .branchIfTrue _, top | .branchIfFalse _, top => top = [.primitive .boolean]
  | .switch _, top => top = [.primitive .longInteger]
  | .storeTemp _, top => top = [.boxed] ∨ top = [.primitive .longInteger]
  | _, top => ∀ slot ∈ top, slot = .boxed

/-- What an instruction puts on the stack in place of what it took off. -/
def pushes (constants : Array Literal) : Instruction → List Slot → Option (List Slot)
  | .const index, _ => constants[index]?.map fun v => [(TypeCode.ofLiteral v).slot]
  | .dup, top => some (top ++ top)
  | .call op, _ => some (op.result.push [])
  | .instanceOf _, _ => some [.primitive .boolean]
  | .loadTemp _, _ | .loadVar _, _ | .loadVarRef _, _ | .loadVarArray _, _ | .loadConstant _, _
  | .box _, _ | .callFunction .., _ | .newArray .., _ | .newValueArray _, _ => some [.boxed]
  | _, _ => some []

/-- The stack after an instruction; none if too little is on it or the constant is missing. -/
def apply (constants : Array Literal) (i : Instruction) (S : List Slot) : Option (List Slot) :=
  if i.pops ≤ S.length then
    (i.pushes constants (S.take i.pops)).map (· ++ S.drop i.pops)
  else none

/-- Whether control can go on to the next instruction. -/
def fallsThrough : Instruction → Bool
  | .branch _ | .leave _ | .ret | .throw | .rethrow | .endFinally => false
  | _ => true

/-- One value in general form, which most instructions that take a value accept. -/
theorem eq_boxed_of_mem : ∀ slot ∈ [Slot.boxed], slot = .boxed :=
  fun _ h => List.mem_singleton.mp h

theorem pops_le_of_apply {constants : Array Literal} {i : Instruction} {S S' : List Slot}
    (h : i.apply constants S = some S') : i.pops ≤ S.length := by
  unfold apply at h
  split at h
  · assumption
  · exact nomatch h

/-- An instruction whose operands are on top replaces them. -/
theorem apply_append {constants : Array Literal} {i : Instruction} {top out : List Slot}
    (hpops : i.pops = top.length) (hpushes : i.pushes constants top = some out) (S : List Slot) :
    i.apply constants (top ++ S) = some (out ++ S) := by
  unfold apply
  rw [hpops, List.take_left, List.drop_left, hpushes, if_pos (by simp)]
  rfl

/-- More constants do not change what an instruction does. -/
theorem apply_of_grows {r r' : Routine} (hr : r.Grows r') {i : Instruction} {S S' : List Slot}
    (h : i.apply r.constants S = some S') : i.apply r'.constants S = some S' := by
  cases i with
  | const index =>
    simp only [apply, pushes, pops, Nat.zero_le, if_true, Option.map_map] at h ⊢
    obtain ⟨v, hv, h⟩ := Option.map_eq_some_iff.mp h
    rw [hr.constants hv]
    exact congrArg some h
  | _ => exact h

end Instruction

namespace Routine

/-- The stack can look like this when control is at a position. -/
inductive Reaches (r : Routine) : Nat → List Slot → Prop where
  | start : Reaches r 0 []
  | handler {region : Region} {h : Handler} (hr : region ∈ r.regions) (hh : h ∈ region.handlers) :
      Reaches r h.start h.kind.entry
  | next {pc : Nat} {S S' : List Slot} {i : Instruction} (before : Reaches r pc S)
      (hi : r.code[pc]? = some i) (hS : i.apply r.constants S = some S')
      (hf : i.fallsThrough = true) : Reaches r (pc + 1) S'
  | jump {pc p : Nat} {S S' : List Slot} {i : Instruction} {l : Label} (before : Reaches r pc S)
      (hi : r.code[pc]? = some i) (hS : i.apply r.constants S = some S') (hl : l ∈ i.labels)
      (hp : r.labelPosition? l = some p) : Reaches r p S'

/-- What a verifier checks of the operand stack. -/
structure StackSafe (r : Routine) : Prop where
  /-- Enough values are on the stack for an instruction, and they are what it needs. -/
  accepts : ∀ {pc : Nat} {S : List Slot} {i : Instruction}, r.Reaches pc S → r.code[pc]? = some i →
    i.pops ≤ S.length ∧ i.Accepts (S.take i.pops) ∧ ∃ S', i.apply r.constants S = some S'
  /-- All ways to a position agree on the stack. -/
  agree : ∀ {pc : Nat} {S S' : List Slot}, r.Reaches pc S → r.Reaches pc S' → S = S'
  /-- Control never runs off the end of the code. -/
  inside : ∀ {pc : Nat} {S : List Slot}, r.Reaches pc S → pc < r.code.size
  /-- A routine returns the one value that is on the stack. -/
  returns : ∀ {pc : Nat} {S : List Slot}, r.Reaches pc S → r.code[pc]? = some .ret → S = [.boxed]

end Routine

/-- One stack for every position and every label of a routine. -/
structure StackMap where
  before : Nat → List Slot
  label : Label → List Slot

namespace StackMap

variable {m : StackMap} {r r' : Routine}

/-- A label of the routine has this stack. -/
def Types (m : StackMap) (r : Routine) (l : Label) (S : List Slot) : Prop :=
  (r.mark? l).isSome ∧ m.label l = S

/-- An instruction at a position agrees with the map. -/
def Passes (m : StackMap) (r : Routine) (pc : Nat) (i : Instruction) : Prop :=
  i.Accepts ((m.before pc).take i.pops) ∧
    ∃ out, i.apply r.constants (m.before pc) = some out ∧
      (i.fallsThrough = true → m.before (pc + 1) = out) ∧
      (∀ l ∈ i.labels, m.Types r l out) ∧ (i = .ret → out = [])

/-- A handler starts on the stack that the map has for its first position. -/
def Enters (m : StackMap) (r : Routine) (kind : HandlerKind) (start : Nat) : Prop :=
  start ≤ r.position ∧ m.before start = kind.entry

/-- A region that is not complete agrees with the map. -/
structure FitsOpen (m : StackMap) (r : Routine) (o : OpenRegion) : Prop where
  handlers : ∀ h ∈ o.handlers, m.Enters r h.kind h.start
  block : ∀ kind, o.block = .handler kind → m.Enters r kind o.blockStart
  endLabel : m.Types r o.endLabel []

/-- A routine agrees with the map. -/
structure Fits (m : StackMap) (r : Routine) : Prop where
  code : ∀ {pc : Nat} {i : Instruction}, r.code[pc]? = some i → m.Passes r pc i
  marks : ∀ {l : Label} {p : Nat}, r.mark? l = some (some p) →
    p ≤ r.position ∧ m.before p = m.label l
  regions : ∀ region ∈ r.regions, ∀ h ∈ region.handlers, m.Enters r h.kind h.start
  opened : ∀ o ∈ r.openRegions, m.FitsOpen r o

/-! ## Larger routines and larger maps -/

/-- A routine has grown, and the map with it: what the old map says of the old positions and labels
still holds. -/
structure Extends (m : StackMap) (r : Routine) (m' : StackMap) (r' : Routine) : Prop where
  grows : r.Grows r'
  before : ∀ {p : Nat}, p ≤ r.position → m'.before p = m.before p
  label : ∀ {l : Label}, (r.mark? l).isSome → m'.label l = m.label l

variable {m' : StackMap}

/-- The routine has grown, and there is nothing new to say about it. -/
theorem Extends.of_grows (hr : r.Grows r') : m.Extends r m r' :=
  ⟨hr, fun _ => rfl, fun _ => rfl⟩

theorem Types.extend {l : Label} {S : List Slot} (h : m.Types r l S) (hx : m.Extends r m' r') :
    m'.Types r' l S :=
  ⟨hx.grows.isSome_mark? h.1, (hx.label h.1).trans h.2⟩

theorem Passes.extend {pc : Nat} {i : Instruction} (h : m.Passes r pc i) (hpc : pc < r.position)
    (hx : m.Extends r m' r') : m'.Passes r' pc i := by
  obtain ⟨ha, out, hout, hnext, hlabels, hret⟩ := h
  have hbefore : m'.before pc = m.before pc := hx.before (Nat.le_of_lt hpc)
  refine ⟨?_, out, ?_, ?_, ?_, hret⟩
  · rwa [hbefore]
  · rw [hbefore]
    exact Instruction.apply_of_grows hx.grows hout
  · intro hf
    rw [hx.before hpc, hnext hf]
  · intro l hl
    exact Types.extend (hlabels l hl) hx

theorem Enters.extend {kind : HandlerKind} {start : Nat} (h : m.Enters r kind start)
    (hx : m.Extends r m' r') : m'.Enters r' kind start :=
  ⟨Nat.le_trans h.1 hx.grows.position, (hx.before h.1).trans h.2⟩

theorem FitsOpen.extend {o : OpenRegion} (h : m.FitsOpen r o) (hx : m.Extends r m' r') :
    m'.FitsOpen r' o where
  handlers x hh := (h.handlers x hh).extend hx
  block kind hk := (h.block kind hk).extend hx
  endLabel := Types.extend h.endLabel hx

/-- Only what is new in a routine has to be checked against the larger map. -/
theorem Fits.extend (h : m.Fits r) (hx : m.Extends r m' r')
    (hcode : ∀ {pc i}, r'.code[pc]? = some i → r.code[pc]? = some i ∨ m'.Passes r' pc i)
    (hmarks : ∀ {l p}, r'.mark? l = some (some p) →
      r.mark? l = some (some p) ∨ p ≤ r'.position ∧ m'.before p = m'.label l)
    (hregions : ∀ region ∈ r'.regions,
      region ∈ r.regions ∨ ∀ h ∈ region.handlers, m'.Enters r' h.kind h.start)
    (hopened : ∀ o ∈ r'.openRegions, o ∈ r.openRegions ∨ m'.FitsOpen r' o) : m'.Fits r' where
  code hi := by
    rcases hcode hi with hold | hnew
    · exact (h.code hold).extend (Array.getElem?_eq_some_iff.mp hold).1 hx
    · exact hnew
  marks hl := by
    rcases hmarks hl with hold | hnew
    · obtain ⟨hp, hm⟩ := h.marks hold
      refine ⟨Nat.le_trans hp hx.grows.position, ?_⟩
      rw [hx.before hp, hm, hx.label (Option.isSome_of_eq_some hold)]
    · exact hnew
  regions region hr x hh := by
    rcases hregions region hr with hold | hnew
    · exact (h.regions region hold x hh).extend hx
    · exact hnew x hh
  opened o ho := by
    rcases hopened o ho with hold | hnew
    · exact (h.opened o hold).extend hx
    · exact hnew

/-! ## A routine that fits is safe -/

/-- Control cannot leave the routine at its end. -/
structure Closed (r : Routine) : Prop where
  last : ∀ {pc : Nat} {i : Instruction}, r.code[pc]? = some i → i.fallsThrough = true →
    pc + 1 < r.position
  marks : ∀ {l : Label} {p : Nat}, r.mark? l = some (some p) → p < r.position
  handlers : ∀ region ∈ r.regions, ∀ h ∈ region.handlers, h.start < r.position
  nonempty : 0 < r.position

namespace Fits

/-- Whatever way control takes to a position, the stack there is the one in the map. -/
theorem eq_before_of_reaches (h : m.Fits r) (hstart : m.before 0 = []) {pc : Nat} {S : List Slot}
    (hS : r.Reaches pc S) : S = m.before pc := by
  induction hS with
  | start => exact hstart.symm
  | handler hr hh => exact (h.regions _ hr _ hh).2.symm
  | next _ hi hS hf ih =>
    obtain ⟨-, out, hout, hnext, -, -⟩ := h.code hi
    rw [ih, hout] at hS
    rw [hnext hf, Option.some.inj hS]
  | jump _ hi hS hl hp ih =>
    obtain ⟨-, out, hout, -, hlabels, -⟩ := h.code hi
    rw [ih, hout] at hS
    rw [Routine.labelPosition?_eq, Option.join_eq_some_iff] at hp
    rw [(h.marks hp).2, (hlabels _ hl).2, Option.some.inj hS]

theorem lt_of_reaches (hr : Closed r) {pc : Nat} {S : List Slot} (hS : r.Reaches pc S) :
    pc < r.code.size := by
  cases hS with
  | start => exact hr.nonempty
  | handler hregion hh => exact hr.handlers _ hregion _ hh
  | next _ hi _ hf => exact hr.last hi hf
  | jump _ _ _ _ hp =>
    rw [Routine.labelPosition?_eq, Option.join_eq_some_iff] at hp
    exact hr.marks hp

/-- **A closed routine that fits a map passes the verifier.** -/
theorem stackSafe (h : m.Fits r) (hstart : m.before 0 = []) (hr : Closed r) : r.StackSafe where
  accepts hS hi := by
    obtain ⟨ha, out, hout, -⟩ := h.code hi
    rw [h.eq_before_of_reaches hstart hS]
    exact ⟨Instruction.pops_le_of_apply hout, ha, out, hout⟩
  agree hS hS' := by
    rw [h.eq_before_of_reaches hstart hS, h.eq_before_of_reaches hstart hS']
  inside hS := lt_of_reaches hr hS
  returns hS hi := by
    obtain ⟨ha, out, hout, -, -, hret⟩ := h.code hi
    rw [h.eq_before_of_reaches hstart hS]
    rw [hret rfl] at hout
    cases hm : m.before _ with
    | nil => simp [hm, Instruction.apply, Instruction.pops] at hout
    | cons slot rest =>
      simp [hm, Instruction.apply, Instruction.pops, Instruction.pushes] at hout
      simp [hm, Instruction.Accepts, Instruction.pops] at ha
      rw [hout, ha]

end Fits
end StackMap
end PhpLowering
