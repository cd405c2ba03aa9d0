import PhpLowering.Proofs.Code.Interning
import PhpLowering.Proofs.Lowering.Stretches

/-!
# Operands of a chain

What an operand of a chain is worth without being evaluated is `Host.operand`.  For a literal that is
the entry of the constant pool, for an operand that is kept the contents of its slot, and neither
changes while the chain is open.  For a variable it is what the variable holds at the moment.

An operand is evaluated the first time and pushed the next time, and both leave a value on the stack
that is `Host.operand` from then on (`ends_chainOperand`).
-/

namespace PhpLowering

namespace Host

variable (h : Host)

/-- The value of a literal in general form. -/
def constant (r : Routine) (v : Literal) : h.Value :=
  if (TypeCode.ofLiteral v).isPrimitive then h.box (.ofLiteral v) (h.literal (r.filed v))
  else h.literal (r.filed v)

/-- What an operand of a chain is worth that need not be evaluated. -/
def operand (r : Routine) (slot? : Nat → Option Temp) (slots : Temp → h.Value) (world : h.World)
    (e : Expr) : Option h.Value :=
  match e with
  | .literal _ v => some (h.constant r v)
  | .var _ name => some (h.read name world)
  | e => (slot? e.id).map slots

theorem operand_of_not_isRepeatable {e : Expr} (he : ¬ e.isRepeatable = true) (r : Routine)
    (slot? : Nat → Option Temp) (slots : Temp → h.Value) (world : h.World) :
    h.operand r slot? slots world e = (slot? e.id).map slots := by
  cases e with
  | literal | var => exact absurd rfl he
  | _ => rfl

/-- An operand that is evaluated again is worth the same in two worlds.  All others are. -/
def Unchanged (e : Expr) (world world' : h.World) : Prop :=
  match e with
  | .var _ name => h.read name world = h.read name world'
  | _ => True

theorem operand_eq_iff {e : Expr} {r : Routine} {slot? : Nat → Option Temp} {slots : Temp → h.Value}
    {world world' : h.World} {v v' : h.Value} (hv : h.operand r slot? slots world e = some v)
    (hv' : h.operand r slot? slots world' e = some v') : v = v' ↔ h.Unchanged e world world' := by
  cases e with
  | var =>
    cases hv
    cases hv'
    rfl
  | _ => exact iff_of_true (Option.some.inj (hv.symm.trans hv')) trivial

end Host

namespace Lowering

open Pass (Ends)
open Config (Arrives Pushes)

variable {s t u : State Chunk} {cfg : Setting} {e : Expr} {h : Host} {r : Routine} {goal : Nat}
  {c d : Config h} {trace : List (KeyUse h)} {kind : TypeCode}

/-! ## Operands that need not be evaluated -/

/-- The code of a node is that of the rule for its kind. -/
theorem ends_byRule {kind : ExprKind} {tag : ExprTag} {code : Home ExprKind → Code Chunk} {use : Use}
    {Q : TypeCode → State Chunk → Prop}
    (hcode : ∀ home table, Ends (code home use) { s with table := table } Q anyFailure) :
    Ends (byRule cfg kind tag code use) s Q anyFailure := by
  refine (ends_onRules _).bind ?_
  rintro handle _ ⟨table, rfl⟩
  split
  · exact hcode _ table
  · exact ends_wrongRuleCode _ _ _ _

/-- A literal is filed. -/
theorem ends_addConstant (v : Literal) :
    Ends (toSink (Sink.addConstant v)) s (fun k t => t.chains = s.chains ∧
      t.active.code = s.active.code ∧
      ∀ r, t.active.Grows r → r.constants[k]? = some (r.filed v)) anyFailure := by
  show Ends (toSink (Chunk.onActive (Routine.addConstant v))) s _ _
  refine ends_toSink (.intro (fun k r hrun => ?_) fun _ _ _ => trivial)
  rw [State.active_withActive]
  refine ⟨rfl, ?_, fun r' hr => Routine.constants_of_addConstant hrun hr⟩
  unfold Routine.addConstant at hrun
  split at hrun
  · rw [← (Prod.mk.inj hrun).2]
  · split at hrun
    · rw [← (Prod.mk.inj hrun).2]
    · cases hrun

/-- What a step emits pushes the value of an operand. -/
def PushesOperand (e : Expr) (s t : State Chunk) : Prop :=
  t.chains = s.chains ∧ ∀ (r : Routine) (h : Host), t.active.Grows r →
    Pushes h r s.active.position t.active.position fun slots world => h.operand r s.slot? slots world e

/-- A single instruction can do that. -/
theorem ends_pushes {i : Instruction}
    (hi : ∀ (r : Routine) (h : Host), r.code[s.active.position]? = some i →
      Pushes h r s.active.position (s.active.position + 1) fun slots world =>
        h.operand r s.slot? slots world e) :
    Ends (emit i) s (fun _ t => PushesOperand e s t) anyFailure := by
  refine (ends_emit i s).mono ?_
  rintro _ _ rfl
  rw [PushesOperand, State.active_withActive, Routine.position_push]
  exact ⟨rfl, fun r h hgrows => hi r h (hgrows.code (s.active.code_push_self i))⟩

theorem ends_literal (tag : ExprTag) (v : Literal) (hread : tag.access = .read) :
    Ends (boxed (lower cfg (.literal tag v))) s (fun _ t => PushesOperand (.literal tag v) s t)
      anyFailure := by
  refine Ends.bind (Q := fun kind t => kind = .ofLiteral v ∧ t.chains = s.chains ∧
      ∀ (r : Routine) (h : Host), t.active.Grows r →
        Pushes h r s.active.position t.active.position fun _ _ => some (h.literal (r.filed v))) ?_ ?_
  · rw [lower]
    refine ends_byRule fun _ table => ?_
    show Ends (literalValue tag.access v) _ _ _
    rw [hread]
    refine (ends_addConstant v).bind ?_
    rintro k w ⟨hchains, hcode, hentry⟩
    refine (ends_emit (.const k) w).bind ?_
    rintro _ _ rfl
    have hposition : w.active.position = s.active.position := congrArg Array.size hcode
    refine .pure ⟨rfl, hchains, fun r h hgrows => ?_⟩
    rw [State.active_withActive] at hgrows ⊢
    rw [Routine.position_push, ← hposition]
    exact Config.pushes_const (hgrows.code (w.active.code_push_self (.const k)))
      (hentry r ((w.active.grows_push _).trans hgrows))
  · rintro _ t ⟨rfl, hchains, hpush⟩
    unfold box
    split
    · rename_i hprimitive
      refine (ends_emit (.box (.ofLiteral v)) t).bind ?_
      rintro _ _ rfl
      refine .pure ⟨hchains, fun r h hgrows => ?_⟩
      rw [State.active_withActive] at hgrows ⊢
      rw [Routine.position_push]
      have hi := hgrows.code (t.active.code_push_self (.box (.ofLiteral v)))
      have hboxed := (hpush r h ((t.active.grows_push _).trans hgrows)).box hi
      simpa only [Host.operand, Host.constant, if_pos hprimitive, Option.map_some] using hboxed
    · rename_i hprimitive
      rw [if_pos (TypeCode.isValue_ofLiteral v)]
      refine .pure ⟨hchains, fun r h hgrows => ?_⟩
      simpa only [Host.operand, Host.constant, if_neg hprimitive] using hpush r h hgrows

theorem ends_variable (tag : ExprTag) (name : String) (hread : tag.access = .read) :
    Ends (boxed (lower cfg (.var tag name))) s (fun _ t => PushesOperand (.var tag name) s t)
      anyFailure := by
  refine Ends.bind (Q := fun kind t => kind = .object ∧ PushesOperand (.var tag name) s t) ?_ ?_
  · rw [lower]
    refine ends_byRule fun _ table => ?_
    show Ends ((variablePlace name).value .variable tag.access) _ _ _
    rw [hread]
    show Ends (emit (.loadVar name) >>= fun _ => pure TypeCode.object) _ _ _
    exact (ends_pushes fun _ _ => Config.pushes_loadVar).bind fun _ _ ht => .pure ⟨rfl, ht⟩
  · rintro _ t ⟨rfl, ht⟩
    exact .pure ht

/-- An operand that need not be evaluated: it may be evaluated again, or it is kept. -/
def AtHand (s : State Chunk) (e : Expr) : Prop :=
  e.isRepeatable = true ∨ ∃ k, s.slot? e.id = some k

/-- An operand that need not be evaluated is pushed. -/
theorem ends_atHand {chain : Chain} {chains : List Chain} (hchains : s.chains = chain :: chains)
    (hread : e.access = .read) (hhand : AtHand s e) :
    Ends (chainOperand e (lower cfg e)) s (fun _ t => PushesOperand e s t) anyFailure := by
  refine .peek_bind ?_
  rw [hchains]
  dsimp only [List.head?_cons]
  by_cases he : e.isRepeatable = true
  · rw [if_pos he]
    cases e with
    | literal tag v => exact ends_literal tag v hread
    | var tag name => exact ends_variable tag name hread
    | _ => exact nomatch he
  · rw [if_neg he]
    obtain ⟨k, hk⟩ := hhand.resolve_left he
    have hlookup : ∃ kind, chain.kept.lookup e.id = some (k, kind) := by
      unfold State.slot? at hk
      rw [hchains] at hk
      obtain ⟨⟨_, kind⟩, hentry, rfl⟩ := Option.map_eq_some_iff.mp hk
      exact ⟨kind, hentry⟩
    obtain ⟨kind, hlookup⟩ := hlookup
    rw [hlookup]
    dsimp only
    refine Ends.bind (ends_pushes fun r h hi => ?_) fun _ _ ht => .pure ht
    simp only [h.operand_of_not_isRepeatable he, hk]
    exact Config.pushes_loadTemp hi

/-! ## In the middle of a chain -/

/-- A chain is open that reports missing items, and what it keeps is in slots that are taken. -/
structure InChain (s : State Chunk) : Prop where
  order : s.active.SlotsInOrder
  taken : ∀ id k, s.slot? id = some k → ¬ s.active.Vacant k
  quiet : s.chains.head?.map Chain.quiet = some false

/-- An operand that is kept stays kept, in the same slot. -/
theorem Tidy.slot? (hst : Tidy s t) {id : Nat} {k : Temp} (hk : s.slot? id = some k) :
    t.slot? id = some k := by
  obtain ⟨more, hchains, -⟩ := hst.chains
  unfold State.slot? at hk ⊢
  rw [hchains]
  cases hs : s.chains with
  | nil => rw [hs] at hk; exact nomatch hk
  | cons chain chains =>
    rw [hs] at hk
    obtain ⟨entry, hentry, rfl⟩ := Option.map_eq_some_iff.mp hk
    simp only [withKept, List.head?_cons, Option.bind_some, List.lookup_append]
    rw [hentry]
    rfl

theorem Tidy.atHand (hst : Tidy s t) (he : AtHand s e) : AtHand t e :=
  he.imp_right fun ⟨k, hk⟩ => ⟨k, hst.slot? hk⟩

theorem Tidy.inChain (hst : Tidy s t) (hs : InChain s) : InChain t := by
  obtain ⟨more, hchains, hmore⟩ := hst.chains
  obtain ⟨chain, hchain, hquiet⟩ := Option.map_eq_some_iff.mp hs.quiet
  obtain ⟨chains, hs'⟩ := List.head?_eq_some_iff.mp hchain
  refine ⟨hst.order, fun id k hk => ?_, ?_⟩
  · cases hsk : s.slot? id with
    | some k' =>
      rw [hst.slot? hsk] at hk
      obtain rfl := Option.some.inj hk
      exact fun hv => hs.taken id k' hsk (hst.vacant k' hv)
    | none =>
      -- It has been kept in the meantime.
      unfold State.slot? at hk hsk
      rw [hchains, hs'] at hk
      rw [hs'] at hsk
      simp only [withKept, List.head?_cons, Option.bind_some, List.lookup_append, Option.map_eq_none_iff]
        at hk hsk
      rw [hsk, Option.none_or] at hk
      obtain ⟨entry, hentry, rfl⟩ := Option.map_eq_some_iff.mp hk
      obtain ⟨before, after, heq, -⟩ := List.lookup_eq_some_iff.mp hentry
      exact (hmore (id, entry) (heq ▸ List.mem_append_right _ List.mem_cons_self)).2
  · rw [hchains, hs']
    exact congrArg some hquiet

/-- An operand is worth the same as long as the slots that were taken are not changed. -/
theorem Tidy.operand (hst : Tidy s t) (hs : InChain s) {slots slots' : Temp → h.Value}
    {world : h.World} {v : h.Value} (hslots : ∀ k, ¬ s.active.Vacant k → slots' k = slots k)
    (hv : h.operand r s.slot? slots world e = some v) :
    h.operand r t.slot? slots' world e = some v := by
  cases e with
  | literal | var => exact hv
  | _ =>
    obtain ⟨k, hk, rfl⟩ := Option.map_eq_some_iff.mp hv
    exact Option.map_eq_some_iff.mpr ⟨k, hst.slot? hk, hslots k (hs.taken _ k hk)⟩

/-! ## Operands that may have to be evaluated -/

/-- A run has come to the end of a routine as it was at a time.  Since an earlier time it has left one
value, and it has not changed the slots that were taken then. -/
structure Pushed (r : Routine) (goal : Nat) (earlier now : Routine) (c : Config h)
    (trace : List (KeyUse h)) (d : Config h) (v : h.Value) (mid : Config h) (first : List (KeyUse h)) :
    Prop where
  pc : mid.pc = now.position
  stack : mid.stack = v :: c.stack
  slots : ∀ k, ¬ earlier.Vacant k → mid.slots k = c.slots k
  below : ∀ use ∈ first, c.stack.length ≤ use.below
  later : ∃ rest, trace = first ++ rest ∧ Arrives r goal mid rest d

/-- The code between two states leaves the value of an operand, which need not be evaluated from then
on.  If it was not to be evaluated in the first place, nothing else happens. -/
def Evaluates (e : Expr) (s t : State Chunk) : Prop :=
  ∀ (r : Routine) (goal : Nat) (h : Host) (c d : Config h) (trace : List (KeyUse h)), t.active.Grows r →
    t.active.position ≤ goal → c.pc = s.active.position → Arrives r goal c trace d →
    ∃ v mid first, Pushed r goal s.active t.active c trace d v mid first ∧
      h.operand r t.slot? mid.slots mid.world e = some v ∧
      (AtHand s e → first = [] ∧ mid.slots = c.slots ∧ mid.world = c.world)

theorem PushesOperand.slot? (hst : PushesOperand e s t) : t.slot? = s.slot? := by
  funext id
  rw [State.slot?, State.slot?, hst.1]

theorem PushesOperand.evaluates (hst : PushesOperand e s t) : Evaluates e s t := by
  intro r goal h c d trace hgrows hgoal hpc hrun
  obtain ⟨v, hv, hlater⟩ := hst.2 r h hgrows goal c d trace hpc hgoal hrun
  refine ⟨v, { c with pc := t.active.position, stack := v :: c.stack }, [],
    ⟨rfl, rfl, fun _ _ => rfl, nofun, trace, rfl, hlater⟩, ?_, fun _ => ⟨rfl, rfl, rfl⟩⟩
  rw [hst.slot?]
  exact hv

theorem KeptAt.evaluates {k : Temp} {p : Nat} (hk : KeptAt e.id k p s t) (he : ¬ AtHand s e) :
    Evaluates e s t := by
  intro r goal h c d trace hgrows hgoal hpc hrun
  have hp := hk.position
  obtain ⟨mid, hmid⟩ := (hk.code.grows hgrows).passed hpc (List.nil_append c.stack).symm rfl
    (by omega) hrun
  obtain ⟨top, hstack, hn⟩ := hmid.stack
  obtain ⟨v, rfl⟩ := List.length_eq_one_iff.mp hn
  obtain ⟨first, rest, rfl, hfirst, hrest⟩ := hmid.split
  have hmidpc := hmid.pc
  have hdup := hgrows.code hk.dup
  have hstore := hgrows.code hk.store
  rw [← hmidpc] at hdup hstore
  obtain ⟨_, _, _, heval, rfl, hrest⟩ := hrest.plain [v] (by omega) hdup rfl hstack rfl
  cases heval
  obtain ⟨_, _, _, heval, rfl, hrest⟩ := hrest.plain [v] (by dsimp only; omega) hstore rfl rfl rfl
  cases heval
  have hbelow : ∀ use ∈ first, c.stack.length ≤ use.below := fun use huse => (hfirst use huse).1
  refine ⟨v, ⟨mid.pc + 1 + 1, v :: c.stack, fun j => if j = k then v else mid.slots j, mid.world⟩, first,
    ⟨?_, rfl, fun j hj => ?_, hbelow, _, rfl, hrest⟩, ?_, fun hhand => absurd hhand he⟩
  · dsimp only
    omega
  · have hne : j ≠ k := fun heq => hj (heq ▸ hk.vacant)
    exact (if_neg hne).trans (hmid.slots j fun hstores => hj (hstores.slot j rfl))
  · rw [h.operand_of_not_isRepeatable (fun hrepeatable => he (Or.inl hrepeatable)), hk.slot]
    exact congrArg some (if_pos rfl)

/-- **An operand of a chain is evaluated once**: its code leaves its value, which is known from then
on. -/
theorem ends_chainOperand (hs : InChain s) (hread : e.access = .read) :
    Ends (chainOperand e (lower cfg e)) s (fun _ t => Tidy s t ∧ AtHand t e ∧ Evaluates e s t)
      anyFailure := by
  obtain ⟨chain, hchain, -⟩ := Option.map_eq_some_iff.mp hs.quiet
  obtain ⟨chains, hchains⟩ := List.head?_eq_some_iff.mp hchain
  refine ((lays_chainOperand (lays_lower cfg e) s hs.order).mono fun _ _ ht => ht.toTidy).and ?_
  by_cases hhand : AtHand s e
  · refine (ends_atHand hchains hread hhand).mono fun _ t ht => ⟨?_, ht.evaluates⟩
    rwa [AtHand, ht.slot?]
  · have hnone : chain.kept.lookup e.id = none := by
      refine Option.eq_none_iff_forall_ne_some.mpr fun entry hentry => hhand (Or.inr ⟨entry.1, ?_⟩)
      rw [State.slot?, hchains, List.head?_cons, Option.bind_some, hentry]
      rfl
    refine (ends_chainOperand_new (lays_lower cfg e) hs.order hchains (fun he => hhand (Or.inl he))
      hnone).mono ?_
    rintro _ t ⟨-, k, p, hk⟩
    exact ⟨Or.inr ⟨k, hk.slot⟩, hk.evaluates hhand⟩

end Lowering
end PhpLowering
