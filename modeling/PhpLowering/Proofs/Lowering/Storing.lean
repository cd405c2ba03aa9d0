import PhpLowering.Proofs.Code.SlotMap
import PhpLowering.Proofs.Lowering.Custody

/-!
# The slots that the code of an expression has stored to

The code of an expression only branches to labels of its own.  So whatever has been stored to in front of
it has been stored to behind it, and the promises of the labels around stay as they are
(`Carries`).  Of the operands that are new, those that are sure have been stored to as well, whatever way
control has taken.

`Provides strict A x` says that the step `x` does so, with the custody `A`.  **`Outline.provides`**: a step
that has an outline does.
-/

namespace PhpLowering
namespace Lowering

open Pass (Ends)

variable {α β : Type} {strict : Prop} {s t u : State Chunk} {m m' m'' : SlotMap} {S S' : Set Temp}
  {ls ls' : List Label} {l : Label} {A B C : Custody}

/-! ## What a piece of an emission carries along -/

/-- A piece of an emission has led from a state to another, and the map has grown with the code.  In the
end these slots have been stored to.  The labels that were there, but for those in `ls`, are as they
were. -/
structure Carries (strict : Prop) (ls : List Label) (S : Set Temp) (m : SlotMap) (s : State Chunk)
    (m' : SlotMap) (t : State Chunk) : Prop where
  fits : m'.Fits strict t.active
  others : SameBesides s.sink t.sink
  marks : ∀ l ∉ ls, (s.active.mark? l).isSome → t.active.mark? l = s.active.mark? l
  promises : ∀ l ∉ ls, (s.active.mark? l).isSome → m'.label l = m.label l
  now : S ⊆ m'.now t.active

namespace Carries

theorem trans (h : Carries strict ls S m s m' t) (h' : Carries strict ls S' m' t m'' u) :
    Carries strict ls S' m s m'' u where
  fits := h'.fits
  others := h.others.trans h'.others
  marks l hl hsome := by
    have hmark := h.marks l hl hsome
    rw [h'.marks l hl (hmark ▸ hsome), hmark]
  promises l hl hsome := by
    rw [h'.promises l hl (h.marks l hl hsome ▸ hsome), h.promises l hl hsome]
  now := h'.now

theorem mono (h : Carries strict ls S m s m' t) (hls : ls ⊆ ls') (hS : S' ⊆ S) :
    Carries strict ls' S' m s m' t where
  fits := h.fits
  others := h.others
  marks l hl := h.marks l fun hl' => hl (hls hl')
  promises l hl := h.promises l fun hl' => hl (hls hl')
  now := hS.trans h.now

theorem weaken (h : Carries strict [] S m s m' t) (hS : S' ⊆ S) : Carries strict ls S' m s m' t :=
  h.mono (List.nil_subset _) hS

/-- Labels that were not there at first need not be mentioned. -/
theorem settle (h : Carries strict ls S m s m' t) (hls : ∀ l ∈ ls, s.active.mark? l = none) :
    Carries strict [] S m s m' t where
  fits := h.fits
  others := h.others
  marks l _ hsome := h.marks l (fun hl => by rw [hls l hl] at hsome; exact nomatch hsome) hsome
  promises l _ hsome := h.promises l (fun hl => by rw [hls l hl] at hsome; exact nomatch hsome) hsome
  now := h.now

/-- A label that is not there in the end was not there at first. -/
theorem mark?_eq_none (h : Carries strict [] S m s m' t) (hl : t.active.mark? l = none) :
    s.active.mark? l = none := by
  cases hmark : s.active.mark? l with
  | none => rfl
  | some mark =>
    have hsame := h.marks l nofun (Option.isSome_of_eq_some hmark)
    exact nomatch (hl.symm.trans hsame).trans hmark

theorem refl (h : m.Fits strict s.active) : Carries strict ls (m.now s.active) m s m s :=
  ⟨h, .refl _, fun _ _ _ => rfl, fun _ _ _ => rfl, .rfl⟩

/-- A step that does not concern the sink. -/
theorem of_sink (h : Carries strict ls S m s m' t) (hsink : u.sink = t.sink) :
    Carries strict ls S m s m' u := by
  have hactive : u.active = t.active := congrArg Chunk.active hsink
  refine ⟨hactive ▸ h.fits, hsink ▸ h.others, fun l hl hsome => ?_, h.promises, hactive ▸ h.now⟩
  rw [hactive]
  exact h.marks l hl hsome

/-- The routine at hand is another one. -/
theorem withActive {r : Routine} (hfits : m'.Fits strict r) (hregions : r.regions = s.active.regions)
    (hopened : r.openRegions = s.active.openRegions)
    (hmarks : ∀ l ∉ ls, (s.active.mark? l).isSome → r.mark? l = s.active.mark? l)
    (hpromises : ∀ l ∉ ls, (s.active.mark? l).isSome → m'.label l = m.label l) (hnow : S ⊆ m'.now r) :
    Carries strict ls S m s m' (s.withActive r) := by
  refine ⟨?_, .withActive hregions hopened, ?_, hpromises, ?_⟩
  all_goals rwa [State.active_withActive]

/-- Work on the routine at hand, but not on its code, its labels and its regions. -/
theorem of_sameText {r : Routine} (h : m.Fits strict s.active) (hsame : s.active.SameText r) :
    Carries strict ls (m.now s.active) m s m (s.withActive r) :=
  .withActive (h.of_sameText hsame) hsame.regions hsame.opened
    (fun l _ _ => by rw [Routine.mark?, hsame.labels]; rfl) (fun _ _ _ => rfl)
    (m.now_of_sameText hsame).symm.subset

end Carries

/-- A label waits for its mark, and it promises these slots. -/
structure Waits (m : SlotMap) (s : State Chunk) (l : Label) (S : Set Temp) : Prop where
  unmarked : s.active.mark? l = some none
  promise : S ⊆ m.label l

theorem Waits.carry (h : Waits m s l S) (hc : Carries strict ls S' m s m' t) (hl : l ∉ ls) :
    Waits m' t l S := by
  have hsome : (s.active.mark? l).isSome := by rw [h.unmarked]; rfl
  exact ⟨(hc.marks l hl hsome).trans h.unmarked, hc.promises l hl hsome ▸ h.promise⟩

theorem Waits.mono (h : Waits m s l S) (hS : S' ⊆ S) : Waits m s l S' :=
  ⟨h.unmarked, hS.trans h.promise⟩

/-! ## Single steps -/

/-- A step that leaves the chains and the frame alone, and what it carries along. -/
structure Steps (strict : Prop) (ls : List Label) (S : Set Temp) (m : SlotMap) (s : State Chunk)
    (m' : SlotMap) (t : State Chunk) : Prop extends Carries strict ls S m s m' t where
  chains : t.chains = s.chains
  frame : t.frame = s.frame

theorem Steps.trans (h : Steps strict ls S m s m' t) (h' : Steps strict ls S' m' t m'' u) :
    Steps strict ls S' m s m'' u :=
  ⟨h.toCarries.trans h'.toCarries, h'.chains.trans h.chains, h'.frame.trans h.frame⟩

section Steps

variable (h : m.Fits strict s.active)
include h

/-- An instruction without labels. -/
theorem ends_emit_carries (i : Instruction) (hlabels : i.labels = [])
    (hloads : strict → ∀ k, i = .loadTemp k → k ∈ m.now s.active)
    (hS : ∀ k ∈ S, k ∈ m.now s.active ∨ i = .storeTemp k) :
    Ends (emit i) s (fun _ t => ∃ m', Steps strict [] S m s m' t) anyFailure := by
  have hrun := Routine.emit_eq (r := s.active) (i := i) (by rw [hlabels]; nofun)
  refine ends_toSink (.of_eq hrun ⟨_, .withActive (h.push i hloads (fun _ => hS) (by rw [hlabels]; nofun))
    rfl rfl (fun _ _ _ => rfl) (fun _ _ _ => rfl) ?_, rfl, rfl⟩)
  exact (SlotMap.now_push ..).symm.subset

/-- An instruction that has to do with no label and no slot. -/
theorem ends_emitPlain_carries (i : Instruction) (hlabels : i.labels = []) (hslot : i.slot? = none) :
    Ends (emit i) s (fun _ t => ∃ m', Steps strict [] (m.now s.active) m s m' t) anyFailure :=
  ends_emit_carries h i hlabels (by rintro - k rfl; exact nomatch hslot) fun _ => Or.inl

theorem ends_loadTemp_carries (k : Temp) (hk : strict → k ∈ m.now s.active) :
    Ends (emit (.loadTemp k)) s (fun _ t => ∃ m', Steps strict [] (m.now s.active) m s m' t) anyFailure :=
  ends_emit_carries h _ rfl (fun hstrict _ heq => Instruction.loadTemp.inj heq ▸ hk hstrict) fun _ => Or.inl

theorem ends_storeTemp_carries (k : Temp) :
    Ends (emit (.storeTemp k)) s (fun _ t => ∃ m', Steps strict [] (insert k (m.now s.active)) m s m' t)
      anyFailure :=
  ends_emit_carries h _ rfl nofun fun _ hj => (Set.mem_insert_iff.mp hj).symm.imp_right fun heq => by rw [heq]

/-- A branch to a label that waits for its mark. -/
theorem ends_emit_toward (i : Instruction) (hslot : ∀ k, i ≠ .loadTemp k) (hlabels : i.labels = [l])
    (hl : Waits m s l S) (hS : S ⊆ m.now s.active) :
    Ends (emit i) s (fun _ t => ∃ m', Steps strict [l] S m s m' t ∧ Waits m' t l S) anyFailure := by
  have hlower := h.lower hl.unmarked hl.promise
  have hmem {l' : Label} (hl' : l' ∈ i.labels) : l' = l := by
    rw [hlabels] at hl'
    exact List.mem_singleton.mp hl'
  have hsome : (s.active.mark? l).isSome := by rw [hl.unmarked]; rfl
  have hpush : ((m.withLabel l S).withBefore (s.active.position + 1) S).Fits strict (s.active.push i) := by
    refine hlower.push i (fun _ k hk => absurd hk (hslot k)) (fun _ => hS.trans Set.subset_union_left)
      fun l' hl' => ?_
    rw [hmem hl', SlotMap.label_withLabel]
    exact ⟨hsome, hS⟩
  have hrun := Routine.emit_eq (r := s.active) (i := i) fun l' hl' => hmem hl' ▸ hsome
  refine ends_toSink (.of_eq hrun ⟨_, ⟨.withActive hpush rfl rfl (fun _ _ _ => rfl) (fun l' hl' _ => ?_) ?_,
    rfl, rfl⟩, ?_, ?_⟩)
  · exact SlotMap.label_withLabel_of_ne (by simpa using hl')
  · exact (SlotMap.now_push ..).symm.subset
  · rw [State.active_withActive]
    exact hl.unmarked
  · exact (SlotMap.label_withLabel ..).symm.subset

/-- Where a label is marked, what it promises has still been stored to. -/
theorem ends_mark_carries (hl : Waits m s l S) (hS : S ⊆ m.now s.active) :
    Ends (mark l) s (fun _ t => ∃ m', Steps strict [l] S m s m' t) anyFailure := by
  refine ends_toSink (.of_eq (Routine.markLabel_eq hl.unmarked) ⟨_, .withActive (h.marking hl.unmarked)
    rfl rfl (fun l' hl' _ => ?_) (fun _ _ _ => rfl) ?_, rfl, rfl⟩)
  · rw [Routine.mark?_marking hl.unmarked, if_neg (by simpa using hl')]
  · show S ⊆ SlotMap.now _ s.active
    rw [SlotMap.now_withBefore]
    exact Set.subset_inter hS hl.promise

/-- A new label promises whatever is wanted. -/
theorem ends_defineLabel_carries (S : Set Temp) :
    Ends defineLabel s (fun l t => s.active.mark? l = none ∧
      ∃ m', Steps strict [] (m.now s.active) m s m' t ∧ Waits m' t l S ∧ m'.label l = S) anyFailure := by
  have hdefine : (defineLabel : Emit Chunk Label) s =
      (.ok s.active.defineLabel.1, s.withActive s.active.defineLabel.2) := by
    show ((.ok (Chunk.onActive Routine.defineLabel s.sink).1,
      { s with sink := (Chunk.onActive Routine.defineLabel s.sink).2 }) :
        Except CompileError Label × State Chunk) = _
    rw [Chunk.onActive_eq]
    rfl
  have hne {l : Label} (hsome : (s.active.mark? l).isSome) : l ≠ s.active.defineLabel.1 := by
    rintro rfl
    rw [Routine.mark?_new] at hsome
    exact nomatch hsome
  refine .of_eq hdefine ⟨Routine.mark?_new, _, ⟨.withActive (h.defineLabel S) rfl rfl (fun l _ hsome => ?_)
    (fun l _ hsome => SlotMap.label_withLabel_of_ne (hne hsome)) .rfl, rfl, rfl⟩, ⟨?_, ?_⟩,
    SlotMap.label_withLabel ..⟩
  · rw [Routine.mark?_defineLabel, if_neg (hne hsome)]
  · rw [State.active_withActive, Routine.mark?_defineLabel, if_pos rfl]
  · exact (SlotMap.label_withLabel ..).symm.subset

/-- A call that does not change the code, the labels and the regions. -/
theorem ends_sameText_carries {call : Pass SinkError Routine α} (hcall : ∀ r, Routine.SameText r (call r).2) :
    Ends (toSink (Chunk.onActive call)) s (fun _ t => Steps strict [] (m.now s.active) m s m t) anyFailure := by
  refine ends_toSink (.intro (fun a r hrun => ?_) fun _ _ _ => trivial)
  have hsame := hcall s.active
  rw [hrun] at hsame
  exact ⟨.of_sameText h hsame, rfl, rfl⟩

theorem ends_onTable_carries (q : Pass Fault RuleTable α) :
    Ends (onTable q : Emit Chunk α) s (fun _ t => ∃ m', Steps strict [] (m.now s.active) m s m' t)
      anyFailure := by
  refine .intro (fun a t hrun => ?_) fun _ _ _ => trivial
  unfold onTable at hrun
  split at hrun
  · obtain rfl := (Prod.mk.inj hrun).2
    exact ⟨m, (Carries.refl h).of_sink rfl, rfl, rfl⟩
  · cases hrun

theorem ends_declareTemp_carries :
    Ends declareTemp s (fun _ t => Steps strict [] (m.now s.active) m s m t) anyFailure :=
  ends_sameText_carries h Routine.sameText_declareTemp

theorem ends_addConstant_carries (v : Literal) :
    Ends (toSink (Sink.addConstant v)) s (fun _ t => Steps strict [] (m.now s.active) m s m t) anyFailure :=
  ends_sameText_carries h fun r => r.sameText_addConstant v

theorem steps_returnTemp (k : Temp) :
    Steps strict [] (m.now s.active) m s m { s with sink := Sink.returnTemp k s.sink } := by
  have hreturn : ({ s with sink := Sink.returnTemp k s.sink } : State Chunk) =
      s.withActive (s.active.returnTemp k) := by
    show ({ s with sink := (Chunk.onActive (fun r => ((), r.returnTemp k)) s.sink).2 } : State Chunk) = _
    rw [Chunk.onActive_eq]
    rfl
  exact ⟨hreturn ▸ .of_sameText h (s.active.sameText_returnTemp k), rfl, rfl⟩

/-- A value is copied to a slot. -/
theorem ends_saveTo_carries (k : Temp) :
    Ends (saveTo k) s (fun _ t => ∃ m', Steps strict [] (insert k (m.now s.active)) m s m' t) anyFailure := by
  refine (ends_emitPlain_carries h .dup rfl rfl).bind fun _ t ⟨m₁, h₁⟩ => ?_
  refine (ends_storeTemp_carries h₁.fits k).mono fun _ u ⟨m₂, h₂⟩ => ⟨m₂, ?_⟩
  exact ⟨(h₁.toCarries.trans h₂.toCarries).weaken (Set.insert_subset_insert h₁.now),
    h₂.chains.trans h₁.chains, h₂.frame.trans h₁.frame⟩

end Steps

/-- Slots are given back one by one. -/
theorem Carries.returnTemps (slots : List Temp) (h : Carries strict ls S m s m' t)
    (hsink : u.sink = slots.foldl (fun c k => Sink.returnTemp k c) t.sink) :
    Carries strict ls S m s m' u := by
  induction slots generalizing t with
  | nil => exact h.of_sink hsink
  | cons k rest ih =>
    have hfirst := (steps_returnTemp h.fits k).toCarries
    exact ih (h.trans (hfirst.weaken h.now)) hsink

theorem Carries.endChain (h : Carries strict ls S m s m' t) : Carries strict ls S m s m' t.endChain := by
  unfold State.endChain
  split
  · exact h
  · rename_i chain chains hchains
    exact h.returnTemps ((t.releases 0).arrange chain.slots) rfl

/-! ## Operands -/

/-- An operand is kept in a slot that has been stored to. -/
def HasStored (m : SlotMap) (s : State Chunk) (i : Nat) : Prop :=
  ∃ entry, (entries s.chains).lookup i = some entry ∧ entry.1 ∈ m.now s.active

theorem HasStored.mono {i : Nat} (h : HasStored m s i) (hchains : ∃ more, t.chains = withKept more s.chains)
    (hnow : m.now s.active ⊆ m'.now t.active) : HasStored m' t i := by
  obtain ⟨entry, hlookup, hentry⟩ := h
  obtain ⟨more, hmore⟩ := hchains
  refine ⟨entry, ?_, hnow hentry⟩
  rw [hmore]
  cases hs : s.chains with
  | nil =>
    rw [hs] at hlookup
    exact nomatch hlookup
  | cons chain chains =>
    rw [hs] at hlookup
    show (chain.kept ++ more).lookup i = some entry
    rw [List.lookup_append, show chain.kept.lookup i = some entry from hlookup]
    rfl

theorem HasStored.of_chains {i : Nat} (h : HasStored m s i) (hchains : t.chains = s.chains)
    (hnow : m.now s.active ⊆ m'.now t.active) : HasStored m' t i :=
  h.mono ⟨[], by rw [hchains, withKept_nil]⟩ hnow

/-- An operand that has just been kept is found. -/
theorem lookup_keepOperand {i : Nat} (k : Temp) (code : TypeCode) (h : ¬ Keeps s.chains i)
    (hopen : s.chains ≠ []) : (entries (s.keepOperand i k code).chains).lookup i = some (k, code) := by
  rw [chains_keepOperand_of_not_keeps k code h, entries_withKept _ hopen, List.lookup_append,
    lookup_eq_none_of_not_keeps h]
  simp

/-- A step does what its custody says, loads only what has been stored to, and carries what has been stored
to along, with the operands that are sure. -/
structure Provides (strict : Prop) (A : Custody) (x : Emit Chunk α) : Prop where
  does : Does A x
  stores : ∀ {m : SlotMap} {s : State Chunk}, m.Fits strict s.active → A.Allows s →
    (strict → ∀ i ∈ A.known, HasStored m s i) →
    Ends x s (fun _ t => ∃ m', Carries strict [] (m.now s.active) m s m' t ∧
      (s.chains ≠ [] → ∀ i ∈ A.sure, HasStored m' t i)) anyFailure

/-- Where a step leads. -/
structure Provided (strict : Prop) (A : Custody) (m : SlotMap) (s : State Chunk) (m' : SlotMap)
    (t : State Chunk) : Prop where
  done : A.Done s t
  carries : Carries strict [] (m.now s.active) m s m' t
  sure : s.chains ≠ [] → ∀ i ∈ A.sure, HasStored m' t i

theorem Custody.Done.grown (h : A.Done s t) : ∃ more, t.chains = withKept more s.chains :=
  h.chains.imp fun _ hmore => hmore.1

theorem exists_withKept_trans (h : ∃ more, t.chains = withKept more s.chains)
    (h' : ∃ more, u.chains = withKept more t.chains) : ∃ more, u.chains = withKept more s.chains := by
  obtain ⟨more, hmore⟩ := h
  obtain ⟨more', hmore'⟩ := h'
  exact ⟨more ++ more', by rw [hmore', hmore, withKept_append]⟩

namespace Provides

variable {x : Emit Chunk α} {f : α → Emit Chunk β}

theorem ends (h : Provides strict A x) (hfits : m.Fits strict s.active) (hs : A.Allows s)
    (hknown : strict → ∀ i ∈ A.known, HasStored m s i) :
    Ends x s (fun _ t => ∃ m', Provided strict A m s m' t) anyFailure :=
  ((h.does s hs).and (h.stores hfits hs hknown)).mono
    fun _ _ ⟨hdone, m', hcarries, hsure⟩ => ⟨m', hdone, hcarries, hsure⟩

theorem of_steps (hx : LeavesChains x) (h : ∀ {m : SlotMap} {s : State Chunk}, m.Fits strict s.active →
    Ends x s (fun _ t => ∃ m', Steps strict [] (m.now s.active) m s m' t) anyFailure) :
    Provides strict {} x where
  does := hx.does
  stores hfits _ _ := (h hfits).mono fun _ _ ⟨m', hm'⟩ => ⟨m', hm'.toCarries, fun _ => nofun⟩

theorem mono (h : Provides strict A x) (hAB : A.Covers B) : Provides strict B x where
  does := h.does.mono hAB
  stores hfits hs hknown := (h.stores hfits (hAB.allows hs)
    fun hstrict i hi => hknown hstrict i (hAB.known hi)).mono
      fun _ _ ⟨m', hcarries, hsure⟩ => ⟨m', hcarries, fun hopen i hi => hsure hopen i (hAB.sure hi)⟩

theorem seq (hx : Provides strict A x) (hf : ∀ a, Provides strict B (f a))
    (hd : A.fresh.Disjoint B.fresh) : Provides strict (A.seq B) (x >>= f) where
  does := hx.does.seq (fun a => (hf a).does) hd
  stores {m s} hfits hs hknown := by
    refine (hx.ends hfits hs.left fun hstrict i hi => hknown hstrict i (List.mem_append_left _ hi)).bind
      fun a t ⟨m₁, h₁⟩ => ?_
    refine ((hf a).ends h₁.carries.fits (h₁.done.allows hs hd) fun hstrict i hi => ?_).mono
      fun _ u ⟨m₂, h₂⟩ => ⟨m₂, ?_, fun hopen i hi => ?_⟩
    · exact (hknown hstrict i (List.mem_append_right _ hi)).mono h₁.done.grown h₁.carries.now
    · exact (h₁.carries.trans h₂.carries).weaken h₁.carries.now
    · rcases List.mem_append.mp hi with hi | hi
      · exact (h₁.sure hopen i hi).mono h₂.done.grown h₂.carries.now
      · exact h₂.sure (mt h₁.done.chains_eq_nil_iff.mp hopen) i hi

end Provides

/-! ## Ways of putting code together -/

theorem Custody.Done.still (h : A.Done s t) (hchains : u.chains = t.chains) (hframe : u.frame = t.frame) :
    A.Done s u :=
  ⟨by rw [hchains]; exact h.chains, by rw [hchains]; exact h.gained, hframe.trans h.sameFrame⟩

theorem Custody.Allows.of_chains (h : A.Allows s) (hchains : t.chains = s.chains) : A.Allows t :=
  ⟨by rw [hchains]; exact h.fresh, by rw [hchains]; exact h.known⟩

section Ways

variable {γ δ : Type} {x : Emit Chunk α} {y : Emit Chunk β} {z : Emit Chunk γ} {w : Emit Chunk δ} {e : Expr}
  {code : Code Chunk}

theorem provides_operand (hcode : Provides strict A (boxed code)) (hrepeatable : e.isRepeatable = false)
    (hnew : e.id ∉ A.fresh) :
    Provides strict { fresh := e.id :: A.fresh, known := A.known, gained := [e.id], sure := [e.id] }
      (chainOperand e code) where
  does := does_operand hcode.does hrepeatable hnew
  stores {m s} hfits hs hknown := by
    have hallows : A.Allows s := ⟨fun i hi => hs.fresh i (List.mem_cons_of_mem _ hi), hs.known⟩
    have hid : ¬ Keeps s.chains e.id := hs.fresh _ List.mem_cons_self
    have hboxed := hcode.ends hfits hallows hknown
    refine .peek_bind ?_
    cases hchains : s.chains with
    | nil => exact hboxed.mono fun _ t ⟨m', hm'⟩ => ⟨m', hm'.carries, fun hopen => absurd rfl hopen⟩
    | cons chain chains =>
      have hlookup : chain.kept.lookup e.id = none := by
        have hnone := lookup_eq_none_of_not_keeps hid
        rwa [hchains] at hnone
      dsimp only [List.head?_cons]
      rw [if_neg (Bool.eq_false_iff.mp hrepeatable), hlookup]
      refine hboxed.bind fun kind t ⟨m₁, h₁⟩ => ?_
      refine (ends_declareTemp_carries h₁.carries.fits).bind fun slot t₁ h₂ => ?_
      refine (ends_saveTo_carries h₂.fits slot).bind fun _ t₂ ⟨m₃, h₃⟩ => .update_bind (.pure ?_)
      have hsame : t₂.chains = t.chains := h₃.chains.trans h₂.chains
      have hid' : ¬ Keeps t₂.chains e.id := by
        rw [hsame]
        exact fun hkeeps => (h₁.done.of_keeps hkeeps).elim hid hnew
      have hcarries : Carries strict [] (insert slot (m₁.now t₁.active)) m s m₃ t₂ :=
        h₁.carries.trans (h₂.toCarries.trans h₃.toCarries)
      have hnow : m.now s.active ⊆ m₁.now t₁.active := h₁.carries.now.trans h₂.now
      refine ⟨m₃, (hcarries.weaken (hnow.trans (Set.subset_insert _ _))).of_sink (keepOperand_sink ..),
        fun _ i hi => ⟨(slot, kind), ?_, ?_⟩⟩
      · obtain rfl := List.mem_singleton.mp hi
        refine lookup_keepOperand slot kind hid' ?_
        rw [hsame, Ne, h₁.done.chains_eq_nil_iff, hchains]
        nofun
      · have hactive : (t₂.keepOperand e.id slot kind).active = t₂.active :=
          congrArg Chunk.active (keepOperand_sink ..)
        rw [hactive]
        exact hcarries.now (Set.mem_insert _ _)

theorem provides_again (code : Code Chunk) (hrepeatable : e.isRepeatable = false) :
    Provides strict { known := [e.id] } (chainOperand e code) where
  does := does_again code hrepeatable
  stores {m s} hfits hs hknown := by
    obtain ⟨entry, hentry⟩ := (hs.known _ (List.mem_singleton_self _)).lookup
    unfold Ends
    rw [chainOperand_eq hrepeatable hentry]
    refine (ends_loadTemp_carries hfits entry.1 fun hstrict => ?_).bind
      fun _ t ⟨m', hm'⟩ => .pure ⟨m', hm'.toCarries, fun _ => nofun⟩
    obtain ⟨entry', hentry', hstored⟩ := hknown hstrict _ (List.mem_singleton_self _)
    obtain rfl := Option.some.inj (hentry.symm.trans hentry')
    exact hstored

/-- Work in front of a label that is marked behind it. -/
theorem ends_marked_carries (hy : Provides strict B y) (hfits : m.Fits strict s.active) (hs : B.Allows s)
    (hknown : strict → ∀ i ∈ B.known, HasStored m s i) (hl : Waits m s l S) (hS : S ⊆ m.now s.active) :
    Ends (do let _ ← y; mark l) s (fun _ t => ∃ m', B.Done s t ∧ Carries strict [l] S m s m' t) anyFailure := by
  refine (hy.ends hfits hs hknown).bind fun _ t ⟨m₁, h₁⟩ => ?_
  refine (ends_mark_carries h₁.carries.fits (hl.carry h₁.carries nofun) (hS.trans h₁.carries.now)).mono
    fun _ u ⟨m₂, h₂⟩ => ⟨m₂, h₁.done.still h₂.chains h₂.frame, ?_⟩
  exact (h₁.carries.weaken hS).trans h₂.toCarries

theorem provides_skipped (hx : Provides strict A x) (hy : Provides strict B y)
    (hd : A.fresh.Disjoint B.fresh) : Provides strict (A.seq B.unsure) (skipped x y) where
  does := does_skipped hx.does hy.does hd
  stores {m s} hfits hs hknown := by
    refine (ends_defineLabel_carries hfits Set.univ).bind fun done t ⟨hnew, m₁, h₁, hwaits, _⟩ => ?_
    have hallows : (A.seq B).Allows t := Custody.Allows.of_chains ⟨hs.fresh, hs.known⟩ h₁.chains
    have hstored (hstrict : strict) (i : Nat) (hi : i ∈ (A.seq B).known) : HasStored m₁ t i :=
      (hknown hstrict i hi).of_chains h₁.chains h₁.now
    refine (hx.ends h₁.fits hallows.left fun hstrict i hi =>
      hstored hstrict i (List.mem_append_left _ hi)).bind fun _ t₂ ⟨m₂, h₂⟩ => ?_
    have hwaits₂ : Waits m₂ t₂ done (m₂.now t₂.active) :=
      (hwaits.carry h₂.carries nofun).mono (Set.subset_univ _)
    refine (ends_emit_toward h₂.carries.fits (.branchIfTrue done) nofun rfl hwaits₂ .rfl).bind
      fun _ t₃ ⟨m₃, h₃, hwaits₃⟩ => ?_
    have hknown₃ (hstrict : strict) (i : Nat) (hi : i ∈ B.known) : HasStored m₃ t₃ i :=
      ((hstored hstrict i (List.mem_append_right _ hi)).mono h₂.done.grown h₂.carries.now).of_chains
        h₃.chains h₃.now
    refine (ends_marked_carries hy h₃.fits ((h₂.done.allows hallows hd).of_chains h₃.chains) hknown₃
      hwaits₃ h₃.now).mono fun _ u ⟨m₄, hdone, h₄⟩ => ⟨m₄, ?_, fun hopen i hi => ?_⟩
    · have hall : Carries strict [done] (m₂.now t₂.active) m s m₄ u :=
        (h₁.toCarries.weaken .rfl).trans ((h₂.carries.weaken .rfl).trans (h₃.toCarries.trans h₄))
      refine (hall.settle fun l hl => ?_).weaken (h₁.now.trans h₂.carries.now)
      rw [List.mem_singleton.mp hl, hnew]
    · rw [Custody.seq, Custody.unsure, List.append_nil] at hi
      have hopen' : t.chains ≠ [] := by rwa [h₁.chains]
      exact (h₂.sure hopen' i hi).mono (h₃.chains ▸ hdone.grown) h₄.now

/-- Two alternatives, one of which is taken, when both labels are there. -/
theorem ends_alternatives_carries {otherwise done : Label} (hx : Provides strict A x)
    (hy : Provides strict B y) (hz : Provides strict C z) (hd : A.fresh.Disjoint (B.fresh ++ C.fresh))
    (hBC : B.fresh.Disjoint C.fresh) (hfits : m.Fits strict s.active) (hs : (A.seq (B.seq C)).Allows s)
    (hknown : strict → ∀ i ∈ (A.seq (B.seq C)).known, HasStored m s i)
    (hotherwise : Waits m s otherwise Set.univ) (hdone : Waits m s done Set.univ) (hne : otherwise ≠ done) :
    Ends (do
      let _ ← x
      emit (.branchIfFalse otherwise)
      let _ ← y
      emit (.branch done)
      mark otherwise
      let _ ← z
      mark done) s (fun _ t => ∃ m', Carries strict [otherwise, done] (m.now s.active) m s m' t ∧
        (s.chains ≠ [] → ∀ i ∈ A.sure, HasStored m' t i)) anyFailure := by
  have hfirst : [otherwise] ⊆ [otherwise, done] := by simp
  have hsecond : [done] ⊆ [otherwise, done] := by simp
  refine (hx.ends hfits hs.left fun hstrict i hi => hknown hstrict i (List.mem_append_left _ hi)).bind
    fun _ t₁ ⟨m₁, h₁⟩ => ?_
  have hotherwise₁ := (hotherwise.carry h₁.carries nofun).mono (Set.subset_univ (m₁.now t₁.active))
  have hdone₁ := (hdone.carry h₁.carries nofun).mono (Set.subset_univ (m₁.now t₁.active))
  refine (ends_emit_toward h₁.carries.fits (.branchIfFalse otherwise) nofun rfl hotherwise₁ .rfl).bind
    fun _ t₂ ⟨m₂, h₂, hotherwise₂⟩ => ?_
  have hallows₂ : (B.seq C).Allows t₂ := (h₁.done.allows hs hd).of_chains h₂.chains
  have hknown₁ (hstrict : strict) (i : Nat) (hi : i ∈ (B.seq C).known) : HasStored m₁ t₁ i :=
    (hknown hstrict i (List.mem_append_right _ hi)).mono h₁.done.grown h₁.carries.now
  have hdone₂ := hdone₁.carry h₂.toCarries (by simpa using hne.symm)
  refine (hy.ends h₂.fits hallows₂.left fun hstrict i hi =>
    (hknown₁ hstrict i (List.mem_append_left _ hi)).of_chains h₂.chains h₂.now).bind fun _ t₃ ⟨m₃, h₃⟩ => ?_
  have hS₃ := h₂.now.trans h₃.carries.now
  refine (ends_emit_toward h₃.carries.fits (.branch done) nofun rfl (hdone₂.carry h₃.carries nofun) hS₃).bind
    fun _ t₄ ⟨m₄, h₄, hdone₄⟩ => ?_
  have hotherwise₄ := (hotherwise₂.carry h₃.carries nofun).carry h₄.toCarries (by simpa using hne)
  refine (ends_mark_carries h₄.fits hotherwise₄ h₄.now).bind fun _ t₅ ⟨m₅, h₅⟩ => ?_
  have hdone₅ := hdone₄.carry h₅.toCarries (by simpa using hne.symm)
  have hsame : t₅.chains = t₃.chains := h₅.chains.trans h₄.chains
  have hgrown : ∃ more, t₅.chains = withKept more t₁.chains := by
    rw [hsame, ← h₂.chains]
    exact h₃.done.grown
  have hall₅ : Carries strict [otherwise, done] (m₁.now t₁.active) m₂ t₂ m₅ t₅ :=
    (h₃.carries.weaken h₂.now).trans ((h₄.toCarries.mono hsecond .rfl).trans (h₅.toCarries.mono hfirst .rfl))
  refine (ends_marked_carries hz h₅.fits ((h₃.done.allows hallows₂ hBC).of_chains hsame) (fun hstrict i hi =>
    (hknown₁ hstrict i (List.mem_append_right _ hi)).mono hgrown h₅.now) hdone₅ h₅.now).mono
      fun _ u ⟨m₆, hgone, h₆⟩ => ⟨m₆, ?_, fun hopen i hi => ?_⟩
  · exact ((h₁.carries.weaken .rfl).trans ((h₂.toCarries.mono hfirst .rfl).trans
      (hall₅.trans (h₆.mono hsecond .rfl)))).mono (.refl _) h₁.carries.now
  · exact (h₁.sure hopen i hi).mono (exists_withKept_trans hgrown hgone.grown) h₆.now

theorem provides_forked (doneFirst : Bool) (hx : Provides strict A x) (hy : Provides strict B y)
    (hz : Provides strict C z) (hAB : A.fresh.Disjoint B.fresh)
    (hABC : (A.fresh ++ B.fresh).Disjoint C.fresh) :
    Provides strict ((A.seq B.unsure).seq C.unsure) (forked doneFirst x y z) where
  does := does_forked doneFirst hx.does hy.does hz.does hAB hABC
  stores {m s} hfits hs hknown := by
    have hd := List.disjoint_append_left.mp hABC
    refine (ends_defineLabel_carries hfits Set.univ).bind fun one t₁ ⟨hone, m₁, h₁, hone₁, _⟩ => ?_
    refine (ends_defineLabel_carries h₁.fits Set.univ).bind fun other t₂ ⟨hother, m₂, h₂, hother₂, _⟩ => ?_
    have hne : one ≠ other := by
      rintro rfl
      exact nomatch hone₁.unmarked.symm.trans hother
    have hone₂ := hone₁.carry h₂.toCarries nofun
    have h₁₂ := h₁.trans h₂
    have hallows : (A.seq (B.seq C)).Allows t₂ := by
      refine Custody.Allows.of_chains ⟨?_, ?_⟩ h₁₂.chains
      · simpa [Custody.seq, Custody.unsure] using hs.fresh
      · simpa [Custody.seq, Custody.unsure] using hs.known
    have hknown₂ (hstrict : strict) (i : Nat) (hi : i ∈ (A.seq (B.seq C)).known) : HasStored m₂ t₂ i :=
      (hknown hstrict i (by simpa [Custody.seq, Custody.unsure] using hi)).of_chains h₁₂.chains
        (h₁.now.trans h₂.now)
    -- It makes no difference which of the two labels was made first.
    have hparts {otherwise done : Label} (hne : otherwise ≠ done)
        (hotherwise : s.active.mark? otherwise = none) (hdone : s.active.mark? done = none)
        (hotherwise₂ : Waits m₂ t₂ otherwise Set.univ) (hdone₂ : Waits m₂ t₂ done Set.univ) :=
      (ends_alternatives_carries hx hy hz (List.disjoint_append_right.mpr ⟨hAB, hd.1⟩) hd.2 h₂.fits
        hallows hknown₂ hotherwise₂ hdone₂ hne).mono fun _ u ⟨m', hcarries, hsure⟩ =>
          show ∃ m', Carries strict [] (m.now s.active) m s m' u ∧ (s.chains ≠ [] →
              ∀ i ∈ ((A.seq B.unsure).seq C.unsure).sure, HasStored m' u i) from
          ⟨m', (((h₁₂.toCarries.weaken .rfl).trans hcarries).settle (by
            simp [hotherwise, hdone])).weaken (h₁.now.trans h₂.now), fun hopen i hi =>
              hsure (by rwa [h₁₂.chains]) i (by simpa [Custody.seq, Custody.unsure] using hi)⟩
    cases doneFirst with
    | true => exact hparts hne.symm (h₁.mark?_eq_none hother) hone hother₂ hone₂
    | false => exact hparts hne hone (h₁.mark?_eq_none hother) hone₂ hother₂

/-! ### Chains of their own -/

/-- Steps that are taken one after another at the beginning of a chain. -/
theorem ends_inChain_carries (hx : Provides strict A x) (hy : Provides strict B y) (hA : A.known = [])
    (hd : A.fresh.Disjoint B.fresh) (hgained : B.known ⊆ A.gained) (hsure : strict → B.known ⊆ A.sure)
    {chain : Chain} {chains : List Chain} (hfits : m.Fits strict s.active)
    (hs : s.chains = chain :: chains) (hkept : chain.kept = []) :
    Ends (do let _ ← x; y) s (fun _ t => ∃ m', Carries strict [] (m.now s.active) m s m' t) anyFailure := by
  refine (hx.ends hfits (Custody.allows_atStart hs hkept hA) fun _ i hi => ?_).bind fun _ t ⟨m₁, h₁⟩ => ?_
  · rw [hA] at hi
    exact nomatch hi
  · have hopen : s.chains ≠ [] := by rw [hs]; nofun
    exact (hy.ends h₁.carries.fits (h₁.done.allows_inChain hs hkept hd hgained) fun hstrict i hi =>
      h₁.sure hopen i (hsure hstrict hi)).mono
        fun _ u ⟨m₂, h₂⟩ => ⟨m₂, (h₁.carries.trans h₂.carries).weaken h₁.carries.now⟩

/-- A chain has been begun. -/
theorem Carries.beginChain (hfits : m.Fits strict s.active) (quiet : Bool) :
    Carries strict [] (m.now s.active) m s m ({ s with chains := { quiet } :: s.chains } : State Chunk) :=
  (Carries.refl hfits).of_sink rfl

theorem provides_chained (quiet : Bool) (hx : Provides strict A x) (hy : Provides strict B y)
    (hA : A.known = []) (hd : A.fresh.Disjoint B.fresh) (hgained : B.known ⊆ A.gained)
    (hsure : strict → B.known ⊆ A.sure) : Provides strict {} (chained quiet x y) where
  does := does_chained quiet hx.does hy.does hA hd hgained
  stores {m s} hfits _ _ := by
    rw [chained_eq]
    have hbegin := Carries.beginChain hfits quiet
    exact .update_bind ((ends_inChain_carries hx hy hA hd hgained hsure hbegin.fits rfl rfl).bind
      fun _ t ⟨m₁, h₁⟩ => .update_bind (.pure ⟨m₁, (hbegin.trans h₁).endChain, fun _ => nofun⟩))

/-- A value is saved in a slot of its own. -/
theorem ends_saving_carries (hz : Provides strict {} z) (hw : Provides strict {} w)
    (hfits : m.Fits strict s.active) :
    Ends (do
      let slot ← declareTemp
      let _ ← z
      saveTo slot
      let _ ← w
      return slot) s (fun slot t => ∃ m', Carries strict [] (insert slot (m.now s.active)) m s m' t)
      anyFailure := by
  refine (ends_declareTemp_carries hfits).bind fun slot t₁ h₁ => ?_
  refine (hz.ends h₁.fits (Custody.allows_empty t₁) fun _ => nofun).bind fun _ t₂ ⟨m₂, h₂⟩ => ?_
  refine (ends_saveTo_carries h₂.carries.fits slot).bind fun _ t₃ ⟨m₃, h₃⟩ => ?_
  refine (hw.ends h₃.fits (Custody.allows_empty t₃) fun _ => nofun).bind fun _ t₄ ⟨m₄, h₄⟩ =>
    .pure ⟨m₄, ?_⟩
  have hnow : insert slot (m.now s.active) ⊆ m₃.now t₃.active :=
    (Set.insert_subset_insert (h₁.now.trans h₂.carries.now)).trans h₃.now
  exact (h₁.toCarries.trans (h₂.carries.trans (h₃.toCarries.trans h₄.carries))).weaken hnow

theorem provides_chainedSaving (quiet : Bool) (hx : Provides strict A x) (hy : Provides strict B y)
    (hz : Provides strict {} z) (hw : Provides strict {} w) (hA : A.known = [])
    (hd : A.fresh.Disjoint B.fresh) (hgained : B.known ⊆ A.gained) (hsure : strict → B.known ⊆ A.sure) :
    Provides strict {} (chainedSaving quiet x y z w) where
  does := does_chainedSaving quiet hx.does hy.does hz.does hw.does hA hd hgained
  stores {m s} hfits _ _ := by
    have hall : chainedSaving quiet x y z w = (do
        beginChain quiet
        let _ ← (do let _ ← x; y)
        let slot ← (do
          let slot ← declareTemp
          let _ ← z
          saveTo slot
          let _ ← w
          return slot)
        Pass.update State.endChain
        emit (.loadTemp slot)
        returnTemp slot) := by
      simp [chainedSaving]
    rw [hall]
    have hbegin := Carries.beginChain hfits quiet
    refine .update_bind ((ends_inChain_carries hx hy hA hd hgained hsure hbegin.fits rfl rfl).bind
      fun _ t₁ hinside => ?_)
    obtain ⟨m₁, h₁⟩ := hinside
    refine (ends_saving_carries hz hw h₁.fits).bind fun slot t₂ hsaved => .update_bind ?_
    obtain ⟨m₂, h₂⟩ := hsaved
    have hclosed : Carries strict [] (insert slot (m.now s.active)) m s m₂ t₂.endChain :=
      ((hbegin.trans (h₁.trans h₂)).weaken (Set.insert_subset_insert h₁.now)).endChain
    refine (ends_loadTemp_carries hclosed.fits slot fun _ => hclosed.now (Set.mem_insert _ _)).bind
      fun _ t₃ hloaded => ?_
    obtain ⟨m₃, h₃⟩ := hloaded
    refine .update ⟨m₃, ?_, fun _ => List.forall_mem_nil _⟩
    have hend := hclosed.trans (h₃.toCarries.trans (steps_returnTemp h₃.fits slot).toCarries)
    exact hend.weaken ((Set.subset_insert _ _).trans (hclosed.now.trans h₃.now))

/-- The value that is loaded is in a slot of its own while the chain is begun. -/
theorem provides_chainedLoading (quiet : Bool) (hx : Provides strict A x) (hy : Provides strict {} y)
    (hA : A.known = []) : Provides strict {} (chainedLoading quiet x y) where
  does := does_chainedLoading quiet hx.does hy.does hA
  stores {m s} hfits _ _ := by
    unfold chainedLoading
    refine (ends_declareTemp_carries hfits).bind fun slot t₁ h₁ => ?_
    refine (ends_storeTemp_carries h₁.fits slot).bind fun _ t₂ ⟨m₂, h₂⟩ => .update_bind ?_
    have hbegin := Carries.beginChain h₂.fits quiet
    refine (hx.ends hbegin.fits (Custody.allows_atStart rfl rfl hA) fun _ i hi => ?_).bind
      fun _ t₃ ⟨m₃, h₃⟩ => ?_
    · rw [hA] at hi
      exact nomatch hi
    have hslot : slot ∈ m₃.now t₃.active :=
      h₃.carries.now (hbegin.now (h₂.now (Set.mem_insert _ _)))
    refine (ends_loadTemp_carries h₃.carries.fits slot fun _ => hslot).bind fun _ t₄ ⟨m₄, h₄⟩ => ?_
    refine (hy.ends h₄.fits (Custody.allows_empty t₄) fun _ => nofun).bind fun _ t₅ ⟨m₅, h₅⟩ =>
      .update_bind (.update ⟨m₅, ?_, fun _ => nofun⟩)
    have hclosed : Carries strict [] (m.now s.active) m s m₅ t₅.endChain := by
      have hall := h₁.toCarries.trans (h₂.toCarries.trans (hbegin.trans
        (h₃.carries.trans (h₄.toCarries.trans h₅.carries))))
      refine (hall.weaken ?_).endChain
      exact h₁.now.trans ((Set.subset_insert _ _).trans (h₂.now.trans (h₃.carries.now.trans h₄.now)))
    exact (hclosed.trans (steps_returnTemp hclosed.fits slot).toCarries).weaken hclosed.now

end Ways

/-- **A step that has an outline provides what it uses later.** -/
theorem Outline.provides {x : Emit Chunk α} (h : Outline strict A x) : Provides strict A x := by
  induction h with
  | pure a => exact .of_steps (leavesChains_pure a) fun hfits => .pure ⟨_, .refl hfits, rfl, rfl⟩
  | fail e => exact ⟨fun _ _ => .fail trivial, fun _ _ _ => .fail trivial⟩
  | peek f => exact .of_steps (fun _ => .peek ⟨rfl, rfl⟩) fun hfits => .peek ⟨_, .refl hfits, rfl, rfl⟩
  | onTable q => exact .of_steps (leavesChains_onTable q) fun hfits => ends_onTable_carries hfits q
  | addConstant v =>
    exact .of_steps (leavesChains_toSink _) fun hfits =>
      (ends_addConstant_carries hfits v).mono fun _ _ ht => ⟨_, ht⟩
  | emit hplain hslot =>
    have hlabels := List.isEmpty_iff.mp (Bool.and_eq_true_iff.mp hplain).1
    exact .of_steps (leavesChains_emit _) fun hfits => ends_emitPlain_carries hfits _ hlabels hslot
  | mono _ hAB ih => exact ih.mono hAB
  | seq _ _ hd ihx ihf => exact ihx.seq ihf hd
  | operand _ hrepeatable hnew ih => exact provides_operand ih hrepeatable hnew
  | again code hrepeatable => exact provides_again code hrepeatable
  | skip _ _ hd ihx ihy => exact provides_skipped ihx ihy hd
  | fork doneFirst _ _ _ hAB hABC ihx ihy ihz => exact provides_forked doneFirst ihx ihy ihz hAB hABC
  | chain quiet _ _ hA hd hgained hsure ihx ihy => exact provides_chained quiet ihx ihy hA hd hgained hsure
  | saving quiet _ _ _ _ hA hd hgained hsure ihx ihy ihz ihw =>
    exact provides_chainedSaving quiet ihx ihy ihz ihw hA hd hgained hsure
  | loading quiet _ _ hA ihx ihy => exact provides_chainedLoading quiet ihx ihy hA

end Lowering
end PhpLowering
