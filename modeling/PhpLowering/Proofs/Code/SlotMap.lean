import Mathlib.Data.Set.Insert
import PhpLowering.Proofs.Lowering.Calls

/-!
# Slots that are stored to before they are loaded

A slot must not be loaded on a way that control can take unless it has been stored to on that way.
`Routine.Path r way pc` says that control can come to the position `pc` through the instructions in
`way`: it starts at the first instruction or at a handler, and at an instruction with labels it may go
to any of them, or on if there is a way on.  `Routine.DefinedBeforeUse` is the property in question.

To show it, sets of slots are written down, a `SlotMap`: for every position slots that have certainly
been stored to when control gets there, and for every label slots that have been stored to at every
branch to it.  The set of a label is a promise that the branches have to keep, and as long as the
label is not marked it can be lowered.  Every instruction is checked against the map by itself; that
this is enough is `SlotMap.Fits.definedBeforeUse`.
-/

namespace PhpLowering

namespace Routine

/-- Control can come to a position through these instructions. -/
inductive Path (r : Routine) : List Instruction → Nat → Prop where
  | start : Path r [] 0
  | handler {region : Region} {h : Handler} (hr : region ∈ r.regions) (hh : h ∈ region.handlers) :
      Path r [] h.start
  | next {way : List Instruction} {pc : Nat} {i : Instruction} (before : Path r way pc)
      (hi : r.code[pc]? = some i) (hf : i.fallsThrough = true) : Path r (way ++ [i]) (pc + 1)
  | jump {way : List Instruction} {pc p : Nat} {i : Instruction} {l : Label} (before : Path r way pc)
      (hi : r.code[pc]? = some i) (hl : l ∈ i.labels) (hp : r.labelPosition? l = some p) :
      Path r (way ++ [i]) p

/-- Whatever way control takes, a slot that is loaded has been stored to on that way. -/
def DefinedBeforeUse (r : Routine) : Prop :=
  ∀ (way : List Instruction) (pc : Nat) (k : Temp), r.Path way pc →
    r.code[pc]? = some (.loadTemp k) → .storeTemp k ∈ way

/-- The code, the labels and the regions are the same. -/
structure SameText (r r' : Routine) : Prop where
  grows : r.Grows r'
  code : r'.code = r.code
  labels : r'.labels = r.labels
  regions : r'.regions = r.regions
  opened : r'.openRegions = r.openRegions

/-- A label that has been marked was waiting for it. -/
theorem markLabel_ok {r r' : Routine} {l : Label} (hrun : markLabel l r = (.ok (), r')) :
    r.mark? l = some none ∧ r' = r.marking l := by
  have hl : r.mark? l = some none := by
    unfold markLabel at hrun
    split at hrun
    · assumption
    · exact nomatch hrun
  rw [markLabel_eq hl] at hrun
  exact ⟨hl, (Prod.mk.inj hrun).2.symm⟩

variable (r : Routine)

theorem sameText_declareTemp : r.SameText (declareTemp r).2 := by
  refine ⟨r.grows_declareTemp, ?_, ?_, ?_, ?_⟩
  all_goals
    unfold declareTemp
    split
    · rfl
    · split <;> rfl

theorem sameText_returnTemp (k : Temp) : r.SameText (r.returnTemp k) := by
  refine ⟨r.grows_returnTemp k, ?_, ?_, ?_, ?_⟩
  all_goals
    unfold returnTemp
    split <;> rfl

theorem sameText_addConstant (v : Literal) : r.SameText (addConstant v r).2 := by
  refine ⟨r.grows_addConstant v, ?_, ?_, ?_, ?_⟩
  all_goals
    unfold addConstant
    split
    · rfl
    · split <;> rfl

end Routine

/-- The slots that have been stored to, for every position and every label of a routine. -/
structure SlotMap where
  before : Nat → Set Temp
  label : Label → Set Temp

namespace SlotMap

variable {strict : Prop} {m m' : SlotMap} {r r' : Routine} {l : Label} {S : Set Temp}

/-- The slots that have been stored to at the end of the code. -/
def now (m : SlotMap) (r : Routine) : Set Temp :=
  m.before r.position

/-- At every branch to a label of the routine these slots have been stored to. -/
def Promises (m : SlotMap) (r : Routine) (l : Label) (S : Set Temp) : Prop :=
  (r.mark? l).isSome ∧ m.label l = S

/-- An instruction at a position agrees with the map.  It is only asked of a `strict` map that a slot
that is loaded has been stored to. -/
structure Passes (strict : Prop) (m : SlotMap) (r : Routine) (pc : Nat) (i : Instruction) : Prop where
  loads : strict → ∀ k, i = .loadTemp k → k ∈ m.before pc
  next : i.fallsThrough = true → m.before (pc + 1) ⊆ m.before pc ∪ {k | i = .storeTemp k}
  jumps : ∀ l ∈ i.labels, (r.mark? l).isSome ∧ m.label l ⊆ m.before pc

/-- A handler may start at a position: nothing is taken to be stored there. -/
def Enters (m : SlotMap) (r : Routine) (start : Nat) : Prop :=
  start ≤ r.position ∧ m.before start = ∅

/-- A region that is not complete agrees with the map. -/
structure FitsOpen (m : SlotMap) (r : Routine) (o : OpenRegion) : Prop where
  handlers : ∀ h ∈ o.handlers, m.Enters r h.start
  block : o.block ≠ .guarded → m.Enters r o.blockStart
  endLabel : m.Promises r o.endLabel ∅

/-- A routine agrees with the map. -/
structure Fits (strict : Prop) (m : SlotMap) (r : Routine) : Prop where
  start : m.before 0 = ∅
  code : ∀ {pc : Nat} {i : Instruction}, r.code[pc]? = some i → m.Passes strict r pc i
  marks : ∀ {l : Label} {p : Nat}, r.mark? l = some (some p) → p ≤ r.position ∧ m.before p ⊆ m.label l
  regions : ∀ region ∈ r.regions, ∀ h ∈ region.handlers, m.Enters r h.start
  opened : ∀ o ∈ r.openRegions, m.FitsOpen r o

/-! ## A routine that fits -/

/-- Whatever way control takes to a position, it has been through a store to each slot that the map has
there. -/
theorem Fits.stored (h : m.Fits strict r) {way : List Instruction} {pc : Nat} (hway : r.Path way pc) :
    ∀ k ∈ m.before pc, .storeTemp k ∈ way := by
  induction hway with
  | start => rw [h.start]; nofun
  | handler hr hh => rw [(h.regions _ hr _ hh).2]; nofun
  | next _ hi hf ih =>
    intro k hk
    rcases (h.code hi).next hf hk with hbefore | rfl
    · exact List.mem_append_left _ (ih k hbefore)
    · exact List.mem_append_right _ (List.mem_singleton_self _)
  | jump _ hi hl hp ih =>
    rw [Routine.labelPosition?_eq, Option.join_eq_some_iff] at hp
    intro k hk
    exact List.mem_append_left _ (ih k (((h.code hi).jumps _ hl).2 ((h.marks hp).2 hk)))

/-- **A routine that fits a strict map stores to its slots before it loads them.** -/
theorem Fits.definedBeforeUse (h : m.Fits strict r) (hstrict : strict) : r.DefinedBeforeUse :=
  fun _ _ k hway hi => h.stored hway k ((h.code hi).loads hstrict k rfl)

/-! ## Larger routines -/

/-- A routine has grown.  What the map says of the code and of marked labels stays as it is; at the end
of the code, and at the other labels, it may say less. -/
structure Extends (m : SlotMap) (r : Routine) (m' : SlotMap) (r' : Routine) : Prop where
  grows : r.Grows r'
  before : ∀ {p : Nat}, p < r.position → m'.before p = m.before p
  now : m'.before r.position ⊆ m.now r
  label : ∀ {l : Label}, (r.mark? l).isSome → m'.label l ⊆ m.label l
  marked : ∀ {l : Label} {p : Nat}, r.mark? l = some (some p) → m'.label l = m.label l

theorem Extends.of_grows (hr : r.Grows r') : m.Extends r m r' :=
  ⟨hr, fun _ => rfl, .rfl, fun _ => .rfl, fun _ => rfl⟩

theorem Extends.before_subset (hx : m.Extends r m' r') {p : Nat} (hp : p ≤ r.position) :
    m'.before p ⊆ m.before p := by
  rcases Nat.lt_or_eq_of_le hp with hlt | rfl
  · exact (hx.before hlt).subset
  · exact hx.now

theorem Passes.extend {pc : Nat} {i : Instruction} (h : m.Passes strict r pc i) (hpc : pc < r.position)
    (hx : m.Extends r m' r') : m'.Passes strict r' pc i where
  loads hstrict k hk := hx.before hpc ▸ h.loads hstrict k hk
  next hf := by
    rw [hx.before hpc]
    exact (hx.before_subset hpc).trans (h.next hf)
  jumps l hl := by
    obtain ⟨hsome, hsubset⟩ := h.jumps l hl
    exact ⟨hx.grows.isSome_mark? hsome, hx.before hpc ▸ (hx.label hsome).trans hsubset⟩

theorem Enters.extend {start : Nat} (h : m.Enters r start) (hx : m.Extends r m' r') :
    m'.Enters r' start :=
  ⟨Nat.le_trans h.1 hx.grows.position, Set.subset_eq_empty (hx.before_subset h.1) h.2⟩

theorem FitsOpen.extend {o : OpenRegion} (h : m.FitsOpen r o) (hx : m.Extends r m' r') :
    m'.FitsOpen r' o where
  handlers x hh := (h.handlers x hh).extend hx
  block hk := (h.block hk).extend hx
  endLabel := ⟨hx.grows.isSome_mark? h.endLabel.1,
    Set.subset_eq_empty (hx.label h.endLabel.1) h.endLabel.2⟩

/-- Only what is new in a routine has to be checked. -/
theorem Fits.extend (h : m.Fits strict r) (hx : m.Extends r m' r')
    (hcode : ∀ {pc i}, r'.code[pc]? = some i → r.code[pc]? = some i ∨ m'.Passes strict r' pc i)
    (hmarks : ∀ {l p}, r'.mark? l = some (some p) →
      r.mark? l = some (some p) ∨ p ≤ r'.position ∧ m'.before p ⊆ m'.label l)
    (hregions : ∀ region ∈ r'.regions,
      region ∈ r.regions ∨ ∀ h ∈ region.handlers, m'.Enters r' h.start)
    (hopened : ∀ o ∈ r'.openRegions, o ∈ r.openRegions ∨ m'.FitsOpen r' o) : m'.Fits strict r' where
  start := Set.subset_eq_empty (hx.before_subset (Nat.zero_le _)) h.start
  code hi := by
    rcases hcode hi with hold | hnew
    · exact (h.code hold).extend (Array.getElem?_eq_some_iff.mp hold).1 hx
    · exact hnew
  marks hl := by
    rcases hmarks hl with hold | hnew
    · obtain ⟨hp, hsubset⟩ := h.marks hold
      refine ⟨Nat.le_trans hp hx.grows.position, ?_⟩
      rw [hx.marked hold]
      exact (hx.before_subset hp).trans hsubset
    · exact hnew
  regions region hr x hh := by
    rcases hregions region hr with hold | hnew
    · exact (h.regions region hold x hh).extend hx
    · exact hnew x hh
  opened o ho := by
    rcases hopened o ho with hold | hnew
    · exact (h.opened o hold).extend hx
    · exact hnew

/-- Work on anything else than the code, the labels and the regions. -/
theorem Fits.of_sameText (h : m.Fits strict r) (hsame : r.SameText r') : m.Fits strict r' := by
  refine h.extend (.of_grows hsame.grows) (fun hi => Or.inl ?_) (fun hl => Or.inl ?_)
    (fun _ hR => Or.inl ?_) fun _ ho => Or.inl ?_
  · rwa [← hsame.code]
  · rwa [Routine.mark?, hsame.labels] at hl
  · rwa [← hsame.regions]
  · rwa [← hsame.opened]

theorem now_of_sameText (m : SlotMap) (hsame : r.SameText r') : m.now r' = m.now r := by
  rw [now, now, Routine.position, Routine.position, hsame.code]

/-! ## Instructions -/

/-- The map with other slots at a position. -/
def withBefore (m : SlotMap) (p : Nat) (S : Set Temp) : SlotMap :=
  { m with before := fun q => if q = p then S else m.before q }

/-- The map with another promise. -/
def withLabel (m : SlotMap) (l : Label) (S : Set Temp) : SlotMap :=
  { m with label := fun k => if k = l then S else m.label k }

@[simp] theorem before_withBefore (m : SlotMap) (p : Nat) (S : Set Temp) :
    (m.withBefore p S).before p = S :=
  if_pos rfl

theorem before_withBefore_of_ne {p q : Nat} (h : q ≠ p) : (m.withBefore p S).before q = m.before q :=
  if_neg h

@[simp] theorem label_withLabel (m : SlotMap) (l : Label) (S : Set Temp) :
    (m.withLabel l S).label l = S :=
  if_pos rfl

theorem label_withLabel_of_ne {l' : Label} (h : l' ≠ l) : (m.withLabel l S).label l' = m.label l' :=
  if_neg h

theorem now_withBefore (m : SlotMap) (r : Routine) (S : Set Temp) :
    (m.withBefore r.position S).now r = S :=
  before_withBefore ..

theorem now_push (m : SlotMap) (i : Instruction) (r : Routine) (S : Set Temp) :
    (m.withBefore (r.position + 1) S).now (r.push i) = S := by
  rw [now, Routine.position_push, before_withBefore]

theorem extends_push (m : SlotMap) (i : Instruction) (r : Routine) (S : Set Temp) :
    m.Extends r (m.withBefore (r.position + 1) S) (r.push i) where
  grows := r.grows_push i
  before hp := before_withBefore_of_ne (by omega)
  now := (before_withBefore_of_ne (by omega)).subset
  label _ := .rfl
  marked _ := rfl

/-- An instruction is added, after which these slots have been stored to. -/
theorem Fits.push (h : m.Fits strict r) (i : Instruction)
    (hloads : strict → ∀ k, i = .loadTemp k → k ∈ m.now r)
    (hnext : i.fallsThrough = true → S ⊆ m.now r ∪ {k | i = .storeTemp k})
    (hjumps : ∀ l ∈ i.labels, (r.mark? l).isSome ∧ m.label l ⊆ m.now r) :
    (m.withBefore (r.position + 1) S).Fits strict (r.push i) := by
  have hhere : (m.withBefore (r.position + 1) S).before r.position = m.now r :=
    before_withBefore_of_ne (by omega)
  refine h.extend (m.extends_push i r S) (fun hj => ?_) (fun hl => Or.inl hl) (fun _ hR => Or.inl hR)
    fun _ ho => Or.inl ho
  rcases Routine.code_push_eq hj with hold | ⟨rfl, rfl⟩
  · exact Or.inl hold
  · refine Or.inr ⟨?_, ?_, ?_⟩
    · rwa [hhere]
    · rwa [hhere, before_withBefore]
    · rw [hhere]
      exact hjumps

/-! ## Labels -/

/-- The promise of a label that is not marked may be lowered. -/
theorem Fits.lower (h : m.Fits strict r) (hl : r.mark? l = some none) (hS : S ⊆ m.label l) :
    (m.withLabel l S).Fits strict r := by
  refine h.extend ⟨.refl r, fun _ => rfl, .rfl, fun {l'} _ => ?_, fun {l'} p hp => ?_⟩
    (fun hi => Or.inl hi) (fun hl => Or.inl hl) (fun _ hR => Or.inl hR) fun _ ho => Or.inl ho
  · by_cases heq : l' = l
    · subst heq
      rwa [label_withLabel]
    · exact (label_withLabel_of_ne heq).subset
  · refine label_withLabel_of_ne ?_
    rintro rfl
    exact nomatch hl.symm.trans hp

/-- A new label may promise anything. -/
theorem Fits.defineLabel (h : m.Fits strict r) (S : Set Temp) :
    (m.withLabel r.defineLabel.1 S).Fits strict r.defineLabel.2 := by
  have hlabel {l : Label} (hl : (r.mark? l).isSome) :
      (m.withLabel r.defineLabel.1 S).label l = m.label l := by
    refine label_withLabel_of_ne ?_
    rintro rfl
    rw [Routine.mark?_new] at hl
    exact nomatch hl
  refine h.extend ⟨r.grows_defineLabel, fun _ => rfl, .rfl, fun hl => (hlabel hl).subset,
    fun hp => hlabel (Option.isSome_of_eq_some hp)⟩ (fun hi => Or.inl hi) (fun hl => Or.inl ?_)
    (fun _ hR => Or.inl hR) fun _ ho => Or.inl ho
  rw [Routine.mark?_defineLabel] at hl
  split at hl
  · exact nomatch hl
  · exact hl

/-- Where a label is marked, only what it promises has been stored to for certain. -/
theorem Fits.marking (h : m.Fits strict r) (hl : r.mark? l = some none) :
    (m.withBefore r.position (m.now r ∩ m.label l)).Fits strict (r.marking l) := by
  refine h.extend ⟨Routine.grows_marking hl, fun hp => before_withBefore_of_ne hp.ne, ?_,
    fun _ => .rfl, fun _ => rfl⟩ (fun hi => Or.inl hi) (fun {l' p} hp => ?_)
    (fun _ hR => Or.inl hR) fun _ ho => Or.inl ho
  · rw [before_withBefore]
    exact Set.inter_subset_left
  · rw [Routine.mark?_marking hl] at hp
    split at hp
    · rename_i heq
      obtain rfl := Option.some.inj (Option.some.inj hp)
      refine Or.inr ⟨Nat.le_refl _, ?_⟩
      rw [before_withBefore, heq]
      exact Set.inter_subset_right
    · exact Or.inl hp

/-- The slots that have been stored to, where a label has been marked. -/
theorem Fits.markLabel (h : m.Fits strict r) (hrun : Routine.markLabel l r = (.ok (), r')) :
    r.mark? l = some none ∧ r' = r.marking l ∧
      (m.withBefore r.position (m.now r ∩ m.label l)).Fits strict r' := by
  obtain ⟨hl, rfl⟩ := Routine.markLabel_ok hrun
  exact ⟨hl, rfl, h.marking hl⟩

/-! ## Regions -/

/-- A region is begun; its label promises nothing. -/
theorem Fits.beginTry (h : m.Fits strict r) :
    (m.withLabel r.beginTry.1 ∅).Fits strict r.beginTry.2 := by
  refine (h.defineLabel ∅).extend (.of_grows (.of_eq rfl rfl rfl rfl)) (fun hi => Or.inl hi)
    (fun hl => Or.inl hl) (fun _ hR => Or.inl hR) fun o ho => ?_
  rcases List.mem_cons.mp ho with rfl | ho
  · refine Or.inr ⟨nofun, fun hblock => absurd rfl hblock, ?_, label_withLabel ..⟩
    show ((r.defineLabel.2).mark? r.defineLabel.1).isSome
    rw [Routine.mark?_defineLabel, if_pos rfl]
    rfl
  · exact Or.inl ho

/-- The handlers of a region whose block at hand is closed. -/
theorem FitsOpen.close {o : OpenRegion} (h : m.FitsOpen r o) (q : Nat) :
    ∀ x ∈ (o.close q).handlers, m.Enters r x.start := by
  intro x hx
  unfold OpenRegion.close at hx
  split at hx
  · exact h.handlers x hx
  · rename_i kind hblock
    rcases List.mem_cons.mp hx with rfl | hx
    · exact h.block (by rw [hblock]; rintro ⟨⟩)
    · exact h.handlers x hx

theorem endLabel_close (o : OpenRegion) (q : Nat) : (o.close q).endLabel = o.endLabel := by
  unfold OpenRegion.close
  split <;> rfl

/-- The last instruction of a block, behind which nothing has been stored to for certain. -/
theorem Fits.closeBlock {o : OpenRegion} {outer : List OpenRegion} (h : m.Fits strict r)
    (hopened : r.openRegions = o :: outer) (i : Instruction) (hslot : ∀ k, i ≠ .loadTemp k)
    (hlabels : ∀ l ∈ i.labels, l = o.endLabel) :
    (m.withBefore (r.position + 1) ∅).Fits strict (r.push i) := by
  refine h.push i (fun _ k hk => absurd hk (hslot k)) (fun _ => Set.empty_subset _) fun l hl => ?_
  obtain ⟨hsome, hlabel⟩ := (h.opened o (hopened ▸ List.mem_cons_self)).endLabel
  rw [hlabels l hl, hlabel]
  exact ⟨hsome, Set.empty_subset _⟩

/-- A handler is begun. -/
theorem Fits.beginHandler {kind : HandlerKind} (h : m.Fits strict r)
    (hrun : Routine.beginHandler kind r = (.ok (), r')) :
    (m.withBefore (r.position + 1) ∅).Fits strict r' := by
  unfold Routine.beginHandler at hrun
  split at hrun
  · cases hrun
  · rename_i o outer hopened
    split at hrun
    · cases hrun
    · obtain rfl := (Prod.mk.inj hrun).2
      have hpush := h.closeBlock hopened (.leave o.endLabel) (by rintro _ ⟨⟩) fun _ => List.mem_singleton.mp
      have hregion := hpush.opened o (hopened ▸ List.mem_cons_self)
      refine hpush.extend (.of_grows (.of_eq rfl rfl rfl rfl)) (fun hi => Or.inl hi)
        (fun hl => Or.inl hl) (fun _ hR => Or.inl hR) fun o' ho' => ?_
      rcases List.mem_cons.mp ho' with rfl | ho'
      · refine Or.inr ⟨hregion.close _, fun _ => ⟨Nat.le_refl _, ?_⟩, ?_⟩
        · show (m.withBefore (r.position + 1) ∅).before (r.push (.leave o.endLabel)).position = ∅
          rw [Routine.position_push, before_withBefore]
        · show (m.withBefore (r.position + 1) ∅).Promises _ (o.close _).endLabel ∅
          rw [endLabel_close]
          exact hregion.endLabel
      · refine Or.inl ?_
        show o' ∈ r.openRegions
        rw [hopened]
        exact List.mem_cons_of_mem _ ho'

/-- A region is recorded behind its last instruction. -/
theorem Fits.completeRegion {o : OpenRegion} {outer : List OpenRegion} (h : m.Fits strict r)
    (hopened : r.openRegions = o :: outer) (i : Instruction) (hslot : ∀ k, i ≠ .loadTemp k)
    (hlabels : ∀ l ∈ i.labels, l = o.endLabel) :
    (m.withBefore (r.position + 1) ∅).Fits strict { r.push i with
      openRegions := outer
      regions := r.regions.push ((o.close (r.position + 1)).complete (r.position + 1)) } := by
  have hpush := h.closeBlock hopened i hslot hlabels
  have hregion := hpush.opened o (hopened ▸ List.mem_cons_self)
  have hgrows := (r.push i).grows_pushRegion ((o.close (r.position + 1)).complete (r.position + 1)) outer
  refine hpush.extend (.of_grows hgrows) (fun hi => Or.inl hi) (fun hl => Or.inl hl) (fun R hR => ?_)
    fun o' ho' => Or.inl ?_
  · rcases Array.mem_push.mp hR with hR | rfl
    · exact Or.inl hR
    · exact Or.inr fun x hx => (hregion.close _ x (List.mem_reverse.mp hx)).extend (.of_grows hgrows)
  · show o' ∈ r.openRegions
    rw [hopened]
    exact List.mem_cons_of_mem _ ho'

/-- A region is completed, and the label behind it gets its mark. -/
theorem Fits.endRegion (h : m.Fits strict r) (hrun : Routine.endRegion r = (.ok (), r')) :
    ∃ m' : SlotMap, m'.Fits strict r' ∧ m'.label = m.label := by
  unfold Routine.endRegion at hrun
  split at hrun
  · cases hrun
  · rename_i o outer hopened
    split at hrun
    · cases hrun
    · rename_i kind hblock
      simp only [Routine.position_push] at hrun
      refine ⟨_, ((h.completeRegion hopened _ ?_ ?_).markLabel hrun).2.2, rfl⟩
      · cases kind <;> rintro _ ⟨⟩
      · cases kind <;> simp [Instruction.labels]

end SlotMap
end PhpLowering
