import PhpLowering.Proofs.Code.Stretch
import PhpLowering.Proofs.Lowering.Elements
import PhpLowering.Proofs.Lowering.Rounds

/-!
# Slots and the stretches that use them

A slot of a routine is vacant if it may be declared now or later.  Declaring takes one of the vacant
slots, and giving back is done once for each, so code that is emitted while a slot is taken does not
store to it.

`Laid P n m s t` says that a piece of the emission has led from the state `s` to the state `t`: the
code between is a stretch made of instructions in `P`, the vacant slots are among those before, and the
innermost chain keeps what it kept, with more behind it whose slots were vacant before and are taken
now.  A step by itself stores to slots only that are vacant where it begins; that is `Lays`.
-/

namespace PhpLowering

namespace Routine

variable {r r' : Routine} {k : Temp}

/-- A slot that may be declared now or later. -/
def Vacant (r : Routine) (k : Temp) : Prop :=
  k ∈ r.freeTemps ∨ r.tempCount ≤ k.index

/-- Every slot that was returned was in use before, and was returned once. -/
structure SlotsInOrder (r : Routine) : Prop where
  nodup : r.freeTemps.Nodup
  bound : ∀ k ∈ r.freeTemps, k.index < r.tempCount

/-- A slot that is taken has been in use. -/
theorem lt_of_not_vacant (h : ¬ r.Vacant k) : k.index < r.tempCount :=
  Nat.lt_of_not_le fun hle => h (Or.inr hle)

/-- Declaring takes a vacant slot. -/
theorem declareTemp_slots (hr : r.SlotsInOrder) (hrun : declareTemp r = (.ok k, r')) :
    r'.SlotsInOrder ∧ r'.code = r.code ∧ r.Vacant k ∧ ¬ r'.Vacant k ∧ ∀ j, r'.Vacant j → r.Vacant j := by
  unfold declareTemp at hrun
  split at hrun
  · rename_i first rest hfree
    obtain ⟨hk, rfl⟩ := Prod.mk.inj hrun
    obtain rfl := Except.ok.inj hk
    have hmem : first ∈ r.freeTemps := hfree ▸ List.mem_cons_self
    have hnodup := hr.nodup
    rw [hfree, List.nodup_cons] at hnodup
    have hsub : ∀ j ∈ rest, j ∈ r.freeTemps := fun j hj => hfree ▸ List.mem_cons_of_mem _ hj
    refine ⟨⟨hnodup.2, fun j hj => hr.bound j (hsub j hj)⟩, rfl, Or.inl hmem, ?_, ?_⟩
    · rintro (hfirst | hle)
      · exact hnodup.1 hfirst
      · exact absurd (hr.bound first hmem) (Nat.not_lt_of_le hle)
    · rintro j (hj | hle)
      · exact Or.inl (hsub j hj)
      · exact Or.inr hle
  · rename_i hfree
    split at hrun
    · obtain ⟨hk, rfl⟩ := Prod.mk.inj hrun
      obtain rfl := Except.ok.inj hk
      refine ⟨⟨hr.nodup, fun j hj => Nat.lt_succ_of_lt (hr.bound j hj)⟩, rfl, Or.inr (Nat.le_refl _),
        ?_, ?_⟩
      · rintro (hmem | hle)
        · rw [hfree] at hmem
          cases hmem
        · exact Nat.not_succ_le_self _ hle
      · rintro j (hj | hle)
        · exact Or.inl hj
        · exact Or.inr (Nat.le_of_succ_le hle)
    · cases hrun

theorem regions_declareTemp (hrun : declareTemp r = (.ok k, r')) :
    r'.regions = r.regions ∧ r'.openRegions = r.openRegions := by
  unfold declareTemp at hrun
  split at hrun
  · exact (Prod.mk.inj hrun).2 ▸ ⟨rfl, rfl⟩
  · split at hrun
    · exact (Prod.mk.inj hrun).2 ▸ ⟨rfl, rfl⟩
    · cases hrun

theorem vacant_returnTemp {j : Temp} : (r.returnTemp k).Vacant j ↔ r.Vacant j ∨ j = k := by
  unfold returnTemp
  split
  · rename_i hk
    have hfree : r.Vacant k := Or.inl (by simpa using hk)
    exact ⟨Or.inl, fun hj => hj.elim id fun heq => heq ▸ hfree⟩
  · simp only [Vacant, List.mem_cons]
    tauto

theorem tempCount_returnTemp : (r.returnTemp k).tempCount = r.tempCount := by
  unfold returnTemp
  split <;> rfl

theorem SlotsInOrder.returnTemp (hr : r.SlotsInOrder) (hk : k.index < r.tempCount) :
    (r.returnTemp k).SlotsInOrder := by
  unfold Routine.returnTemp
  split
  · exact hr
  · rename_i hnot
    refine ⟨List.nodup_cons.mpr ⟨by simpa using hnot, hr.nodup⟩, fun j hj => ?_⟩
    rcases List.mem_cons.mp hj with rfl | hj
    · exact hk
    · exact hr.bound j hj

end Routine

namespace Chunk

theorem withActive_withActive (r r' : Routine) (c : Chunk) :
    (c.withActive r).withActive r' = c.withActive r' := by
  rcases c with ⟨_, _, _ | _⟩ <;> rfl

end Chunk

namespace Lowering

open Pass (Ends)

variable {α β : Type} {s t u : State Chunk} {A B : Temp → Prop} {P Q : Instruction → Prop} {n m l : Nat}
  {k : Temp}

/-! ## What a piece of the emission leaves -/

/-- Chains whose innermost one keeps more operands. -/
def withKept (more : List (Nat × Temp × TypeCode)) : List Chain → List Chain
  | [] => []
  | chain :: chains => { chain with kept := chain.kept ++ more } :: chains

theorem withKept_nil (chains : List Chain) : withKept [] chains = chains := by
  cases chains with
  | nil => rfl
  | cons chain rest => rw [withKept, List.append_nil]

theorem withKept_append (more more' : List (Nat × Temp × TypeCode)) (chains : List Chain) :
    withKept more' (withKept more chains) = withKept (more ++ more') chains := by
  cases chains with
  | nil => rfl
  | cons chain rest => simp [withKept, List.append_assoc]

/-- Of two chunks, the second one may have other code in the routine at hand.  Everything else is the
same, the regions of that routine among it. -/
structure SameBesides (c c' : Chunk) : Prop where
  others : c' = c.withActive c'.active
  regions : c'.active.regions = c.active.regions
  opened : c'.active.openRegions = c.active.openRegions

theorem SameBesides.refl (c : Chunk) : SameBesides c c :=
  ⟨c.withActive_active.symm, rfl, rfl⟩

theorem SameBesides.trans {c c' c'' : Chunk} (h : SameBesides c c') (h' : SameBesides c' c'') :
    SameBesides c c'' where
  others := by rw [h'.others, h.others, Chunk.withActive_withActive, Chunk.active_withActive]
  regions := h'.regions.trans h.regions
  opened := h'.opened.trans h.opened

theorem SameBesides.withActive {c : Chunk} {r : Routine} (hregions : r.regions = c.active.regions)
    (hopened : r.openRegions = c.active.openRegions) : SameBesides c (c.withActive r) := by
  constructor
  all_goals rw [Chunk.active_withActive]
  · exact hregions
  · exact hopened

/-- What is kept of slots and chains.  The frame and what is not code of the routine at hand are not
touched. -/
structure Tidy (s t : State Chunk) : Prop where
  same : SameBesides s.sink t.sink
  sameFrame : t.frame = s.frame
  grows : s.active.Grows t.active
  order : t.active.SlotsInOrder
  vacant : ∀ k, t.active.Vacant k → s.active.Vacant k
  chains : ∃ more, t.chains = withKept more s.chains ∧
    ∀ entry ∈ more, s.active.Vacant entry.2.1 ∧ ¬ t.active.Vacant entry.2.1

theorem Tidy.trans (h : Tidy s t) (h' : Tidy t u) : Tidy s u where
  same := h.same.trans h'.same
  sameFrame := h'.sameFrame.trans h.sameFrame
  grows := h.grows.trans h'.grows
  order := h'.order
  vacant k hk := h.vacant k (h'.vacant k hk)
  chains := by
    obtain ⟨more, hchains, hmore⟩ := h.chains
    obtain ⟨more', hchains', hmore'⟩ := h'.chains
    refine ⟨more ++ more', by rw [hchains', hchains, withKept_append], fun entry hentry => ?_⟩
    rcases List.mem_append.mp hentry with hentry | hentry
    · exact ⟨(hmore entry hentry).1, fun hv => (hmore entry hentry).2 (h'.vacant _ hv)⟩
    · exact ⟨h.vacant _ (hmore' entry hentry).1, (hmore' entry hentry).2⟩

/-- A step that leaves the slots and the chains alone. -/
theorem Tidy.of_eq (hs : s.active.SlotsInOrder) (hsame : SameBesides s.sink t.sink)
    (hframe : t.frame = s.frame) (hgrows : s.active.Grows t.active)
    (hfree : t.active.freeTemps = s.active.freeTemps) (hcount : t.active.tempCount = s.active.tempCount)
    (hchains : t.chains = s.chains) : Tidy s t where
  same := hsame
  sameFrame := hframe
  grows := hgrows
  order := ⟨by rw [hfree]; exact hs.nodup, by rw [hfree, hcount]; exact hs.bound⟩
  vacant k hk := by rwa [Routine.Vacant, hfree, hcount] at hk
  chains := ⟨[], by rw [hchains, withKept_nil], nofun⟩

/-- Work on the routine at hand that leaves its slots alone. -/
theorem Tidy.withActive {r : Routine} (hs : s.active.SlotsInOrder) (hgrows : s.active.Grows r)
    (hfree : r.freeTemps = s.active.freeTemps) (hcount : r.tempCount = s.active.tempCount)
    (hregions : r.regions = s.active.regions) (hopened : r.openRegions = s.active.openRegions) :
    Tidy s (s.withActive r) := by
  refine .of_eq hs (.withActive hregions hopened) rfl ?_ ?_ ?_ rfl
  all_goals rwa [State.active_withActive]

/-- What is stored goes to slots of a certain kind, and control does not go where a value says. -/
structure StoresTo (A : Temp → Prop) (i : Instruction) : Prop where
  slot : ∀ k, i = .storeTemp k → A k
  notSwitch : ∀ targets, i ≠ .switch targets

theorem storesTo_mono (hAB : ∀ k, A k → B k) (i : Instruction) (h : StoresTo A i) : StoresTo B i :=
  ⟨fun k hk => hAB k (h.slot k hk), h.notSwitch⟩

theorem storesTo_storeTemp (hk : A k) : StoresTo A (.storeTemp k) :=
  ⟨fun _ h => Instruction.storeTemp.inj h ▸ hk, nofun⟩

/-- A piece of the emission has led from one state to another. -/
structure Laid (P : Instruction → Prop) (n m : Nat) (s t : State Chunk) : Prop extends Tidy s t where
  code : Stretch t.active P s.active.position t.active.position n m

namespace Laid

theorem trans (h : Laid P n m s t) (h' : Laid P m l t u) : Laid P n l s u :=
  ⟨h.toTidy.trans h'.toTidy, (h.code.grows h'.grows).seq h'.code⟩

theorem mono (h : Laid P n m s t) (hPQ : ∀ i, P i → Q i) : Laid Q n m s t :=
  ⟨h.toTidy, h.code.mono hPQ⟩

theorem frame (h : Laid P n m s t) (k : Nat) : Laid P (k + n) (k + m) s t :=
  ⟨h.toTidy, h.code.frame k⟩

/-- A step that adds no code. -/
theorem of_tidy (h : Tidy s t) (hcode : t.active.code = s.active.code) : Laid P n n s t := by
  refine ⟨h, ?_⟩
  rw [show t.active.position = s.active.position from congrArg Array.size hcode]
  exact .nil _ _

/-- One plain instruction. -/
theorem push {i : Instruction} (hs : s.active.SlotsInOrder) (hplain : i.isPlain = true)
    (hpops : i.pops ≤ n) (hm : n - i.pops + i.yields = m) (hP : P i) :
    Laid P n m s (s.withActive (s.active.push i)) := by
  subst hm
  refine ⟨.withActive hs (s.active.grows_push i) rfl rfl rfl rfl, ?_⟩
  rw [State.active_withActive, Routine.position_push]
  exact .plain (s.active.code_push_self i) hplain hpops hP

end Laid

/-! ## Slots that are given back -/

/-- Slots that were vacant at first may be given back, when no chain keeps them any more. -/
theorem Tidy.release (hsame : SameBesides s.sink t.sink) (hframe : t.frame = s.frame)
    (hst : s.active.Grows t.active) (horder : t.active.SlotsInOrder)
    (hvacant : ∀ k, t.active.Vacant k → s.active.Vacant k) (hchains : t.chains = s.chains) : Tidy s t where
  same := hsame
  sameFrame := hframe
  grows := hst
  order := horder
  vacant := hvacant
  chains := ⟨[], by rw [hchains, withKept_nil], nofun⟩

/-- What is done behind a stretch without emitting code. -/
theorem Laid.behind (hstretch : Stretch t.active P s.active.position t.active.position n m)
    (hsu : Tidy s u) (htu : t.active.Grows u.active) (hcode : u.active.code = t.active.code) :
    Laid P n m s u := by
  refine ⟨hsu, ?_⟩
  rw [show u.active.position = t.active.position from congrArg Array.size hcode]
  exact hstretch.grows htu

theorem grows_active_returnTemp (k : Temp) (c : Chunk) :
    c.active.Grows (Sink.returnTemp k c).active := by
  rw [active_returnTemp]
  exact c.active.grows_returnTemp k

theorem code_active_returnTemp (k : Temp) (c : Chunk) :
    (Sink.returnTemp k c).active.code = c.active.code := by
  rw [active_returnTemp, code_returnTemp]

theorem position_active_returnTemp (k : Temp) (c : Chunk) :
    (Sink.returnTemp k c).active.position = c.active.position :=
  congrArg Array.size (code_active_returnTemp k c)

theorem sameBesides_returnTemp (k : Temp) (c : Chunk) : SameBesides c (Sink.returnTemp k c) := by
  have hreturn : Sink.returnTemp k c = c.withActive (c.active.returnTemp k) := by
    rcases c with ⟨_, _, _ | _⟩ <;> rfl
  have hregions : (c.active.returnTemp k).regions = c.active.regions ∧
      (c.active.returnTemp k).openRegions = c.active.openRegions := by
    unfold Routine.returnTemp
    split <;> exact ⟨rfl, rfl⟩
  rw [hreturn]
  exact .withActive hregions.1 hregions.2

/-- The chunk after the slots of a chain have been given back. -/
theorem returnTemps_slots (slots : List Temp) (c : Chunk) (hc : c.active.SlotsInOrder)
    (hslots : ∀ k ∈ slots, k.index < c.active.tempCount) :
    ∀ c', c' = slots.foldl (fun c k => Sink.returnTemp k c) c →
      SameBesides c c' ∧ c.active.Grows c'.active ∧ c'.active.SlotsInOrder ∧
        c'.active.tempCount = c.active.tempCount ∧
          ∀ j, c'.active.Vacant j → c.active.Vacant j ∨ j ∈ slots := by
  induction slots generalizing c with
  | nil => rintro _ rfl; exact ⟨.refl _, .refl _, hc, rfl, fun _ => Or.inl⟩
  | cons k rest ih =>
    rintro c' hc'
    obtain ⟨hk, hrest⟩ := List.forall_mem_cons.mp hslots
    have hactive : (Sink.returnTemp k c).active = c.active.returnTemp k := active_returnTemp k c
    have hcount := Routine.tempCount_returnTemp (r := c.active) (k := k)
    obtain ⟨hsame, hgrows, horder, hcount', hvacant⟩ := ih (Sink.returnTemp k c)
      (hactive ▸ hc.returnTemp hk) (by rw [hactive, hcount]; exact hrest) c' hc'
    rw [hactive] at hgrows hcount' hvacant
    refine ⟨(sameBesides_returnTemp _ c).trans hsame, (c.active.grows_returnTemp _).trans hgrows, horder,
      hcount'.trans hcount, fun j hj => ?_⟩
    rcases hvacant j hj with hj | hj
    · exact (Routine.vacant_returnTemp.mp hj).imp_right fun heq => List.mem_cons.mpr (Or.inl heq)
    · exact Or.inr (List.mem_cons_of_mem _ hj)

theorem Tidy.returnTemp (h : Tidy s t) (hchains : t.chains = s.chains) (hk : s.active.Vacant k)
    (hlt : k.index < t.active.tempCount) : Tidy s { t with sink := Sink.returnTemp k t.sink } := by
  have hactive : ({ t with sink := Sink.returnTemp k t.sink } : State Chunk).active =
      t.active.returnTemp k := active_returnTemp k t.sink
  refine .release (h.same.trans (sameBesides_returnTemp k t.sink)) h.sameFrame ?_ ?_ (fun j hj => ?_)
    hchains
  · rw [hactive]
    exact h.grows.trans (t.active.grows_returnTemp k)
  · rw [hactive]
    exact h.order.returnTemp hlt
  · rw [hactive, Routine.vacant_returnTemp] at hj
    exact hj.elim (h.vacant j) fun heq => heq ▸ hk

theorem Laid.returnTemp (h : Laid P n m s t) (hchains : t.chains = s.chains) (hk : s.active.Vacant k)
    (hlt : k.index < t.active.tempCount) :
    Laid P n m s { t with sink := Sink.returnTemp k t.sink } :=
  .behind h.code (h.toTidy.returnTemp hchains hk hlt) (grows_active_returnTemp k t.sink)
    (code_active_returnTemp k t.sink)

/-- The state in a new chain. -/
def State.openChain (quiet : Bool) (s : State Chunk) : State Chunk :=
  { s with chains := { quiet } :: s.chains }

/-- A chain of its own is opened and closed again. -/
theorem Tidy.endChain {quiet : Bool} (h : Tidy (s.openChain quiet) t) :
    Tidy s t.endChain ∧ t.active.Grows t.endChain.active ∧ t.endChain.chains = s.chains ∧
      t.endChain.active.tempCount = t.active.tempCount := by
  obtain ⟨more, hchains, hmore⟩ := h.chains
  -- the slots of the chain, in the order in which they are given back
  obtain ⟨slots, hslots⟩ : ∃ slots, slots = (t.releases 0).arrange (more.map fun entry => entry.2.1) := ⟨_, rfl⟩
  have hmem : ∀ k ∈ slots, ∃ entry ∈ more, entry.2.1 = k := fun k hk =>
    List.mem_map.mp (((t.releases 0).perm _).mem_iff.mp (hslots ▸ hk))
  have hends : t.endChain = { t with
      chains := s.chains
      releases := fun n => t.releases (n + 1)
      sink := slots.foldl (fun c k => Sink.returnTemp k c) t.sink } := by
    unfold State.endChain
    rw [hchains, hslots]
    rfl
  obtain ⟨hsink, hgrows, horder, hcount, hvacant⟩ := returnTemps_slots slots t.sink h.order
    (fun k hk => by
      obtain ⟨entry, hentry, rfl⟩ := hmem k hk
      exact Routine.lt_of_not_vacant (hmore entry hentry).2) t.endChain.sink (by rw [hends])
  have hframe : t.endChain.frame = t.frame := by rw [hends]
  have hsame : t.endChain.chains = s.chains := by rw [hends]
  refine ⟨.release (h.same.trans hsink) (hframe.trans h.sameFrame) (h.grows.trans hgrows) horder
    (fun j hj => ?_) hsame, hgrows, hsame, hcount⟩
  rcases hvacant j hj with hj | hj
  · exact h.vacant j hj
  · obtain ⟨entry, hentry, rfl⟩ := hmem j hj
    exact (hmore entry hentry).1

theorem Laid.endChain {quiet : Bool} (h : Laid P n m (s.openChain quiet) t) :
    Laid P n m s t.endChain ∧ t.endChain.chains = s.chains ∧
      t.endChain.active.tempCount = t.active.tempCount := by
  obtain ⟨hend, hgrows, hchains, hcount⟩ := h.toTidy.endChain
  exact ⟨.behind (s := s) h.code hend hgrows (code_endChain t), hchains, hcount⟩

/-! ## Steps that lay a stretch -/

/-- Whenever a step succeeds, it has laid a stretch that takes so many values and leaves so many, and
stores to slots that were vacant. -/
def Lays (n : Nat) (m : α → Nat) (x : Emit Chunk α) : Prop :=
  ∀ s, s.active.SlotsInOrder → Ends x s (fun a t => Laid (StoresTo s.active.Vacant) n (m a) s t) anyFailure

section Lays

variable {x : Emit Chunk α} {f : α → Emit Chunk β} {g : α → Nat} {l' : β → Nat}

theorem Lays.andThen (hx : Lays n g x) (hf : ∀ a, Lays (g a) l' (f a)) : Lays n l' (x >>= f) := by
  intro s hs
  refine (hx s hs).bind fun a t ht => ?_
  exact (hf a t ht.order).mono fun _ _ hu => ht.trans (hu.mono (storesTo_mono ht.vacant))

theorem Lays.frame (hx : Lays n g x) (k : Nat) : Lays (k + n) (fun a => k + g a) x :=
  fun s hs => (hx s hs).mono fun _ _ ht => ht.frame k

theorem Laid.refl (hs : s.active.SlotsInOrder) : Laid P n n s s :=
  .of_tidy (.of_eq hs (.refl _) rfl (.refl _) rfl rfl rfl) rfl

theorem Lays.pure (a : α) (h : n = g a) : Lays n g (pure a) :=
  fun _ hs => .pure (h ▸ .refl hs)

theorem Lays.fail (e : CompileError) : Lays n g (Pass.fail e : Emit Chunk α) :=
  fun _ _ => .fail trivial

theorem Lays.fault (f : Fault) : Lays n g (Lowering.fault f : Emit Chunk α) :=
  .fail _

/-- A step that leaves one value, in the representation that it answers with. -/
def LaysValue (n : Nat) (x : Emit Chunk TypeCode) : Prop :=
  ∀ g : TypeCode → Nat, (∀ c : TypeCode, c.isValue = true → g c = 1) → Lays n g x

theorem height_of_isValue {code : TypeCode} (h : code.isValue = true) : code.height = 1 := by
  rw [TypeCode.height, if_pos h]

theorem LaysValue.one {x : Emit Chunk TypeCode} (hx : LaysValue n x) : Lays n (fun _ => 1) x :=
  hx _ fun _ _ => rfl

theorem LaysValue.height {x : Emit Chunk TypeCode} (hx : LaysValue n x) : Lays n TypeCode.height x :=
  hx _ fun _ => height_of_isValue

theorem LaysValue.pure {c : TypeCode} (hc : c.isValue = true) : LaysValue 1 (Pure.pure c) :=
  fun _ hm => .pure c (hm c hc).symm

theorem LaysValue.fault (f : Fault) : LaysValue n (Lowering.fault f) :=
  fun _ _ => .fault f

theorem Lays.value {f : α → Emit Chunk TypeCode} (hx : Lays n g x) (hf : ∀ a, LaysValue (g a) (f a)) :
    LaysValue n (x >>= f) :=
  fun g' hm => hx.andThen fun a => hf a g' hm

theorem lays_peek (f : State Chunk → α) : Lays n (fun _ => n) (Pass.peek f) :=
  fun _ hs => .peek (.refl hs)

/-- Rules are looked up on the side. -/
theorem ends_onRules (q : Pass Fault RuleTable α) :
    Ends (onTable q : Emit Chunk α) s (fun _ t => ∃ table, t = { s with table := table }) anyFailure := by
  refine .intro (fun a t hrun => ?_) fun _ _ _ => trivial
  unfold onTable at hrun
  split at hrun
  · exact ⟨_, (Prod.mk.inj hrun).2.symm⟩
  · cases hrun

theorem lays_onTable (q : Pass Fault RuleTable α) : Lays n (fun _ => n) (onTable q : Emit Chunk α) := by
  refine fun s hs => (ends_onRules q).mono ?_
  rintro _ _ ⟨table, rfl⟩
  exact .of_tidy (.of_eq hs (.refl _) rfl (.refl _) rfl rfl rfl) rfl

/-- A call to the sink that adds no code and leaves the slots alone. -/
theorem lays_toSink {q : Pass SinkError Routine α} (hgrows : ∀ r : Routine, r.Grows (q r).2)
    (h : ∀ r a r', q r = (.ok a, r') →
      r'.code = r.code ∧ r'.freeTemps = r.freeTemps ∧ r'.tempCount = r.tempCount ∧
        r'.regions = r.regions ∧ r'.openRegions = r.openRegions) :
    Lays n (fun _ => n) (toSink (Chunk.onActive q)) := by
  refine fun s hs => ends_toSink (.intro (fun a r hrun => ?_) fun _ _ _ => trivial)
  obtain ⟨hcode, hfree, hcount, hregions, hopened⟩ := h _ _ _ hrun
  have hgrows := hgrows s.active
  rw [hrun] at hgrows
  exact .of_tidy (.withActive hs hgrows hfree hcount hregions hopened) (by rw [State.active_withActive, hcode])

/-! ### Instructions -/

theorem lays_emit {i : Instruction} (hplain : i.isPlain = true) (hpops : i.pops ≤ n)
    (hm : n - i.pops + i.yields = m) (hslot : ∀ t, i ≠ .storeTemp t)
    (hswitch : ∀ targets, i ≠ .switch targets) : Lays n (fun _ => m) (emit i) := by
  intro s hs
  refine (ends_emit i s).mono ?_
  rintro _ _ rfl
  exact .push hs hplain hpops hm ⟨fun t ht => absurd ht (hslot t), hswitch⟩

theorem lays_pop : Lays 1 (fun _ => 0) (emit .pop) :=
  lays_emit rfl (Nat.le_refl _) rfl nofun nofun

theorem lays_dup : Lays 1 (fun _ => 2) (emit .dup) :=
  lays_emit rfl (Nat.le_refl _) rfl nofun nofun

theorem lays_callVoid (op : RuntimeOp) : Lays op.arity (fun _ => op.result.height) (callVoid op) :=
  lays_emit rfl (Nat.le_refl _) (by simp [Instruction.pops, Instruction.yields]) nofun nofun

theorem lays_callValue (op : RuntimeOp) (hop : op.result.isValue = true) :
    LaysValue op.arity (call op : Emit Chunk TypeCode) :=
  (lays_callVoid op).value fun _ => by
    rw [height_of_isValue hop]
    exact .pure hop

theorem lays_call (op : RuntimeOp) : Lays op.arity TypeCode.height (call op : Emit Chunk TypeCode) :=
  (lays_callVoid op).andThen fun _ => .pure _ rfl

theorem lays_addConstant (v : Literal) :
    Lays n (fun _ => n) (toSink (Sink.addConstant v) : Emit Chunk Nat) := by
  refine lays_toSink (q := Routine.addConstant v) (Routine.grows_addConstant v) fun r k r' hrun => ?_
  unfold Routine.addConstant at hrun
  split at hrun
  · exact (Prod.mk.inj hrun).2 ▸ ⟨rfl, rfl, rfl, rfl, rfl⟩
  · split at hrun
    · exact (Prod.mk.inj hrun).2 ▸ ⟨rfl, rfl, rfl, rfl, rfl⟩
    · cases hrun

theorem lays_pushLiteral (v : Literal) : LaysValue 0 (pushLiteral v : Emit Chunk TypeCode) :=
  (lays_addConstant v).value fun k =>
    (lays_emit (i := .const k) rfl (Nat.zero_le _) rfl nofun nofun).value fun _ =>
      .pure (TypeCode.isValue_ofLiteral v)

/-! ### Labels -/

theorem lays_defineLabel : Lays n (fun _ => n) (defineLabel : Emit Chunk Label) := by
  intro s hs
  refine .transform ?_
  show Laid _ _ _ s { s with sink := (Chunk.onActive Routine.defineLabel s.sink).2 }
  rw [Chunk.onActive_eq]
  show Laid _ _ _ s (s.withActive s.active.defineLabel.2)
  exact .of_tidy (.withActive hs s.active.grows_defineLabel rfl rfl rfl rfl) (by rw [State.active_withActive]; rfl)

/-- A label that is marked stands for the position at hand. -/
theorem ends_mark (l : Label) (hs : s.active.SlotsInOrder) :
    Ends (mark l) s (fun _ t => Tidy s t ∧ t.active.position = s.active.position ∧
      t.active.labelPosition? l = some s.active.position) anyFailure := by
  show Ends (toSink (Chunk.onActive (Routine.markLabel l))) s _ _
  refine ends_toSink (.intro (fun _ r hrun => ?_) fun _ _ _ => trivial)
  by_cases hl : s.active.mark? l = some none
  · rw [Routine.markLabel_eq hl] at hrun
    obtain rfl := (Prod.mk.inj hrun).2
    refine ⟨.withActive hs (Routine.grows_marking hl) rfl rfl rfl rfl, ?_⟩
    rw [State.active_withActive, Routine.labelPosition?_eq, Routine.mark?_marking hl, if_pos rfl]
    exact ⟨rfl, rfl⟩
  · unfold Routine.markLabel at hrun
    split at hrun
    · rename_i hnone
      exact absurd hnone hl
    · cases hrun

/-- An instruction that may go elsewhere is emitted. -/
theorem ends_branch (i : Instruction) (hs : s.active.SlotsInOrder) :
    Ends (emit i) s (fun _ t => Tidy s t ∧ t.active.position = s.active.position + 1 ∧
      t.active.code[s.active.position]? = some i) anyFailure := by
  refine (ends_emit i s).mono ?_
  rintro _ _ rfl
  refine ⟨.withActive hs (s.active.grows_push i) rfl rfl rfl rfl, ?_⟩
  rw [State.active_withActive]
  exact ⟨Routine.position_push i, s.active.code_push_self i⟩

/-- Code that can be skipped. -/
def skippable (done : Label) (body : Emit Chunk Unit) : Emit Chunk Unit := do
  emit (.branchIfTrue done)
  body
  mark done

/-- Where code that can be skipped stands, if its body leads from `t` to `u`. -/
theorem ends_skippable (done : Label) {body : Emit Chunk Unit} {F : State Chunk → State Chunk → Prop}
    (hs : s.active.SlotsInOrder)
    (hbody : ∀ t : State Chunk, t.active.SlotsInOrder → Ends body t (fun _ u => F t u) anyFailure)
    (htidy : ∀ {t u}, F t u → Tidy t u) :
    Ends (skippable done body) s (fun _ v => ∃ t u, F t u ∧ Tidy s t ∧ Tidy u v ∧
      t.active.position = s.active.position + 1 ∧ v.active.position = u.active.position ∧
      v.active.code[s.active.position]? = some (.branchIfTrue done) ∧
      v.active.labelPosition? done = some u.active.position) anyFailure := by
  refine (ends_branch _ hs).bind ?_
  rintro _ t ⟨hst, ht, hi⟩
  refine (hbody t hst.order).bind fun _ u hF => ?_
  have htu := htidy hF
  refine (ends_mark done htu.order).mono ?_
  rintro _ v ⟨huv, hv, hl⟩
  exact ⟨t, u, hF, hst, huv, ht, hv, (htu.trans huv).grows.code hi, hl⟩

theorem lays_skippable (done : Label) {body : Emit Chunk Unit} (hbody : Lays n (fun _ => n) body) :
    Lays (n + 1) (fun _ => n) (skippable done body) := by
  intro s hs
  refine (ends_skippable done hs hbody fun h => h.toTidy).mono ?_
  rintro _ v ⟨t, u, htu, hst, huv, ht, hv, hi, hl⟩
  refine ⟨(hst.trans htu.toTidy).trans huv, ?_⟩
  have hcode := (htu.code.grows huv.grows).mono (storesTo_mono hst.vacant)
  rw [ht] at hcode
  rw [hv]
  exact .skip hi hcode hl

/-- Two alternatives, one of which is taken. -/
def alternatives (otherwise done : Label) (first second : Emit Chunk Unit) : Emit Chunk Unit := do
  emit (.branchIfFalse otherwise)
  first
  emit (.branch done)
  mark otherwise
  second
  mark done

/-- Where two alternatives stand, if the first leads from `t` to `u` and the second from `v` to `w`. -/
theorem ends_alternatives (otherwise done : Label) {first second : Emit Chunk Unit}
    {F G : State Chunk → State Chunk → Prop} (hs : s.active.SlotsInOrder)
    (hfirst : ∀ t : State Chunk, t.active.SlotsInOrder → Ends first t (fun _ u => F t u) anyFailure)
    (hsecond : ∀ v : State Chunk, v.active.SlotsInOrder → Ends second v (fun _ w => G v w) anyFailure)
    (hF : ∀ {t u}, F t u → Tidy t u) (hG : ∀ {v w}, G v w → Tidy v w) :
    Ends (alternatives otherwise done first second) s (fun _ x => ∃ t u v w, F t u ∧ G v w ∧
      Tidy s t ∧ Tidy u v ∧ Tidy w x ∧ t.active.position = s.active.position + 1 ∧
      v.active.position = u.active.position + 1 ∧ x.active.position = w.active.position ∧
      x.active.code[s.active.position]? = some (.branchIfFalse otherwise) ∧
      x.active.code[u.active.position]? = some (.branch done) ∧
      x.active.labelPosition? otherwise = some (u.active.position + 1) ∧
      x.active.labelPosition? done = some w.active.position) anyFailure := by
  refine (ends_branch _ hs).bind ?_
  rintro _ t ⟨hst, ht, hi⟩
  refine (hfirst t hst.order).bind fun _ u hone => ?_
  have htu := hF hone
  refine (ends_branch _ htu.order).bind ?_
  rintro _ u' ⟨huu', hu', hbranch⟩
  refine (ends_mark otherwise huu'.order).bind ?_
  rintro _ v ⟨hu'v, hv, hotherwise⟩
  refine (hsecond v hu'v.order).bind fun _ w hother => ?_
  have hvw := hG hother
  refine (ends_mark done hvw.order).mono ?_
  rintro _ x ⟨hwx, hx, hdone⟩
  have hvx := (hvw.trans hwx).grows
  have hu'x := hu'v.grows.trans hvx
  rw [hu'] at hv hotherwise
  exact ⟨t, u, v, w, hone, hother, hst, huu'.trans hu'v, hwx, ht, hv, hx,
    ((htu.trans huu').grows.trans hu'x).code hi, hu'x.code hbranch, hvx.labelPosition? hotherwise, hdone⟩

theorem lays_alternatives (otherwise done : Label) {first second : Emit Chunk Unit}
    (hfirst : Lays n (fun _ => m) first) (hsecond : Lays n (fun _ => m) second) :
    Lays (n + 1) (fun _ => m) (alternatives otherwise done first second) := by
  intro s hs
  refine (ends_alternatives otherwise done hs hfirst hsecond (fun h => h.toTidy) fun h => h.toTidy).mono ?_
  rintro _ x ⟨t, u, v, w, htu, hvw, hst, huv, hwx, ht, hv, hx, hi, hbranch, hotherwise, hdone⟩
  have hsu := hst.trans htu.toTidy
  have hvx := hvw.toTidy.trans hwx
  refine ⟨(hsu.trans huv).trans hvx, ?_⟩
  have hone := (htu.code.grows (huv.trans hvx).grows).mono (storesTo_mono hst.vacant)
  have hother := (hvw.code.grows hwx.grows).mono (storesTo_mono (hsu.trans huv).vacant)
  rw [ht] at hone
  rw [hv] at hother
  rw [hx]
  exact .fork hi hone hbranch hotherwise hother hdone

/-! ### Slots -/

/-- Declaring takes a vacant slot. -/
theorem ends_declareTemp (hs : s.active.SlotsInOrder) :
    Ends declareTemp s (fun k t => Tidy s t ∧ t.active.code = s.active.code ∧ t.chains = s.chains ∧
      s.active.Vacant k ∧ ¬ t.active.Vacant k) anyFailure := by
  show Ends (toSink (Chunk.onActive Routine.declareTemp)) s _ _
  refine ends_toSink (.intro (fun k r hrun => ?_) fun _ _ _ => trivial)
  obtain ⟨horder, hcode, hk, htaken, hvacant⟩ := Routine.declareTemp_slots hs hrun
  have hgrows := s.active.grows_declareTemp
  rw [hrun] at hgrows
  have hactive := s.active_withActive r
  refine ⟨?_, by rw [hactive, hcode], rfl, hk, hactive.symm ▸ htaken⟩
  obtain ⟨hregions, hopened⟩ := Routine.regions_declareTemp hrun
  exact
    { same := .withActive hregions hopened
      sameFrame := rfl
      grows := hactive.symm ▸ hgrows
      order := hactive.symm ▸ horder
      vacant := hactive.symm ▸ hvacant
      chains := ⟨[], (withKept_nil _).symm, nofun⟩ }

/-- The value on top of the stack is copied to a slot. -/
theorem ends_saveTo (hs : s.active.SlotsInOrder) (hdup : P .dup) (hstore : P (.storeTemp k)) :
    Ends (saveTo k) s (fun _ t => Laid P 1 1 s t ∧ t.active.code[s.active.position]? = some .dup ∧
      t.active.code[s.active.position + 1]? = some (.storeTemp k) ∧
      t.active.position = s.active.position + 2) anyFailure := by
  refine (ends_emit .dup s).bind ?_
  rintro _ _ rfl
  have hlaid : Laid P 1 2 s (s.withActive (s.active.push .dup)) := .push hs rfl (Nat.le_refl _) rfl hdup
  refine (ends_emit (.storeTemp k) _).mono ?_
  rintro _ _ rfl
  refine ⟨hlaid.trans (.push hlaid.order rfl (Nat.le_succ _) rfl hstore), ?_⟩
  · simp only [State.active_withActive]
    have hposition := Routine.position_push (r := s.active) .dup
    refine ⟨(Routine.grows_push _ _).code (s.active.code_push_self .dup), ?_, ?_⟩
    · rw [← hposition]
      exact Routine.code_push_self _
    · rw [Routine.position_push, hposition]

/-! ### Representations -/

theorem lays_box (code : TypeCode) : LaysValue code.height (box code : Emit Chunk TypeCode) := by
  unfold box
  split
  · rename_i hprimitive
    rw [height_of_isValue (TypeCode.isValue_of_isPrimitive hprimitive)]
    exact (lays_emit (i := .box code) rfl (Nat.le_refl _) rfl nofun nofun).value fun _ => .pure rfl
  · split
    · rename_i hvalue
      rw [height_of_isValue hvalue]
      exact .pure hvalue
    · exact .fault _

/-- What is boxed is a value. -/
theorem lays_boxed (code : TypeCode) : Lays 1 (fun _ => 1) (box code : Emit Chunk TypeCode) := by
  by_cases hvalue : code.isValue = true
  · exact height_of_isValue hvalue ▸ (lays_box code).one
  · unfold box
    rw [if_neg fun hprimitive => hvalue (TypeCode.isValue_of_isPrimitive hprimitive), if_neg hvalue]
    exact .fault _

/-- A conversion leaves a value in the representation that is asked for. -/
theorem lays_convert (code target : TypeCode) {g : TypeCode → Nat}
    (hm : ∀ c : TypeCode, c.height = target.height → g c = target.height) :
    Lays code.height g (convert code target : Emit Chunk TypeCode) := by
  unfold convert
  split
  · rename_i heq
    rw [heq]
    exact .pure _ (hm _ rfl).symm
  · split
    · rename_i heq
      subst heq
      exact lays_box code _ fun c hc => hm c (height_of_isValue hc)
    · split
      · rename_i op hop
        obtain ⟨harity, hresult⟩ := converter?_eq hop
        refine (lays_box code).one.andThen fun _ => ?_
        have hcall := lays_callVoid op
        rw [harity] at hcall
        refine hcall.andThen fun _ => .pure _ ?_
        rw [hm _ (by rw [hresult]), hresult]
      · exact .fault _

theorem lays_discard (code : TypeCode) {g : TypeCode → Nat} (hm : g .void = 0) :
    Lays code.height g (discard code : Emit Chunk TypeCode) := by
  unfold discard
  split
  · rename_i hvalue
    rw [height_of_isValue hvalue]
    exact lays_pop.andThen fun _ => .pure _ hm.symm
  · rename_i hvalue
    have hzero : code.height = 0 := by rw [TypeCode.height, if_neg hvalue]
    exact .pure _ (hzero.trans hm.symm)

theorem lays_unlessDropped (access : Access) (code : TypeCode) :
    Lays code.height TypeCode.height (unlessDropped access code : Emit Chunk TypeCode) := by
  unfold unlessDropped
  split
  · exact lays_discard code rfl
  · exact .pure _ rfl

end Lays

end Lowering
end PhpLowering
