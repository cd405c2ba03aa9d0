import PhpLowering.Proofs.Lowering.Outline
import PhpLowering.Proofs.Lowering.Slots

/-!
# What a step does with the operands of a chain

A `Custody` is a promise about the operands that the innermost chain keeps.  `Does A x` says that the
step `x` lives up to it: if what it takes to be new is new and what it takes to be there is there, then
the chain keeps what it kept, with more behind it that was new, and what is gained is among that.  Other
chains and the frame are not touched.

**`Outline.does`**: a step that has an outline does what its custody says, whatever the sink is.
-/

namespace PhpLowering
namespace Lowering

open Pass (Ends)

variable {σ α β : Type} {A B : Custody} {s t u : State σ} {chains : List Chain}

/-! ## Operands that are kept -/

/-- The operands that the innermost of some chains keeps. -/
def entries : List Chain → List (Nat × Temp × TypeCode)
  | [] => []
  | chain :: _ => chain.kept

/-- An operand is kept by the innermost of some chains. -/
def Keeps (chains : List Chain) (i : Nat) : Prop :=
  i ∈ (entries chains).map Prod.fst

theorem entries_withKept (more : List (Nat × Temp × TypeCode)) (h : chains ≠ []) :
    entries (withKept more chains) = entries chains ++ more := by
  cases chains with
  | nil => exact absurd rfl h
  | cons => rfl

theorem keeps_withKept {more : List (Nat × Temp × TypeCode)} {i : Nat} (h : Keeps chains i) :
    Keeps (withKept more chains) i := by
  cases chains with
  | nil => exact h
  | cons =>
    unfold Keeps entries withKept at *
    rw [List.map_append]
    exact List.mem_append_left _ h

theorem of_keeps_withKept {more : List (Nat × Temp × TypeCode)} {i : Nat}
    (h : Keeps (withKept more chains) i) : Keeps chains i ∨ ∃ entry ∈ more, entry.1 = i := by
  cases chains with
  | nil => exact Or.inl h
  | cons =>
    unfold Keeps entries withKept at *
    rw [List.map_append, List.mem_append, List.mem_map (l := more)] at h
    exact h

/-- What is kept can be looked up. -/
theorem Keeps.lookup {i : Nat} (h : Keeps chains i) :
    ∃ entry, (entries chains).lookup i = some entry := by
  cases hlookup : (entries chains).lookup i with
  | some entry => exact ⟨entry, rfl⟩
  | none =>
    rw [List.lookup_eq_none_iff] at hlookup
    obtain ⟨entry, hentry, rfl⟩ := List.mem_map.mp h
    exact absurd (hlookup entry hentry) (by simp)

/-- What can be looked up is kept. -/
theorem keeps_of_lookup {i : Nat} {entry : Temp × TypeCode} (h : (entries chains).lookup i = some entry) :
    (i, entry) ∈ entries chains := by
  obtain ⟨front, back, heq, -⟩ := List.lookup_eq_some_iff.mp h
  rw [heq]
  exact List.mem_append_right _ List.mem_cons_self

theorem lookup_eq_none_of_not_keeps {i : Nat} (h : ¬ Keeps chains i) : (entries chains).lookup i = none := by
  cases hlookup : (entries chains).lookup i with
  | none => rfl
  | some entry => exact absurd (List.mem_map_of_mem (keeps_of_lookup hlookup)) h

/-- An operand with a new number is kept along with the others. -/
theorem chains_keepOperand_of_not_keeps {i : Nat} (k : Temp) (code : TypeCode) (h : ¬ Keeps s.chains i) :
    (s.keepOperand i k code).chains = withKept [(i, k, code)] s.chains := by
  unfold State.keepOperand
  split
  · rename_i hchains
    rw [hchains, withKept]
  · rename_i chain chains hchains
    rw [hchains] at h ⊢
    have hothers : (chain.kept.filter fun entry => entry.1 ≠ i) = chain.kept := by
      refine List.filter_eq_self.mpr fun entry hentry => decide_eq_true fun heq => h ?_
      exact heq ▸ List.mem_map_of_mem hentry
    exact congrArg (fun kept => { chain with kept := kept ++ [(i, k, code)] } :: chains) hothers

theorem keepOperand_frame (i : Nat) (k : Temp) (code : TypeCode) (s : State σ) :
    (s.keepOperand i k code).frame = s.frame := by
  unfold State.keepOperand
  split <;> rfl

theorem keepOperand_sink (i : Nat) (k : Temp) (code : TypeCode) (s : State σ) :
    (s.keepOperand i k code).sink = s.sink := by
  unfold State.keepOperand
  split <;> rfl

/-! ## Custody of a state -/

namespace Custody

/-- A step can be taken in a state. -/
structure Allows (A : Custody) (s : State σ) : Prop where
  fresh : ∀ i ∈ A.fresh, ¬ Keeps s.chains i
  known : ∀ i ∈ A.known, Keeps s.chains i

/-- A step has led from one state to another. -/
structure Done (A : Custody) (s t : State σ) : Prop where
  chains : ∃ more, t.chains = withKept more s.chains ∧ ∀ entry ∈ more, entry.1 ∈ A.fresh
  gained : s.chains ≠ [] → ∀ i ∈ A.gained, Keeps t.chains i
  sameFrame : t.frame = s.frame

theorem allows_empty (s : State σ) : Allows {} s :=
  ⟨nofun, nofun⟩

theorem Covers.allows (h : A.Covers B) (hs : B.Allows s) : A.Allows s :=
  ⟨fun i hi => hs.fresh i (h.fresh hi), fun i hi => hs.known i (h.known hi)⟩

theorem Covers.done (h : A.Covers B) (hst : A.Done s t) : B.Done s t where
  chains := by
    obtain ⟨more, hchains, hmore⟩ := hst.chains
    exact ⟨more, hchains, fun entry hentry => h.fresh (hmore entry hentry)⟩
  gained hs i hi := hst.gained hs i (h.gained hi)
  sameFrame := hst.sameFrame

/-- A step that leaves the chains alone. -/
theorem Done.of_eq (hchains : t.chains = s.chains) (hframe : t.frame = s.frame) : Done {} s t where
  chains := ⟨[], by rw [hchains, withKept_nil], nofun⟩
  gained _ := nofun
  sameFrame := hframe

/-- A step that has to do with no operand leaves the chains alone. -/
theorem Done.chains_eq (h : Done {} s t) : t.chains = s.chains := by
  obtain ⟨more, hchains, hmore⟩ := h.chains
  cases more with
  | nil => rw [hchains, withKept_nil]
  | cons entry => exact nomatch hmore entry List.mem_cons_self

theorem Done.keeps (h : A.Done s t) {i : Nat} (hi : Keeps s.chains i) : Keeps t.chains i := by
  obtain ⟨more, hchains, -⟩ := h.chains
  exact hchains ▸ keeps_withKept hi

theorem Done.of_keeps (h : A.Done s t) {i : Nat} (hi : Keeps t.chains i) :
    Keeps s.chains i ∨ i ∈ A.fresh := by
  obtain ⟨more, hchains, hmore⟩ := h.chains
  rw [hchains] at hi
  refine (of_keeps_withKept hi).imp_right ?_
  rintro ⟨entry, hentry, rfl⟩
  exact hmore entry hentry

/-- The number of chains stays the same. -/
theorem Done.chains_eq_nil_iff (h : A.Done s t) : t.chains = [] ↔ s.chains = [] := by
  obtain ⟨more, hchains, -⟩ := h.chains
  rw [hchains]
  cases s.chains <;> simp [withKept]

theorem Allows.left (h : (A.seq B).Allows s) : A.Allows s :=
  ⟨fun i hi => h.fresh i (List.mem_append_left _ hi), fun i hi => h.known i (List.mem_append_left _ hi)⟩

/-- What is new to both of two steps is still new to the second one. -/
theorem Done.allows (h : A.Done s t) (hs : (A.seq B).Allows s) (hd : A.fresh.Disjoint B.fresh) :
    B.Allows t where
  fresh i hi hkept := by
    rcases h.of_keeps hkept with hi' | hi'
    · exact hs.fresh i (List.mem_append_right _ hi) hi'
    · exact hd hi' hi
  known i hi := h.keeps (hs.known i (List.mem_append_right _ hi))

theorem Done.trans (h : A.Done s t) (h' : B.Done t u) : (A.seq B).Done s u where
  chains := by
    obtain ⟨more, hchains, hmore⟩ := h.chains
    obtain ⟨more', hchains', hmore'⟩ := h'.chains
    refine ⟨more ++ more', by rw [hchains', hchains, withKept_append], fun entry hentry => ?_⟩
    rcases List.mem_append.mp hentry with hentry | hentry
    · exact List.mem_append_left _ (hmore entry hentry)
    · exact List.mem_append_right _ (hmore' entry hentry)
  gained hs i hi := by
    rcases List.mem_append.mp hi with hi | hi
    · exact h'.keeps (h.gained hs i hi)
    · exact h'.gained (mt h.chains_eq_nil_iff.mp hs) i hi
  sameFrame := h'.sameFrame.trans h.sameFrame

end Custody

/-! ## Steps that live up to their custody -/

/-- Whenever a step can be taken and succeeds, it has done what its custody says. -/
def Does (A : Custody) (x : Emit σ α) : Prop :=
  ∀ s, A.Allows s → Ends x s (fun _ t => A.Done s t) anyFailure

/-- A step that leaves the chains and the frame alone. -/
def LeavesChains (x : Emit σ α) : Prop :=
  ∀ s, Ends x s (fun _ t => t.chains = s.chains ∧ t.frame = s.frame) anyFailure

section Does

variable {x : Emit σ α} {f : α → Emit σ β}

theorem LeavesChains.does (h : LeavesChains x) : Does {} x :=
  fun s _ => (h s).mono fun _ _ ht => .of_eq ht.1 ht.2

theorem Does.mono (h : Does A x) (hAB : A.Covers B) : Does B x :=
  fun s hs => (h s (hAB.allows hs)).mono fun _ _ => hAB.done

theorem Does.seq (hx : Does A x) (hf : ∀ a, Does B (f a)) (hd : A.fresh.Disjoint B.fresh) :
    Does (A.seq B) (x >>= f) := by
  intro s hs
  refine (hx s hs.left).bind fun a t ht => ?_
  exact (hf a t (ht.allows hs hd)).mono fun _ _ => ht.trans

theorem Does.before (hx : LeavesChains x) (hf : ∀ a, Does A (f a)) : Does A (x >>= f) :=
  hx.does.seq hf (List.disjoint_nil_left _)

theorem Does.then (hx : Does A x) (hf : ∀ a, LeavesChains (f a)) : Does A (x >>= f) :=
  (hx.seq (fun a => (hf a).does) (List.disjoint_nil_right _)).mono
    (by constructor <;> simp [Custody.seq])

theorem leavesChains_pure (a : α) : LeavesChains (pure a : Emit σ α) :=
  fun _ => .pure ⟨rfl, rfl⟩

theorem LeavesChains.bind (hx : LeavesChains x) (hf : ∀ a, LeavesChains (f a)) :
    LeavesChains (x >>= f) := by
  intro s
  refine (hx s).bind fun a t ht => ?_
  exact (hf a t).mono fun _ u hu => ⟨hu.1.trans ht.1, hu.2.trans ht.2⟩

/-- The sink is called, and nothing else happens. -/
theorem ends_sinkCall (call : Pass SinkError σ α) (s : State σ) :
    Ends (toSink call) s (fun a t => call s.sink = (.ok a, t.sink) ∧ t = { s with sink := t.sink })
      anyFailure := by
  refine .intro (fun a t hrun => ?_) fun _ _ _ => trivial
  unfold toSink at hrun
  split at hrun
  · rename_i hcall
    cases hrun
    exact ⟨hcall, rfl⟩
  · exact nomatch hrun

theorem leavesChains_toSink (call : Pass SinkError σ α) : LeavesChains (toSink call) := by
  refine fun s => (ends_sinkCall call s).mono fun _ t ht => ?_
  rw [ht.2]
  exact ⟨rfl, rfl⟩

theorem leavesChains_onTable (q : Pass Fault RuleTable α) : LeavesChains (onTable q : Emit σ α) := by
  refine fun s => .intro (fun a t hrun => ?_) fun _ _ _ => trivial
  unfold onTable at hrun
  split at hrun
  · obtain rfl := (Prod.mk.inj hrun).2
    exact ⟨rfl, rfl⟩
  · cases hrun

variable [Sink σ]

theorem leavesChains_emit (i : Instruction) : LeavesChains (emit i : Emit σ Unit) :=
  leavesChains_toSink _

theorem leavesChains_mark (l : Label) : LeavesChains (mark l : Emit σ Unit) :=
  leavesChains_toSink _

theorem leavesChains_defineLabel : LeavesChains (defineLabel : Emit σ Label) :=
  fun _ => .transform ⟨rfl, rfl⟩

theorem leavesChains_declareTemp : LeavesChains (declareTemp : Emit σ Temp) :=
  leavesChains_toSink _

theorem leavesChains_returnTemp (k : Temp) : LeavesChains (returnTemp k : Emit σ Unit) :=
  fun _ => .update ⟨rfl, rfl⟩

theorem leavesChains_saveTo (k : Temp) : LeavesChains (saveTo k : Emit σ Unit) :=
  (leavesChains_emit _).bind fun _ => leavesChains_emit _

end Does

section Ways

variable [Sink σ] {γ δ : Type} {x : Emit σ α} {y : Emit σ β} {z : Emit σ γ} {w : Emit σ δ} {C : Custody}
  {e : Expr} {code : Code σ}

theorem does_operand (hcode : Does A (boxed code)) (hrepeatable : e.isRepeatable = false)
    (hnew : e.id ∉ A.fresh) :
    Does { fresh := e.id :: A.fresh, known := A.known, gained := [e.id], sure := [e.id] }
      (chainOperand e code) := by
  intro s hs
  have hallows : A.Allows s := ⟨fun i hi => hs.fresh i (List.mem_cons_of_mem _ hi), hs.known⟩
  have hid : ¬ Keeps s.chains e.id := hs.fresh _ List.mem_cons_self
  have hboxed := hcode s hallows
  refine .peek_bind ?_
  cases hchains : s.chains with
  | nil =>
    refine hboxed.mono fun _ t ht => ⟨?_, fun h => absurd hchains h, ht.sameFrame⟩
    obtain ⟨more, hmore, hfresh⟩ := ht.chains
    exact ⟨more, hmore, fun entry hentry => List.mem_cons_of_mem _ (hfresh entry hentry)⟩
  | cons chain chains =>
    have hlookup : chain.kept.lookup e.id = none := by
      have hnone := lookup_eq_none_of_not_keeps hid
      rwa [hchains] at hnone
    dsimp only [List.head?_cons]
    rw [if_neg (Bool.eq_false_iff.mp hrepeatable), hlookup]
    refine hboxed.bind fun kind t ht => ?_
    refine (leavesChains_declareTemp t).bind fun k t₁ ⟨hc₁, hf₁⟩ => ?_
    refine (leavesChains_saveTo k t₁).bind fun _ t₂ ⟨hc₂, hf₂⟩ => ?_
    refine .update_bind (.pure ?_)
    have hsame : t₂.chains = t.chains := hc₂.trans hc₁
    have hid' : ¬ Keeps t₂.chains e.id := by
      rw [hsame]
      exact fun h => (ht.of_keeps h).elim hid hnew
    have hkept := chains_keepOperand_of_not_keeps k kind hid'
    obtain ⟨more, hmore, hfresh⟩ := ht.chains
    have hall : (t₂.keepOperand e.id k kind).chains = withKept (more ++ [(e.id, k, kind)]) s.chains := by
      rw [hkept, hsame, hmore, withKept_append]
    refine ⟨⟨_, hall, fun entry hentry => ?_⟩, fun _ i hi => ?_, ?_⟩
    · rcases List.mem_append.mp hentry with hentry | hentry
      · exact List.mem_cons_of_mem _ (hfresh entry hentry)
      · exact List.mem_singleton.mp hentry ▸ List.mem_cons_self
    · rw [hall, hchains, Keeps, entries_withKept _ (List.cons_ne_nil _ _)]
      simp [List.mem_singleton.mp hi]
    · rw [keepOperand_frame, hf₂, hf₁, ht.sameFrame]

/-- An operand that is kept is loaded from its slot. -/
theorem chainOperand_eq {entry : Temp × TypeCode} (hrepeatable : e.isRepeatable = false)
    (h : (entries s.chains).lookup e.id = some entry) (code : Code σ) :
    chainOperand e code s = (do emit (.loadTemp entry.1); return entry.2 : Emit σ TypeCode) s := by
  cases hchains : s.chains with
  | nil =>
    rw [hchains] at h
    exact nomatch h
  | cons chain chains =>
    rw [hchains] at h
    show (Pass.peek (fun s : State σ => s.chains.head?) >>= _) s = _
    rw [Pass.bind_apply, Pass.peek_apply, hchains]
    dsimp only [List.head?_cons]
    rw [if_neg (Bool.eq_false_iff.mp hrepeatable), show chain.kept.lookup e.id = some entry from h]

theorem does_again (code : Code σ) (hrepeatable : e.isRepeatable = false) :
    Does { known := [e.id] } (chainOperand e code) := by
  intro s hs
  obtain ⟨entry, hentry⟩ := (hs.known _ (List.mem_singleton_self _)).lookup
  unfold Ends
  rw [chainOperand_eq hrepeatable hentry]
  exact (leavesChains_emit (.loadTemp entry.1) s).bind fun _ t ht =>
    .pure ⟨⟨[], by rw [ht.1, withKept_nil], nofun⟩, fun _ => nofun, ht.2⟩

theorem does_skipped (hx : Does A x) (hy : Does B y) (hd : A.fresh.Disjoint B.fresh) :
    Does (A.seq B.unsure) (skipped x y) := by
  have hy' : Does B.unsure y := hy.mono ⟨.refl _, .refl _, .refl _, List.nil_subset _⟩
  exact .before leavesChains_defineLabel fun done => hx.seq
    (fun _ => .before (leavesChains_emit _) fun _ => hy'.then fun _ => leavesChains_mark done) hd

theorem does_forked (doneFirst : Bool) (hx : Does A x) (hy : Does B y) (hz : Does C z)
    (hAB : A.fresh.Disjoint B.fresh) (hABC : (A.fresh ++ B.fresh).Disjoint C.fresh) :
    Does ((A.seq B.unsure).seq C.unsure) (forked doneFirst x y z) := by
  have hy' : Does B.unsure y := hy.mono ⟨.refl _, .refl _, .refl _, List.nil_subset _⟩
  have hz' : Does C.unsure z := hz.mono ⟨.refl _, .refl _, .refl _, List.nil_subset _⟩
  have hparts (otherwise done : Label) : Does (A.seq (B.unsure.seq C.unsure)) (do
      let _ ← x
      emit (.branchIfFalse otherwise)
      let _ ← y
      emit (.branch done)
      mark otherwise
      let _ ← z
      mark done) := by
    have hd := List.disjoint_append_left.mp hABC
    exact hx.seq (fun _ => .before (leavesChains_emit _) fun _ => hy'.seq (fun _ =>
      .before (leavesChains_emit _) fun _ => .before (leavesChains_mark _) fun _ =>
        hz'.then fun _ => leavesChains_mark done) hd.2) (List.disjoint_append_right.mpr ⟨hAB, hd.1⟩)
  refine Does.mono (.before leavesChains_defineLabel fun one => .before leavesChains_defineLabel
    fun other => hparts _ _) ?_
  constructor <;> simp [Custody.seq]

/-! ### Chains of their own -/

theorem chains_endChain_cons {chain : Chain} (h : s.chains = chain :: chains) :
    s.endChain.chains = chains := by
  unfold State.endChain
  rw [h]

theorem frame_endChain (s : State σ) : s.endChain.frame = s.frame := by
  unfold State.endChain
  split <;> rfl

omit [Sink σ] in
/-- At the beginning of a chain, everything is new. -/
theorem Custody.allows_atStart {chain : Chain} (hs : s.chains = chain :: chains) (hkept : chain.kept = [])
    (hA : A.known = []) : A.Allows s := by
  refine ⟨fun i _ hi => ?_, by rw [hA]; exact List.forall_mem_nil _⟩
  rw [hs, Keeps, entries, hkept] at hi
  cases hi

omit [Sink σ] in
/-- What the first of two steps has kept is there for the second one. -/
theorem Custody.Done.allows_inChain {chain : Chain} (h : A.Done s t) (hs : s.chains = chain :: chains)
    (hkept : chain.kept = []) (hd : A.fresh.Disjoint B.fresh) (hgained : B.known ⊆ A.gained) :
    B.Allows t where
  fresh i hi hkeeps := by
    rcases h.of_keeps hkeeps with hbefore | hnew
    · rw [hs, Keeps, entries, hkept] at hbefore
      cases hbefore
    · exact hd hnew hi
  known i hi := h.gained (by rw [hs]; exact List.cons_ne_nil _ _) i (hgained hi)

omit [Sink σ] in
/-- A chain that kept nothing at first. -/
theorem Custody.Done.chains_inChain {chain : Chain} (h : A.Done s t) (hs : s.chains = chain :: chains)
    (hkept : chain.kept = []) : ∃ more, t.chains = { chain with kept := more } :: chains := by
  obtain ⟨more, hmore, -⟩ := h.chains
  exact ⟨more, by rw [hmore, hs, withKept, hkept, List.nil_append]⟩

omit [Sink σ] in
/-- Steps that are taken one after another at the beginning of a chain. -/
theorem ends_inChain (hx : Does A x) (hy : Does B y) (hA : A.known = []) (hd : A.fresh.Disjoint B.fresh)
    (hgained : B.known ⊆ A.gained) {chain : Chain} (hs : s.chains = chain :: chains)
    (hkept : chain.kept = []) :
    Ends (do let _ ← x; y) s (fun _ t => (∃ more, t.chains = { chain with kept := more } :: chains) ∧
      t.frame = s.frame) anyFailure := by
  refine (hx s (Custody.allows_atStart hs hkept hA)).bind fun _ t ht => ?_
  refine (hy t (ht.allows_inChain hs hkept hd hgained)).mono fun _ u hu => ?_
  exact ⟨(ht.trans hu).chains_inChain hs hkept, hu.sameFrame.trans ht.sameFrame⟩

/-- Steps in a chain of their own, and what follows when the chain is closed. -/
theorem does_inChain (quiet : Bool) {f : β → Emit σ γ} (hx : Does A x) (hy : Does B y)
    (hA : A.known = []) (hd : A.fresh.Disjoint B.fresh) (hgained : B.known ⊆ A.gained)
    (hf : ∀ b, LeavesChains (f b)) :
    Does {} (do
      beginChain quiet
      let b ← (do let _ ← x; y)
      Pass.update State.endChain
      f b) := by
  intro s _
  refine .update_bind ((ends_inChain hx hy hA hd hgained rfl rfl).bind fun b t ht => .update_bind ?_)
  obtain ⟨⟨more, hchains⟩, hframe⟩ := ht
  refine (hf b _).mono fun _ u hu => .of_eq ?_ ?_
  · exact hu.1.trans (chains_endChain_cons hchains)
  · exact hu.2.trans ((frame_endChain t).trans hframe)

/-- The parts of `chained`. -/
theorem chained_eq (quiet : Bool) (x : Emit σ α) (y : Emit σ β) : chained quiet x y = (do
    beginChain quiet
    let _ ← (do let _ ← x; y)
    Pass.update State.endChain
    pure ()) := by
  simp [chained]

/-- The parts of `chainedSaving`: in the chain, a slot is found and stored to. -/
theorem chainedSaving_eq (quiet : Bool) (x : Emit σ α) (y : Emit σ β) (z : Emit σ γ) (w : Emit σ δ) :
    chainedSaving quiet x y z w = (do
      beginChain quiet
      let t ← (do
        let _ ← x
        let _ ← y
        let t ← declareTemp
        let _ ← z
        saveTo t
        let _ ← w
        return t)
      Pass.update State.endChain
      emit (.loadTemp t)
      returnTemp t) := by
  simp [chainedSaving]

/-- The parts of `chainedLoading`. -/
theorem chainedLoading_eq (quiet : Bool) (x : Emit σ α) (y : Emit σ β) : chainedLoading quiet x y = (do
    let t ← declareTemp
    emit (.storeTemp t)
    beginChain quiet
    let _ ← (do
      let _ ← x
      emit (.loadTemp t)
      y)
    Pass.update State.endChain
    returnTemp t) := by
  simp [chainedLoading]

theorem does_chained (quiet : Bool) (hx : Does A x) (hy : Does B y) (hA : A.known = [])
    (hd : A.fresh.Disjoint B.fresh) (hgained : B.known ⊆ A.gained) : Does {} (chained quiet x y) := by
  rw [chained_eq]
  exact does_inChain quiet hx hy hA hd hgained fun _ => leavesChains_pure ()

theorem does_chainedSaving (quiet : Bool) (hx : Does A x) (hy : Does B y) (hz : Does {} z) (hw : Does {} w)
    (hA : A.known = []) (hd : A.fresh.Disjoint B.fresh) (hgained : B.known ⊆ A.gained) :
    Does {} (chainedSaving quiet x y z w) := by
  have hsaved : Does {} (do
      let t ← declareTemp
      let _ ← z
      saveTo t
      let _ ← w
      return t) :=
    .before leavesChains_declareTemp fun t => hz.seq (fun _ => .before (leavesChains_saveTo t) fun _ =>
      hw.then fun _ => leavesChains_pure t) (List.disjoint_nil_left _)
  have hboth : Does B (do
      let _ ← y
      let t ← declareTemp
      let _ ← z
      saveTo t
      let _ ← w
      return t) :=
    (hy.seq (fun _ => hsaved) (List.disjoint_nil_right _)).mono (by constructor <;> simp [Custody.seq])
  rw [chainedSaving_eq]
  exact does_inChain quiet hx hboth hA hd hgained fun t =>
    (leavesChains_emit (.loadTemp t)).bind fun _ => leavesChains_returnTemp t

theorem does_chainedLoading (quiet : Bool) (hx : Does A x) (hy : Does {} y) (hA : A.known = []) :
    Does {} (chainedLoading quiet x y) := by
  rw [chainedLoading_eq]
  refine .before leavesChains_declareTemp fun t => .before (leavesChains_emit (.storeTemp t)) fun _ => ?_
  exact does_inChain quiet hx (.before (leavesChains_emit (.loadTemp t)) fun _ => hy) hA
    (List.disjoint_nil_right _) (List.nil_subset _) fun _ => leavesChains_returnTemp t

end Ways

/-- **A step that has an outline does what its custody says.** -/
theorem Outline.does [Sink σ] {strict : Prop} {x : Emit σ α} (h : Outline strict A x) : Does A x := by
  induction h with
  | pure a => exact (leavesChains_pure a).does
  | fail e => exact fun _ _ => .fail trivial
  | peek f => exact LeavesChains.does fun _ => .peek ⟨rfl, rfl⟩
  | onTable q => exact (leavesChains_onTable q).does
  | addConstant v => exact (leavesChains_toSink _).does
  | emit => exact (leavesChains_emit _).does
  | mono _ hAB ih => exact ih.mono hAB
  | seq _ _ hd ihx ihf => exact ihx.seq ihf hd
  | operand _ hrepeatable hnew ih => exact does_operand ih hrepeatable hnew
  | again code hrepeatable => exact does_again code hrepeatable
  | skip _ _ hd ihx ihy => exact does_skipped ihx ihy hd
  | fork doneFirst _ _ _ hAB hABC ihx ihy ihz => exact does_forked doneFirst ihx ihy ihz hAB hABC
  | chain quiet _ _ hA hd hgained _ ihx ihy => exact does_chained quiet ihx ihy hA hd hgained
  | saving quiet _ _ _ _ hA hd hgained _ ihx ihy ihz ihw =>
    exact does_chainedSaving quiet ihx ihy ihz ihw hA hd hgained
  | loading quiet _ _ hA ihx ihy => exact does_chainedLoading quiet ihx ihy hA

end Lowering
end PhpLowering
