import PhpLowering.Proofs.Code.Provenance
import PhpLowering.Proofs.Lowering.Account

/-!
# Returns in a routine that grows

What is emitted behind a `return` must not get into the code of it.  `Routine.Sealed b slot exit ds r` is
what is known of a routine in the middle of its emission: the deliveries `ds` are complete, they store to
`slot` and go on to the label `exit`, and the rest of the code leaves them alone (`Routine.Spares`).  As
long as new code does so, the deliveries stay sealed (`Sealed.grow`); one more delivery is sealed by
`Sealed.deliver`.

At the end of the routine **`Sealed.conveys_sharing`** and **`Sealed.conveys_push`** give what
`Routine.Conveys` asks for.
-/

namespace PhpLowering

/-- A position is not behind the start of a delivery and in front of what follows the delivery. -/
def Delivery.Misses (d : Delivery) (p : Nat) : Prop :=
  p ≤ d.start ∨ d.stop + 1 < p

/-! ## The instructions of a stretch -/

/-- An instruction between two positions does not return, and branches to what is between them. -/
structure Instruction.Inside (r : Routine) (P : Instruction → Prop) (p q : Nat) (i : Instruction) : Prop where
  notRet : i ≠ .ret
  goesOn : i.isPlain = true ∨ i.isLocal = true
  plain : i.isPlain = true → P i
  labels : ∀ l ∈ i.labels, ∃ p', r.labelPosition? l = some p' ∧ p ≤ p' ∧ p' ≤ q

namespace Instruction.Inside

variable {r : Routine} {P : Instruction → Prop} {p p' q q' : Nat} {i : Instruction} {l : Label}

theorem widen (h : i.Inside r P p' q') (hp : p ≤ p') (hq : q' ≤ q) : i.Inside r P p q where
  notRet := h.notRet
  goesOn := h.goesOn
  plain := h.plain
  labels l hl := by
    obtain ⟨k, hk, hle, hle'⟩ := h.labels l hl
    exact ⟨k, hk, Nat.le_trans hp hle, Nat.le_trans hle' hq⟩

theorem of_plain (hplain : i.isPlain = true) (hP : P i) : i.Inside r P p q where
  notRet := by rintro rfl; exact absurd hplain Bool.false_ne_true
  goesOn := .inl hplain
  plain _ := hP
  labels l hl := by
    rw [List.isEmpty_iff.mp (Bool.and_eq_true_iff.mp hplain).1] at hl
    exact nomatch hl

theorem of_branch (hi : i = .branch l ∨ i = .branchIfTrue l ∨ i = .branchIfFalse l)
    (hl : r.labelPosition? l = some p') (hp : p ≤ p') (hq : p' ≤ q) : i.Inside r P p q := by
  obtain ⟨hlabels, hplain, hret, hlocal⟩ : i.labels = [l] ∧ i.isPlain = false ∧ i ≠ .ret ∧ i.isLocal = true := by
    rcases hi with rfl | rfl | rfl <;> exact ⟨rfl, rfl, nofun, rfl⟩
  refine ⟨hret, .inr hlocal, fun hplain' => ?_, fun l' hl' => ?_⟩
  · exact nomatch hplain.symm.trans hplain'
  · rw [hlabels, List.mem_singleton] at hl'
    exact ⟨p', hl' ▸ hl, hp, hq⟩

end Instruction.Inside

theorem Stretch.inside {r : Routine} {P : Instruction → Prop} {p q n m pc : Nat} {i : Instruction}
    (h : Stretch r P p q n m) (hp : p ≤ pc) (hq : pc < q) (hi : r.code[pc]? = some i) : i.Inside r P p q := by
  have hsame {k : Nat} {j : Instruction} (hk : pc = k) (hj : r.code[k]? = some j) : i = j :=
    Option.some.inj (hi.symm.trans (hk ▸ hj))
  induction h with
  | nil => omega
  | @plain p n j hj hplain hpops hP =>
    obtain rfl := hsame (by omega) hj
    exact .of_plain hplain hP
  | @seq p k q n m l first second ih ih' =>
    rcases Nat.lt_or_ge pc k with hlt | hge
    · exact (ih hp hlt).widen (Nat.le_refl p) second.le
    · exact (ih' hge hq).widen first.le (Nat.le_refl q)
  | @skip p q n l hj body hl ih =>
    have hle := body.le
    rcases Nat.eq_or_lt_of_le hp with heq | hlt
    · obtain rfl := hsame heq.symm hj
      exact .of_branch (.inr (.inl rfl)) hl (by omega) (Nat.le_refl q)
    · exact (ih hlt hq).widen (Nat.le_succ p) (Nat.le_refl q)
  | @fork p k q n m l l' hj first hk hl second hl' ih ih' =>
    have hle := first.le
    have hle' := second.le
    rcases Nat.eq_or_lt_of_le hp with heq | hlt
    · obtain rfl := hsame heq.symm hj
      exact .of_branch (.inr (.inr rfl)) hl (by omega) hle'
    · rcases Nat.lt_trichotomy pc k with hlt' | heq | hgt
      · exact (ih hlt hlt').widen (Nat.le_succ p) (by omega)
      · obtain rfl := hsame heq hk
        exact .of_branch (.inl rfl) hl' (by omega) (Nat.le_refl q)
      · exact (ih' hgt hq).widen (by omega) (Nat.le_refl q)

namespace Routine

variable {r r' r₀ u : Routine} {b : Bool} {slot : Option Temp} {exit : Option Label} {ds : List Delivery}
  {d : Delivery} {pc p q n m : Nat} {i : Instruction} {k : Temp} {l e : Label}

/-- A handler starts at a position, or the block of a region that is not complete. -/
def Starts (r : Routine) (p : Nat) : Prop :=
  r.HandlesAt p ∨ ∃ o ∈ r.openRegions, o.blockStart = p ∨ ∃ x ∈ o.handlers, x.start = p

/-- The instruction at a position may go to a label: it does not get into a delivery from outside, and it goes
to the end of the routine from a delivery only. -/
structure Admits (r : Routine) (exit : Option Label) (ds : List Delivery) (pc : Nat) (l : Label) : Prop where
  defined : (r.mark? l).isSome
  exit : exit = some l → r.mark? l = some none → ∃ d ∈ ds, d.stop + 1 = pc
  position : ∀ {p}, r.labelPosition? l = some p → ∀ d ∈ ds, d.Misses p ∨ d.start ≤ pc ∧ pc < d.stop ∧ p ≤ d.stop

/-- Every instruction may go to a label. -/
structure Safe (r : Routine) (exit : Option Label) (ds : List Delivery) (l : Label) : Prop where
  defined : (r.mark? l).isSome
  notExit : exit ≠ some l
  position : ∀ {p}, r.labelPosition? l = some p → ∀ d ∈ ds, d.Misses p

/-- The instruction at a position leaves the deliveries alone. -/
structure Spares (r : Routine) (slot : Option Temp) (exit : Option Label) (ds : List Delivery) (pc : Nat)
    (i : Instruction) : Prop where
  notRet : i ≠ .ret
  labels : ∀ l ∈ i.labels, r.Admits exit ds pc l
  stores : ∀ {k}, i = .storeTemp k → slot = some k → ∀ d ∈ ds, d.stop < pc → ∃ d' ∈ ds, d'.stop = pc

/-- A delivery is complete. -/
structure Delivered (r : Routine) (b : Bool) (slot : Option Temp) (exit : Option Label) (d : Delivery) : Prop where
  yields : ∀ {r'}, r.Grows r' → r'.Yields b d
  le : d.stop + 2 ≤ r.position
  store : ∃ k, slot = some k ∧ r.code[d.stop]? = some (.storeTemp k)
  away : ∃ l, exit = some l ∧ (r.code[d.stop + 1]? = some (.branch l) ∨ r.code[d.stop + 1]? = some (.leave l))

/-- Deliveries are complete, and the rest of the code leaves them alone. -/
structure Sealed (b : Bool) (slot : Option Temp) (exit : Option Label) (ds : List Delivery) (r : Routine) : Prop where
  ordered : ds.Pairwise fun d d' => d.stop + 2 ≤ d'.start
  code : ∀ {pc i}, r.code[pc]? = some i → r.Spares slot exit ds pc i
  starts : ∀ {p}, r.Starts p → p ≤ r.position ∧ ∀ d ∈ ds, d.Misses p
  delivered : ∀ d ∈ ds, r.Delivered b slot exit d

theorem Safe.admits (h : r.Safe exit ds l) (pc : Nat) : r.Admits exit ds pc l where
  defined := h.defined
  exit hexit := absurd hexit h.notExit
  position hp d hd := Or.inl (h.position hp d hd)

/-! ## Growing -/

/-- A label that is there gets no position but behind what is there. -/
theorem Grows.position_of_isSome (hg : r.Grows r') (hl : (r.mark? l).isSome) (hp : r'.labelPosition? l = some p) :
    r.labelPosition? l = some p ∨ r.position ≤ p := by
  obtain ⟨o, ho⟩ := Option.isSome_iff_exists.mp hl
  rw [labelPosition?_eq, Option.join_eq_some_iff] at hp
  cases o with
  | some p' =>
    rw [hg.marked ho] at hp
    exact Or.inl (by rw [labelPosition?_eq, ho, Option.some.inj hp]; rfl)
  | none =>
    rcases hg.unmarked ho with hnone | ⟨p', hle, hp'⟩
    · exact nomatch hnone.symm.trans hp
    · rw [hp'] at hp
      exact Or.inr (Option.some.inj (Option.some.inj hp) ▸ hle)

theorem Delivered.misses (h : r.Delivered b slot exit d) (hp : r.position ≤ p) : d.Misses p :=
  Or.inr (by have := h.le; omega)

theorem Delivered.grows (h : r.Delivered b slot exit d) (hg : r.Grows r') : r'.Delivered b slot exit d where
  yields hg' := h.yields (hg.trans hg')
  le := Nat.le_trans h.le hg.position
  store := by
    obtain ⟨k, hk, hcode⟩ := h.store
    exact ⟨k, hk, hg.code hcode⟩
  away := by
    obtain ⟨l, hl, hcode⟩ := h.away
    exact ⟨l, hl, hcode.imp hg.code hg.code⟩

/-- A label that is there and not the one of the end stays safe. -/
theorem Safe.grows (h : r.Safe exit ds l) (hds : ∀ d ∈ ds, r.Delivered b slot exit d) (hg : r.Grows r') :
    r'.Safe exit ds l where
  defined := hg.isSome_mark? h.defined
  notExit := h.notExit
  position hp d hd := by
    rcases hg.position_of_isSome h.defined hp with hold | hnew
    · exact h.position hold d hd
    · exact (hds d hd).misses hnew

theorem Admits.grows (h : r.Admits exit ds pc l) (hds : ∀ d ∈ ds, r.Delivered b slot exit d) (hg : r.Grows r') :
    r'.Admits exit ds pc l where
  defined := hg.isSome_mark? h.defined
  exit hexit hnone := by
    refine h.exit hexit ?_
    obtain ⟨o, ho⟩ := Option.isSome_iff_exists.mp h.defined
    cases o with
    | none => exact ho
    | some p => exact nomatch (hg.marked ho).symm.trans hnone
  position hp d hd := by
    rcases hg.position_of_isSome h.defined hp with hold | hnew
    · exact h.position hold d hd
    · exact Or.inl ((hds d hd).misses hnew)

theorem Spares.grows (h : r.Spares slot exit ds pc i) (hds : ∀ d ∈ ds, r.Delivered b slot exit d)
    (hg : r.Grows r') : r'.Spares slot exit ds pc i where
  notRet := h.notRet
  labels l hl := (h.labels l hl).grows hds hg
  stores := h.stores

/-- The code that is there stays as it is. -/
theorem Grows.code_of_lt (hg : r.Grows r') (hlt : pc < r.position) (hi : r'.code[pc]? = some i) :
    r.code[pc]? = some i := by
  rw [← hi, hg.code (Array.getElem?_eq_getElem hlt)]
  exact Array.getElem?_eq_getElem hlt

/-- **New code that leaves the deliveries alone.** -/
theorem Sealed.grow (h : r.Sealed b slot exit ds) (hg : r.Grows r')
    (hcode : ∀ {pc i}, r.position ≤ pc → r'.code[pc]? = some i → r'.Spares slot exit ds pc i)
    (hstarts : ∀ {p}, r'.Starts p → r.Starts p ∨ r.position ≤ p ∧ p ≤ r'.position) : r'.Sealed b slot exit ds where
  ordered := h.ordered
  code {pc i} hi := by
    rcases Nat.lt_or_ge pc r.position with hlt | hge
    · exact (h.code (hg.code_of_lt hlt hi)).grows h.delivered hg
    · exact hcode hge hi
  starts hp := by
    rcases hstarts hp with hold | ⟨hge, hle⟩
    · exact ⟨Nat.le_trans (h.starts hold).1 hg.position, (h.starts hold).2⟩
    · exact ⟨hle, fun d hd => (h.delivered d hd).misses hge⟩
  delivered d hd := (h.delivered d hd).grows hg

/-! ## One more delivery -/

/-- As long as there is no delivery, the slot may be any. -/
theorem Sealed.withSlot {slot' : Option Temp} (h : r.Sealed b slot exit []) : r.Sealed b slot' exit [] where
  ordered := h.ordered
  code hi := { h.code hi with stores := fun _ _ => nofun }
  starts := h.starts
  delivered := nofun

/-- As long as there is no delivery, the label of the end may be any that no branch goes to. -/
theorem Sealed.withExit (h : r.Sealed b slot exit [])
    (hnew : ∀ {pc : Nat} {i : Instruction}, r.code[pc]? = some i → e ∉ i.labels) : r.Sealed b slot (some e) [] where
  ordered := h.ordered
  code hi := by
    refine { h.code hi with labels := fun l hl => ?_, stores := fun _ _ => nofun }
    exact { (h.code hi).labels l hl with exit := fun heq _ => absurd (Option.some.inj heq ▸ hl) (hnew hi) }
  starts := h.starts
  delivered := nofun

theorem Admits.add (h : r.Admits exit ds pc l)
    (hd : ∀ {p}, r.labelPosition? l = some p → d.Misses p ∨ d.start ≤ pc ∧ pc < d.stop ∧ p ≤ d.stop) :
    r.Admits exit (ds ++ [d]) pc l where
  defined := h.defined
  exit hexit hnone := by
    obtain ⟨d', hd', heq⟩ := h.exit hexit hnone
    exact ⟨d', List.mem_append_left _ hd', heq⟩
  position hp := List.forall_mem_append.mpr ⟨h.position hp, List.forall_mem_singleton.mpr (hd hp)⟩

/-- A label whose position is not in the new delivery stays safe. -/
theorem Safe.add (h : r.Safe exit ds l) (hd : ∀ {p}, r.labelPosition? l = some p → d.Misses p) :
    r.Safe exit (ds ++ [d]) l where
  defined := h.defined
  notExit := h.notExit
  position hp := List.forall_mem_append.mpr ⟨h.position hp, List.forall_mem_singleton.mpr (hd hp)⟩

/-- An instruction in front of the store of the new delivery. -/
theorem Spares.add (h : r.Spares slot exit ds pc i) (hpc : pc ≤ d.stop)
    (hd : ∀ l ∈ i.labels, ∀ {p}, r.labelPosition? l = some p →
      d.Misses p ∨ d.start ≤ pc ∧ pc < d.stop ∧ p ≤ d.stop) : r.Spares slot exit (ds ++ [d]) pc i where
  notRet := h.notRet
  labels l hl := (h.labels l hl).add (hd l hl)
  stores hi hslot := by
    refine List.forall_mem_append.mpr ⟨fun d' hd' hlt => ?_, List.forall_mem_singleton.mpr fun hlt => ?_⟩
    · obtain ⟨d'', hd'', heq⟩ := h.stores hi hslot d' hd' hlt
      exact ⟨d'', List.mem_append_left _ hd'', heq⟩
    · omega

/-- The instruction that stores the value of a delivery. -/
theorem Spares.store (hd : d ∈ ds) : r.Spares slot exit ds d.stop (.storeTemp k) where
  notRet := nofun
  labels := nofun
  stores _ _ _ _ _ := ⟨d, hd, rfl⟩

/-- The branch from a delivery to the end of the routine. -/
theorem Spares.away (hd : d ∈ ds) (he : r.mark? e = some none) (hi : i = .branch e ∨ i = .leave e) :
    r.Spares slot (some e) ds (d.stop + 1) i := by
  have hadmits : r.Admits (some e) ds (d.stop + 1) e := by
    refine { defined := Option.isSome_of_eq_some he, exit := fun _ _ => ⟨d, hd, rfl⟩, position := fun {p} hp => ?_ }
    rw [labelPosition?_eq, he] at hp
    exact nomatch hp
  rcases hi with rfl | rfl
  all_goals exact ⟨nofun, fun l hl => List.mem_singleton.mp hl ▸ hadmits, nofun⟩

/-- **One more delivery.**  Its code is a stretch that marks no label from before. -/
theorem Sealed.deliver {P : Instruction → Prop} (h : r.Sealed b (some k) (some e) ds)
    (hbefore : r₀.Sealed b slot exit ds) (hg : r₀.Grows r) (hcode : Stretch r P r₀.position r.position n m)
    (hstarts : ∀ {p}, r.Starts p → p ≤ r₀.position)
    (hmarks : ∀ {l p}, (r₀.mark? l).isSome → r.labelPosition? l = some p → p ≤ r₀.position)
    (he : r.mark? e = some none) (hi : i = .branch e ∨ i = .leave e)
    (hyields : ∀ {r'}, r.Grows r' → r'.Yields b ⟨r₀.position, r.position⟩) :
    ((r.push (.storeTemp k)).push i).Sealed b (some k) (some e) (ds ++ [⟨r₀.position, r.position⟩]) := by
  obtain ⟨d, hd⟩ : ∃ d : Delivery, d = ⟨r₀.position, r.position⟩ := ⟨_, rfl⟩
  have hstart : d.start = r₀.position := congrArg Delivery.start hd
  have hstop : d.stop = r.position := congrArg Delivery.stop hd
  have hmem : d ∈ ds ++ [d] := List.mem_append_right _ (List.mem_singleton_self d)
  have hpush : r.Grows ((r.push (.storeTemp k)).push i) := (r.grows_push _).trans (grows_push _ _)
  rw [← hd] at hyields ⊢
  refine { ordered := ?_, code := fun {pc j} hj => ?_, starts := fun {p} hp => ?_, delivered := ?_ }
  · refine List.pairwise_append.mpr ⟨h.ordered, List.pairwise_singleton _ _, fun d' hd' => ?_⟩
    exact List.forall_mem_singleton.mpr (hstart ▸ (hbefore.delivered d' hd').le)
  · rcases code_push_eq hj with hj | ⟨rfl, rfl⟩
    · rcases code_push_eq hj with hj | ⟨rfl, rfl⟩
      · -- Labels from before are not marked in the new code, and its own are not known outside.
        have hlt : pc < r.position := (Array.getElem?_eq_some_iff.mp hj).1
        refine ((h.code hj).grows h.delivered hpush).add (by omega) fun l hl p hp => ?_
        rcases Nat.lt_or_ge pc r₀.position with hin | hge
        · have hdefined := ((hbefore.code (hg.code_of_lt hin hj)).labels l hl).defined
          exact Or.inl (Or.inl (hstart ▸ hmarks hdefined hp))
        · obtain ⟨p', hp', hle, hle'⟩ := (hcode.inside hge hlt hj).labels l hl
          obtain rfl := Option.some.inj (hp.symm.trans hp')
          exact Or.inr (by omega)
      · exact hstop ▸ .store hmem
    · rw [position_push, ← hstop]
      exact .away hmem he hi
  · have hle : d.Misses p := Or.inl (hstart ▸ hstarts hp)
    exact ⟨Nat.le_trans (h.starts hp).1 hpush.position,
      List.forall_mem_append.mpr ⟨(h.starts hp).2, List.forall_mem_singleton.mpr hle⟩⟩
  · refine List.forall_mem_append.mpr ⟨fun d' hd' => (h.delivered d' hd').grows hpush, List.forall_mem_singleton.mpr ?_⟩
    have hlast := code_push_self (r := r.push (.storeTemp k)) i
    rw [position_push, ← hstop] at hlast
    refine { yields := fun hg' => hyields (hpush.trans hg'), le := ?_, store := ⟨k, rfl, ?_⟩, away := ⟨e, rfl, ?_⟩ }
    · exact Nat.le_of_eq (by rw [position_push, position_push, hstop])
    · rw [hstop]
      exact (grows_push _ _).code (code_push_self _)
    · rcases hi with rfl | rfl
      · exact Or.inl hlast
      · exact Or.inr hlast

/-! ## The end of a routine -/

/-- The routine with an end in front of which the returns meet. -/
def sharing (k : Temp) (e : Label) (r : Routine) : Routine :=
  ((((r.push (.storeTemp k)).marking e).push (.loadTemp k)).returnTemp k).push .ret

theorem position_end : ((((r.push (.storeTemp k)).marking e).push (.loadTemp k)).returnTemp k).position =
    r.position + 2 := by
  rw [position, Lowering.code_returnTemp]
  simp [push, marking, position]

theorem code_sharing (hi : (r.sharing k e).code[pc]? = some i) : r.code[pc]? = some i ∨
    pc = r.position ∧ i = .storeTemp k ∨ pc = r.position + 1 ∧ i = .loadTemp k ∨ pc = r.position + 2 ∧ i = .ret := by
  rcases code_push_eq hi with hi | ⟨rfl, rfl⟩
  · rw [Lowering.code_returnTemp] at hi
    rcases code_push_eq hi with hi | ⟨rfl, rfl⟩
    · exact (code_push_eq hi).imp_right Or.inl
    · exact Or.inr (Or.inr (Or.inl ⟨position_push _, rfl⟩))
  · exact Or.inr (Or.inr (Or.inr ⟨position_end, rfl⟩))

theorem grows_sharing (he : r.mark? e = some none) : r.Grows (r.sharing k e) :=
  ((((r.grows_push _).trans (grows_marking he)).trans (grows_push _ _)).trans (grows_returnTemp k _)).trans
    (grows_push _ _)

theorem mark?_sharing (he : r.mark? e = some none) (l : Label) :
    (r.sharing k e).mark? l = if l = e then some (some (r.position + 1)) else r.mark? l := by
  have hmarking := mark?_marking (r := r.push (.storeTemp k)) he l
  rw [position_push] at hmarking
  refine Eq.trans ?_ hmarking
  unfold sharing returnTemp
  split <;> rfl

theorem labelPosition?_end (he : r.mark? e = some none) : (r.sharing k e).labelPosition? e = some (r.position + 1) := by
  rw [labelPosition?_eq, mark?_sharing he, if_pos rfl]
  rfl

theorem labelPosition?_sharing (he : r.mark? e = some none) (hp : (r.sharing k e).labelPosition? l = some p) :
    l = e ∧ p = r.position + 1 ∨ r.labelPosition? l = some p := by
  rw [labelPosition?_eq, mark?_sharing he] at hp
  split at hp
  · exact Or.inl ⟨‹_›, (Option.some.inj hp).symm⟩
  · exact Or.inr hp

theorem handlesAt_sharing (hp : (r.sharing k e).HandlesAt p) : r.Starts p := by
  refine Or.inl ?_
  have hregions : (r.sharing k e).regions = r.regions := by
    unfold sharing returnTemp
    split <;> rfl
  unfold HandlesAt at hp ⊢
  rwa [hregions] at hp

theorem storeTemp_sharing (he : r.mark? e = some none) :
    (r.sharing k e).code[r.position]? = some (.storeTemp k) := by
  have hmarked : (r.push (.storeTemp k)).Grows ((r.push (.storeTemp k)).marking e) := grows_marking he
  have hg : (r.push (.storeTemp k)).Grows (r.sharing k e) :=
    ((hmarked.trans (grows_push _ _)).trans (grows_returnTemp k _)).trans (grows_push _ _)
  exact hg.code (code_push_self _)

theorem loadTemp_sharing : (r.sharing k e).code[r.position + 1]? = some (.loadTemp k) := by
  refine ((grows_returnTemp k _).trans (grows_push _ _)).code ?_
  have hself := code_push_self (r := (r.push (.storeTemp k)).marking e) (.loadTemp k)
  rwa [show ((r.push (.storeTemp k)).marking e).position = r.position + 1 from position_push _] at hself

theorem ret_sharing : (r.sharing k e).code[r.position + 2]? = some .ret := by
  have hself := code_push_self (r := (((r.push (.storeTemp k)).marking e).push (.loadTemp k)).returnTemp k) .ret
  rwa [position_end] at hself

section End

variable (hle : p ≤ r.position) (hbounded : ∀ {l q}, r.labelPosition? l = some q → q ≤ p)
  (hstarts : ∀ {q}, r.Starts q → q ≤ p) (hyields : ∀ {r'}, r.Grows r' → r'.Yields b ⟨p, r.position⟩)

include hbounded hstarts hyields in
/-- **The end of a routine without a `return`.** -/
theorem Sealed.conveys_push (h : r.Sealed b slot exit []) : (r.push .ret).Conveys b [] := by
  have hlast : (r.push .ret).Produces b ⟨p, r.position⟩ :=
    { hyields (grows_push _ _) with
      jumps := fun hjump hlt _ => by
        obtain ⟨_, _, -, -, hq⟩ := hjump
        exact absurd hlt (Nat.not_lt_of_le (hbounded hq))
      handlers := fun hq => Or.inl (hstarts (Or.inl hq)) }
  refine .direct hlast fun pc => ⟨fun hi => ?_, fun heq => heq ▸ code_push_self _⟩
  rcases code_push_eq hi with hi | ⟨heq, -⟩
  · exact absurd rfl (h.code hi).notRet
  · exact heq

section Sharing

variable (h : r.Sealed b (some k) (some e) ds) (he : r.mark? e = some none)

include hbounded h he

/-- A jump goes from a delivery to the common end, or to what was marked before. -/
theorem Sealed.jumpsTo_sharing (hjump : (r.sharing k e).JumpsTo pc q) :
    q = r.position + 1 ∧ (∃ d ∈ ds, d.stop + 1 = pc) ∨
      q ≤ p ∧ ∀ d ∈ ds, d.Misses q ∨ d.start ≤ pc ∧ pc < d.stop ∧ q ≤ d.stop := by
  obtain ⟨i, l, hi, hl, hq⟩ := hjump
  rcases code_sharing hi with hi | ⟨-, rfl⟩ | ⟨-, rfl⟩ | ⟨-, rfl⟩
  · have hadmits := (h.code hi).labels l hl
    rcases labelPosition?_sharing he hq with ⟨rfl, rfl⟩ | hq
    · exact Or.inl ⟨rfl, hadmits.exit rfl he⟩
    · exact Or.inr ⟨hbounded hq, hadmits.position hq⟩
  all_goals exact nomatch hl

/-- A jump into a delivery comes from the delivery. -/
theorem Sealed.inside_sharing (hd : d ∈ ds) (hjump : (r.sharing k e).JumpsTo pc q) (hlt : d.start < q)
    (hle : q ≤ d.stop + 1) : d.start ≤ pc ∧ pc < d.stop ∧ q ≤ d.stop := by
  have hstop := (h.delivered d hd).le
  rcases h.jumpsTo_sharing hbounded he hjump with ⟨rfl, -⟩ | ⟨-, hq⟩
  · omega
  · rcases hq d hd with (hle' | hgt) | hin
    · omega
    · omega
    · exact hin

theorem Sealed.delivers_sharing (hd : d ∈ ds) : (r.sharing k e).Delivers b k e d := by
  have hdelivered := (h.delivered d hd).grows (grows_sharing (k := k) he)
  have hyields := hdelivered.yields (.refl _)
  have hstart := hyields.le
  obtain ⟨k', hk', hstore⟩ := hdelivered.store
  obtain rfl := Option.some.inj hk'
  obtain ⟨l, hl, haway⟩ := hdelivered.away
  obtain rfl := Option.some.inj hl
  have hmisses {q : Nat} (hq : (r.sharing k e).HandlesAt q) : d.Misses q := (h.starts (handlesAt_sharing hq)).2 d hd
  refine
    { hyields with
      jumps := fun hjump hlt hle => ?_
      handlers := fun hq => (hmisses hq).imp_right Nat.lt_of_succ_lt
      store := hstore
      away := haway
      notJumped := fun pc hjump => ?_
      notHandled := fun hq => ?_ }
  · have hin := h.inside_sharing hbounded he hd hjump hlt (Nat.le_succ_of_le hle)
    exact ⟨hin.1, hin.2.1⟩
  · have hin := h.inside_sharing hbounded he hd hjump (Nat.lt_succ_of_le hstart) (Nat.le_refl _)
    omega
  · rcases hmisses hq with hle | hgt <;> omega

include hle hstarts hyields

theorem Sealed.sharesEnd : (r.sharing k e).SharesEnd b k e ds ⟨p, r.position⟩ := by
  have hjumps {pc q : Nat} (hjump : (r.sharing k e).JumpsTo pc q) (hlt : p < q) :
      q = r.position + 1 ∧ ∃ d ∈ ds, d.stop + 1 = pc := by
    rcases h.jumpsTo_sharing hbounded he hjump with hend | ⟨hq, -⟩
    · exact hend
    · omega
  have hhandled {q : Nat} (hq : (r.sharing k e).HandlesAt q) : q ≤ p := hstarts (handlesAt_sharing hq)
  refine
    { hyields (grows_sharing he) with
      jumps := fun {pc q} hjump hlt hstop => ?_
      handlers := fun hq => Or.inl (hhandled hq)
      store := storeTemp_sharing he
      exit := labelPosition?_end he
      load := loadTemp_sharing
      ordered := h.ordered
      delivers := fun d hd => h.delivers_sharing hbounded he hd
      entries := fun hjump => (hjumps hjump (Nat.lt_succ_of_le hle)).2
      notJumped := fun pc hjump => ?_
      notHandled := ⟨fun hq => ?_, fun hq => ?_⟩
      stores := fun d hd {pc} hlt hi => ?_ }
  · obtain ⟨rfl, -⟩ := hjumps hjump hlt
    exact absurd hstop (Nat.not_succ_le_self r.position)
  · exact absurd (hjumps hjump (Nat.lt_succ_of_le (Nat.le_succ_of_le hle))).1 (Nat.succ_ne_self _)
  · exact absurd (hhandled hq) (Nat.not_le_of_lt (Nat.lt_succ_of_le hle))
  · exact absurd (hhandled hq) (Nat.not_le_of_lt (Nat.lt_succ_of_le (Nat.le_succ_of_le hle)))
  · rcases code_sharing hi with hi | ⟨heq, -⟩ | ⟨-, hi⟩ | ⟨-, hi⟩
    · exact Or.inr ((h.code hi).stores rfl rfl d hd hlt)
    · exact Or.inl heq
    · exact nomatch hi
    · exact nomatch hi

/-- **The end of a routine with a `return`.** -/
theorem Sealed.conveys_sharing : (r.sharing k e).Conveys b ds := by
  refine .shared (h.sharesEnd hle hbounded hstarts hyields he) fun pc => ⟨fun hi => ?_, fun heq => heq ▸ ret_sharing⟩
  rcases code_sharing hi with hi | ⟨-, hi⟩ | ⟨-, hi⟩ | ⟨heq, -⟩
  · exact absurd rfl (h.code hi).notRet
  · exact nomatch hi
  · exact nomatch hi
  · exact heq

end Sharing

end End

end Routine
end PhpLowering
