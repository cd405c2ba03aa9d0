import PhpLowering.Proofs.Code.Stretch

/-!
# Branches and the blocks of regions

A plain branch does not run the cleanup of the regions it goes out of, so it must not go out of any.
`Region.Respects` says that of a branch from one position to another: it does not leave the block of
the region that it stands in, and it gets into the region at its start only.

`Confined r A p q Rs` is what is known of a piece of code with the regions `Rs` in it.  Every branch in
it stays between the two ends, both of them included, and respects the regions, unless it goes to one
of the labels `A`; those are marked somewhere else, and no region of the piece is around such a branch.
Pieces are put together one behind the other (`seq`).  When a label gets its mark at one of the ends,
it is not somewhere else any more (`settle`).

The blocks of a region are pieces that no branch may leave.  `Fenced` is such a row of blocks, and when
the region is complete the row is a piece of code again (`Fenced.region`).
-/

namespace PhpLowering

/-- The labels that an instruction branches to while the regions around stay the same. -/
def Instruction.branchTargets : Instruction → List Label
  | .branch l | .branchIfTrue l | .branchIfFalse l => [l]
  | .switch ls => ls
  | _ => []

theorem Instruction.branchTargets_of_isPlain {i : Instruction} (h : i.isPlain = true) :
    i.branchTargets = [] := by
  cases i with
  | branch | branchIfTrue | branchIfFalse => exact nomatch h
  | «switch» ls =>
    simp only [isPlain, labels, List.isEmpty_iff, Bool.and_eq_true] at h
    exact h.1
  | _ => rfl

namespace Region

variable {R : Region} {p p' q q' pc k : Nat}

/-- The guarded block and the handlers, each given by its first position and the one behind it. -/
def blocks (R : Region) : List (Nat × Nat) :=
  (R.tryStart, R.tryStop) :: R.handlers.map fun h => (h.start, h.stop)

/-- A branch from one position to another stays in its block, and gets into the region at its start
only. -/
structure Respects (R : Region) (pc target : Nat) : Prop where
  stays : ∀ b ∈ R.blocks, b.1 ≤ pc → pc < b.2 → b.1 ≤ target ∧ target < b.2
  enters : R.covers pc = false → R.covers target = true → target = R.tryStart

/-- A region has another one in one of its blocks. -/
def Holds (R R' : Region) : Prop :=
  ∃ b ∈ R.blocks, b.1 ≤ R'.tryStart ∧ R'.stop ≤ b.2

/-- A region and its blocks lie between two positions. -/
structure Within (R : Region) (p q : Nat) : Prop where
  start : p ≤ R.tryStart
  stop : R.stop ≤ q
  blocks : ∀ b ∈ R.blocks, R.tryStart ≤ b.1 ∧ b.2 ≤ R.stop

theorem covers_eq_true : R.covers pc = true ↔ R.tryStart ≤ pc ∧ pc < R.stop := by
  simp [covers]

theorem covers_eq_false : R.covers pc = false ↔ pc < R.tryStart ∨ R.stop ≤ pc := by
  rw [← Bool.not_eq_true, covers_eq_true]
  omega

theorem Within.mono (h : R.Within p q) (hp : p' ≤ p) (hq : q ≤ q') : R.Within p' q' :=
  ⟨Nat.le_trans hp h.start, Nat.le_trans h.stop hq, h.blocks⟩

/-- A branch that is not in a region respects it if it goes no further than the ends of a piece with
the region in it. -/
theorem Within.respects (h : R.Within p q) (hpc : R.covers pc = false) (hk : k ≤ p ∨ q ≤ k) :
    R.Respects pc k where
  stays b hb hle hlt := by
    have hinside := h.blocks b hb
    have houtside := covers_eq_false.mp hpc
    omega
  enters _ hcovers := by
    have hinside := covers_eq_true.mp hcovers
    have hstart := h.start
    have hstop := h.stop
    omega

theorem Within.covers_of_lt (h : R.Within p q) (hpc : pc < p) : R.covers pc = false := by
  have hstart := h.start
  exact covers_eq_false.mpr (by omega)

theorem Within.covers_of_le (h : R.Within p q) (hpc : q ≤ pc) : R.covers pc = false := by
  have hstop := h.stop
  exact covers_eq_false.mpr (by omega)

end Region

/-- What can be said of a branch at a position to a label, in a piece of code. -/
inductive Goes (r : Routine) (A : Label → Prop) (p q : Nat) (Rs : List Region) (pc : Nat) (l : Label) :
    Prop where
  | out (hl : A l) (hRs : ∀ R ∈ Rs, R.covers pc = false) : Goes r A p q Rs pc l
  | inside {k : Nat} (hl : r.labelPosition? l = some k) (hp : p ≤ k) (hq : k ≤ q)
      (hRs : ∀ R ∈ Rs, R.Respects pc k) : Goes r A p q Rs pc l

/-- A piece of code with certain regions, whose branches stay inside or go to certain labels. -/
structure Confined (r : Routine) (A : Label → Prop) (p q : Nat) (Rs : List Region) : Prop where
  le : p ≤ q
  bound : q ≤ r.position
  within : ∀ R ∈ Rs, R.Within p q
  branches : ∀ {pc : Nat} {i : Instruction} {l : Label}, p ≤ pc → pc < q → r.code[pc]? = some i →
    l ∈ i.branchTargets → Goes r A p q Rs pc l

/-- Code that is there does not change. -/
theorem Routine.Grows.code_eq {r r' : Routine} (h : r.Grows r') {pc : Nat} (hpc : pc < r.position) :
    r'.code[pc]? = r.code[pc]? := by
  have hi : r.code[pc]? = some r.code[pc] := Array.getElem?_eq_getElem hpc
  rw [hi]
  exact h.code hi

namespace Confined

variable {r r' : Routine} {A B : Label → Prop} {p q s : Nat} {Rs Rs' : List Region}

theorem nil (hp : p ≤ r.position) : Confined r A p p [] where
  le := Nat.le_refl p
  bound := hp
  within := nofun
  branches hpc hpc' := by omega

theorem instruction {i : Instruction} (hi : r.code[p]? = some i) (hA : ∀ l ∈ i.branchTargets, A l) :
    Confined r A p (p + 1) [] where
  le := Nat.le_succ p
  bound := (Array.getElem?_eq_some_iff.mp hi).1
  within := nofun
  branches {pc i' l} hpc hpc' hi' hl := by
    obtain rfl : pc = p := by omega
    rw [hi] at hi'
    obtain rfl := Option.some.inj hi'
    exact .out (hA l hl) nofun

theorem grows (h : Confined r A p q Rs) (hr : r.Grows r') : Confined r' A p q Rs where
  le := h.le
  bound := Nat.le_trans h.bound hr.position
  within := h.within
  branches {pc i l} hpc hpc' hi hl := by
    rw [hr.code_eq (Nat.lt_of_lt_of_le hpc' h.bound)] at hi
    cases h.branches hpc hpc' hi hl with
    | out hl hRs => exact .out hl hRs
    | inside hl hp hq hRs => exact .inside (hr.labelPosition? hl) hp hq hRs

/-- Two pieces of code, one behind the other. -/
theorem seq (h : Confined r A p q Rs) (h' : Confined r A q s Rs') : Confined r A p s (Rs ++ Rs') where
  le := Nat.le_trans h.le h'.le
  bound := h'.bound
  within := List.forall_mem_append.mpr
    ⟨fun R hR => (h.within R hR).mono (Nat.le_refl p) h'.le,
      fun R hR => (h'.within R hR).mono h.le (Nat.le_refl s)⟩
  branches {pc i l} hpc hpc' hi hl := by
    have hle := h.le
    have hle' := h'.le
    by_cases hlt : pc < q
    · have hRs' : ∀ R ∈ Rs', R.covers pc = false := fun R hR => (h'.within R hR).covers_of_lt hlt
      cases h.branches hpc hlt hi hl with
      | out hl hRs => exact .out hl (List.forall_mem_append.mpr ⟨hRs, hRs'⟩)
      | inside hl hp hq hRs =>
        refine .inside hl hp (by omega) (List.forall_mem_append.mpr ⟨hRs, fun R hR => ?_⟩)
        exact (h'.within R hR).respects (hRs' R hR) (Or.inl hq)
    · have hRs : ∀ R ∈ Rs, R.covers pc = false := fun R hR =>
        (h.within R hR).covers_of_le (Nat.le_of_not_lt hlt)
      cases h'.branches (Nat.le_of_not_lt hlt) hpc' hi hl with
      | out hl hRs' => exact .out hl (List.forall_mem_append.mpr ⟨hRs, hRs'⟩)
      | inside hl hp hq hRs' =>
        refine .inside hl (by omega) hq (List.forall_mem_append.mpr ⟨fun R hR => ?_, hRs'⟩)
        exact (h.within R hR).respects (hRs R hR) (Or.inr hp)

/-- Labels that are marked at one of the ends are not outside. -/
theorem settle (h : Confined r B p q Rs)
    (hB : ∀ l, B l → A l ∨ r.labelPosition? l = some p ∨ r.labelPosition? l = some q) :
    Confined r A p q Rs where
  le := h.le
  bound := h.bound
  within := h.within
  branches {pc i l} hpc hpc' hi hl := by
    have hle := h.le
    cases h.branches hpc hpc' hi hl with
    | inside hl hp hq hRs => exact .inside hl hp hq hRs
    | out hl hRs =>
      rcases hB l hl with hl | hl | hl
      · exact .out hl hRs
      · refine .inside hl (Nat.le_refl p) hle fun R hR => ?_
        exact (h.within R hR).respects (hRs R hR) (Or.inl (Nat.le_refl p))
      · refine .inside hl hle (Nat.le_refl q) fun R hR => ?_
        exact (h.within R hR).respects (hRs R hR) (Or.inr (Nat.le_refl q))

theorem mono (h : Confined r B p q Rs) (hBA : ∀ l, B l → A l) : Confined r A p q Rs :=
  h.settle fun l hl => Or.inl (hBA l hl)

end Confined

/-- The branches of an expression stay in its code. -/
theorem Stretch.confined {r : Routine} {P : Instruction → Prop} {p q n m : Nat} (A : Label → Prop)
    (h : Stretch r P p q n m) (hq : q ≤ r.position) : Confined r A p q [] := by
  induction h generalizing A with
  | nil p n => exact .nil hq
  | plain hi hplain _ _ =>
    refine .instruction hi fun l hl => ?_
    rw [Instruction.branchTargets_of_isPlain hplain] at hl
    exact nomatch hl
  | seq first second ih ih' =>
    exact (ih A (Nat.le_trans second.le hq)).seq (ih' A hq)
  | @skip p q n l hi body hl ih =>
    have hbranch : Confined r (· = l) p (p + 1) [] := .instruction hi (by simp [Instruction.branchTargets])
    refine (hbranch.seq (ih (· = l) hq)).settle ?_
    rintro _ rfl
    exact Or.inr (Or.inr hl)
  | @fork p k q n m l l' hi first hk hl second hl' ih ih' =>
    have hle := second.le
    have htest : Confined r (fun x => x = l ∨ x = l') p (p + 1) [] :=
      .instruction hi (by simp [Instruction.branchTargets])
    have hskip : Confined r (fun x => x = l ∨ x = l') k (k + 1) [] :=
      .instruction hk (by simp [Instruction.branchTargets])
    have hfirst : Confined r (· = l') p (k + 1) [] := by
      refine ((htest.seq (ih _ (by omega))).seq hskip).settle ?_
      rintro _ (rfl | rfl)
      · exact Or.inr (Or.inr hl)
      · exact Or.inl rfl
    refine (hfirst.seq (ih' (· = l') hq)).settle ?_
    rintro _ rfl
    exact Or.inr (Or.inr hl')

/-! ## Blocks -/

/-- A row of blocks that no branch leaves. -/
structure Fenced (r : Routine) (blocks : List (Nat × Nat)) (p q : Nat) (Rs : List Region) : Prop where
  le : p ≤ q
  bound : q ≤ r.position
  within : ∀ R ∈ Rs, R.Within p q ∧ ∃ b ∈ blocks, b.1 ≤ R.tryStart ∧ R.stop ≤ b.2
  placed : ∀ b ∈ blocks, p ≤ b.1 ∧ b.2 ≤ q
  branches : ∀ {pc : Nat} {i : Instruction} {l : Label}, p ≤ pc → pc < q → r.code[pc]? = some i →
    l ∈ i.branchTargets → ∃ k, r.labelPosition? l = some k ∧ p ≤ k ∧ k < q ∧
      (∀ b ∈ blocks, b.1 ≤ pc → pc < b.2 → b.1 ≤ k ∧ k < b.2) ∧ ∀ R ∈ Rs, R.Respects pc k

namespace Fenced

variable {r r' : Routine} {blocks : List (Nat × Nat)} {p q s : Nat} {Rs Rs' : List Region}

theorem nil (hp : p ≤ r.position) : Fenced r [] p p [] where
  le := Nat.le_refl p
  bound := hp
  within := nofun
  placed := nofun
  branches hpc hpc' := by omega

theorem grows (h : Fenced r blocks p q Rs) (hr : r.Grows r') : Fenced r' blocks p q Rs where
  le := h.le
  bound := Nat.le_trans h.bound hr.position
  within := h.within
  placed := h.placed
  branches {pc i l} hpc hpc' hi hl := by
    rw [hr.code_eq (Nat.lt_of_lt_of_le hpc' h.bound)] at hi
    obtain ⟨k, hk, hrest⟩ := h.branches hpc hpc' hi hl
    exact ⟨k, hr.labelPosition? hk, hrest⟩

/-- One more block: code that no branch leaves, and the instruction that closes it. -/
theorem block {i : Instruction} (h : Fenced r blocks p q Rs) (h' : Confined r (fun _ => False) q s Rs')
    (hi : r.code[s]? = some i) (hlast : i.branchTargets = []) :
    Fenced r (blocks ++ [(q, s + 1)]) p (s + 1) (Rs ++ Rs') where
  le := Nat.le_succ_of_le (Nat.le_trans h.le h'.le)
  bound := (Array.getElem?_eq_some_iff.mp hi).1
  within := by
    have hle := h.le
    have hle' := h'.le
    refine List.forall_mem_append.mpr ⟨fun R hR => ?_, fun R hR => ?_⟩
    · obtain ⟨hwithin, b, hb, hinside⟩ := h.within R hR
      exact ⟨hwithin.mono (Nat.le_refl p) (by omega), b, List.mem_append_left _ hb, hinside⟩
    · have hwithin := h'.within R hR
      refine ⟨hwithin.mono hle (Nat.le_succ s), _, List.mem_append_right _ List.mem_cons_self, ?_⟩
      exact ⟨hwithin.start, Nat.le_succ_of_le hwithin.stop⟩
  placed := by
    have hle := h.le
    have hle' := h'.le
    refine List.forall_mem_append.mpr ⟨fun b hb => ?_, List.forall_mem_singleton.mpr ⟨hle, Nat.le_refl _⟩⟩
    have hinside := h.placed b hb
    omega
  branches {pc i' l} hpc hpc' hi' hl := by
    have hle := h.le
    have hle' := h'.le
    by_cases hlt : pc < q
    · obtain ⟨k, hk, hp, hq, hblocks, hRs⟩ := h.branches hpc hlt hi' hl
      refine ⟨k, hk, hp, by omega, List.forall_mem_append.mpr ⟨hblocks, ?_⟩,
        List.forall_mem_append.mpr ⟨hRs, fun R hR => ?_⟩⟩
      · rw [List.forall_mem_singleton]
        omega
      · have hwithin := h'.within R hR
        exact hwithin.respects (hwithin.covers_of_lt hlt) (Or.inl (Nat.le_of_lt hq))
    · -- The last instruction of the block does not branch.
      have hne : pc ≠ s := by
        rintro rfl
        rw [hi] at hi'
        obtain rfl := Option.some.inj hi'
        rw [hlast] at hl
        exact nomatch hl
      cases h'.branches (Nat.le_of_not_lt hlt) (by omega) hi' hl with
      | out hl hRs => exact hl.elim
      | @inside k hk hp hq hRs' =>
        refine ⟨k, hk, by omega, by omega, List.forall_mem_append.mpr ⟨fun b hb => ?_, ?_⟩,
          List.forall_mem_append.mpr ⟨fun R hR => ?_, hRs'⟩⟩
        · have hinside := h.placed b hb
          omega
        · rw [List.forall_mem_singleton]
          omega
        · have hwithin := (h.within R hR).1
          exact hwithin.respects (hwithin.covers_of_le (Nat.le_of_not_lt hlt)) (Or.inr hp)

/-- A row of blocks that is a region. -/
theorem region {R : Region} {A : Label → Prop} (h : Fenced r R.blocks R.tryStart R.stop Rs) :
    Confined r A R.tryStart R.stop (Rs ++ [R]) where
  le := h.le
  bound := h.bound
  within := List.forall_mem_append.mpr ⟨fun R' hR' => (h.within R' hR').1,
    List.forall_mem_singleton.mpr ⟨Nat.le_refl _, Nat.le_refl _, h.placed⟩⟩
  branches {pc i l} hpc hpc' hi hl := by
    obtain ⟨k, hk, hp, hq, hblocks, hRs⟩ := h.branches hpc hpc' hi hl
    refine .inside hk hp (Nat.le_of_lt hq) (List.forall_mem_append.mpr ⟨hRs, ?_⟩)
    rw [List.forall_mem_singleton]
    refine ⟨hblocks, fun houtside => ?_⟩
    rw [Region.covers_eq_false] at houtside
    omega

end Fenced
end PhpLowering
