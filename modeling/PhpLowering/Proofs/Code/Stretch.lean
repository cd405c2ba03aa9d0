import PhpLowering.Proofs.Code.Machine

/-!
# Stretches of code

The code of an expression has one entry and one exit, and whatever it does in between, it works above
the stack that it finds and leaves there as many values as its type code says.  `Stretch r P p q n m`
says that of the code of the routine `r` between the positions `p` and `q`: it takes `n` values and
leaves `m`, and its instructions, the branches apart, are among those of `P`.  Control goes through it
from the front to the back; what can be skipped in it is skipped as a whole (`skip`), and of two
alternatives one is taken (`fork`).

`Stretch.passed` is what this is for.  A run that is at the front of a stretch and comes to a position
behind it passes the end of the stretch.  Until then it uses keys above the stack that it found only,
and it changes no slots but those that `P` lets it store to.
-/

namespace PhpLowering

open Config (Arrives)

/-- Code that takes so many values off the stack and leaves so many, made of certain instructions. -/
inductive Stretch (r : Routine) (P : Instruction → Prop) : Nat → Nat → Nat → Nat → Prop where
  | nil (p n : Nat) : Stretch r P p p n n
  | plain {p n : Nat} {i : Instruction} (hi : r.code[p]? = some i) (hplain : i.isPlain = true)
      (hpops : i.pops ≤ n) (hP : P i) : Stretch r P p (p + 1) n (n - i.pops + i.yields)
  | seq {p q s n m l : Nat} (first : Stretch r P p q n m) (second : Stretch r P q s m l) :
      Stretch r P p s n l
  | skip {p q n : Nat} {l : Label} (hi : r.code[p]? = some (.branchIfTrue l))
      (body : Stretch r P (p + 1) q n n) (hl : r.labelPosition? l = some q) :
      Stretch r P p q (n + 1) n
  | fork {p k q n m : Nat} {l l' : Label} (hi : r.code[p]? = some (.branchIfFalse l))
      (first : Stretch r P (p + 1) k n m) (hk : r.code[k]? = some (.branch l'))
      (hl : r.labelPosition? l = some (k + 1)) (second : Stretch r P (k + 1) q n m)
      (hl' : r.labelPosition? l' = some q) : Stretch r P p q (n + 1) m

theorem Routine.Grows.labelPosition? {r r' : Routine} (hr : r.Grows r') {l : Label} {p : Nat}
    (h : r.labelPosition? l = some p) : r'.labelPosition? l = some p := by
  rw [labelPosition?_eq, Option.join_eq_some_iff] at h ⊢
  exact hr.marked h

namespace Stretch

variable {r r' : Routine} {P P' : Instruction → Prop} {p q n m : Nat}

/-- A stretch stays what it is when the routine grows. -/
theorem grows (h : Stretch r P p q n m) (hr : r.Grows r') : Stretch r' P p q n m := by
  induction h with
  | nil p n => exact .nil p n
  | plain hi hplain hpops hP => exact .plain (hr.code hi) hplain hpops hP
  | seq _ _ ih ih' => exact .seq ih ih'
  | skip hi _ hl ih => exact .skip (hr.code hi) ih (hr.labelPosition? hl)
  | fork hi _ hk hl _ hl' ih ih' =>
    exact .fork (hr.code hi) ih (hr.code hk) (hr.labelPosition? hl) ih' (hr.labelPosition? hl')

theorem mono (h : Stretch r P p q n m) (hPP' : ∀ i, P i → P' i) : Stretch r P' p q n m := by
  induction h with
  | nil p n => exact .nil p n
  | plain hi hplain hpops hP => exact .plain hi hplain hpops (hPP' _ hP)
  | seq _ _ ih ih' => exact .seq ih ih'
  | skip hi _ hl ih => exact .skip hi ih hl
  | fork hi _ hk hl _ hl' ih ih' => exact .fork hi ih hk hl ih' hl'

/-- What is on the stack besides does not matter. -/
theorem frame (h : Stretch r P p q n m) (k : Nat) : Stretch r P p q (k + n) (k + m) := by
  induction h with
  | nil p n => exact .nil p (k + n)
  | @plain p n i hi hplain hpops hP =>
    have hframed := Stretch.plain hi hplain (Nat.le_trans hpops (Nat.le_add_left n k)) hP
    rwa [show k + n - i.pops + i.yields = k + (n - i.pops + i.yields) by omega] at hframed
  | seq _ _ ih ih' => exact .seq ih ih'
  | skip hi _ hl ih => exact .skip hi ih hl
  | fork hi _ hk hl _ hl' ih ih' => exact .fork hi ih hk hl ih' hl'

theorem le (h : Stretch r P p q n m) : p ≤ q := by
  induction h with
  | nil => exact Nat.le_refl _
  | plain => exact Nat.le_succ _
  | seq _ _ ih ih' => exact Nat.le_trans ih ih'
  | skip _ _ _ ih => exact Nat.le_of_succ_le ih
  | fork _ _ _ _ _ _ ih ih' => omega

/-! ## Runs through a stretch -/

variable {h : Host} {c d mid : Config h} {trace : List (KeyUse h)} {top base : List h.Value}
  {goal s l k : Nat} {i : Instruction} {label : Label}

/-- A run from `c` to `d` passes a position at the configuration `mid`, with so many values above the
stack that it started on. -/
structure Passed (r : Routine) (P : Instruction → Prop) (q m goal : Nat) (base : List h.Value)
    (c : Config h) (trace : List (KeyUse h)) (d mid : Config h) : Prop where
  pc : mid.pc = q
  leads : c.Leads r mid
  stack : ∃ top, mid.stack = top ++ base ∧ top.length = m
  slots : ∀ t, ¬ P (.storeTemp t) → mid.slots t = c.slots t
  split : ∃ first rest, trace = first ++ rest ∧
    (∀ use ∈ first, base.length ≤ use.below ∧ P (.call use.op) ∧ use.op.keyPosition? ≠ none) ∧
    Arrives r goal mid rest d

theorem Passed.andThen (hmid : Passed r P q m goal base c trace d mid)
    (hnext : ∀ top rest, mid.stack = top ++ base → top.length = m → Arrives r goal mid rest d →
      ∃ last, Passed r P s l goal base mid rest d last) :
    ∃ last, Passed r P s l goal base c trace d last := by
  obtain ⟨top, hstack, hn⟩ := hmid.stack
  obtain ⟨first, rest, rfl, hfirst, hrest⟩ := hmid.split
  obtain ⟨last, hlast⟩ := hnext top rest hstack hn hrest
  obtain ⟨first', rest', rfl, hfirst', hrest'⟩ := hlast.split
  exact ⟨last, hlast.pc, hmid.leads.trans hlast.leads, hlast.stack, fun t ht => (hlast.slots t ht).trans (hmid.slots t ht),
    first ++ first', rest', (List.append_assoc ..).symm,
    List.forall_mem_append.mpr ⟨hfirst, hfirst'⟩, hrest'⟩

/-- Code that does nothing with keys is passed without using any. -/
theorem Passed.silent (hmid : Passed r Instruction.KeyFree q m goal base c trace d mid) :
    Arrives r goal mid trace d := by
  obtain ⟨first, rest, rfl, hfirst, hrest⟩ := hmid.split
  cases first with
  | nil => exact hrest
  | cons use later =>
    obtain ⟨-, hfree, hkey⟩ := hfirst use List.mem_cons_self
    exact absurd (hfree use.op rfl) hkey

/-- A single step goes on above the stack that it finds. -/
theorem passed_of_step (hi : r.code[c.pc]? = some i) (hstack : c.stack = top ++ base)
    (hpops : i.pops ≤ top.length) (hP : i.isPlain = true → P i) (hgoal : c.pc ≠ goal)
    (hrun : Arrives r goal c trace d) :
    ∃ mid, h.next r c.pc i (top.take i.pops) = some mid.pc ∧
      Passed r P mid.pc (top.length - i.pops + i.yields) goal base c trace d mid := by
  obtain ⟨use, mid, rest, hstep, rfl, hrest⟩ := hrun.next hgoal
  have hargs : (top.take i.pops).length = i.pops := List.length_take_of_le hpops
  have hsplit : c.stack = top.take i.pops ++ (top.drop i.pops ++ base) := by
    rw [hstack, ← List.append_assoc, List.take_append_drop]
  obtain ⟨out, hnext, hout, hmid, hslots, huse⟩ := Config.of_step hi hsplit hargs hstep
  refine ⟨mid, hnext, rfl, .single ⟨use, hstep⟩, ⟨out ++ top.drop i.pops, ?_, ?_⟩, fun t ht => ?_,
    use.toList, rest, rfl, fun u hu => ?_, hrest⟩
  · rw [hmid, List.append_assoc]
  · rw [List.length_append, List.length_drop, h.length_of_evaluate hargs hout, Nat.add_comm]
  · rw [hslots]
    refine h.store_apply t ?_
    rintro rfl
    exact ht (hP rfl)
  · rw [Option.mem_toList] at hu
    obtain ⟨rfl, hkey, hbelow⟩ := h.of_keyUse? (huse ▸ hu)
    rw [hbelow, List.length_append]
    exact ⟨Nat.le_add_left _ _, hP rfl, hkey⟩

/-- A conditional branch takes one value and goes one way or the other. -/
theorem passed_of_branch (hi : r.code[c.pc]? = some i)
    (hb : i = .branchIfTrue label ∨ i = .branchIfFalse label) (hl : r.labelPosition? label = some k)
    (hstack : c.stack = top ++ base) (hn : top.length = n + 1) (hgoal : c.pc ≠ goal)
    (hrun : Arrives r goal c trace d) :
    ∃ mid, (mid.pc = c.pc + 1 ∨ mid.pc = k) ∧ Passed r P mid.pc n goal base c trace d mid := by
  obtain ⟨v, top, rfl⟩ := List.exists_cons_of_length_eq_add_one hn
  have hpops : i.pops = 1 := by rcases hb with rfl | rfl <;> rfl
  have hyields : i.yields = 0 := by rcases hb with rfl | rfl <;> rfl
  have hP : i.isPlain = true → P i := by rcases hb with rfl | rfl <;> nofun
  obtain ⟨mid, hnext, hmid⟩ := passed_of_step hi hstack (by omega) hP hgoal hrun
  rw [hn, hpops, hyields] at hmid
  refine ⟨mid, ?_, hmid⟩
  rw [hpops] at hnext
  rcases hb with rfl | rfl
  all_goals
    simp only [Host.next, List.take_succ_cons, List.take_zero, hl] at hnext
    split at hnext
    all_goals simp [← Option.some.inj hnext]

/-- **A run that comes to a position behind a stretch passes the end of the stretch.** -/
theorem passed (hs : Stretch r P p q n m) (hpc : c.pc = p) (hstack : c.stack = top ++ base)
    (hn : top.length = n) (hq : q ≤ goal) (hrun : Arrives r goal c trace d) :
    ∃ mid, Passed r P q m goal base c trace d mid := by
  induction hs generalizing c top trace with
  | nil p n =>
    exact ⟨c, hpc, .refl, ⟨top, hstack, hn⟩, fun _ _ => rfl, [], trace, rfl, nofun, hrun⟩
  | plain hi hplain hpops hP =>
    subst hpc hn
    obtain ⟨mid, hnext, hmid⟩ := passed_of_step hi hstack hpops (fun _ => hP) (Nat.ne_of_lt hq) hrun
    rw [h.next_of_isPlain hplain] at hnext
    exact ⟨mid, Option.some.inj hnext ▸ hmid⟩
  | seq _ second ih ih' =>
    obtain ⟨mid, hmid⟩ := ih hpc hstack hn (Nat.le_trans second.le hq) hrun
    exact hmid.andThen fun _ _ hstack hn hrest => ih' hmid.pc hstack hn hq hrest
  | skip hi body hl ih =>
    subst hpc
    have hlt := body.le
    obtain ⟨mid, hpc | hpc, hmid⟩ :=
      passed_of_branch (P := P) hi (Or.inl rfl) hl hstack hn (by omega) hrun
    · exact hmid.andThen fun _ _ hstack hn hrest => ih hpc hstack hn hq hrest
    · exact ⟨mid, hpc ▸ hmid⟩
  | @fork p k q n m l l' hi first hk hl second hl' ih ih' =>
    subst hpc
    have hlt := first.le
    have hlt' := second.le
    obtain ⟨mid, hpc | hpc, hmid⟩ :=
      passed_of_branch (P := P) hi (Or.inr rfl) hl hstack hn (by omega) hrun
    · refine hmid.andThen fun _ _ hstack hn hrest => ?_
      obtain ⟨mid', hmid'⟩ := ih hpc hstack hn (by omega) hrest
      refine hmid'.andThen fun top rest hstack' hn' hrest' => ?_
      -- The branch over the other alternative leaves the stack as it is.
      obtain ⟨last, hnext, hlast⟩ := passed_of_step (P := P) (i := .branch l') (hmid'.pc ▸ hk) hstack'
        (Nat.zero_le _) nofun (by have := hmid'.pc; omega) hrest'
      rw [hn'] at hlast
      have hlabel : h.next r mid'.pc (.branch l') (top.take 0) = some q := hl'
      exact ⟨last, Option.some.inj (hnext.symm.trans hlabel) ▸ hlast⟩
    · exact hmid.andThen fun _ _ hstack hn hrest => ih' hpc hstack hn hq hrest

end Stretch
end PhpLowering
