import Mathlib.Data.List.Induction
import PhpLowering.Proofs.Code.Growth
import PhpLowering.Proofs.Literal.Equality

/-!
# What a literal is filed as

A literal that is filed twice need not be filed under one number: a NaN differs from itself, so every
time it gets an entry of its own.  And the entry need not be the literal, because the two zeros count
as equal.  What can be said in general is that the entry depends on the literal and on the finished pool only.
`Routine.filed` is that entry, and `constants_of_addConstant` says that every number under which the
literal was filed along the way leads to it.

If literals are filed one after another in an empty pool, the entry of a literal is the literal itself, unless it is
a zero.  The two zeros share an entry, and it holds the zero that was filed first (`interned`).  A literal is refused
if the pool is full and no entry counts as equal.  For a NaN that is so even if there is one in the pool.
-/

namespace PhpLowering

namespace Literal

/-- A literal that differs from itself differs from every literal. -/
theorem beq_eq_false {v : Literal} (w : Literal) (h : (v == v) = false) : (w == v) = false := by
  have hnan : v.isNaN ≠ false := fun hnan => Bool.eq_false_iff.mp h (beq_self_iff.mpr hnan)
  rw [Bool.eq_false_iff, Ne, beq_eq_true_iff]
  rintro (⟨rfl, hv⟩ | ⟨-, hzero⟩)
  · exact hnan hv
  · exact hnan (isNaN_eq_false_of_isZero hzero)

end Literal

namespace Routine

variable {r r' r'' : Routine} {v : Literal} {k : Nat}

/-- The entry of the pool that stands for a literal. -/
def filed (r : Routine) (v : Literal) : Literal :=
  (r.constants.find? (· == v)).getD v

/-- The first entry that equals a literal stays the first one. -/
theorem filed_of_first (hr : r.Grows r') (hk : k < r.constants.size) (heq : (r.constants[k] == v) = true)
    (hfirst : ∀ j (hj : j < k), ¬ (r.constants[j] == v) = true) :
    r'.constants[k]? = some (r'.filed v) := by
  have hentry : ∀ j (hj : j < r.constants.size), r'.constants[j]? = some r.constants[j] :=
    fun j hj => hr.constants (Array.getElem?_eq_getElem hj)
  have hfind : r'.constants.find? (· == v) = some r.constants[k] := by
    rw [Array.find?_eq_some_iff_getElem]
    obtain ⟨hk', hsame⟩ := Array.getElem?_eq_some_iff.mp (hentry k hk)
    refine ⟨heq, k, hk', hsame, fun j hj => ?_⟩
    obtain ⟨_, hsame⟩ := Array.getElem?_eq_some_iff.mp (hentry j (Nat.lt_trans hj hk))
    rw [hsame]
    simpa using hfirst j hj
  rw [filed, hfind, hentry k hk]
  rfl

/-- **However much a routine grows, a literal that was filed leads to the same entry.** -/
theorem constants_of_addConstant (hrun : addConstant v r = (.ok k, r')) (hr : r'.Grows r'') :
    r''.constants[k]? = some (r''.filed v) := by
  unfold addConstant at hrun
  split at hrun
  · rename_i index hindex
    obtain ⟨hk, rfl⟩ := Prod.mk.inj hrun
    obtain rfl := Except.ok.inj hk
    obtain ⟨hlt, heq, hfirst⟩ := Array.findIdx?_eq_some_iff_getElem.mp hindex
    exact filed_of_first hr hlt heq hfirst
  · rename_i hnone
    rw [Array.findIdx?_eq_none_iff] at hnone
    split at hrun
    · obtain ⟨hk, rfl⟩ := Prod.mk.inj hrun
      obtain rfl := Except.ok.inj hk
      have hlast : r''.constants[r.constants.size]? = some v := hr.constants (by simp)
      by_cases hself : (v == v) = true
      · refine filed_of_first hr (by simp) (by simpa using hself) fun j hj => ?_
        have hne := hnone r.constants[j] (Array.getElem_mem hj)
        rw [Array.getElem_push_lt hj]
        simpa using hne
      · -- No entry equals the literal, neither now nor later.
        have hnever : r''.constants.find? (· == v) = none := by
          rw [Array.find?_eq_none]
          intro w _
          simpa using Literal.beq_eq_false w (Bool.eq_false_iff.mpr hself)
        rw [filed, hnever, hlast]
        rfl
    · exact nomatch hrun

end Routine

/-! ## An empty pool -/

namespace Routine

open Literal (isZero)

variable {r r' : Routine} {v w : Literal} {k : Nat} {before : List Literal}

/-- Files literals in order, also after one has been refused. -/
def addConstants (vs : List Literal) (r : Routine) : Routine :=
  vs.foldl (fun r v => (addConstant v r).2) r

/-- What stands for a literal that is filed after others: for a zero the first zero among them, for every
other literal the literal itself. -/
def standIn (before : List Literal) (v : Literal) : Literal :=
  if v.isZero then (before.find? isZero).getD v else v

theorem standIn_of_isZero (h : v.isZero = true) : standIn before v = (before.find? isZero).getD v :=
  if_pos h

theorem standIn_of_not_isZero (h : v.isZero = false) : standIn before v = v :=
  if_neg (Bool.eq_false_iff.mp h)

theorem grows_addConstants (vs : List Literal) (r : Routine) : r.Grows (addConstants vs r) := by
  induction vs generalizing r with
  | nil => exact .refl r
  | cons v rest ih => exact (grows_addConstant v r).trans (ih _)

theorem addConstants_concat (before : List Literal) (v : Literal) (r : Routine) :
    addConstants (before ++ [v]) r = (addConstant v (addConstants before r)).2 :=
  List.foldl_append

/-! ## One call -/

/-- What filing a literal comes to. -/
inductive Files (v : Literal) (r : Routine) : Except SinkError Nat → Routine → Prop
  | found (k : Nat) (w : Literal) (hentry : r.constants[k]? = some w) (heq : (w == v) = true) :
      Files v r (.ok k) r
  | added (hroom : r.constants.size < maxConstants) (hnew : ∀ w ∈ r.constants, (w == v) = false) :
      Files v r (.ok r.constants.size) { r with constants := r.constants.push v }
  | refused (hfull : maxConstants ≤ r.constants.size) (hnew : ∀ w ∈ r.constants, (w == v) = false) :
      Files v r (.error (.resourceExhausted .constantPool)) r

theorem files_of_addConstant {result : Except SinkError Nat} (hrun : addConstant v r = (result, r')) :
    Files v r result r' := by
  unfold addConstant at hrun
  split at hrun
  · rename_i k hindex
    obtain ⟨rfl, rfl⟩ := Prod.mk.inj hrun
    obtain ⟨hlt, heq, -⟩ := Array.findIdx?_eq_some_iff_getElem.mp hindex
    exact .found k _ (Array.getElem?_eq_getElem hlt) heq
  · rename_i hnone
    rw [Array.findIdx?_eq_none_iff] at hnone
    split at hrun
    · obtain ⟨rfl, rfl⟩ := Prod.mk.inj hrun
      exact .added ‹_› hnone
    · obtain ⟨rfl, rfl⟩ := Prod.mk.inj hrun
      exact .refused (Nat.le_of_not_lt ‹_›) hnone

/-! ## Many calls -/

/-- The zero in the pool is the first one that was filed, and while there is room it is there. -/
structure HoldsZero (before : List Literal) (r : Routine) : Prop where
  size : r.constants.size ≤ maxConstants
  first : ∀ w ∈ r.constants, w.isZero = true → before.find? isZero = some w
  present : r.constants.size < maxConstants → ∀ w, before.find? isZero = some w → w ∈ r.constants

/-- An entry that counts as equal to a zero is a zero. -/
theorem isZero_of_beq (h : (w == v) = true) (hv : v.isZero = true) : w.isZero = true := by
  rcases Literal.beq_eq_true_iff.mp h with ⟨rfl, -⟩ | ⟨hw, -⟩
  · exact hv
  · exact hw

theorem beq_of_isZero (hw : w.isZero = true) (hv : v.isZero = true) : (w == v) = true :=
  Literal.beq_eq_true_iff.mpr (Or.inr ⟨hw, hv⟩)

/-- While there is room, a zero that no entry counts as equal to is the first one. -/
theorem HoldsZero.find?_eq_none (h : HoldsZero before r) (hroom : r.constants.size < maxConstants)
    (hnew : ∀ w ∈ r.constants, (w == v) = false) (hv : v.isZero = true) : before.find? isZero = none := by
  by_contra hsome
  obtain ⟨w, hfind⟩ := Option.ne_none_iff_exists'.mp hsome
  have hne := hnew w (h.present hroom w hfind)
  rw [beq_of_isZero (List.find?_some hfind) hv] at hne
  exact nomatch hne

theorem HoldsZero.addConstant (h : HoldsZero before r) (v : Literal) :
    HoldsZero (before ++ [v]) (addConstant v r).2 := by
  have hlater : ∀ {w}, before.find? isZero = some w → (before ++ [v]).find? isZero = some w := fun hw => by
    rw [List.find?_append, hw]
    rfl
  have hcases : ∀ {w}, (before ++ [v]).find? isZero = some w →
      before.find? isZero = some w ∨ before.find? isZero = none ∧ v.isZero = true ∧ w = v := fun hw => by
    rw [List.find?_append] at hw
    cases hfind : before.find? isZero with
    | some u =>
      rw [hfind] at hw
      exact Or.inl hw
    | none =>
      rw [hfind, Option.none_or, List.find?_singleton, Option.ite_none_right_eq_some] at hw
      exact Or.inr ⟨rfl, hw.1, (Option.some.inj hw.2).symm⟩
  rcases hrun : Routine.addConstant v r with ⟨result, r'⟩
  cases files_of_addConstant hrun with
  | found k w hentry heq =>
    refine ⟨h.size, fun w hw hzero => hlater (h.first w hw hzero), fun hroom u hu => ?_⟩
    rcases hcases hu with hu | ⟨hnone, hv, rfl⟩
    · exact h.present hroom u hu
    · have hw : w ∈ r.constants := Array.mem_of_getElem? hentry
      rw [h.first w hw (isZero_of_beq heq hv)] at hnone
      exact nomatch hnone
  | added hroom hnew =>
    refine ⟨?_, fun w hw hzero => ?_, fun _ u hu => ?_⟩
    · rw [Array.size_push]
      exact hroom
    · rcases Array.mem_push.mp hw with hw | rfl
      · exact hlater (h.first w hw hzero)
      · rw [List.find?_append, h.find?_eq_none hroom hnew hzero]
        exact List.find?_cons_of_pos hzero
    · rcases hcases hu with hu | ⟨-, -, rfl⟩
      · exact Array.mem_push_of_mem _ (h.present hroom u hu)
      · exact Array.mem_push_self
  | refused hfull hnew =>
    exact ⟨h.size, fun w hw hzero => hlater (h.first w hw hzero), fun hroom => absurd hroom (Nat.not_lt.mpr hfull)⟩

theorem holdsZero_addConstants (before : List Literal) (r : Routine) :
    HoldsZero before (addConstants before { r with constants := #[] }) := by
  induction before using List.reverseRecOn with
  | nil => exact ⟨Nat.zero_le _, fun w hw => absurd hw (Array.not_mem_empty w), fun _ _ hw => nomatch hw⟩
  | append_singleton before v ih =>
    rw [addConstants_concat]
    exact ih.addConstant v

/-- The number of a literal leads to what stands for it. -/
theorem HoldsZero.entry (h : HoldsZero before r) (hrun : Routine.addConstant v r = (.ok k, r')) :
    k < maxConstants ∧ r'.constants[k]? = some (standIn before v) := by
  cases files_of_addConstant hrun with
  | found k w hentry heq =>
    have hw : w ∈ r.constants := Array.mem_of_getElem? hentry
    refine ⟨Nat.lt_of_lt_of_le (Array.getElem?_eq_some_iff.mp hentry).1 h.size, hentry.trans (congrArg some ?_)⟩
    cases hv : v.isZero with
    | true => rw [standIn_of_isZero hv, h.first w hw (isZero_of_beq heq hv), Option.getD_some]
    | false =>
      rw [standIn_of_not_isZero hv]
      rcases Literal.beq_eq_true_iff.mp heq with ⟨rfl, -⟩ | ⟨-, hzero⟩
      · rfl
      · exact absurd hzero (Bool.eq_false_iff.mp hv)
  | added hroom hnew =>
    refine ⟨hroom, Array.getElem?_push_size.trans (congrArg some ?_)⟩
    cases hv : v.isZero with
    | true => rw [standIn_of_isZero hv, h.find?_eq_none hroom hnew hv, Option.getD_none]
    | false => rw [standIn_of_not_isZero hv]

/-- **A literal is filed as what stands for it, and stays filed so.**  That is the literal itself, but for a
zero it is the zero that was filed first.  A literal is refused only if the pool is full and no entry counts
as equal to it, and then nothing is changed. -/
theorem interned (r : Routine) (before : List Literal) (v : Literal) :
    let filled := addConstants before { r with constants := #[] }
    (∃ k r', addConstant v filled = (.ok k, r') ∧ k < maxConstants ∧
      ∀ after, (addConstants after r').constants[k]? = some (standIn before v)) ∨
    (addConstant v filled = (.error (.resourceExhausted .constantPool), filled) ∧
      filled.constants.size = maxConstants ∧ (v ∈ filled.constants → v.isNaN = true) ∧
      (v.isZero = true → ∀ w ∈ filled.constants, w.isZero = false)) := by
  intro filled
  have hzero : HoldsZero before filled := holdsZero_addConstants before r
  rcases hrun : addConstant v filled with ⟨result, r'⟩
  cases result with
  | ok k =>
    obtain ⟨hk, hentry⟩ := hzero.entry hrun
    exact Or.inl ⟨k, r', rfl, hk, fun after => (grows_addConstants after r').constants hentry⟩
  | error e =>
    cases files_of_addConstant hrun with
    | refused hfull hnew =>
      refine Or.inr ⟨rfl, Nat.le_antisymm hzero.size hfull, fun hmem => ?_, fun hv w hw => ?_⟩
      · by_contra hnan
        have hself : (v == v) = true := Literal.beq_self_iff.mpr (Bool.eq_false_iff.mpr hnan)
        exact nomatch (hnew v hmem).symm.trans hself
      · by_contra hne
        have hequal : (w == v) = true := beq_of_isZero (Bool.not_eq_false _ ▸ hne) hv
        exact nomatch (hnew w hw).symm.trans hequal

/-- **The second of the two zeros is filed as the first one**, whose bits are others. -/
theorem filed_negativeZero :
    let r := addConstants [.double (Float.ofBits 0)] {}
    addConstant (.double (Float.ofBits 0x8000000000000000)) r = (.ok 0, r) ∧
      r.constants[0]? = some (.double (Float.ofBits 0)) ∧
      Float.ofBits 0 ≠ Float.ofBits 0x8000000000000000 := by
  have hfirst : addConstants [.double (Float.ofBits 0)] {} = { constants := #[.double (Float.ofBits 0)] } := by
    simp [addConstants, addConstant, maxConstants]
  have hequal : (Literal.double (Float.ofBits 0) == .double (Float.ofBits 0x8000000000000000)) = true := rfl
  rw [hfirst]
  exact ⟨by simp [addConstant, hequal], rfl, by decide⟩

end Routine
end PhpLowering
