import PhpLowering.Proofs.Literal.Alike
import PhpLowering.Proofs.Literal.Equality

/-!
# Identical values

`===` compares integers by value and strings by their bytes, so values of different representation can be
identical.  Every value that is no double has a normal form, the wide integer or the binary string, and two of
them are identical if and only if their normal forms are equal (`Literal.identical_iff`).

So for values that are no doubles `===` is an equivalence relation, and whatever reads a value through its normal
form alone gives the same answer for identical values: all the conversions and operators that folding computes
with (`Literal.identical_interchangeable`).  With doubles neither is true, because a NaN is not identical to
itself and the two zeros, which are identical, are printed differently.
-/

namespace PhpLowering
namespace Literal

open Text

variable {v w v' w' : Literal}

/-- Whether a value is a double. -/
def isDouble : Literal → Bool
  | .double _ => true
  | _ => false

/-- A value in the wide form, if it is an integer, and as bytes, if it is a string. -/
def normal : Literal → Literal
  | .int n => .long n.toInt64
  | .string text => .bytes (Utf8.encode text)
  | v => v

/-- Without doubles the comparison of representations is equality. -/
theorem beq_iff_eq (hv : v.isDouble = false) : (v == w) = true ↔ v = w := by
  rw [beq_eq_true_iff]
  cases v with
  | double x => exact nomatch hv
  | _ => simp [isNaN, isZero]

theorem toInt64_injective : Function.Injective Int32.toInt64 := by
  intro a b h
  rw [← Int32.toInt_inj, ← Int32.toInt_toInt64, ← Int32.toInt_toInt64, h]

/-- **Values are identical if and only if they are the same in normal form.** -/
theorem identical_iff (hv : v.isDouble = false) : v.identical w = true ↔ v.normal = w.normal := by
  have hbeq : ∀ {w}, (v == w) = true ↔ v = w := beq_iff_eq hv
  cases v with
  | double x => exact nomatch hv
  | null | bool b => cases w <;> simp only [identical, normal, hbeq] <;> simp
  | int n => cases w <;> simp only [identical, normal, hbeq] <;> simp [toInt64_injective.eq_iff]
  | long n => cases w <;> simp only [identical, normal, hbeq] <;> simp
  | string text => cases w <;> simp only [identical, normal, hbeq] <;> simp [Utf8.encode_injective.eq_iff]
  | bytes data => cases w <;> simp only [identical, normal, hbeq] <;> simp

/-! ## What is read off the normal form -/

theorem normal_cases (v : Literal) : Alike v.normal v ∨ ∃ n, v = .int n ∧ v.normal = .long n.toInt64 := by
  cases v with
  | int n => exact Or.inr ⟨n, rfl, rfl⟩
  | string text => exact Or.inl (Or.inr ⟨rfl, rfl, rfl⟩)
  | _ => exact Or.inl (.refl _)

@[simp] theorem toBool_normal (v : Literal) : v.normal.toBool = v.toBool := by
  rcases v.normal_cases with h | ⟨n, rfl, h⟩
  · exact h.toBool
  · have hzero : (n.toInt64 = 0) = (n = 0) := propext (toInt64_injective.eq_iff (a := n) (b := 0))
    simp only [h, toBool, bne, beq_eq_decide, hzero]

@[simp] theorem toNumeric_normal (v : Literal) : v.normal.toNumeric = v.toNumeric := by
  rcases v.normal_cases with h | ⟨n, rfl, h⟩
  · exact h.toNumeric
  · rw [h]
    rfl

@[simp] theorem toText_normal (v : Literal) : v.normal.toText = v.toText := by
  rcases v.normal_cases with h | ⟨n, rfl, h⟩
  · exact h.toText
  · rw [h, toText, toText, Int32.toInt_toInt64]

@[simp] theorem toBytes_normal (v : Literal) : v.normal.toBytes = v.toBytes := by
  rcases v.normal_cases with h | ⟨n, rfl, h⟩
  · exact h.toBytes
  · rw [h, toBytes, toBytes, toText, toText, Int32.toInt_toInt64] <;> exact nofun

@[simp] theorem isString_normal (v : Literal) : v.normal.isString = v.isString := by
  cases v <;> rfl

@[simp] theorem isTruthValue_normal (v : Literal) : v.normal.isTruthValue = v.isTruthValue := by
  cases v <;> rfl

@[simp] theorem isIntegerKey_normal (v : Literal) : v.normal.isIntegerKey = v.isIntegerKey := by
  cases v <;> rfl

@[simp] theorem bitNot_normal (v : Literal) : v.normal.bitNot = v.bitNot := by
  cases v <;> rfl

@[simp] theorem isDouble_normal (v : Literal) : v.normal.isDouble = v.isDouble := by
  cases v <;> rfl

theorem normal_of_isString (h : v.isString = true) : v.normal = .bytes v.toBytes := by
  cases v with
  | string | bytes => rfl
  | _ => exact nomatch h

/-- Two values are the same to everything that is read off one value. -/
structure Agree (v w : Literal) : Prop where
  toBool : v.toBool = w.toBool
  toInt64 : v.toInt64 = w.toInt64
  toBytes : v.toBytes = w.toBytes
  toText : v.toText = w.toText
  isIntegerKey : v.isIntegerKey = w.isIntegerKey
  bitNot : v.bitNot = w.bitNot
  negate : v.negate = w.negate
  plus : v.plus = w.plus

theorem agree_of_normal (h : v.normal = w.normal) : Agree v w := by
  have hnumeric : v.toNumeric = w.toNumeric := by rw [← toNumeric_normal, h, toNumeric_normal]
  exact {
    toBool := by rw [← toBool_normal, h, toBool_normal]
    toInt64 := by rw [Literal.toInt64, Literal.toInt64, hnumeric]
    toBytes := by rw [← toBytes_normal, h, toBytes_normal]
    toText := by rw [← toText_normal, h, toText_normal]
    isIntegerKey := by rw [← isIntegerKey_normal, h, isIntegerKey_normal]
    bitNot := by rw [← bitNot_normal, h, bitNot_normal]
    negate := by rw [Literal.negate, Literal.negate, hnumeric]
    plus := by rw [Literal.plus, Literal.plus, hnumeric] }

/-! ## Operators on two values -/

theorem normal_concat (h : v.normal = w.normal) (h' : v'.normal = w'.normal) :
    (v.concat v').normal = (w.concat w').normal := by
  rw [normal_of_isString (isString_concat v v'), normal_of_isString (isString_concat w w'), toBytes_concat,
    toBytes_concat, (agree_of_normal h).toBytes, (agree_of_normal h').toBytes]

theorem arithmetic_of_normal (h : v.normal = w.normal) (h' : v'.normal = w'.normal) (exact : Int → Int → Int)
    (inexact : Float → Float → Float) :
    v.arithmetic exact inexact v' = w.arithmetic exact inexact w' := by
  rw [arithmetic, arithmetic, ← toNumeric_normal v, ← toNumeric_normal v', h, h', toNumeric_normal, toNumeric_normal]

theorem lessThan_of_normal (h : v.normal = w.normal) (h' : v'.normal = w'.normal) :
    v.lessThan v' = w.lessThan w' := by
  have hnormal : ∀ a b : Literal, a.normal.lessThan b.normal = a.lessThan b := by
    intro a b
    simp only [lessThan, isString_normal, toBytes_normal, isTruthValue_normal, toBool_normal, toNumeric_normal]
  rw [← hnormal, h, h', hnormal]

theorem identical_of_normal (h : v.normal = w.normal) (h' : v'.normal = w'.normal) (hv : v.isDouble = false) :
    v.identical v' = w.identical w' := by
  have hw : w.isDouble = false := by rw [← isDouble_normal, ← h, isDouble_normal, hv]
  rw [Bool.eq_iff_iff, identical_iff hv, identical_iff hw, h, h']

/-- Without doubles, identity is an equivalence relation. -/
theorem equivalence_identical :
    Equivalence fun v w : {v : Literal // v.isDouble = false} => v.1.identical w.1 = true where
  refl v := (identical_iff v.2).mpr rfl
  symm {v w} h := (identical_iff w.2).mpr ((identical_iff v.2).mp h).symm
  trans {v w _} h h' := (identical_iff v.2).mpr (((identical_iff v.2).mp h).trans ((identical_iff w.2).mp h'))

/-- **Identical values are interchangeable**, as long as no double is among them.  The results of arithmetic and of
negation are the same values, whatever kind they are of; the results of concatenation may be the same string in
different representation. -/
theorem identical_interchangeable :
    Equivalence (fun v w : {v : Literal // v.isDouble = false} => v.1.identical w.1 = true) ∧
    ∀ v w v' w' : Literal, v.isDouble = false → v'.isDouble = false →
      v.identical w = true → v'.identical w' = true →
        Agree v w ∧ (v.concat v').identical (w.concat w') = true ∧
        v.add v' = w.add w' ∧ v.sub v' = w.sub w' ∧ v.mul v' = w.mul w' ∧
        v.lessThan v' = w.lessThan w' ∧ v.identical v' = w.identical w' := by
  refine ⟨equivalence_identical, fun v w v' w' hv hv' h h' => ?_⟩
  rw [identical_iff hv] at h
  rw [identical_iff hv'] at h'
  have hconcat : (v.concat v').isDouble = false := by
    rw [← isDouble_normal, normal_of_isString (isString_concat v v')]
    rfl
  exact ⟨agree_of_normal h, (identical_iff hconcat).mpr (normal_concat h h'), arithmetic_of_normal h h' _ _,
    arithmetic_of_normal h h' _ _, arithmetic_of_normal h h' _ _, lessThan_of_normal h h',
    identical_of_normal h h' hv⟩

/-- An integer of either width, and a string of either representation. -/
theorem identical_interchangeable_widths :
    ((int 3).isDouble = false ∧ (string "1a").isDouble = false ∧ (int 3).identical (long 3) = true ∧
      (string "1a").identical (bytes [0x31, 0x61]) = true) ∧
      ((int 3).concat (string "1a")).identical ((long 3).concat (bytes [0x31, 0x61])) = true ∧
      (int 3).add (string "1a") = (long 3).add (bytes [0x31, 0x61]) :=
  have h := identical_interchangeable.2 (int 3) (long 3) (string "1a") (bytes [0x31, 0x61]) rfl rfl (by decide)
    (by decide)
  ⟨⟨rfl, rfl, by decide, by decide⟩, h.2.1, h.2.2.1⟩

end Literal
end PhpLowering
