import Mathlib
import PhpLowering.Literal.Basic

/-!
# Equal literals

The test `==` on literals is equality but for two kinds of doubles.  A NaN, of which there is only one
here, differs from itself, and the two zeros are equal although their signs differ
(`Literal.beq_eq_true_iff`).

A double is its bits.  `Unpacks` says how the sign, the exponent and the mantissa in the bits make up the
number that is compared; so two numbers that compare as equal have the same bits, unless they are zeros
(`eq_or_isZero_of_beq`).
-/

namespace PhpLowering
namespace Literal

section Floats

open Float.Model Float.Model.UnpackedFloat

variable {a b : BitVec Format.binary64.numBits} {x y : UnpackedFloat}

/-- The number that the parts of its bits make up. -/
inductive Unpacks (b : BitVec Format.binary64.numBits) : UnpackedFloat → Prop
  | infinity (sign : Sign) (hsign : Sign.ofBitVec (unpackSign b) = sign)
      (hexponent : (unpackExponent b).toNat = 2047) (hmantissa : (unpackMantissa b).toNat = 0) :
      Unpacks b (.infinity sign)
  | notANumber : Unpacks b .notANumber
  | zero (sign : Sign) (hsign : Sign.ofBitVec (unpackSign b) = sign)
      (hexponent : (unpackExponent b).toNat = 0) (hmantissa : (unpackMantissa b).toNat = 0) :
      Unpacks b (.zero sign)
  | subnormal (sign : Sign) (mantissa : Nat) (exponent : Int) (hpos : 0 < mantissa)
      (hsign : Sign.ofBitVec (unpackSign b) = sign) (hexponent : (unpackExponent b).toNat = 0)
      (hmantissa : (unpackMantissa b).toNat = mantissa) :
      Unpacks b (.finite sign mantissa exponent hpos)
  | normal (sign : Sign) (mantissa : Nat) (exponent : Int) (hpos : 0 < mantissa)
      (hsign : Sign.ofBitVec (unpackSign b) = sign)
      (hexponent : (unpackExponent b).toNat = exponent + (Format.binary64.exponentBias + 52))
      (hmantissa : 2 ^ 52 + (unpackMantissa b).toNat = mantissa) :
      Unpacks b (.finite sign mantissa exponent hpos)

/-- The bit in front of the mantissa of a normal number. -/
theorem toNat_one_append (m : BitVec 52) : (1#1 ++ m).toNat = 2 ^ 52 + m.toNat := by
  rw [BitVec.toNat_append, ← Nat.shiftLeft_add_eq_or_of_lt m.isLt]
  rfl

theorem unpacks_unpack (b : BitVec Format.binary64.numBits) :
    Unpacks b (UnpackedFloat.unpack Format.binary64 b) := by
  unfold UnpackedFloat.unpack
  dsimp only
  split
  · rename_i hexponent
    split
    · rename_i hmantissa
      exact .infinity _ rfl (congrArg BitVec.toNat hexponent) (congrArg BitVec.toNat hmantissa)
    · exact .notANumber
  · split
    · rename_i hexponent
      split
      · rename_i hmantissa
        exact .zero _ rfl (congrArg BitVec.toNat hexponent) (congrArg BitVec.toNat hmantissa)
      · exact .subnormal _ _ _ _ rfl (congrArg BitVec.toNat hexponent) rfl
    · exact .normal _ _ _ _ rfl (by simp) (toNat_one_append _).symm

theorem eq_of_ofBitVec_eq {s t : BitVec 1} (h : Sign.ofBitVec s = Sign.ofBitVec t) : s = t := by
  rcases BitVec.eq_zero_or_eq_one s with rfl | rfl <;> rcases BitVec.eq_zero_or_eq_one t with rfl | rfl <;>
    first | rfl | exact nomatch h

/-- The parts of a number make up its bits. -/
theorem bits_eq_of_parts (hsign : unpackSign a = unpackSign b)
    (hexponent : (unpackExponent a).toNat = (unpackExponent b).toNat)
    (hmantissa : (unpackMantissa a).toNat = (unpackMantissa b).toNat) : a = b := by
  have hsign := congrArg BitVec.toNat hsign
  simp only [unpackSign, unpackExponent, unpackMantissa, BitVec.toNat_cast, BitVec.extractLsb_toNat,
    Nat.shiftRight_eq_div_pow] at hsign hexponent hmantissa
  have ha : a.toNat < 2 ^ 64 := a.isLt
  have hb : b.toNat < 2 ^ 64 := b.isLt
  apply BitVec.eq_of_toNat_eq
  simp at hsign hexponent
  omega

/-- The bits of a number that is not a NaN are determined: a subnormal mantissa is less than any normal one. -/
theorem Unpacks.bits_eq (ha : Unpacks a x) (hb : Unpacks b x) (hx : x ≠ .notANumber) : a = b := by
  have hmantissaA : (unpackMantissa a).toNat < 2 ^ 52 := (unpackMantissa a).isLt
  have hmantissaB : (unpackMantissa b).toNat < 2 ^ 52 := (unpackMantissa b).isLt
  have hparts : Sign.ofBitVec (unpackSign a) = Sign.ofBitVec (unpackSign b) ∧
      (unpackExponent a).toNat = (unpackExponent b).toNat ∧
      (unpackMantissa a).toNat = (unpackMantissa b).toNat := by
    cases ha <;> cases hb <;> first | exact absurd rfl hx | (refine ⟨by simp only [*], ?_, ?_⟩ <;> omega)
  exact bits_eq_of_parts (eq_of_ofBitVec_eq hparts.1) hparts.2.1 hparts.2.2

/-- Numbers that compare as equal are the same, or zeros. -/
theorem eq_or_zero_of_compare (h : UnpackedFloat.compare x y = some .eq) :
    x = y ∧ x ≠ .notANumber ∨ ∃ sign sign', x = .zero sign ∧ y = .zero sign' := by
  cases x with
  | notANumber => cases y <;> simp [UnpackedFloat.compare] at h
  | zero sign => cases y with
    | zero sign' => exact Or.inr ⟨sign, sign', rfl, rfl⟩
    | notANumber => simp [UnpackedFloat.compare] at h
    | infinity sign' | finite sign' => cases sign' <;> simp [UnpackedFloat.compare] at h
  | infinity sign => cases y with
    | infinity sign' => cases sign <;> cases sign' <;> simp [UnpackedFloat.compare] at h ⊢
    | notANumber | zero sign' | finite sign' => cases sign <;> simp [UnpackedFloat.compare] at h
  | finite sign => cases y with
    | notANumber | zero sign' => cases sign <;> simp [UnpackedFloat.compare] at h
    | infinity sign' => cases sign <;> cases sign' <;> simp [UnpackedFloat.compare] at h
    | finite sign' =>
      cases sign <;> cases sign' <;> simp [UnpackedFloat.compare, Ordering.then_eq_eq] at h ⊢ <;> exact h.symm

end Floats

/-- A double that is a zero, of either sign. -/
def isZero : Literal → Bool
  | .double x => x == Float.ofBits 0
  | _ => false

/-- A double that is not a number. -/
def isNaN : Literal → Bool
  | .double x => x.isNaN
  | _ => false

section Doubles

open Float.Model (UnpackedFloat)

variable {x y : Float}

theorem double_beq_iff :
    (x == y) = true ↔ UnpackedFloat.compare x.toModel.unpack y.toModel.unpack = some .eq := by
  show (UnpackedFloat.compare x.toModel.unpack y.toModel.unpack == some .eq) = true ↔ _
  exact beq_iff_eq

theorem unpack_zero : (Float.ofBits 0).toModel.unpack = .zero .positive := rfl

theorem double_isZero_iff : (double x).isZero = true ↔ ∃ sign, x.toModel.unpack = .zero sign := by
  show (x == Float.ofBits 0) = true ↔ _
  rw [double_beq_iff, unpack_zero]
  constructor
  · intro h
    rcases eq_or_zero_of_compare h with ⟨heq, -⟩ | ⟨sign, -, heq, -⟩
    · exact ⟨_, heq⟩
    · exact ⟨sign, heq⟩
  · rintro ⟨sign, h⟩
    rw [h]
    rfl

theorem double_isNaN_iff : (double x).isNaN = true ↔ x.toModel.unpack = .notANumber := by
  show x.toModel.unpack.isNaN = true ↔ _
  cases x.toModel.unpack <;> simp [UnpackedFloat.isNaN]

/-- A double is its bits. -/
theorem eq_of_unpack_eq (h : x.toModel.unpack = y.toModel.unpack) (hx : x.toModel.unpack ≠ .notANumber) : x = y := by
  have hunpacksX : Unpacks x.toModel.toBits.toBitVec x.toModel.unpack := unpacks_unpack _
  have hunpacksY : Unpacks y.toModel.toBits.toBitVec x.toModel.unpack := h ▸ unpacks_unpack _
  have hbits := hunpacksX.bits_eq hunpacksY hx
  obtain ⟨⟨⟨_⟩, _⟩⟩ := x
  obtain ⟨⟨⟨_⟩, _⟩⟩ := y
  cases hbits
  rfl

/-- Only a NaN differs from itself. -/
theorem compare_self {u : UnpackedFloat} (h : u ≠ .notANumber) : UnpackedFloat.compare u u = some .eq := by
  cases u with
  | notANumber => exact absurd rfl h
  | zero sign => rfl
  | infinity sign => cases sign <;> rfl
  | finite sign => cases sign <;> simp [UnpackedFloat.compare]

/-- **Doubles that are equal have the same bits, unless they are zeros.** -/
theorem double_beq_eq_true_iff : (x == y) = true ↔
    x = y ∧ (double x).isNaN = false ∨ (double x).isZero = true ∧ (double y).isZero = true := by
  rw [double_beq_iff, Bool.eq_false_iff, Ne, double_isNaN_iff, double_isZero_iff, double_isZero_iff]
  constructor
  · intro h
    rcases eq_or_zero_of_compare h with ⟨heq, hx⟩ | ⟨sign, sign', hx, hy⟩
    · exact Or.inl ⟨eq_of_unpack_eq heq hx, hx⟩
    · exact Or.inr ⟨⟨sign, hx⟩, ⟨sign', hy⟩⟩
  · rintro (⟨rfl, hx⟩ | ⟨⟨sign, hx⟩, ⟨sign', hy⟩⟩)
    · exact compare_self hx
    · rw [hx, hy]
      rfl

end Doubles

/-- **Literals are equal if they are the same and no NaN, or if they are zeros.** -/
theorem beq_eq_true_iff {v w : Literal} :
    (v == w) = true ↔ v = w ∧ v.isNaN = false ∨ v.isZero = true ∧ w.isZero = true := by
  cases v with
  | double x => cases w with
    | double y =>
      have hdouble : (double x == double y) = (x == y) := rfl
      rw [hdouble, double_beq_eq_true_iff, double.injEq]
    | _ => simp [BEq.beq, instBEqLiteral.beq, isZero]
  | bytes data => cases w with
    | bytes data' =>
      have hbytes : (bytes data == bytes data') = (data == data') := rfl
      simp [hbytes, isNaN, isZero]
    | _ => simp [BEq.beq, instBEqLiteral.beq, isZero]
  | _ => cases w <;> simp [BEq.beq, instBEqLiteral.beq, isNaN, isZero]

theorem isNaN_eq_false_of_isZero {v : Literal} (h : v.isZero = true) : v.isNaN = false := by
  cases v with
  | double x =>
    obtain ⟨sign, hx⟩ := double_isZero_iff.mp h
    rw [Bool.eq_false_iff, Ne, double_isNaN_iff, hx]
    exact nofun
  | _ => rfl

theorem beq_self_iff {v : Literal} : (v == v) = true ↔ v.isNaN = false := by
  rw [beq_eq_true_iff]
  exact ⟨fun h => h.elim And.right fun hzero => isNaN_eq_false_of_isZero hzero.1, fun h => Or.inl ⟨rfl, h⟩⟩

end Literal
end PhpLowering
