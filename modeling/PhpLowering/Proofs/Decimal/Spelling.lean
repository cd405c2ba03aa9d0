import Mathlib.Data.List.Induction
import Mathlib.Tactic.Common
import PhpLowering.Decimal.Numeral

/-!
# How integers are spelled

An integer can be written in many ways: with or without a plus sign, and with any number of zeros in front.
A `Spelling` is one of them, a row of digits behind an optional sign.  The numerals that are read as integers
are the spellings of the integers that fit into 64 bits (`Spelling.integer?_eq_some_iff`).

Printing an integer writes the one spelling of it that has nothing superfluous (`Spelling.IsCanonical`,
`Spelling.IsCanonical.chars_eq`).
-/

namespace PhpLowering
namespace Decimal

/-- A 64-bit integer fits and is itself. -/
theorem fitInt64_eq_some_iff {i : Int} {n : Int64} : fitInt64 i = some n ↔ i = n.toInt := by
  constructor
  · intro h
    unfold fitInt64 at h
    split at h
    · rename_i hrange
      rw [Int64.toInt_minValue, Int64.toInt_maxValue] at hrange
      obtain rfl := Option.some.inj h
      exact (Int64.toInt_ofInt_of_le hrange.1 (by omega)).symm
    · exact nomatch h
  · rintro rfl
    rw [fitInt64, if_pos ⟨n.minValue_le_toInt, n.toInt_le⟩, Int64.ofInt_toInt]

/-! ## Spellings -/

/-- What stands in front of the digits. -/
inductive Sign where
  | unsigned | plus | minus
  deriving DecidableEq

namespace Sign

/-- The characters of a sign. -/
def chars : Sign → List Char
  | .unsigned => []
  | .plus => ['+']
  | .minus => ['-']

/-- The integer of a size and a sign. -/
def apply : Sign → Nat → Int
  | .minus, n => -(n : Int)
  | _, n => n

end Sign

/-- An integer written with decimal digits. -/
@[ext]
structure Spelling where
  sign : Sign
  digits : List Char
  nonempty : digits ≠ []
  allDigits : ∀ c ∈ digits, c.isDigit = true

namespace Spelling

variable {w : Spelling}

/-- The text of a spelling. -/
def chars (w : Spelling) : List Char :=
  w.sign.chars ++ w.digits

/-- The integer that is spelled. -/
def value (w : Spelling) : Int :=
  w.sign.apply (Nat.ofDigitChars 10 w.digits 0)

/-- Nothing in a spelling can be left out: there is no plus sign, no zero in front of other digits, and no sign
in front of a zero. -/
structure IsCanonical (w : Spelling) : Prop where
  noPlus : w.sign ≠ .plus
  noLeadingZero : w.digits.head? = some '0' → w.sign = .unsigned ∧ w.digits = ['0']

end Spelling

/-! ## Reading -/

/-- A sign is taken off, if there is one, whatever follows the spelling. -/
theorem splitSign_append (w : Spelling) (cs : List Char) :
    splitSign (w.chars ++ cs) = (w.sign == .minus, w.digits ++ cs) := by
  obtain ⟨sign, digits, nonempty, allDigits⟩ := w
  cases sign with
  | plus | minus => rfl
  | unsigned =>
    cases digits with
    | nil => exact absurd rfl nonempty
    | cons c rest =>
      have hc := allDigits c List.mem_cons_self
      show splitSign (c :: (rest ++ cs)) = (false, c :: (rest ++ cs))
      unfold splitSign
      split
      · rename_i heq
        rw [(List.cons.inj heq).1] at hc
        exact nomatch hc
      · rename_i heq
        rw [(List.cons.inj heq).1] at hc
        exact nomatch hc
      · rfl

theorem splitSign_chars (w : Spelling) : splitSign w.chars = (w.sign == .minus, w.digits) := by
  simpa using splitSign_append w []

/-- Every row of characters is what the sign was taken off from. -/
theorem eq_of_splitSign {cs digits : List Char} {negative : Bool} (h : splitSign cs = (negative, digits)) :
    ∃ sign : Sign, (sign == .minus) = negative ∧ sign.chars ++ digits = cs := by
  unfold splitSign at h
  split at h <;> obtain ⟨rfl, rfl⟩ := Prod.mk.inj h
  · exact ⟨.minus, rfl, rfl⟩
  · exact ⟨.plus, rfl, rfl⟩
  · exact ⟨.unsigned, rfl, rfl⟩

theorem Sign.apply_eq (sign : Sign) (n : Nat) :
    sign.apply n = if sign == .minus then -Int.ofNat n else Int.ofNat n := by
  cases sign <;> rfl

namespace Spelling

/-- A spelling is read as what it spells. -/
theorem integer?_chars (w : Spelling) : integer? w.chars = fitInt64 w.value := by
  have hempty : w.digits.isEmpty = false := List.isEmpty_eq_false_iff.mpr w.nonempty
  have hall : w.digits.all Char.isDigit = true := List.all_eq_true.mpr w.allDigits
  simp only [integer?, splitSign_chars, hempty, hall, value, Sign.apply_eq]
  rfl

/-- **The numerals of integers are the spellings of the integers that fit.** -/
theorem integer?_eq_some_iff {cs : List Char} {n : Int64} :
    integer? cs = some n ↔ ∃ w : Spelling, w.chars = cs ∧ w.value = n.toInt := by
  constructor
  · intro h
    obtain ⟨sign, hsign, hchars⟩ := eq_of_splitSign (Prod.eta (splitSign cs)).symm
    have hdigits : (splitSign cs).2 ≠ [] ∧ ∀ c ∈ (splitSign cs).2, c.isDigit = true := by
      by_contra hno
      rw [integer?] at h
      simp only at h
      rw [if_pos] at h
      · exact nomatch h
      · simpa [or_iff_not_imp_left] using hno
    let w : Spelling := ⟨sign, (splitSign cs).2, hdigits.1, hdigits.2⟩
    have hw : w.chars = cs := hchars
    exact ⟨w, hw, fitInt64_eq_some_iff.mp (by rw [← integer?_chars, hw, h])⟩
  · rintro ⟨w, rfl, hvalue⟩
    rw [integer?_chars, fitInt64_eq_some_iff, hvalue]

end Spelling

/-! ## Printing -/

/-- The numbers of the digits. -/
theorem toNat_of_isDigit {c : Char} (hc : c.isDigit = true) : 48 ≤ c.toNat ∧ c.toNat ≤ 57 := by
  simpa [Char.isDigit, UInt32.le_iff_toNat_le] using hc

theorem digitChar_digitValue {c : Char} (hc : c.isDigit = true) : Nat.digitChar (digitValue c) = c := by
  have hval := toNat_of_isDigit hc
  have hone : ∀ n ∈ List.range' 48 10, Nat.digitChar (n - '0'.toNat) = Char.ofNat n := by decide
  rw [digitValue, hone c.toNat (List.mem_range'_1.mpr ⟨hval.1, by omega⟩), Char.ofNat_toNat]

theorem digitValue_lt {c : Char} (hc : c.isDigit = true) : digitValue c < 10 := by
  have hdigit := digitChar_digitValue hc ▸ hc
  rwa [Nat.isDigit_digitChar, decide_eq_true_eq] at hdigit

/-- A row of digits without a superfluous zero is the row that is printed. -/
theorem toDigits_ofDigitChars {digits : List Char} (hne : digits ≠ []) (hall : ∀ c ∈ digits, c.isDigit = true)
    (hzero : digits.head? = some '0' → digits = ['0']) :
    Nat.toDigits 10 (Nat.ofDigitChars 10 digits 0) = digits := by
  induction digits using List.reverseRecOn with
  | nil => exact absurd rfl hne
  | append_singleton front c ih =>
    have hc : c.isDigit = true := hall c (by simp)
    have hlast : Nat.toDigits 10 (digitValue c) = [c] := by
      rw [Nat.toDigits_of_lt_base (digitValue_lt hc), digitChar_digitValue hc]
    have hvalue : Nat.ofDigitChars 10 (front ++ [c]) 0 = 10 * Nat.ofDigitChars 10 front 0 + digitValue c := by
      rw [Nat.ofDigitChars_append]
      rfl
    by_cases hfront : front = []
    · subst hfront
      rw [hvalue, List.nil_append]
      simpa [Nat.ofDigitChars] using hlast
    · -- With more than one digit the first is no zero, so the digits in front are printed and not zero.
      have hhead : front.head? ≠ some '0' := by
        intro h
        have hlength := congrArg List.length (hzero (by rw [List.head?_append, h, Option.some_or]))
        have hpos := List.length_pos_iff.mpr hfront
        simp only [List.length_append, List.length_singleton] at hlength
        omega
      have hprinted := ih hfront (fun d hd => hall d (by simp [hd])) fun h => absurd h hhead
      have hpos : 0 < Nat.ofDigitChars 10 front 0 := by
        rw [Nat.pos_iff_ne_zero]
        intro h0
        rw [h0] at hprinted
        exact hhead (hprinted ▸ rfl)
      rw [hvalue, ← Nat.toDigits_append_toDigits (by omega) hpos (digitValue_lt hc), hprinted, hlast]

/-- The digits that are printed have no superfluous zero. -/
theorem eq_zero_of_head?_toDigits {n : Nat} (h : (Nat.toDigits 10 n).head? = some '0') : n = 0 := by
  induction n using Nat.strongRecOn with
  | ind n ih =>
    by_cases hn : n < 10
    · have hdigit : ∀ m < 10, Nat.digitChar m = '0' → m = 0 := by decide
      rw [Nat.toDigits_of_lt_base hn] at h
      exact hdigit n hn (Option.some.inj h)
    · rw [Nat.toDigits_of_base_le (by omega) (by omega)] at h
      have hfront : (Nat.toDigits 10 (n / 10)).head? = some '0' := by
        cases hdigits : Nat.toDigits 10 (n / 10) with
        | nil => exact absurd hdigits Nat.toDigits_ne_nil
        | cons c rest => rwa [hdigits] at h
      have := ih (n / 10) (by omega) hfront
      omega

namespace Spelling

variable {w : Spelling}

/-- The spelling that is printed for an integer. -/
def printed (i : Int) : Spelling where
  sign := if i < 0 then .minus else .unsigned
  digits := Nat.toDigits 10 i.natAbs
  nonempty := Nat.toDigits_ne_nil
  allDigits _ hc := Nat.isDigit_of_mem_toDigits (by omega) (by omega) hc

@[simp] theorem value_printed (i : Int) : (printed i).value = i := by
  rw [value, printed, Nat.ofDigitChars_toDigits (by omega) (by omega)]
  split <;> simp only [Sign.apply] <;> omega

theorem chars_printed (i : Int) : (printed i).chars = (toString i).toList := by
  cases i with
  | ofNat n =>
    show [] ++ Nat.toDigits 10 n = (Nat.repr n).toList
    rw [Nat.toList_repr, List.nil_append]
  | negSucc n =>
    rw [chars, printed, if_pos (Int.negSucc_lt_zero n)]
    show ['-'] ++ Nat.toDigits 10 (n + 1) = ("-" ++ Nat.repr (n + 1)).toList
    rw [String.toList_append, Nat.toList_repr]
    rfl

theorem isCanonical_printed (i : Int) : (printed i).IsCanonical where
  noPlus := by
    unfold printed
    split <;> exact nofun
  noLeadingZero h := by
    have hi : i = 0 := Int.natAbs_eq_zero.mp (eq_zero_of_head?_toDigits h)
    subst hi
    exact ⟨rfl, rfl⟩

/-- Without anything superfluous there is one spelling of an integer. -/
theorem IsCanonical.printed_value (h : w.IsCanonical) : printed w.value = w := by
  obtain ⟨sign, digits, nonempty, allDigits⟩ := w
  have hdigits := toDigits_ofDigitChars nonempty allDigits fun hzero => (h.noLeadingZero hzero).2
  -- A size and a sign can be told from their integer, because a zero has no minus sign.
  have hnegative : sign = .minus → 0 < Nat.ofDigitChars 10 digits 0 := by
    rintro rfl
    rw [Nat.pos_iff_ne_zero]
    intro hzero
    rw [hzero] at hdigits
    exact nomatch (h.noLeadingZero (congrArg List.head? hdigits.symm)).1
  have hsize : (sign.apply (Nat.ofDigitChars 10 digits 0)).natAbs = Nat.ofDigitChars 10 digits 0 := by
    cases sign <;> simp only [Sign.apply, Int.natAbs_neg, Int.natAbs_natCast]
  have hsign : (if sign.apply (Nat.ofDigitChars 10 digits 0) < 0 then Sign.minus else Sign.unsigned) = sign := by
    cases sign with
    | plus => exact absurd rfl h.noPlus
    | unsigned => exact if_neg (by simp only [Sign.apply]; omega)
    | minus => exact if_pos (by simp only [Sign.apply]; have := hnegative rfl; omega)
  refine Spelling.ext hsign ?_
  show Nat.toDigits 10 (sign.apply (Nat.ofDigitChars 10 digits 0)).natAbs = digits
  rw [hsize, hdigits]

/-- **The spelling of an integer that has nothing superfluous is the one that is printed.** -/
theorem IsCanonical.chars_eq (h : w.IsCanonical) : w.chars = (toString w.value).toList := by
  rw [← chars_printed, h.printed_value]

end Spelling

end Decimal
end PhpLowering
