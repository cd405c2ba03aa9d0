import Mathlib.Tactic.Common
import PhpLowering.Analysis.Fold
import PhpLowering.Proofs.Text.Utf8

/-!
# Strings that begin with a letter

A string that is no number counts as the number that it begins with, and as zero if it begins with none.
So a string with a letter in front counts as zero.  But a number can be spelled with letters: the grammar
of float numerals has three words for the numbers that are not finite, and a string that is one of these
words counts as what the word stands for (`NumericText.NamesNonFinite`).

`Literal.zero_of_letter` says that these are the only ones.
-/

namespace PhpLowering

/-- The letters among the ASCII characters. -/
def Text.isLetter (b : UInt8) : Bool :=
  (0x41 ≤ b && b ≤ 0x5A) || (0x61 ≤ b && b ≤ 0x7A)

/-! ## Characters that no numeral begins with -/

/-- A character that is neither a digit nor a sign, neither a point nor a blank. -/
structure IsWordChar (c : Char) : Prop where
  digit : c.isDigit = false
  minus : c ≠ '-'
  plus : c ≠ '+'
  point : c ≠ '.'
  blank : Text.isBlank c = false

/-- The numbers of the letters. -/
theorem Text.toNat_of_isLetter {b : UInt8} (hb : isLetter b = true) :
    65 ≤ b.toNat ∧ b.toNat ≤ 90 ∨ 97 ≤ b.toNat ∧ b.toNat ≤ 122 := by
  simpa [isLetter, UInt8.le_iff_toNat_le] using hb

theorem isWordChar_of_isLetter {b : UInt8} (hb : Text.isLetter b = true) : IsWordChar (Char.ofNat b.toNat) := by
  have hletter := Text.toNat_of_isLetter hb
  have hc : (Char.ofNat b.toNat).toNat = b.toNat := by
    rw [Char.ofNat, dif_pos (show b.toNat.isValidChar from Or.inl (by omega))]
    rfl
  generalize Char.ofNat b.toNat = c at hc
  have hne : ∀ {d : Char}, d.toNat < 65 → c ≠ d := by
    rintro d hd rfl
    omega
  refine ⟨?_, hne (by decide), hne (by decide), hne (by decide), ?_⟩
  · have hval : c.val.toNat = b.toNat := hc
    simp only [Char.isDigit, Bool.and_eq_false_iff, decide_eq_false_iff_not, ge_iff_le, UInt32.le_iff_toNat_le,
      hval]
    right
    show ¬ b.toNat ≤ 57
    omega
  · simp only [Text.isBlank, hc, Bool.or_eq_false_iff, Bool.and_eq_false_iff, decide_eq_false_iff_not,
      beq_eq_false_iff_ne]
    omega

namespace Decimal

variable {c : Char} {cs : List Char}

theorem splitSign_of_word (hc : IsWordChar c) : splitSign (c :: cs) = (false, c :: cs) := by
  unfold splitSign
  split
  · rename_i heq
    exact absurd (List.cons.inj heq).1 hc.minus
  · rename_i heq
    exact absurd (List.cons.inj heq).1 hc.plus
  · rfl

theorem integer?_of_word (hc : IsWordChar c) : integer? (c :: cs) = none := by
  simp [integer?, splitSign_of_word hc, hc.digit]

/-- Without a digit or a point in front only a word is left. -/
theorem float?_of_word (hc : IsWordChar c) : float? (c :: cs) = word? false (c :: cs) := by
  have hspan : spanDigits (c :: cs) = ([], c :: cs) := by
    simp [spanDigits, hc.digit]
  cases hword : word? false (c :: cs) with
  | some x => simp only [float?, splitSign_of_word hc, hword]
  | none => simp [float?, splitSign_of_word hc, hword, hspan, hc.point]

/-- The words for numbers that are not finite, in small letters. -/
def nonFiniteWords : List (List Char) :=
  ["inf".toList, "infinity".toList, "nan".toList]

theorem word?_eq_none_iff {negative : Bool} : word? negative cs = none ↔ cs.map Char.toLower ∉ nonFiniteWords := by
  unfold word? nonFiniteWords
  dsimp only
  split
  · rename_i h
    rcases h with h | h <;> simp [h]
  · rename_i h
    split
    · rename_i hnan
      simp [hnan]
    · rename_i hnan
      simp only [true_iff]
      intro hmem
      rcases List.mem_cons.mp hmem with hinf | hmem
      · exact h (Or.inl hinf)
      · rcases List.mem_cons.mp hmem with hinfinity | hmem
        · exact h (Or.inr hinfinity)
        · exact hnan (List.mem_singleton.mp hmem)

end Decimal

/-! ## Strings -/

namespace NumericText

variable {bytes : List UInt8} {c : Char} {cs : List Char}

/-- The first byte behind the blanks in front is a letter. -/
def BeginsWithLetter (bytes : List UInt8) : Prop :=
  ∃ b rest, Text.dropLeadingBlanks bytes = b :: rest ∧ Text.isLetter b = true

/-- Apart from the blanks around it, the string is a word for a number that is not finite. -/
def NamesNonFinite (bytes : List UInt8) : Prop :=
  ∃ chars, body? bytes = some chars ∧
    (Text.dropTrailingBlanks chars).map Char.toLower ∈ Decimal.nonFiniteWords

theorem dropTrailingBlanks_of_word (hc : IsWordChar c) :
    Text.dropTrailingBlanks (c :: cs) = c :: Text.dropTrailingBlanks cs := by
  rw [Text.dropTrailingBlanks, List.reverse_cons, List.dropWhile_append]
  split
  · rename_i hempty
    rw [Text.dropTrailingBlanks, List.isEmpty_iff.mp hempty, List.dropWhile_cons_of_neg (by simp [hc.blank])]
    rfl
  · rw [List.reverse_append]
    rfl

theorem leadingDigits_of_word (hc : IsWordChar c) : leadingDigits (c :: cs) = [] := by
  rw [leadingDigits, if_neg]
  simp [hc.digit, hc.minus, hc.plus]

/-- Behind the blanks a string with a letter in front is a word, unless its bytes are no text. -/
theorem body?_of_letter (h : BeginsWithLetter bytes) :
    body? bytes = none ∨ ∃ c cs, IsWordChar c ∧ body? bytes = some (c :: cs) := by
  obtain ⟨b, rest, hbytes, hletter⟩ := h
  have hb : b < 0x80 := by
    have hrange := Text.toNat_of_isLetter hletter
    rw [UInt8.lt_iff_toNat_lt]
    show b.toNat < 128
    omega
  rw [body?, hbytes, Text.Utf8.chars?_cons hb]
  cases Text.Utf8.chars? rest with
  | none => exact Or.inl rfl
  | some cs => exact Or.inr ⟨_, cs, isWordChar_of_isLetter hletter, rfl⟩

/-- **A string that begins with a letter is read as zero**, or it is a word for a number. -/
theorem read_of_letter (h : BeginsWithLetter bytes) :
    (NamesNonFinite bytes ∧ ∃ x, read bytes = .float x) ∨ (¬ NamesNonFinite bytes ∧ read bytes = .int 0) := by
  rcases body?_of_letter h with hnone | ⟨c, cs, hc, hbody⟩
  · refine Or.inr ⟨fun hnames => ?_, ?_⟩
    · obtain ⟨chars, hchars, -⟩ := hnames
      exact absurd (hnone.symm.trans hchars) (Option.some_ne_none chars).symm
    · rw [read, hnone]
  · have hnames : NamesNonFinite bytes ↔
        (Text.dropTrailingBlanks (c :: cs)).map Char.toLower ∈ Decimal.nonFiniteWords := by
      simp [NamesNonFinite, hbody]
    rw [dropTrailingBlanks_of_word hc] at hnames
    cases hword : Decimal.word? false (c :: Text.dropTrailingBlanks cs) with
    | some x =>
      refine Or.inl ⟨?_, x, ?_⟩
      · by_contra hno
        rw [hnames, ← Decimal.word?_eq_none_iff, hword] at hno
        exact Option.some_ne_none x hno
      · simp only [read, hbody, dropTrailingBlanks_of_word hc, Decimal.integer?_of_word hc,
          Decimal.float?_of_word hc, hword]
    | none =>
      refine Or.inr ⟨fun hyes => Decimal.word?_eq_none_iff.mp hword (hnames.mp hyes), ?_⟩
      simp only [read, hbody, dropTrailingBlanks_of_word hc, Decimal.integer?_of_word hc,
        Decimal.float?_of_word hc, hword, leadingDigits_of_word hc]
      rfl

end NumericText

namespace Literal

open NumericText (BeginsWithLetter NamesNonFinite)

theorem toNumeric_of_isString {v : Literal} (h : v.isString = true) :
    v.toNumeric = NumericText.read v.toBytes := by
  cases v with
  | string | bytes => rfl
  | _ => cases h

/-- **Strings that begin with a letter count as zero, but for the words for numbers that are not finite.**
The blanks in front of the letter do not count, and it does not matter whether the string is text or binary.
Its value under the unary plus is zero exactly if it is none of the words; and then its cast to an integer
is zero, and in a sum it stands for zero. -/
theorem zero_of_letter (v w : Literal) (hstring : v.isString = true) (hletter : BeginsWithLetter v.toBytes) :
    (v.plus = .int 0 ↔ ¬ NamesNonFinite v.toBytes) ∧
      (¬ NamesNonFinite v.toBytes →
        v.toInt64 = 0 ∧ UnaryOp.plus.fold v = some (.int 0) ∧ UnaryOp.intCast.fold v = some (.int 0) ∧
        BinaryOp.add.fold v w = BinaryOp.add.fold (.int 0) w ∧
        BinaryOp.add.fold w v = BinaryOp.add.fold w (.int 0)) := by
  have hnumeric := toNumeric_of_isString hstring
  rcases NumericText.read_of_letter hletter with ⟨hnames, x, hread⟩ | ⟨hnames, hread⟩
  · have hplus : v.plus = .double x := by
      rw [plus, hnumeric, hread]
    refine ⟨⟨fun hzero => ?_, fun hno => absurd hnames hno⟩, fun hno => absurd hnames hno⟩
    cases hplus.symm.trans hzero
  · have hplus : v.plus = .int 0 := by
      rw [plus, hnumeric, hread]
      rfl
    have hint : v.toInt64 = 0 := by
      rw [toInt64, hnumeric, hread]
    refine ⟨⟨fun _ => hnames, fun _ => hplus⟩, fun _ => ⟨hint, congrArg some hplus, ?_, ?_, ?_⟩⟩
    · rw [UnaryOp.fold, hint]
      rfl
    · simp only [BinaryOp.fold, add, arithmetic, hnumeric, hread]
      rfl
    · simp only [BinaryOp.fold, add, arithmetic, hnumeric, hread]
      rfl

/-- A longer word than the one it begins with, behind a blank and as a binary string. -/
theorem zero_of_letter_info :
    ((bytes [0x20, 0x69, 0x6E, 0x66, 0x6F]).isString = true ∧
      BeginsWithLetter (bytes [0x20, 0x69, 0x6E, 0x66, 0x6F]).toBytes) ∧
      (bytes [0x20, 0x69, 0x6E, 0x66, 0x6F]).plus = .int 0 := by
  have hletter : BeginsWithLetter (bytes [0x20, 0x69, 0x6E, 0x66, 0x6F]).toBytes :=
    ⟨0x69, [0x6E, 0x66, 0x6F], rfl, rfl⟩
  refine ⟨⟨rfl, hletter⟩, (zero_of_letter _ .null rfl hletter).1.mpr ?_⟩
  rintro ⟨chars, hchars, hword⟩
  obtain rfl := Option.some.inj hchars
  exact absurd hword (by decide)

/-- **The string `inf` begins with a letter and counts as infinity.** -/
theorem plus_inf :
    BeginsWithLetter (string "inf").toBytes ∧
      (string "inf").plus = .double (Float.ofBits 0x7FF0000000000000) ∧ (string "inf").plus ≠ .int 0 :=
  ⟨⟨0x69, [0x6E, 0x66], by decide, rfl⟩, rfl, by rintro ⟨⟩⟩

end Literal
end PhpLowering
