import Mathlib
import PhpLowering.Literal.Conversion
import PhpLowering.Proofs.Decimal.Spelling
import PhpLowering.Proofs.Literal.Letters
import PhpLowering.Proofs.Text.Utf8

/-!
# Strings that hold integers

A string that is no number as a whole counts as the number that it begins with.  If it begins with the spelling
of an integer and what follows cannot carry the numeral on, then that integer is what the string is cast to
(`Literal.toInt64_of_leadingInteger`).  What follows may be anything else, as long as it is text.  If its bytes
are not well formed, the string is not looked at and counts as zero, whatever it begins with.

In the place of an array key a string addresses the integer part of the array if it is an integer that is spelled
as the integer itself would be printed.  `Literal.isIntegerKey_iff` says what passes: the texts that are printed
for the 64-bit integers, and these are the spellings in which nothing is superfluous.
-/

namespace PhpLowering

open Text (isBlank dropTrailingBlanks dropLeadingBlanks)
open Decimal (Spelling integer? float?)

/-- The bytes of a spelling. -/
def Decimal.Spelling.bytes (w : Spelling) : List UInt8 :=
  Text.Utf8.encode (String.ofList w.chars)

/-- A byte that can carry an integer numeral on: a digit, the point, or the mark of an exponent. -/
def Decimal.carriesOn (b : UInt8) : Bool :=
  (0x30 ≤ b && b ≤ 0x39) || b == 0x2E || b == 0x65 || b == 0x45

/-- A character that ends an integer numeral. -/
structure Decimal.Stops (c : Char) : Prop where
  digit : c.isDigit = false
  point : c ≠ '.'
  smallMark : c ≠ 'e'
  capitalMark : c ≠ 'E'

/-! ## What begins and what ends a spelling -/

namespace Decimal.Spelling

variable {w : Spelling} {cs : List Char} {c : Char}

/-- A spelling begins with a digit or a sign. -/
theorem chars_eq_cons (w : Spelling) :
    ∃ c rest, w.chars = c :: rest ∧ (c.isDigit = true ∨ c = '-' ∨ c = '+') ∧ ∀ d ∈ rest, d.isDigit = true := by
  obtain ⟨sign, digits, nonempty, allDigits⟩ := w
  cases sign with
  | unsigned =>
    cases digits with
    | nil => exact absurd rfl nonempty
    | cons c rest =>
      rw [List.forall_mem_cons] at allDigits
      exact ⟨c, rest, rfl, Or.inl allDigits.1, allDigits.2⟩
  | plus => exact ⟨'+', digits, rfl, Or.inr (Or.inr rfl), allDigits⟩
  | minus => exact ⟨'-', digits, rfl, Or.inr (Or.inl rfl), allDigits⟩

/-- Behind the spelling only what is not a digit is left. -/
theorem leadingDigits_append (w : Spelling) (hcs : ∀ c ∈ cs.head?, c.isDigit = false) :
    NumericText.leadingDigits (w.chars ++ cs) = w.chars := by
  obtain ⟨c, rest, hchars, hc, hrest⟩ := w.chars_eq_cons
  rw [hchars, List.cons_append, NumericText.leadingDigits, if_pos hc, List.takeWhile_append_of_pos hrest]
  cases cs with
  | nil => rw [List.takeWhile_nil, List.append_nil]
  | cons d rest' => rw [List.takeWhile_cons_of_neg (by simp [hcs d rfl]), List.append_nil]

theorem isBlank_of_isDigit (hc : c.isDigit = true) : isBlank c = false := by
  have hval := toNat_of_isDigit hc
  simp only [isBlank, Bool.or_eq_false_iff, Bool.and_eq_false_iff, decide_eq_false_iff_not, beq_eq_false_iff_ne]
  omega

/-- The blanks that are dropped behind a spelling stand behind all of it. -/
theorem dropTrailingBlanks_append (w : Spelling) :
    dropTrailingBlanks (w.chars ++ cs) = w.chars ++ dropTrailingBlanks cs := by
  have hlast : isBlank (w.digits.getLast w.nonempty) = false :=
    isBlank_of_isDigit (w.allDigits _ (List.getLast_mem w.nonempty))
  have hspelled : w.chars.reverse.dropWhile isBlank = w.chars.reverse := by
    rw [chars, ← List.dropLast_concat_getLast w.nonempty, ← List.append_assoc, List.reverse_append,
      List.reverse_singleton, List.singleton_append, List.dropWhile_cons_of_neg (by simp [hlast])]
  rw [dropTrailingBlanks, List.reverse_append, List.dropWhile_append]
  split
  · rename_i hempty
    rw [dropTrailingBlanks, List.isEmpty_iff.mp hempty, hspelled, List.reverse_nil, List.append_nil,
      List.reverse_reverse]
  · rw [List.reverse_append, List.reverse_reverse, dropTrailingBlanks]

/-- With anything else behind it a spelling is no integer numeral. -/
theorem integer?_append (w : Spelling) (hc : c.isDigit = false) : integer? (w.chars ++ c :: cs) = none := by
  simp [integer?, Decimal.splitSign_append, hc]

/-- The words for numbers that are not finite begin with letters. -/
theorem word?_of_isDigit {negative : Bool} (hc : c.isDigit = true) : Decimal.word? negative (c :: cs) = none := by
  have hval := toNat_of_isDigit hc
  have hlower : c.toLower = c := by
    unfold Char.toLower
    rw [dif_neg]
    rintro ⟨hcapital, -⟩
    rw [ge_iff_le, UInt32.le_iff_toNat_le] at hcapital
    have hA : 'A'.val.toNat = 65 := rfl
    have hc' : c.val.toNat = c.toNat := rfl
    omega
  rw [Decimal.word?_eq_none_iff, List.map_cons, hlower]
  have hletters : ∀ word ∈ Decimal.nonFiniteWords, word.head? ≠ some c := by
    simp only [Decimal.nonFiniteWords, List.forall_mem_cons]
    refine ⟨?_, ?_, ?_, nofun⟩ <;>
    · rintro h
      obtain rfl := Option.some.inj h
      exact nomatch hc
  exact fun hword => hletters _ hword rfl

/-- With something behind it that cannot carry it on, a spelling is no float numeral. -/
theorem float?_append (w : Spelling) (hc : Decimal.Stops c) : float? (w.chars ++ c :: cs) = none := by
  have hword : Decimal.word? (w.sign == .minus) (w.digits ++ c :: cs) = none := by
    obtain ⟨d, rest, hdigits⟩ := List.exists_cons_of_ne_nil w.nonempty
    rw [hdigits]
    exact word?_of_isDigit (w.allDigits d (by simp [hdigits]))
  have hspan : Decimal.spanDigits (w.digits ++ c :: cs) = (w.digits, c :: cs) := by
    rw [Decimal.spanDigits, List.takeWhile_append_of_pos w.allDigits, List.dropWhile_append_of_pos w.allDigits,
      List.takeWhile_cons_of_neg (by simp [hc.digit]), List.dropWhile_cons_of_neg (by simp [hc.digit]),
      List.append_nil]
  have hexponent : Decimal.exponent? (c :: cs) = none := by
    rw [Decimal.exponent?, if_neg (not_or.mpr ⟨hc.smallMark, hc.capitalMark⟩)]
  have hnonempty : w.digits.isEmpty = false := List.isEmpty_eq_false_iff.mpr w.nonempty
  simp [float?, Decimal.splitSign_append, hword, hspan, hc.point, hexponent, hnonempty]

end Decimal.Spelling

namespace NumericText

variable {data rest : List UInt8} {w : Spelling} {cs : List Char} {n : Int64}

theorem dropTrailingBlanks_prefix (cs : List Char) : dropTrailingBlanks cs <+: cs := by
  have hsuffix := List.dropWhile_suffix isBlank (l := cs.reverse)
  simpa only [dropTrailingBlanks, List.reverse_reverse] using List.reverse_prefix.mpr hsuffix

/-- An integer in front that nothing carries on is what a string is read as. -/
theorem read_of_body (hbody : body? data = some (w.chars ++ cs)) (hcs : ∀ c ∈ cs.head?, Decimal.Stops c)
    (hn : w.value = n.toInt) : read data = .int n := by
  have hinteger : integer? w.chars = some n := by
    rw [Spelling.integer?_chars, Decimal.fitInt64_eq_some_iff, hn]
  simp only [read, hbody, Spelling.dropTrailingBlanks_append]
  cases htrimmed : dropTrailingBlanks cs with
  | nil => rw [List.append_nil, hinteger]
  | cons c rest =>
    have hc : Decimal.Stops c := by
      obtain ⟨blanks, hblanks⟩ := dropTrailingBlanks_prefix cs
      exact hcs c (by rw [← hblanks, htrimmed]; rfl)
    simp only [Spelling.integer?_append _ hc.digit, Spelling.float?_append _ hc,
      Spelling.leadingDigits_append _ fun c hc => (hcs c hc).digit, hinteger, Option.getD_some]

/-- No spelling begins with a blank. -/
theorem dropLeadingBlanks_bytes (w : Spelling) (rest : List UInt8) :
    dropLeadingBlanks (w.bytes ++ rest) = w.bytes ++ rest := by
  obtain ⟨c, digits, hchars, hc, -⟩ := w.chars_eq_cons
  have hval : 43 ≤ c.val.toNat ∧ c.val.toNat ≤ 57 := by
    rcases hc with hc | rfl | rfl
    · have := Decimal.toNat_of_isDigit hc
      exact ⟨by show 43 ≤ c.toNat; omega, this.2⟩
    · decide
    · decide
  have hfirst : String.utf8EncodeChar c = [UInt8.ofNat c.val.toNat] := if_pos (by omega)
  have hblank : Text.isLeadingBlank (UInt8.ofNat c.val.toNat) = false := by
    have hbyte : (UInt8.ofNat c.val.toNat).toNat = c.val.toNat := Text.Utf8.toNat_ofNat (by omega)
    simp only [Text.isLeadingBlank, Bool.or_eq_false_iff, Bool.and_eq_false_iff, decide_eq_false_iff_not,
      beq_eq_false_iff_ne, ne_eq, ← UInt8.toNat_inj, UInt8.le_iff_toNat_le, hbyte, UInt8.reduceToNat]
    omega
  rw [Spelling.bytes, hchars, Text.Utf8.encode_ofList, List.flatMap_cons, hfirst, List.singleton_append,
    List.cons_append, dropLeadingBlanks, List.dropWhile_cons_of_neg (Bool.eq_false_iff.mp hblank)]

theorem body?_bytes (w : Spelling) (rest : List UInt8) :
    body? (w.bytes ++ rest) = (Text.Utf8.chars? rest).map (w.chars ++ ·) := by
  rw [body?, dropLeadingBlanks_bytes, Spelling.bytes, Text.Utf8.chars?_encode_append, String.toList_ofList]

end NumericText

/-- A character ends an integer numeral if its first byte does not carry it on. -/
theorem Decimal.stops_of_bytes {c : Char}
    (h : ∀ b ∈ (String.utf8EncodeChar c).head?, Decimal.carriesOn b = false) : Decimal.Stops c where
  digit := by
    by_contra hdigit
    have hval : 48 ≤ c.val.toNat ∧ c.val.toNat ≤ 57 := Decimal.toNat_of_isDigit (by simpa using hdigit)
    have hbytes : String.utf8EncodeChar c = [UInt8.ofNat c.val.toNat] := if_pos (by omega)
    have hbyte : (UInt8.ofNat c.val.toNat).toNat = c.val.toNat := Text.Utf8.toNat_ofNat (by omega)
    have hstops := h _ (by rw [hbytes]; rfl)
    simp only [Decimal.carriesOn, Bool.or_eq_false_iff, Bool.and_eq_false_iff, decide_eq_false_iff_not,
      UInt8.le_iff_toNat_le, hbyte, UInt8.reduceToNat] at hstops
    omega
  point := by
    rintro rfl
    exact nomatch h 0x2E (by decide)
  smallMark := by
    rintro rfl
    exact nomatch h 0x65 (by decide)
  capitalMark := by
    rintro rfl
    exact nomatch h 0x45 (by decide)

namespace Literal

/-- **An integer that a string begins with decides what the string is cast to**, if the next byte does not carry
the numeral on and the bytes are text.  Otherwise the string counts as zero. -/
theorem toInt64_of_leadingInteger (w : Spelling) (n : Int64) (rest : List UInt8) (hn : w.value = n.toInt)
    (hrest : ∀ b ∈ rest.head?, Decimal.carriesOn b = false) :
    (∀ text, Text.Utf8.encode text = w.bytes ++ rest →
      (bytes (w.bytes ++ rest)).toInt64 = n ∧ (string text).toInt64 = n) ∧
    ((∀ text, Text.Utf8.encode text ≠ w.bytes ++ rest) → (bytes (w.bytes ++ rest)).toInt64 = 0) := by
  constructor
  · intro text htext
    obtain ⟨cs, hcs⟩ : ∃ cs, Text.Utf8.chars? rest = some cs := by
      have hchars := Text.Utf8.chars?_encode_append (String.ofList w.chars) rest
      rw [← Spelling.bytes, ← htext, Text.Utf8.chars?_encode] at hchars
      exact (Option.map_eq_some_iff.mp hchars.symm).imp fun _ h => h.1
    have hstops : ∀ c ∈ cs.head?, Decimal.Stops c := by
      intro c hc
      obtain ⟨cs', rfl⟩ := List.head?_eq_some_iff.mp hc
      rw [Text.Utf8.chars?_eq_some_iff, Text.Utf8.encode_ofList, List.flatMap_cons] at hcs
      refine Decimal.stops_of_bytes fun b hb => hrest b ?_
      rw [hcs, List.head?_append, hb, Option.some_or]
      rfl
    have hread : NumericText.read (w.bytes ++ rest) = .int n :=
      NumericText.read_of_body (by rw [NumericText.body?_bytes, hcs, Option.map_some]) hstops hn
    simp only [toInt64, toNumeric, htext, hread, and_self]
  · intro hbroken
    have hchars : Text.Utf8.chars? (w.bytes ++ rest) = none := by
      rw [Option.eq_none_iff_forall_ne_some]
      exact fun cs hcs => hbroken _ (Text.Utf8.chars?_eq_some_iff.mp hcs).symm
    have hbody : NumericText.body? (w.bytes ++ rest) = none := by
      rw [NumericText.body?, NumericText.dropLeadingBlanks_bytes, hchars]
    simp only [toInt64, toNumeric, NumericText.read, hbody]

/-- A minus sign, superfluous zeros, and a letter that is no mark of an exponent behind them. -/
theorem toInt64_minusSeven :
    ((⟨.minus, ['0', '7'], nofun, List.all_eq_true.mp rfl⟩ : Spelling).value = (-7 : Int64).toInt ∧
      ∀ b ∈ [(0x78 : UInt8)].head?, Decimal.carriesOn b = false) ∧
      (string "-07x").toInt64 = -7 := by
  have hvalue : (⟨.minus, ['0', '7'], nofun, List.all_eq_true.mp rfl⟩ : Spelling).value = (-7 : Int64).toInt := by
    decide
  have hrest : ∀ b ∈ [(0x78 : UInt8)].head?, Decimal.carriesOn b = false := by
    rintro _ ⟨⟩
    rfl
  exact ⟨⟨hvalue, hrest⟩, ((toInt64_of_leadingInteger _ (-7) [0x78] hvalue hrest).1 "-07x" (by decide)).2⟩

/-- **A byte that is no text hides the integer in front of it.** -/
theorem toInt64_brokenText :
    (⟨.unsigned, ['1', '2'], nofun, List.all_eq_true.mp rfl⟩ : Spelling).value = (12 : Int64).toInt ∧
      (⟨.unsigned, ['1', '2'], nofun, List.all_eq_true.mp rfl⟩ : Spelling).bytes = [0x31, 0x32] ∧
      Decimal.carriesOn 0xFF = false ∧ (bytes ([0x31, 0x32] ++ [0xFF])).toInt64 ≠ 12 := by
  decide

end Literal

/-! ## Integer keys -/

/-- A printed integer is read back. -/
theorem Decimal.integer?_toString (n : Int64) : integer? (toString n.toInt).toList = some n :=
  Spelling.integer?_eq_some_iff.mpr ⟨.printed n.toInt, Spelling.chars_printed _, Spelling.value_printed _⟩

/-- Reading and printing a text gives it back if and only if it was printed. -/
theorem NumericText.isCanonicalInteger_encode {text : String} :
    isCanonicalInteger (Text.Utf8.encode text) = true ↔ ∃ n : Int64, text = toString n.toInt := by
  rw [isCanonicalInteger, Text.Utf8.chars?_encode]
  constructor
  · intro h
    cases hread : integer? text.toList with
    | none => simp [hread] at h
    | some n =>
      simp only [hread, beq_iff_eq] at h
      exact ⟨n, (String.toList_injective h).symm⟩
  · rintro ⟨n, rfl⟩
    simp only [Decimal.integer?_toString, beq_self_eq_true]

/-- What is printed for the 64-bit integers are the spellings of them in which nothing is superfluous. -/
theorem Decimal.exists_printed_iff {text : String} :
    (∃ n : Int64, text = toString n.toInt) ↔
      ∃ w : Spelling, w.IsCanonical ∧ -2 ^ 63 ≤ w.value ∧ w.value < 2 ^ 63 ∧ w.chars = text.toList := by
  constructor
  · rintro ⟨n, rfl⟩
    refine ⟨.printed n.toInt, Spelling.isCanonical_printed _, ?_, ?_, Spelling.chars_printed _⟩
    · rw [Spelling.value_printed]
      exact n.le_toInt
    · rw [Spelling.value_printed]
      exact n.toInt_lt
  · rintro ⟨w, hw, hleast, hmost, hchars⟩
    refine ⟨Int64.ofInt w.value, String.toList_injective ?_⟩
    rw [Int64.toInt_ofInt_of_le hleast hmost, ← hw.chars_eq, hchars]

namespace Literal

/-- **A string is an integer key if and only if it is printed for a 64-bit integer**, be it text or binary: it
spells the integer with no plus sign, no zero in front, no minus sign in front of a zero, and no blank. -/
theorem isIntegerKey_iff (text : String) :
    ((string text).isIntegerKey = true ↔ ∃ n : Int64, text = toString n.toInt) ∧
      ((bytes (Text.Utf8.encode text)).isIntegerKey = true ↔ ∃ n : Int64, text = toString n.toInt) ∧
      ((∃ n : Int64, text = toString n.toInt) ↔
        ∃ w : Spelling, w.IsCanonical ∧ -2 ^ 63 ≤ w.value ∧ w.value < 2 ^ 63 ∧ w.chars = text.toList) :=
  ⟨NumericText.isCanonicalInteger_encode, NumericText.isCanonicalInteger_encode, Decimal.exists_printed_iff⟩

end Literal

end PhpLowering
