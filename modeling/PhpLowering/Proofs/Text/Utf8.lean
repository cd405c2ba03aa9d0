import Mathlib.Data.List.Basic
import Mathlib.Tactic.Common
import PhpLowering.Text.Utf8

/-!
# Reading back what was written

The bytes of a text determine the text.  `encode` takes a text apart character by character,
and the scan that starts between two characters gives the next one back and is between
characters again (`scan_utf8EncodeChar`).  So no text is lost on the way through its bytes
(`decodeLossy_encode`).

Nothing else is read: what the scan takes for a character are the bytes of that character, so bytes
are well formed only if they are those of a text (`chars?_eq_some_iff`).
-/

namespace PhpLowering
namespace Text
namespace Utf8

theorem encode_append (a b : String) : encode (a ++ b) = encode a ++ encode b := by
  simp [encode, String.toUTF8, String.toByteArray_append]

theorem encode_injective : Function.Injective encode := by
  intro a b h
  have hdata : a.toUTF8.data = b.toUTF8.data := Array.toList_inj.mp h
  exact String.toByteArray_inj.mp (ByteArray.ext hdata)

theorem encode_ofList (cs : List Char) :
    encode (String.ofList cs) = cs.flatMap String.utf8EncodeChar := by
  simp [encode, String.toUTF8, String.toByteArray_ofList, List.utf8Encode]

/-! ## One character -/

variable {n owed bits : Nat} {lo hi : UInt8} {bytes : List UInt8} {cs : List Char}

theorem toNat_ofNat (h : n < 256) : (UInt8.ofNat n).toNat = n :=
  UInt8.toNat_ofNat_of_lt' h

theorem start_one (h : n < 0x80) : start (UInt8.ofNat n) = ([some (Char.ofNat n)], .idle) := by
  have hn : (UInt8.ofNat n).toNat = n := toNat_ofNat (by omega)
  simp only [start, UInt8.lt_iff_toNat_lt, hn, UInt8.reduceToNat, if_pos h]

theorem start_two (h : 0xC2 ≤ n) (h' : n < 0xE0) :
    start (UInt8.ofNat n) = ([], .owing 0 0x80 0xBF (n - 0xC0)) := by
  have hn : (UInt8.ofNat n).toNat = n := toNat_ofNat (by omega)
  simp only [start, UInt8.lt_iff_toNat_lt, hn, UInt8.reduceToNat]
  rw [if_neg (by omega), if_neg (by omega), if_pos h']

theorem start_three (h : 0xE0 ≤ n) (h' : n < 0xF0) :
    start (UInt8.ofNat n) =
      ([], .owing 1 (if n = 0xE0 then 0xA0 else 0x80) (if n = 0xED then 0x9F else 0xBF) (n - 0xE0)) := by
  have hn : (UInt8.ofNat n).toNat = n := toNat_ofNat (by omega)
  simp only [start, UInt8.lt_iff_toNat_lt, ← UInt8.toNat_inj, hn, UInt8.reduceToNat]
  rw [if_neg (by omega), if_neg (by omega), if_neg (by omega), if_pos h']

theorem start_four (h : 0xF0 ≤ n) (h' : n < 0xF5) :
    start (UInt8.ofNat n) =
      ([], .owing 2 (if n = 0xF0 then 0x90 else 0x80) (if n = 0xF4 then 0x8F else 0xBF) (n - 0xF0)) := by
  have hn : (UInt8.ofNat n).toNat = n := toNat_ofNat (by omega)
  simp only [start, UInt8.lt_iff_toNat_lt, ← UInt8.toNat_inj, hn, UInt8.reduceToNat]
  rw [if_neg (by omega), if_neg (by omega), if_neg (by omega), if_neg (by omega), if_pos h']

theorem within_bounds (h : lo.toNat ≤ n) (h' : n ≤ hi.toNat) :
    (lo ≤ UInt8.ofNat n ∧ UInt8.ofNat n ≤ hi) ∧ (UInt8.ofNat n).toNat = n := by
  have hn : (UInt8.ofNat n).toNat = n := toNat_ofNat (Nat.lt_of_le_of_lt h' hi.toNat_lt)
  rw [UInt8.le_iff_toNat_le, UInt8.le_iff_toNat_le, hn]
  exact ⟨⟨h, h'⟩, rfl⟩

/-- The last byte of a character. -/
theorem scan_last (h : lo.toNat ≤ n) (h' : n ≤ hi.toNat) (rest : List UInt8) :
    scan (.owing 0 lo hi bits) (UInt8.ofNat n :: rest) =
      some (Char.ofNat (bits * 64 + (n - 0x80))) :: scan .idle rest := by
  obtain ⟨hbounds, hn⟩ := within_bounds h h'
  simp only [scan, step, if_pos hbounds, hn, List.cons_append, List.nil_append]

/-- A byte in the middle of a character. -/
theorem scan_more (h : lo.toNat ≤ n) (h' : n ≤ hi.toNat) (rest : List UInt8) :
    scan (.owing (owed + 1) lo hi bits) (UInt8.ofNat n :: rest) =
      scan (.owing owed 0x80 0xBF (bits * 64 + (n - 0x80))) rest := by
  obtain ⟨hbounds, hn⟩ := within_bounds h h'
  simp only [scan, step, if_pos hbounds, hn, List.nil_append]

theorem scan_start (b : UInt8) (rest : List UInt8) :
    scan .idle (b :: rest) = (start b).1 ++ scan (start b).2 rest := rfl

/-- A character is no surrogate and not beyond the last one. -/
theorem val_bounds (c : Char) :
    c.val.toNat < 0xD800 ∨ 0xDFFF < c.val.toNat ∧ c.val.toNat < 0x110000 :=
  c.valid

/-- **The scan gives back a character that was written, and is between characters again.** -/
theorem scan_utf8EncodeChar (c : Char) (rest : List UInt8) :
    scan .idle (String.utf8EncodeChar c ++ rest) = some c :: scan .idle rest := by
  have hvalid := val_bounds c
  have hc : Char.ofNat c.val.toNat = c := Char.ofNat_toNat c
  simp only [String.utf8EncodeChar]
  generalize c.val.toNat = v at hvalid hc ⊢
  have hchar : ∀ m, m = v → Char.ofNat m = c := fun m hm => by rw [hm, hc]
  -- The four lengths that a character can have; the bounds on the second byte are where the
  -- scan is stricter than the arithmetic.
  split
  · rw [List.cons_append, scan_start, start_one (by omega), hc]
    rfl
  · split
    · rw [List.cons_append, scan_start, start_two (by omega) (by omega)]
      simp only [List.cons_append, List.nil_append]
      rw [scan_last (by simp) (by simp; omega), hchar _ (by omega)]
    · split
      · rw [List.cons_append, scan_start, start_three (by omega) (by omega)]
        simp only [List.cons_append, List.nil_append]
        rw [scan_more (by split <;> simp; omega) (by split <;> simp <;> omega),
          scan_last (by simp) (by simp; omega), hchar _ (by omega)]
      · rw [List.cons_append, scan_start, start_four (by omega) (by omega)]
        simp only [List.cons_append, List.nil_append]
        rw [scan_more (by split <;> simp; omega) (by split <;> simp <;> omega),
          scan_more (by simp) (by simp; omega), scan_last (by simp) (by simp; omega),
          hchar _ (by omega)]

/-- An ASCII byte between characters is a character by itself. -/
theorem chars?_cons {b : UInt8} (hb : b < 0x80) (rest : List UInt8) :
    chars? (b :: rest) = (chars? rest).map (Char.ofNat b.toNat :: ·) := by
  rw [chars?, scan_start, start, if_pos hb, List.singleton_append, List.mapM_cons, chars?]
  cases (scan .idle rest).mapM id <;> rfl

/-! ## Whole texts -/

/-- A text in front of other bytes is given back before them. -/
theorem scan_encode_append (s : String) (bytes : List UInt8) :
    scan .idle (encode s ++ bytes) = s.toList.map some ++ scan .idle bytes := by
  rw [← String.ofList_toList (s := s), encode_ofList, String.toList_ofList]
  induction s.toList with
  | nil => rfl
  | cons c rest ih =>
    rw [List.flatMap_cons, List.append_assoc, scan_utf8EncodeChar, ih, List.map_cons, List.cons_append]

theorem scan_encode (s : String) : scan .idle (encode s) = s.toList.map some := by
  simpa [scan] using scan_encode_append s []

/-- **A text is what its bytes spell.** -/
theorem decodeLossy_encode (s : String) : decodeLossy (encode s) = s := by
  rw [decodeLossy, scan_encode, List.map_map]
  exact (congrArg String.ofList (List.map_id s.toList)).trans String.ofList_toList

/-! ## Well-formed bytes -/

theorem mapM_id_eq_some_iff {pieces : List (Option Char)} : pieces.mapM id = some cs ↔ pieces = cs.map some := by
  induction pieces generalizing cs with
  | nil => cases cs <;> simp
  | cons piece rest ih =>
    cases piece with
    | none => cases cs <;> simp [List.mapM_cons]
    | some c =>
      cases cs with
      | nil => cases hrest : rest.mapM id <;> simp [List.mapM_cons, hrest]
      | cons d ds =>
        rw [List.map_cons, List.cons.injEq, ← ih, List.mapM_cons]
        cases hrest : rest.mapM id <;> simp

/-- Bytes are well formed if nothing that the scan finds is broken. -/
theorem chars?_eq_some_iff_scan : chars? bytes = some cs ↔ scan .idle bytes = cs.map some :=
  mapM_id_eq_some_iff

/-- Inside a character only a byte between the bounds keeps the bytes well formed. -/
theorem of_scan_owing (h : scan (.owing owed lo hi bits) bytes = cs.map some) :
    ∃ n rest, lo.toNat ≤ n ∧ n ≤ hi.toNat ∧ bytes = UInt8.ofNat n :: rest := by
  cases bytes with
  | nil => cases cs <;> simp [scan] at h
  | cons b rest =>
    by_cases hb : lo ≤ b ∧ b ≤ hi
    · exact ⟨b.toNat, rest, UInt8.le_iff_toNat_le.mp hb.1, UInt8.le_iff_toNat_le.mp hb.2, by simp⟩
    · cases cs <;> simp [scan, step, hb] at h

theorem of_scan_last (h : scan (.owing 0 lo hi bits) bytes = cs.map some) :
    ∃ n rest cs', lo.toNat ≤ n ∧ n ≤ hi.toNat ∧ bytes = UInt8.ofNat n :: rest ∧
      cs = Char.ofNat (bits * 64 + (n - 0x80)) :: cs' ∧ scan .idle rest = cs'.map some := by
  obtain ⟨n, rest, hlo, hhi, rfl⟩ := of_scan_owing h
  rw [scan_last hlo hhi] at h
  cases cs with
  | nil => exact nomatch h
  | cons c cs' =>
    obtain ⟨hc, hrest⟩ := List.cons.inj h
    exact ⟨n, rest, cs', hlo, hhi, rfl, by rw [Option.some.inj hc], hrest⟩

theorem of_scan_more (h : scan (.owing (owed + 1) lo hi bits) bytes = cs.map some) :
    ∃ n rest, lo.toNat ≤ n ∧ n ≤ hi.toNat ∧ bytes = UInt8.ofNat n :: rest ∧
      scan (.owing owed 0x80 0xBF (bits * 64 + (n - 0x80))) rest = cs.map some := by
  obtain ⟨n, rest, hlo, hhi, rfl⟩ := of_scan_owing h
  exact ⟨n, rest, hlo, hhi, rfl, by rwa [scan_more hlo hhi] at h⟩

theorem toNat_val_ofNat {v : Nat} (h : v < 0xD800 ∨ 0xDFFF < v ∧ v < 0x110000) : (Char.ofNat v).val.toNat = v := by
  rw [Char.ofNat, dif_pos h]
  rfl

/-- The bytes are those of the first character and others that spell the rest of the text. -/
def SpellsFirst (bytes : List UInt8) (cs : List Char) : Prop :=
  ∃ c cs' rest, cs = c :: cs' ∧ bytes = String.utf8EncodeChar c ++ rest ∧ scan .idle rest = cs'.map some

theorem spellsFirst_one (hn : n < 0x80) (h : scan .idle (UInt8.ofNat n :: bytes) = cs.map some) :
    SpellsFirst (UInt8.ofNat n :: bytes) cs := by
  rw [scan_start, start_one hn] at h
  cases cs with
  | nil => exact nomatch h
  | cons c cs' =>
    obtain ⟨hc, hrest⟩ := List.cons.inj h
    obtain rfl := Option.some.inj hc
    refine ⟨_, cs', bytes, rfl, ?_, hrest⟩
    simp only [String.utf8EncodeChar, toNat_val_ofNat (Or.inl (show n < 0xD800 by omega))]
    rw [if_pos (by omega)]
    rfl

theorem spellsFirst_two (hn : 0xC2 ≤ n) (hn' : n < 0xE0)
    (h : scan .idle (UInt8.ofNat n :: bytes) = cs.map some) : SpellsFirst (UInt8.ofNat n :: bytes) cs := by
  rw [scan_start, start_two hn hn'] at h
  obtain ⟨m, rest, cs', hlo, hhi, rfl, rfl, hrest⟩ := of_scan_last h
  refine ⟨_, cs', rest, rfl, ?_, hrest⟩
  simp only [UInt8.reduceToNat] at hlo hhi
  generalize hv : (n - 0xC0) * 64 + (m - 0x80) = v
  have hfirst : v / 64 % 32 + 192 = n := by omega
  have hlast : v % 64 + 128 = m := by omega
  simp only [String.utf8EncodeChar, toNat_val_ofNat (Or.inl (show v < 0xD800 by omega)), hfirst, hlast]
  rw [if_neg (by omega), if_pos (by omega)]
  rfl

theorem spellsFirst_three (hn : 0xE0 ≤ n) (hn' : n < 0xF0)
    (h : scan .idle (UInt8.ofNat n :: bytes) = cs.map some) : SpellsFirst (UInt8.ofNat n :: bytes) cs := by
  rw [scan_start, start_three hn hn'] at h
  obtain ⟨m, rest, hlo, hhi, rfl, hmore⟩ := of_scan_more h
  obtain ⟨k, rest, cs', hlo', hhi', rfl, rfl, hrest⟩ := of_scan_last hmore
  refine ⟨_, cs', rest, rfl, ?_, hrest⟩
  simp only [UInt8.reduceToNat, apply_ite UInt8.toNat] at hlo hhi hlo' hhi'
  generalize hv : ((n - 0xE0) * 64 + (m - 0x80)) * 64 + (k - 0x80) = v
  have hleast : 128 ≤ m := by
    split at hlo <;> omega
  have hmost : m ≤ 191 := by
    split at hhi <;> omega
  -- The bounds on the second byte keep out what is shorter, and the surrogates.
  have hlow : 0x7FF < v := by
    split at hlo <;> omega
  have hvalid : v < 0xD800 ∨ 0xDFFF < v ∧ v < 0x110000 := by
    split at hhi <;> omega
  have hfirst : v / 4096 % 16 + 224 = n := by omega
  have hsecond : v / 64 % 64 + 128 = m := by omega
  have hlast : v % 64 + 128 = k := by omega
  simp only [String.utf8EncodeChar, toNat_val_ofNat hvalid, hfirst, hsecond, hlast]
  rw [if_neg (by omega), if_neg (by omega), if_pos (by omega)]
  rfl

theorem spellsFirst_four (hn : 0xF0 ≤ n) (hn' : n < 0xF5)
    (h : scan .idle (UInt8.ofNat n :: bytes) = cs.map some) : SpellsFirst (UInt8.ofNat n :: bytes) cs := by
  rw [scan_start, start_four hn hn'] at h
  obtain ⟨m, rest, hlo, hhi, rfl, hmore⟩ := of_scan_more h
  obtain ⟨k, rest, hlo', hhi', rfl, hmore'⟩ := of_scan_more hmore
  obtain ⟨l, rest, cs', hlo'', hhi'', rfl, rfl, hrest⟩ := of_scan_last hmore'
  refine ⟨_, cs', rest, rfl, ?_, hrest⟩
  simp only [UInt8.reduceToNat, apply_ite UInt8.toNat] at hlo hhi hlo' hhi' hlo'' hhi''
  generalize hv : (((n - 0xF0) * 64 + (m - 0x80)) * 64 + (k - 0x80)) * 64 + (l - 0x80) = v
  have hleast : 128 ≤ m := by
    split at hlo <;> omega
  have hmost : m ≤ 191 := by
    split at hhi <;> omega
  -- The bounds on the second byte keep out what is shorter, and what is beyond the last character.
  have hlow : 0xFFFF < v := by
    split at hlo <;> omega
  have hhigh : v < 0x110000 := by
    split at hhi <;> omega
  have hfirst : v / 262144 % 8 + 240 = n := by omega
  have hsecond : v / 4096 % 64 + 128 = m := by omega
  have hthird : v / 64 % 64 + 128 = k := by omega
  have hlast : v % 64 + 128 = l := by omega
  simp only [String.utf8EncodeChar, toNat_val_ofNat (Or.inr ⟨by omega, hhigh⟩), hfirst, hsecond, hthird, hlast]
  rw [if_neg (by omega), if_neg (by omega), if_neg (by omega)]
  rfl

/-- A byte that no character begins with. -/
theorem start_broken (hn : n < 256) (h : 0x80 ≤ n ∧ n < 0xC2 ∨ 0xF5 ≤ n) :
    start (UInt8.ofNat n) = ([none], .idle) := by
  simp only [start, UInt8.lt_iff_toNat_lt, toNat_ofNat hn, UInt8.reduceToNat]
  rcases h with h | h
  · rw [if_neg (by omega), if_pos h.2]
  · rw [if_neg (by omega), if_neg (by omega), if_neg (by omega), if_neg (by omega), if_neg (by omega)]

/-- **Well-formed bytes begin with the bytes of their first character.** -/
theorem spellsFirst_of_scan {b : UInt8} (h : scan .idle (b :: bytes) = cs.map some) :
    SpellsFirst (b :: bytes) cs := by
  obtain ⟨n, hn, rfl⟩ : ∃ n < 256, b = UInt8.ofNat n := ⟨b.toNat, b.toNat_lt, by simp⟩
  by_cases hbroken : 0x80 ≤ n ∧ n < 0xC2 ∨ 0xF5 ≤ n
  · rw [scan_start, start_broken hn hbroken] at h
    cases cs <;> exact nomatch h
  by_cases hone : n < 0x80
  · exact spellsFirst_one hone h
  by_cases htwo : n < 0xE0
  · exact spellsFirst_two (by omega) htwo h
  by_cases hthree : n < 0xF0
  · exact spellsFirst_three (by omega) hthree h
  · exact spellsFirst_four (by omega) (by omega) h

/-- **Bytes are well formed if and only if they are the bytes of a text**, and then the text is what they spell. -/
theorem chars?_eq_some_iff : chars? bytes = some cs ↔ bytes = encode (String.ofList cs) := by
  rw [chars?_eq_some_iff_scan]
  constructor
  · intro h
    rw [encode_ofList]
    induction hlength : bytes.length using Nat.strongRecOn generalizing bytes cs with
    | ind k ih =>
      cases bytes with
      | nil =>
        cases cs with
        | nil => rfl
        | cons c cs' => exact nomatch h
      | cons b rest =>
        obtain ⟨c, cs', rest', rfl, hbytes, hrest⟩ := spellsFirst_of_scan h
        have hshorter : rest'.length < k := by
          rw [← hlength, hbytes, List.length_append]
          have := List.length_pos_iff.mpr (String.utf8EncodeChar_ne_nil (c := c))
          omega
        rw [hbytes, List.flatMap_cons, ← ih _ hshorter hrest rfl]
  · rintro rfl
    rw [scan_encode, String.toList_ofList]

theorem chars?_encode (s : String) : chars? (encode s) = some s.toList := by
  rw [chars?_eq_some_iff, String.ofList_toList]

theorem chars?_encode_append (s : String) (bytes : List UInt8) :
    chars? (encode s ++ bytes) = (chars? bytes).map (s.toList ++ ·) := by
  have hs : (s.toList.map some).mapM id = some s.toList := mapM_id_eq_some_iff.mpr rfl
  rw [chars?, scan_encode_append, List.mapM_append, hs, chars?]
  cases (scan .idle bytes).mapM id <;> rfl

end Utf8
end Text
end PhpLowering
