import PhpLowering.Analysis.Fold
import PhpLowering.Proofs.Text.Utf8

/-!
# Values that differ in representation only

A string is text or bytes, and which of the two comes out of a computation depends on how it
was carried out: a concatenation is binary as soon as one of its operands is, and an operand
that contributes no text may or may not have been looked at.  `Alike` forgets that difference
and nothing else.  Every operator maps alike operands to alike results.
-/

namespace PhpLowering
namespace Literal

open Text

variable {v w v' w' : Literal}

/-- Two values are equal, or they are strings with the same bytes. -/
def Alike (v w : Literal) : Prop :=
  v = w ∨ v.isString = true ∧ w.isString = true ∧ v.toBytes = w.toBytes

namespace Alike

@[refl] theorem refl (v : Literal) : Alike v v :=
  Or.inl rfl

theorem toBytes (h : Alike v w) : v.toBytes = w.toBytes := by
  rcases h with rfl | ⟨-, -, h⟩
  · rfl
  · exact h

theorem isString (h : Alike v w) : v.isString = w.isString := by
  rcases h with rfl | ⟨hv, hw, -⟩
  · rfl
  · rw [hv, hw]

/-- The two ways to write one string. -/
theorem eq_or_text (h : Alike v w) :
    v = w ∨ (∃ t, v = .string t ∧ w = .bytes (Utf8.encode t)) ∨
      ∃ t, v = .bytes (Utf8.encode t) ∧ w = .string t := by
  rcases h with rfl | ⟨hv, hw, hbytes⟩
  · exact Or.inl rfl
  · cases v with
    | string a =>
      cases w with
      | string b => exact Or.inl (congrArg Literal.string (Utf8.encode_injective hbytes))
      | bytes b => exact Or.inr (Or.inl ⟨a, rfl, congrArg Literal.bytes hbytes.symm⟩)
      | _ => exact nomatch hw
    | bytes a =>
      cases w with
      | string b => exact Or.inr (Or.inr ⟨b, congrArg Literal.bytes hbytes, rfl⟩)
      | bytes b => exact Or.inl (congrArg Literal.bytes hbytes)
      | _ => exact nomatch hw
    | _ => exact nomatch hv

/-- What does not tell a text from its bytes does not tell alike values apart. -/
theorem congr {α : Sort*} {f : Literal → α} (h : Alike v w)
    (hf : ∀ t, f (.string t) = f (.bytes (Utf8.encode t))) : f v = f w := by
  rcases h.eq_or_text with rfl | ⟨t, rfl, rfl⟩ | ⟨t, rfl, rfl⟩
  · rfl
  · exact hf t
  · exact (hf t).symm

end Alike

/-! ## Conversions -/

theorem Alike.toBool (h : Alike v w) : v.toBool = w.toBool := by
  refine h.congr fun t => ?_
  have hempty : t.isEmpty = (Utf8.encode t).isEmpty := by
    rw [Bool.eq_iff_iff, String.isEmpty_iff, List.isEmpty_iff]
    exact ⟨fun ht => ht ▸ rfl, fun ht => Utf8.encode_injective (ht.trans rfl)⟩
  have hzero : (t == "0") = (Utf8.encode t == [0x30]) := by
    rw [Bool.eq_iff_iff, beq_iff_eq, beq_iff_eq]
    have h0 : Utf8.encode "0" = [0x30] := by decide
    exact ⟨fun ht => ht ▸ h0, fun ht => Utf8.encode_injective (ht.trans h0.symm)⟩
  simp only [Literal.toBool, hempty, hzero]

theorem Alike.toNumeric (h : Alike v w) : v.toNumeric = w.toNumeric :=
  h.congr fun _ => rfl

theorem Alike.toText (h : Alike v w) : v.toText = w.toText :=
  h.congr fun t => (Utf8.decodeLossy_encode t).symm

theorem Alike.isTruthValue (h : Alike v w) : v.isTruthValue = w.isTruthValue :=
  h.congr fun _ => rfl

/-! ## Operators -/

theorem Alike.bitNot (h : Alike v w) : v.bitNot = w.bitNot :=
  h.congr fun _ => rfl

theorem Alike.arithmetic (h : Alike v w) (h' : Alike v' w') (exact : Int → Int → Int)
    (inexact : Float → Float → Float) :
    v.arithmetic exact inexact v' = w.arithmetic exact inexact w' := by
  simp only [Literal.arithmetic, h.toNumeric, h'.toNumeric]

theorem Alike.lessThan (h : Alike v w) (h' : Alike v' w') : v.lessThan v' = w.lessThan w' := by
  simp only [Literal.lessThan, h.isString, h'.isString, h.toBytes, h'.toBytes, h.isTruthValue,
    h'.isTruthValue, h.toBool, h'.toBool, h.toNumeric, h'.toNumeric]

theorem beq_encode (a b : String) : (a == b) = (Utf8.encode a == Utf8.encode b) := by
  rw [Bool.eq_iff_iff, beq_iff_eq, beq_iff_eq, Utf8.encode_injective.eq_iff]

theorem identical_left (t : String) (w : Literal) :
    (Literal.string t).identical w = (Literal.bytes (Utf8.encode t)).identical w := by
  cases w with
  | string s => exact beq_encode t s
  | _ => rfl

theorem identical_right (v : Literal) (t : String) :
    v.identical (.string t) = v.identical (.bytes (Utf8.encode t)) := by
  cases v with
  | string s => exact beq_encode s t
  | _ => rfl

theorem Alike.identical (h : Alike v w) (h' : Alike v' w') : v.identical v' = w.identical w' :=
  calc
    v.identical v' = w.identical v' := h.congr (f := (·.identical v')) fun t => identical_left t v'
    _ = w.identical w' := h'.congr fun t => identical_right w t

/-- Comparing and computing with alike values gives one result. -/
theorem Alike.foldBinary (h : Alike v w) (h' : Alike v' w') (op : BinaryOp) :
    op.fold v v' = op.fold w w' := by
  cases op with
  | add => exact h.arithmetic h' _ _
  | sub => exact h.arithmetic h' _ _
  | mul => exact h.arithmetic h' _ _
  | identical => exact congrArg Literal.bool (h.identical h')
  | notIdentical => exact congrArg (fun b => Literal.bool !b) (h.identical h')
  | lessThan => exact congrArg Literal.bool (h.lessThan h')
  | greaterThan => exact congrArg Literal.bool (h'.lessThan h)

/-- A unary operator gives one result on alike values, except for `@`, which passes them on. -/
theorem Alike.foldUnary (h : Alike v w) (op : UnaryOp) : Option.Rel Alike (op.fold v) (op.fold w) := by
  have hsame : ∀ {x y : Option Literal}, x = y → Option.Rel Alike x y := by
    rintro x _ rfl
    cases x with
    | none => exact .none
    | some v => exact .some (.refl v)
  cases op with
  | silence => exact .some h
  | plus => exact hsame (by simp only [UnaryOp.fold, Literal.plus, h.toNumeric])
  | minus => exact hsame (by simp only [UnaryOp.fold, Literal.negate, h.toNumeric])
  | logicNot => exact hsame (by simp only [UnaryOp.fold, h.toBool])
  | bitNot => exact hsame h.bitNot
  | intCast => exact hsame (by simp only [UnaryOp.fold, Literal.toInt64, h.toNumeric])
  | doubleCast => exact hsame (by simp only [UnaryOp.fold, Literal.toFloat, h.toNumeric])
  | stringCast => exact hsame (by simp only [UnaryOp.fold, h.toText])
  | binaryCast => exact hsame (by simp only [UnaryOp.fold, h.toBytes])
  | boolCast => exact hsame (by simp only [UnaryOp.fold, h.toBool])
  | unsetCast | print | clone => exact hsame rfl

/-! ## Concatenation -/

@[simp] theorem isString_concat (a b : Literal) : (a.concat b).isString = true := by
  unfold concat
  split <;> rfl

/-- Whatever the representation, concatenation puts the bytes in a row. -/
@[simp] theorem toBytes_concat (a b : Literal) : (a.concat b).toBytes = a.toBytes ++ b.toBytes := by
  unfold concat
  split
  · rfl
  · rfl
  · rename_i ha hb
    have htext : ∀ v : Literal, (∀ data, v ≠ .bytes data) → v.toBytes = Utf8.encode v.toText := by
      intro v hv
      cases v with
      | bytes data => exact (hv data rfl).elim
      | _ => rfl
    rw [htext a ha, htext b hb]
    exact Utf8.encode_append _ _

theorem toBytes_of_isEmptyText (h : v.isEmptyText = true) : v.toBytes = [] := by
  cases v with
  | null => rfl
  | bool b =>
    cases b with
    | false => rfl
    | true => exact nomatch h
  | string text => rw [String.isEmpty_iff.mp h]; rfl
  | bytes data => exact List.isEmpty_iff.mp h
  | _ => exact nomatch h

/-- A string is known up to representation by its bytes. -/
theorem alike_of_toBytes (hv : v.isString = true) (hw : w.isString = true)
    (h : v.toBytes = w.toBytes) : Alike v w :=
  Or.inr ⟨hv, hw, h⟩

end Literal
end PhpLowering
