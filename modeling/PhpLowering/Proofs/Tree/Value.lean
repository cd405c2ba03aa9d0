import PhpLowering.Analysis.Concat
import PhpLowering.Proofs.Literal.Alike

/-!
# The value of an expression

`Expr.eval?` is what an expression is worth ahead of time, read off the tree alone: literals
are worth themselves, constants what they are `known` to be, operators what they compute, and
whatever needs the running program is worth nothing.  Of a conditional only the part that is
selected has to have a value.

A concatenation joins the values of its operands from the left.  How that is done in detail is
seen in the representation of the result only (`Alike`); what counts is the bytes, and these
do not change when nested concatenations are opened up (`bytes?_flatten`).
-/

namespace PhpLowering
namespace Expr

variable (known : String → Option Literal)

mutual

/-- The value of an expression, if it has one ahead of time. -/
def eval? : Expr → Option Literal
  | .literal _ v => some v
  | .constant _ name => known name
  | .unary _ op operand => (eval? operand).bind op.fold
  | .binary _ op left right => (eval? left).bind fun l => (eval? right).bind fun r => some (op.fold l r)
  | .concat _ operands => join? (.string "") operands
  | .conditional _ condition ifTrue ifFalse =>
    (eval? condition).bind fun c => if c.toBool then eval? ifTrue else eval? ifFalse
  | .shortcut _ condition ifFalse =>
    (eval? condition).bind fun c => if c.toBool then some c else eval? ifFalse
  | .array .. | .incDec .. | .list .. | .var .. | .item .. | .append .. | .assign .. | .call .. => none
termination_by structural e => e

/-- A value joined with those of the operands of a concatenation, one after the other. -/
def join? (joined : Literal) : List Expr → Option Literal
  | [] => some joined
  | e :: rest => (eval? e).bind fun v => join? (joined.concat v) rest
termination_by structural es => es

end

/-- The bytes of the values of expressions in a row. -/
def bytes? : List Expr → Option (List UInt8)
  | [] => some []
  | e :: rest => (e.eval? known).bind fun v => (bytes? rest).map (v.toBytes ++ ·)

variable {known}

/-- Joining values puts their bytes in a row. -/
theorem join?_map_toBytes (joined : Literal) (es : List Expr) :
    (join? known joined es).map Literal.toBytes = (bytes? known es).map (joined.toBytes ++ ·) := by
  induction es generalizing joined with
  | nil => simp [join?, bytes?]
  | cons e rest ih =>
    rw [join?, bytes?]
    cases e.eval? known with
    | none => rfl
    | some v =>
      simp only [Option.bind_some, ih, Option.map_map, Literal.toBytes_concat]
      congr 1
      funext b
      exact List.append_assoc _ _ _

/-- Joining values with a string gives a string. -/
theorem isString_of_join? {joined v : Literal} {es : List Expr} (hjoined : joined.isString = true)
    (h : join? known joined es = some v) : v.isString = true := by
  induction es generalizing joined with
  | nil =>
    rw [join?, Option.some_inj] at h
    rwa [← h]
  | cons e rest ih =>
    rw [join?] at h
    obtain ⟨w, -, h⟩ := Option.bind_eq_some_iff.mp h
    exact ih (Literal.isString_concat joined w) h

/-- The value of a concatenation is a string with the bytes of its operands. -/
theorem eval?_concat_map_toBytes (tag : ExprTag) (es : List Expr) :
    ((Expr.concat tag es).eval? known).map Literal.toBytes = bytes? known es := by
  rw [eval?, join?_map_toBytes]
  exact Option.map_id'

theorem isString_of_eval?_concat {tag : ExprTag} {es : List Expr} {v : Literal}
    (h : (Expr.concat tag es).eval? known = some v) : v.isString = true := by
  rw [eval?] at h
  exact isString_of_join? rfl h

theorem bytes?_append (es es' : List Expr) :
    bytes? known (es ++ es') =
      (bytes? known es).bind fun b => (bytes? known es').map (b ++ ·) := by
  induction es with
  | nil => exact Option.map_id'.symm
  | cons e rest ih =>
    rw [List.cons_append, bytes?, bytes?, ih]
    cases e.eval? known with
    | none => rfl
    | some v =>
      cases bytes? known rest with
      | none => rfl
      | some b =>
        simp only [Option.bind_some, Option.map_some, Option.map_map]
        congr 1
        funext b'
        exact (List.append_assoc _ _ _).symm

theorem bytes?_singleton (e : Expr) : bytes? known [e] = (e.eval? known).map Literal.toBytes := by
  rw [bytes?]
  cases e.eval? known with
  | none => rfl
  | some v => simp [bytes?]

/-- One member without a value leaves the whole row without bytes. -/
theorem bytes?_eq_none_of_mem {e : Expr} {es : List Expr} (he : e ∈ es) (h : e.eval? known = none) :
    bytes? known es = none := by
  obtain ⟨before, after, rfl⟩ := List.append_of_mem he
  rw [bytes?_append, bytes?, h]
  cases bytes? known before <;> rfl

mutual

theorem bytes?_leaves : ∀ e : Expr,
    bytes? known (Concat.leaves e) = (e.eval? known).map Literal.toBytes
  | .concat tag operands => by
    rw [eval?_concat_map_toBytes, Concat.leaves, bytes?_flatten operands]
  | .literal .. | .array .. | .binary .. | .unary .. | .incDec .. | .conditional .. | .shortcut ..
  | .list .. | .var .. | .item .. | .append .. | .assign .. | .call .. | .constant .. =>
    bytes?_singleton _
termination_by structural e => e

/-- **Opening up nested concatenations does not change the bytes.** -/
theorem bytes?_flatten : ∀ es : List Expr, bytes? known (Concat.flatten es) = bytes? known es
  | [] => rfl
  | e :: rest => by
    rw [Concat.flatten, bytes?_append, bytes?_leaves e, bytes?_flatten rest, bytes?]
    cases e.eval? known <;> rfl
termination_by structural es => es

end

end Expr
end PhpLowering
