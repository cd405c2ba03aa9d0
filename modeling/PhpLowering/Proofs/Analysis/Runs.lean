import Mathlib.Data.List.Chain
import Mathlib.Data.List.Forall2
import PhpLowering.Proofs.Analysis.Joining

/-!
# Runs say what the operands say

A concatenation is opened up into a row of operands, and neighbouring operands that have a value
are joined.  The runs that come out cut the row into parts, one part for each run
(`exists_parts`); values and nodes alternate, so no two runs could have been one, and a value that
spells nothing is dropped wherever it stands.  With every node that is left to run time standing
for some bytes, runs and operands therefore spell the same bytes (`flatMap_bytes`).

The row of operands holds the leaves of the tree that nested concatenations form, in the order of
their paths (`exists_listed`), and the analysis takes them in that order
(`analyzeOperands_eq_mapM`).  **`runs_spell_operands`** puts the two together.
-/

namespace PhpLowering

/-! ## Values that spell nothing -/

namespace Literal

theorem floatText_ne_empty (x : Float) : Decimal.floatText x ≠ "" := by
  have hdigits : ∀ d : Decimal.Scaled, d.positional ≠ [] := by
    intro d
    unfold Decimal.Scaled.positional
    dsimp only
    split
    · exact List.append_ne_nil_of_left_ne_nil Nat.toDigits_ne_nil _
    · split <;> simp
  unfold Decimal.floatText
  split
  · decide
  · split <;> decide
  · rename_i negative m q _
    intro h
    have hnil := String.toList_inj.mpr h
    rw [String.toList_ofList] at hnil
    by_cases hm : m = 0
    · cases negative <;> simp [hm] at hnil
    · cases negative <;> simp [hm, hdigits] at hnil

theorem toString_int_ne_empty (n : Int) : toString n ≠ "" := by
  intro h
  have hnil := String.toList_inj.mpr h
  cases n with
  | ofNat n => simp [Int.repr, Nat.toList_repr, Nat.toDigits_ne_nil] at hnil
  | negSucc n => simp [Int.repr] at hnil

/-- A value spells nothing exactly if concatenating it changes nothing. -/
theorem toBytes_eq_nil_iff {v : Literal} : v.toBytes = [] ↔ v.isEmptyText = true := by
  refine ⟨fun h => ?_, toBytes_of_isEmptyText⟩
  have htext : ∀ {text : String}, Text.Utf8.encode text = [] → text = "" := fun h =>
    Text.Utf8.encode_injective (h.trans rfl)
  cases v with
  | null => rfl
  | bool b =>
    cases b with
    | false => rfl
    | true => exact absurd (htext h) (by decide)
  | int n => exact absurd (htext h) (toString_int_ne_empty _)
  | long n => exact absurd (htext h) (toString_int_ne_empty _)
  | double x => exact absurd (htext h) (floatText_ne_empty x)
  | string text => exact String.isEmpty_iff.mpr (htext h)
  | bytes data => exact List.isEmpty_iff.mpr h

/-- Whether a value is a binary string. -/
def isBinary : Literal → Bool
  | .bytes _ => true
  | _ => false

/-- A concatenation is binary as soon as one of the two values is. -/
theorem isBinary_concat (a b : Literal) : (a.concat b).isBinary = (a.isBinary || b.isBinary) := by
  cases a <;> cases b <;> rfl

end Literal

/-! ## What operands and runs spell -/

/-- The bytes that an operand spells if a node that is left to run time spells what `node` says. -/
def Evaluation.bytes (node : Expr → List UInt8) : Evaluation → List UInt8
  | .value v _ => v.toBytes
  | .residual e => node e

namespace Concat

open Analysis (residuals runNodes)

/-- The bytes that a run spells if a node that is left to run time spells what `node` says. -/
def Run.bytes (node : Expr → List UInt8) : Run → List UInt8
  | .value v _ => v.toBytes
  | .residual nodes => nodes.flatMap node

variable {part operands : List Evaluation} {run : Run} {rest : List Run} {e : Evaluation}
  {v joined : Literal} {node : Expr} {nodes : List Expr} {span : Span}

theorem flatMap_bytes_push (spell : Expr → List UInt8) (e : Evaluation) (runs : List Run) :
    (push e runs).flatMap (Run.bytes spell) = e.bytes spell ++ runs.flatMap (Run.bytes spell) := by
  cases e with
  | value v node =>
    simp only [push]
    split
    · rename_i hempty
      rw [Evaluation.bytes, Literal.toBytes_of_isEmptyText hempty, List.nil_append]
    · split
      · simp [Run.bytes, Evaluation.bytes]
      · rw [List.flatMap_cons, Run.bytes, Literal.toBytes_concat]
        exact congrArg (· ++ _) (List.append_nil _)
  | residual node =>
    simp only [push]
    split <;> simp [Run.bytes, Evaluation.bytes]

/-- Runs spell what the operands spell, whatever the nodes that are left to run time spell. -/
theorem flatMap_bytes (spell : Expr → List UInt8) (operands : List Evaluation) :
    (runs operands true).flatMap (Run.bytes spell) = operands.flatMap (Evaluation.bytes spell) := by
  have hpush : (operands.foldr push []).flatMap (Run.bytes spell) =
      operands.flatMap (Evaluation.bytes spell) := by
    induction operands with
    | nil => rfl
    | cons e rest ih => rw [List.foldr_cons, flatMap_bytes_push, ih, List.flatMap_cons]
  rw [← hpush, runs, if_pos rfl]
  split
  · rename_i hnil
    rw [hnil]
    rfl
  · rfl

/-! ## Values and nodes alternate -/

/-- Of two runs one is a value and the other is not. -/
def Alternate (a b : Run) : Prop :=
  a.value?.isSome ≠ b.value?.isSome

theorem isChain_push (e : Evaluation) {runs : List Run} (h : runs.IsChain Alternate) :
    (push e runs).IsChain Alternate := by
  -- the first run keeps its kind when an operand joins it
  have hreplace : ∀ {a b : Run} {rest : List Run}, (a :: rest).IsChain Alternate →
      a.value?.isSome = b.value?.isSome → (b :: rest).IsChain Alternate := by
    intro a b rest hchain hkind
    rw [List.isChain_cons] at hchain ⊢
    refine ⟨fun y hy => ?_, hchain.2⟩
    rw [Alternate, ← hkind]
    exact hchain.1 y hy
  cases e with
  | value v node =>
    simp only [push]
    split
    · exact h
    · cases runs with
      | nil => exact List.isChain_singleton _
      | cons run rest =>
        cases run with
        | value joined span => exact hreplace h rfl
        | residual nodes => exact List.isChain_cons_cons.mpr ⟨by rintro ⟨⟩, h⟩
  | residual node =>
    simp only [push]
    cases runs with
    | nil => exact List.isChain_singleton _
    | cons run rest =>
      cases run with
      | value joined span => exact List.isChain_cons_cons.mpr ⟨by rintro ⟨⟩, h⟩
      | residual nodes => exact hreplace h rfl

theorem isChain_runs (operands : List Evaluation) : (runs operands true).IsChain Alternate := by
  have hpush : (operands.foldr push []).IsChain Alternate := by
    induction operands with
    | nil => exact List.isChain_nil
    | cons e rest ih => exact isChain_push e ih
  rw [runs, if_pos rfl]
  split
  · exact List.isChain_singleton _
  · exact hpush

/-! ## The parts that the runs stand for -/

/-- Nothing among the operands is left to run time, and none of them spells anything. -/
def Blank (operands : List Evaluation) : Prop :=
  ∀ e ∈ operands, ∃ v node, e = .value v node ∧ v.toBytes = []

/-- A run stands for a row of operands.  A value is the string that they spell together, and it is
binary if one of them is a binary string that spells something.  A run of nodes may have values
among its operands, but none that spells anything. -/
def Covers (part : List Evaluation) : Run → Prop
  | .value v _ =>
    residuals part = [] ∧ v.isString = true ∧ (∀ spell, v.toBytes = part.flatMap (Evaluation.bytes spell)) ∧
      (v.isBinary = true ↔ ∃ data node, data ≠ [] ∧ Evaluation.value (.bytes data) node ∈ part)
  | .residual nodes =>
    nodes ≠ [] ∧ residuals part = nodes ∧ ∀ v node, Evaluation.value v node ∈ part → v.toBytes = []

theorem Blank.covers (h : Blank operands) (span : Span) :
    Covers operands (.value (.string "") span) := by
  refine ⟨?_, rfl, fun spell => ?_, nofun, ?_⟩
  · induction operands with
    | nil => rfl
    | cons e rest ih =>
      obtain ⟨v, node, rfl, -⟩ := h e List.mem_cons_self
      exact ih fun e he => h e (List.mem_cons_of_mem _ he)
  · symm
    refine List.flatMap_eq_nil_iff.mpr fun e he => ?_
    obtain ⟨v, node, rfl, hv⟩ := h e he
    exact hv
  · rintro ⟨data, node, hdata, hmem⟩
    obtain ⟨v, node', heq, hv⟩ := h _ hmem
    cases heq
    exact (hdata hv).elim

/-- A value that spells nothing may stand in front of any part. -/
theorem Covers.cons_blank (h : Covers part run) (hv : v.toBytes = []) (node : Expr) :
    Covers (.value v node :: part) run := by
  cases run with
  | value joined span =>
    obtain ⟨hres, hstring, hbytes, hbinary⟩ := h
    refine ⟨hres, hstring, fun spell => ?_, hbinary.trans ⟨?_, ?_⟩⟩
    · rw [List.flatMap_cons, Evaluation.bytes, hv, List.nil_append, ← hbytes spell]
    · rintro ⟨data, node', hdata, hmem⟩
      exact ⟨data, node', hdata, List.mem_cons_of_mem _ hmem⟩
    · rintro ⟨data, node', hdata, hmem⟩
      rcases List.mem_cons.mp hmem with heq | hmem
      · cases heq
        exact (hdata hv).elim
      · exact ⟨data, node', hdata, hmem⟩
  | residual nodes =>
    obtain ⟨hne, hres, hempty⟩ := h
    refine ⟨hne, hres, fun w node' hmem => ?_⟩
    rcases List.mem_cons.mp hmem with heq | hmem
    · cases heq
      exact hv
    · exact hempty w node' hmem

/-- A value that spells something joins the value behind it. -/
theorem Covers.cons_value (h : Covers part (.value joined span)) (hv : v.isEmptyText ≠ true)
    (node : Expr) (span' : Span) : Covers (.value v node :: part) (.value (v.concat joined) span') := by
  obtain ⟨hres, -, hbytes, hbinary⟩ := h
  refine ⟨hres, Literal.isString_concat _ _, fun spell => ?_, ?_⟩
  · rw [Literal.toBytes_concat, hbytes spell, List.flatMap_cons, Evaluation.bytes]
  · rw [Literal.isBinary_concat, Bool.or_eq_true, hbinary]
    constructor
    · rintro (hfirst | ⟨data, node', hdata, hmem⟩)
      · cases v with
        | bytes data =>
          refine ⟨data, node, ?_, List.mem_cons_self⟩
          rintro rfl
          exact hv rfl
        | _ => exact nomatch hfirst
      · exact ⟨data, node', hdata, List.mem_cons_of_mem _ hmem⟩
    · rintro ⟨data, node', hdata, hmem⟩
      rcases List.mem_cons.mp hmem with heq | hmem
      · cases heq
        exact Or.inl rfl
      · exact Or.inr ⟨data, node', hdata, hmem⟩

theorem Covers.cons_residual (h : Covers part (.residual nodes)) (node : Expr) :
    Covers (.residual node :: part) (.residual (node :: nodes)) := by
  obtain ⟨-, hres, hempty⟩ := h
  refine ⟨List.cons_ne_nil _ _, congrArg (node :: ·) hres, fun v node' hmem => ?_⟩
  exact hempty v node' ((List.mem_cons.mp hmem).resolve_left nofun)

theorem Blank.cons_residual (h : Blank part) (node : Expr) :
    Covers (.residual node :: part) (.residual [node]) := by
  refine ⟨List.cons_ne_nil _ _, congrArg (node :: ·) (h.covers {}).1, fun v node' hmem => ?_⟩
  obtain ⟨w, node'', heq, hw⟩ := h _ ((List.mem_cons.mp hmem).resolve_left nofun)
  cases heq
  exact hw

/-- The operands so far: all blank if they form no run, and otherwise cut into a part for each. -/
def Divided (operands : List Evaluation) : List Run → Prop
  | [] => Blank operands
  | runs => ∃ parts : List (List Evaluation), parts.flatten = operands ∧ List.Forall₂ Covers parts runs

/-- A part may be put in front of the parts that are there. -/
theorem Divided.cons (h : Divided operands (run :: rest)) {front : List Evaluation} {run' : Run}
    (hfront : Covers front run') : Divided (front ++ operands) (run' :: run :: rest) := by
  obtain ⟨parts, rfl, hparts⟩ := h
  exact ⟨front :: parts, rfl, .cons hfront hparts⟩

/-- An operand may be put into the first part. -/
theorem Divided.extend (h : Divided operands (run :: rest)) {run' : Run}
    (hfirst : ∀ part, Covers part run → Covers (e :: part) run') :
    Divided (e :: operands) (run' :: rest) := by
  obtain ⟨parts, rfl, hparts⟩ := h
  cases hparts with
  | @cons part _ parts _ hpart hparts =>
    exact ⟨(e :: part) :: parts, rfl, .cons (hfirst part hpart) hparts⟩

theorem divided_push {runs : List Run} (h : Divided operands runs) (e : Evaluation) :
    Divided (e :: operands) (push e runs) := by
  have hnil : Blank [] := fun _ he => nomatch he
  cases e with
  | value v node =>
    simp only [push]
    split
    · rename_i hempty
      have hv := Literal.toBytes_of_isEmptyText hempty
      cases runs with
      | nil => exact List.forall_mem_cons.mpr ⟨⟨v, node, rfl, hv⟩, h⟩
      | cons run rest => exact h.extend fun part hpart => hpart.cons_blank hv node
    · rename_i hempty
      cases runs with
      | nil =>
        have hblank : Covers operands (.value (.string "") node.span) := Blank.covers h _
        exact ⟨[.value v node :: operands], by simp, .cons (hblank.cons_value hempty node _) .nil⟩
      | cons run rest =>
        cases run with
        | value joined span => exact h.extend fun part hpart => hpart.cons_value hempty node _
        | residual nodes => exact h.cons ((hnil.covers node.span).cons_value hempty node _)
  | residual node =>
    simp only [push]
    cases runs with
    | nil => exact ⟨[.residual node :: operands], by simp, .cons (Blank.cons_residual h node) .nil⟩
    | cons run rest =>
      cases run with
      | value joined span => exact h.cons (hnil.cons_residual node)
      | residual nodes => exact h.extend fun part hpart => hpart.cons_residual node

/-- The runs cut the operands into parts, and each run stands for its part. -/
theorem exists_parts (operands : List Evaluation) :
    ∃ parts : List (List Evaluation), parts.flatten = operands ∧
      List.Forall₂ Covers parts (runs operands true) := by
  have hpush : Divided operands (operands.foldr push []) := by
    induction operands with
    | nil => exact fun _ he => nomatch he
    | cons e rest ih => exact divided_push ih e
  rw [runs, if_pos rfl]
  revert hpush
  cases operands.foldr push [] with
  | nil => exact fun h => ⟨[operands], by simp, .cons (Blank.covers h _) .nil⟩
  | cons run rest => exact id

/-! ## A value that spells nothing stands alone -/

theorem toBytes_ne_nil_push {runs : List Run} (h : ∀ v span, Run.value v span ∈ runs → v.toBytes ≠ [])
    (e : Evaluation) : ∀ v span, Run.value v span ∈ push e runs → v.toBytes ≠ [] := by
  cases e with
  | value w node =>
    simp only [push]
    split
    · exact h
    · rename_i hempty
      have hw : ∀ joined : Literal, (w.concat joined).toBytes ≠ [] := by
        intro joined
        rw [Literal.toBytes_concat]
        exact List.append_ne_nil_of_left_ne_nil (mt Literal.toBytes_eq_nil_iff.mp hempty) _
      split
      · rintro v span (_ | ⟨_, hmem⟩)
        · exact hw _
        · exact h v span (List.mem_cons_of_mem _ hmem)
      · rintro v span (_ | ⟨_, hmem⟩)
        · exact hw _
        · exact h v span hmem
  | residual node =>
    simp only [push]
    split
    · rintro v span (_ | ⟨_, hmem⟩)
      exact h v span (List.mem_cons_of_mem _ hmem)
    · rintro v span (_ | ⟨_, hmem⟩)
      exact h v span hmem

theorem toBytes_ne_nil_or_alone (operands : List Evaluation) :
    ∀ v span, Run.value v span ∈ runs operands true →
      v.toBytes ≠ [] ∨ runs operands true = [.value v span] := by
  have hpush : ∀ v span, Run.value v span ∈ operands.foldr push [] → v.toBytes ≠ [] := by
    induction operands with
    | nil => nofun
    | cons e rest ih => exact toBytes_ne_nil_push ih e
  intro v span hmem
  rw [runs, if_pos rfl] at hmem ⊢
  split at hmem
  · cases List.mem_singleton.mp hmem
    exact Or.inr rfl
  · exact Or.inl (hpush v span hmem)

/-! ## The leaves of nested concatenations -/

/-- The path to a leaf: which operand to go to, from one concatenation to the next. -/
inductive LeafAt : Expr → List Nat → Expr → Prop
  | self {e : Expr} : (∀ tag operands, e ≠ .concat tag operands) → LeafAt e [] e
  | operand {tag : ExprTag} {operands : List Expr} {i : Nat} {e leaf : Expr} {path : List Nat} :
    operands[i]? = some e → LeafAt e path leaf → LeafAt (.concat tag operands) (i :: path) leaf

theorem LeafAt.ne_concat {e leaf : Expr} {path : List Nat} (h : LeafAt e path leaf) :
    ∀ tag operands, leaf ≠ .concat tag operands := by
  induction h with
  | self hne => exact hne
  | operand _ _ ih => exact ih

theorem leaves_of_ne {e : Expr} (h : ∀ tag operands, e ≠ .concat tag operands) : leaves e = [e] := by
  cases e with
  | concat tag operands => exact (h tag operands rfl).elim
  | _ => rfl

/-- The leaves of an expression, each with its path, in the order of the paths. -/
structure Listed (e : Expr) (entries : List (List Nat × Expr)) : Prop where
  mem_iff : ∀ path leaf, (path, leaf) ∈ entries ↔ LeafAt e path leaf
  ordered : entries.Pairwise (·.1 < ·.1)

/-- The path past one more operand in front. -/
def later : List Nat → List Nat
  | [] => []
  | i :: path => (i + 1) :: path

section Cons

variable {tag : ExprTag} {first : Expr} {others : List Expr} {path : List Nat} {leaf : Expr}

theorem LeafAt.later (h : LeafAt (.concat tag others) path leaf) :
    LeafAt (.concat tag (first :: others)) (later path) leaf := by
  cases h with
  | self hne => exact (hne _ _ rfl).elim
  | operand hi hleaf => exact .operand (by simpa using hi) hleaf

/-- A leaf is one of the first operand or one of the others. -/
theorem LeafAt.of_cons (h : LeafAt (.concat tag (first :: others)) path leaf) :
    (∃ path', path = 0 :: path' ∧ LeafAt first path' leaf) ∨
      ∃ path', path = Concat.later path' ∧ LeafAt (.concat tag others) path' leaf := by
  cases h with
  | self hne => exact (hne _ _ rfl).elim
  | @operand _ _ i e _ path' hi hleaf =>
    cases i with
    | zero =>
      cases Option.some_inj.mp hi
      exact Or.inl ⟨path', rfl, hleaf⟩
    | succ i => exact Or.inr ⟨i :: path', rfl, .operand (by simpa using hi) hleaf⟩

theorem later_lt_later {a b : List Nat} (ha : a ≠ []) (h : a < b) : later a < later b := by
  cases a with
  | nil => exact (ha rfl).elim
  | cons i a =>
    cases b with
    | nil => exact absurd h (List.not_lt_nil _)
    | cons j b =>
      refine List.cons_lt_cons_iff.mpr ((List.cons_lt_cons_iff.mp h).imp ?_ ?_)
      · exact fun h => Nat.succ_lt_succ h
      · exact fun h => ⟨congrArg _ h.1, h.2⟩

/-- The leaves of the first operand and then those of the others. -/
theorem Listed.cons {entries entriesOfOthers : List (List Nat × Expr)} (hfirst : Listed first entries)
    (hothers : Listed (.concat tag others) entriesOfOthers) :
    Listed (.concat tag (first :: others))
      (entries.map (Prod.map (0 :: ·) id) ++ entriesOfOthers.map (Prod.map later id)) := by
  have hcons : ∀ entry ∈ entriesOfOthers, ∃ i path, entry.1 = i :: path := by
    rintro ⟨path, leaf⟩ hentry
    cases (hothers.mem_iff _ _).mp hentry with
    | self hne => exact (hne _ _ rfl).elim
    | operand _ _ => exact ⟨_, _, rfl⟩
  refine ⟨fun path leaf => ⟨fun h => ?_, fun h => ?_⟩, List.pairwise_append.mpr ⟨?_, ?_, ?_⟩⟩
  · rcases List.mem_append.mp h with h | h
    · obtain ⟨⟨path, leaf⟩, hentry, heq⟩ := List.mem_map.mp h
      cases heq
      exact .operand rfl ((hfirst.mem_iff _ _).mp hentry)
    · obtain ⟨⟨path, leaf⟩, hentry, heq⟩ := List.mem_map.mp h
      cases heq
      exact ((hothers.mem_iff _ _).mp hentry).later
  · rw [List.mem_append, List.mem_map, List.mem_map]
    rcases h.of_cons with ⟨path, rfl, hleaf⟩ | ⟨path, rfl, hleaf⟩
    · exact Or.inl ⟨(path, leaf), (hfirst.mem_iff _ _).mpr hleaf, rfl⟩
    · exact Or.inr ⟨(path, leaf), (hothers.mem_iff _ _).mpr hleaf, rfl⟩
  · exact List.pairwise_map.mpr (hfirst.ordered.imp fun h => List.cons_lt_cons_self.mpr h)
  · refine List.pairwise_map.mpr (hothers.ordered.imp_of_mem fun ha _ h => later_lt_later ?_ h)
    obtain ⟨i, path, hpath⟩ := hcons _ ha
    exact hpath ▸ List.cons_ne_nil _ _
  · intro a ha b hb
    obtain ⟨a, -, rfl⟩ := List.mem_map.mp ha
    obtain ⟨b, hmem, rfl⟩ := List.mem_map.mp hb
    obtain ⟨i, path, hpath⟩ := hcons b hmem
    rw [Prod.map_fst, Prod.map_fst, hpath]
    exact List.cons_lt_cons_iff.mpr (Or.inl (Nat.succ_pos i))

end Cons

mutual

/-- Opening up an expression gives its leaves in the order of their paths. -/
theorem exists_listed : ∀ e : Expr, ∃ entries, Listed e entries ∧ entries.map Prod.snd = leaves e
  | .concat tag operands => exists_listed_flatten tag operands
  | .literal .. | .array .. | .binary .. | .unary .. | .incDec .. | .conditional .. | .shortcut ..
  | .list .. | .var .. | .item .. | .append .. | .assign .. | .call .. | .constant .. => by
    refine ⟨[([], _)], ⟨fun path leaf => ?_, List.pairwise_singleton _ _⟩, rfl⟩
    rw [List.mem_singleton, Prod.mk.injEq]
    constructor
    · rintro ⟨rfl, rfl⟩
      exact .self nofun
    · rintro ⟨⟩
      exact ⟨rfl, rfl⟩
termination_by structural e => e

theorem exists_listed_flatten (tag : ExprTag) : ∀ operands : List Expr,
    ∃ entries, Listed (.concat tag operands) entries ∧ entries.map Prod.snd = flatten operands
  | [] => by
    refine ⟨[], ⟨fun path leaf => ⟨nofun, ?_⟩, .nil⟩, rfl⟩
    rintro (hne | ⟨hi, -⟩)
    · exact (hne _ _ rfl).elim
    · exact nomatch hi
  | e :: rest => by
    obtain ⟨entries, hfirst, hleaves⟩ := exists_listed e
    obtain ⟨entriesOfRest, hrest, hflatten⟩ := exists_listed_flatten tag rest
    refine ⟨_, hfirst.cons hrest, ?_⟩
    rw [List.map_append, List.map_map, List.map_map, flatten, ← hleaves, ← hflatten]
    rfl
termination_by structural operands => operands

end

theorem ne_concat_of_mem_flatten {e : Expr} {operands : List Expr} (h : e ∈ flatten operands) :
    ∀ tag operands, e ≠ .concat tag operands := by
  obtain ⟨entries, hlisted, hleaves⟩ := exists_listed_flatten default operands
  rw [← hleaves] at h
  obtain ⟨⟨path, leaf⟩, hentry, rfl⟩ := List.mem_map.mp h
  exact ((hlisted.mem_iff _ _).mp hentry).ne_concat

/-- What has been opened up stays as it is. -/
theorem flatten_flatten (operands : List Expr) : flatten (flatten operands) = flatten operands := by
  have hself : ∀ es : List Expr, (∀ e ∈ es, ∀ tag operands, e ≠ .concat tag operands) →
      flatten es = es := by
    intro es hes
    induction es with
    | nil => rfl
    | cons e rest ih =>
      rw [List.forall_mem_cons] at hes
      rw [flatten, leaves_of_ne hes.1, ih hes.2, List.singleton_append]
  exact hself _ fun _ he => ne_concat_of_mem_flatten he

/-! ## The string of nested concatenations -/

mutual

/-- The bytes of an expression if a leaf spells what `leaf` says: those of the operands in a row. -/
def spelled (leaf : Expr → List UInt8) : Expr → List UInt8
  | .concat _ operands => spelledAll leaf operands
  | e => leaf e
termination_by structural e => e

/-- The bytes of operands in a row. -/
def spelledAll (leaf : Expr → List UInt8) : List Expr → List UInt8
  | [] => []
  | e :: rest => spelled leaf e ++ spelledAll leaf rest
termination_by structural es => es

end

mutual

theorem flatMap_leaves (leaf : Expr → List UInt8) : ∀ e : Expr, (leaves e).flatMap leaf = spelled leaf e
  | .concat _ operands => flatMap_flatten leaf operands
  | .literal .. | .array .. | .binary .. | .unary .. | .incDec .. | .conditional .. | .shortcut ..
  | .list .. | .var .. | .item .. | .append .. | .assign .. | .call .. | .constant .. =>
    List.append_nil _
termination_by structural e => e

/-- Concatenation is associative: the row of leaves spells what the nested operands spell. -/
theorem flatMap_flatten (leaf : Expr → List UInt8) :
    ∀ es : List Expr, (flatten es).flatMap leaf = spelledAll leaf es
  | [] => rfl
  | e :: rest => by
    rw [flatten, List.flatMap_append, flatMap_leaves leaf e, flatMap_flatten leaf rest, spelledAll]
termination_by structural es => es

end

section Analyzed

open Analysis (Setting analyze analyzeOperands)

variable (cfg : Setting)

theorem analyzeOperands_cons (e : Expr) (rest : List Expr) :
    analyzeOperands cfg (e :: rest) = (do
      let evs ← analyzeOperands cfg [e]
      return evs ++ (← analyzeOperands cfg rest)) := by
  cases e <;> simp [analyzeOperands]

mutual

theorem analyzeOperands_singleton : ∀ e : Expr,
    analyzeOperands cfg [e] = (leaves e).mapM (analyze cfg · .read)
  | .concat _ operands => by
    rw [analyzeOperands, analyzeOperands_eq_mapM operands, leaves]
    simp [analyzeOperands]
  | .literal .. | .array .. | .binary .. | .unary .. | .incDec .. | .conditional .. | .shortcut ..
  | .list .. | .var .. | .item .. | .append .. | .assign .. | .call .. | .constant .. => by
    simp [analyzeOperands, leaves, List.mapM_cons]
termination_by structural e => e

/-- The analysis goes through the leaves in order. -/
theorem analyzeOperands_eq_mapM : ∀ es : List Expr,
    analyzeOperands cfg es = (flatten es).mapM (analyze cfg · .read)
  | [] => rfl
  | e :: rest => by
    rw [flatten, List.mapM_append, ← analyzeOperands_singleton e, ← analyzeOperands_eq_mapM rest,
      analyzeOperands_cons]
termination_by structural es => es

end

/-- **Runs say what the operands say, for any nesting of concatenations.**  The nodes that are left
to run time stay as they are and in order; whatever they spell, the bytes are those of the
operands; and no run could have been joined with the next, nor left out. -/
theorem runs_spell_operands (tag : ExprTag) (es : List Expr) (operands : List Evaluation) :
    ((runs operands true).flatMap runNodes = residuals operands ∧
      (∀ spell, (runs operands true).flatMap (Run.bytes spell) =
        operands.flatMap (Evaluation.bytes spell)) ∧
      (runs operands true).IsChain Alternate ∧
      (∀ v span, Run.value v span ∈ runs operands true →
        v.toBytes ≠ [] ∨ runs operands true = [.value v span]) ∧
      ∃ parts : List (List Evaluation), parts.flatten = operands ∧
        List.Forall₂ Covers parts (runs operands true)) ∧
    ((∃ entries, Listed (.concat tag es) entries ∧ entries.map Prod.snd = flatten es) ∧
      flatten (flatten es) = flatten es ∧
      analyzeOperands cfg es = (flatten es).mapM (analyze cfg · .read)) ∧
    ∀ leaf spell : Expr → List UInt8,
      List.Forall₂ (fun e ev => Evaluation.bytes spell ev = leaf e) (flatten es) operands →
      (runs operands true).flatMap (Run.bytes spell) = spelled leaf (.concat tag es) := by
  refine ⟨⟨Analysis.flatMap_runNodes operands true, fun spell => flatMap_bytes spell operands,
    isChain_runs operands, toBytes_ne_nil_or_alone operands, exists_parts operands⟩,
    ⟨exists_listed_flatten tag es, flatten_flatten es, analyzeOperands_eq_mapM cfg es⟩,
    fun leaf spell h => ?_⟩
  rw [flatMap_bytes, spelled, ← flatMap_flatten]
  generalize flatten es = found at h
  induction h with
  | nil => rfl
  | cons h _ ih => rw [List.flatMap_cons, List.flatMap_cons, h, ih]

end Analyzed

/-- The operands `"a" . ($x . null) . b"\xff"`. -/
def nestedOperands : List Expr :=
  [.literal ⟨1, {}, .none⟩ (.string "a"),
    .concat ⟨2, {}, .none⟩ [.var ⟨3, {}, .none⟩ "x", .literal ⟨4, {}, .none⟩ .null],
    .literal ⟨5, {}, .none⟩ (.bytes [255])]

/-- What the analysis finds of them. -/
def nestedEvaluations : List Evaluation :=
  [.value (.string "a") (.literal ⟨1, {}, .read⟩ (.string "a")), .residual (.var ⟨3, {}, .read⟩ "x"),
    .value .null (.literal ⟨4, {}, .read⟩ .null),
    .value (.bytes [255]) (.literal ⟨5, {}, .read⟩ (.bytes [255]))]

/-- The bytes of a literal, and the byte 66 for everything else. -/
def spelledInSample : Expr → List UInt8
  | .literal _ v => v.toBytes
  | _ => [66]

theorem runs_spell_nestedOperands :
    Run.value (.bytes [255]) {} ∈ runs nestedEvaluations true ∧ (Literal.bytes [255]).toBytes ≠ [] ∧
      spelled spelledInSample (.concat ⟨0, {}, .none⟩ nestedOperands) = [97, 66, 255] := by
  obtain ⟨⟨-, -, -, halone, -⟩, -, hspelled⟩ :=
    runs_spell_operands {} ⟨0, {}, .none⟩ nestedOperands nestedEvaluations
  have hmem : Run.value (.bytes [255]) {} ∈ runs nestedEvaluations true :=
    .tail _ (.tail _ (.head _))
  refine ⟨hmem, (halone _ _ hmem).resolve_right nofun, ?_⟩
  rw [← hspelled spelledInSample spelledInSample
    (.cons rfl (.cons rfl (.cons rfl (.cons rfl .nil))))]
  decide

end Concat
end PhpLowering
