import PhpLowering.Proofs.Analysis.Runs
import PhpLowering.Proofs.CallOrder
import PhpLowering.Proofs.Lowering.Acts

/-!
# The value of a concatenation

The code of a concatenation takes one of four forms, which one depends on the number of operands.  All of
them leave the same string: the operands are evaluated in order, each of them once, and what they are
worth is put together.  A `Spelling` says what string a value stands for; `Spelling.Sound` says that the
primitives do what they are named for.

**`joins_of_concat`** needs one thing more.  If there are more than two operands, a literal is pushed as it
is filed, and of two zeros with different signs the second is filed as the first.  So a literal number has
to be filed as itself.  For a concatenation with both zeros the string is wrong (`joins_zeros`).
-/

namespace PhpLowering

/-- The primitives that join two strings. -/
def RuntimeOp.joining : List RuntimeOp :=
  [.concatStrStr, .concatStrObj, .concatObjStr, .concatObjObj, .concatBytesBytes, .concatBytesObj,
    .concatObjBytes]

/-- How the values of a host are read as strings. -/
structure Spelling (h : Host) where
  /-- What a value is spelt as. -/
  bytes : h.Value → List UInt8
  /-- Whether the string of a value is binary. -/
  isBinary : h.Value → Bool
  /-- What a value array holds, in order. -/
  items : h.Value → List h.Value

namespace Spelling

variable {h : Host} (sp : Spelling h)

/-- A value is the concatenation of others; it is binary if one of them is. -/
structure Joins (vs : List h.Value) (x : h.Value) : Prop where
  bytes : sp.bytes x = vs.flatMap sp.bytes
  isBinary : sp.isBinary x = vs.any sp.isBinary

/-- A value is what a literal is spelt as. -/
structure Spells (v : Literal) (x : h.Value) : Prop where
  bytes : sp.bytes x = v.toBytes
  isBinary : sp.isBinary x = v.isBinary

/-- A value is what its type code says. -/
structure Conforms (kind : TypeCode) (x : h.Value) : Prop where
  text : kind = .string ∨ kind.isPrimitive = true → sp.isBinary x = false
  binary : kind = .bytes → sp.isBinary x = true

/-- The host deals with strings as it should. -/
structure Sound : Prop where
  literal : ∀ v, sp.Spells v (h.literal v)
  box : ∀ code x, code.isPrimitive = true → sp.Joins [x] (h.box code x)
  join : ∀ {op a b w out w'}, op ∈ RuntimeOp.joining →
    h.perform (.call op) [b, a] w = some (out, w') → ∃ x, out.1 = [x] ∧ sp.Joins [a, b] x
  collect : ∀ {n args w out w'}, args.length = n → h.perform (.newValueArray n) args w = some (out, w') →
    ∃ array, out.1 = [array] ∧ sp.items array = args.reverse
  joinAll : ∀ {array w out w'}, h.perform (.call .concatN) [array] w = some (out, w') →
    ∃ x, out.1 = [x] ∧ sp.Joins (sp.items array) x
  toText : ∀ {x w out w'}, sp.isBinary x = false → h.perform (.call .toText) [x] w = some (out, w') →
    ∃ y, out.1 = [y] ∧ sp.Joins [x] y
  isBytes : ∀ {x w out w'}, h.perform (.call .isBytes) [x] w = some (out, w') →
    ∃ b, out.1 = [b] ∧ h.truth b = sp.isBinary x

variable {sp} {x y z : h.Value} {vs ws : List h.Value} {v : Literal}

theorem Joins.refl (x : h.Value) : sp.Joins [x] x :=
  ⟨by rw [List.flatMap_singleton], by rw [List.any_cons, List.any_nil, Bool.or_false]⟩

theorem joins_singleton : sp.Joins [x] y ↔ sp.bytes y = sp.bytes x ∧ sp.isBinary y = sp.isBinary x :=
  ⟨fun hy => ⟨by rw [hy.bytes, List.flatMap_singleton], by
    rw [hy.isBinary, List.any_cons, List.any_nil, Bool.or_false]⟩,
    fun hy => ⟨by rw [hy.1, List.flatMap_singleton], by
      rw [hy.2, List.any_cons, List.any_nil, Bool.or_false]⟩⟩

theorem Joins.trans (hx : sp.Joins vs x) (hy : sp.Joins [x] y) : sp.Joins vs y := by
  obtain ⟨hbytes, hbinary⟩ := joins_singleton.mp hy
  exact ⟨hbytes.trans hx.bytes, hbinary.trans hx.isBinary⟩

theorem Joins.pair (hx : sp.Joins vs x) (hy : sp.Joins ws y) (hz : sp.Joins [x, y] z) :
    sp.Joins (vs ++ ws) z where
  bytes := by
    rw [hz.bytes, List.flatMap_append, ← hx.bytes, ← hy.bytes, List.flatMap_cons, List.flatMap_singleton]
  isBinary := by
    rw [hz.isBinary, List.any_append, ← hx.isBinary, ← hy.isBinary]
    simp

/-- Joining values is joining what they are made from. -/
theorem Joins.of_forall₂ {xs : List h.Value} (hxs : List.Forall₂ (fun v x => sp.Joins [v] x) vs xs)
    (hz : sp.Joins xs z) : sp.Joins vs z := by
  have hsame : vs.flatMap sp.bytes = xs.flatMap sp.bytes ∧ vs.any sp.isBinary = xs.any sp.isBinary := by
    clear hz
    induction hxs with
    | nil => exact ⟨rfl, rfl⟩
    | cons hx _ ih =>
      obtain ⟨hbytes, hbinary⟩ := joins_singleton.mp hx
      exact ⟨by rw [List.flatMap_cons, List.flatMap_cons, hbytes, ih.1],
        by rw [List.any_cons, List.any_cons, hbinary, ih.2]⟩
  exact ⟨hz.bytes.trans hsame.1.symm, hz.isBinary.trans hsame.2.symm⟩

theorem Spells.trans (hx : sp.Spells v x) (hy : sp.Joins [x] y) : sp.Spells v y := by
  obtain ⟨hbytes, hbinary⟩ := joins_singleton.mp hy
  exact ⟨hbytes.trans hx.bytes, hbinary.trans hx.isBinary⟩

variable {r : Routine} {out : List h.Value}

/-- What a primitive leaves, as the host has it. -/
theorem perform_of_yields {op : RuntimeOp} {args : List h.Value} (hyields : h.Yields r (.call op) args out) :
    ∃ (w w' : h.World) (out' : { out : List h.Value // out.length = (Instruction.call op).yields }),
      h.perform (.call op) args w = some (out', w') ∧ out'.1 = out := by
  obtain ⟨_, w, w', heval⟩ := hyields
  obtain ⟨⟨out', w₁⟩, hperform, heq⟩ := Option.map_eq_some_iff.mp heval
  exact ⟨w, w₁, out', hperform, (Prod.mk.inj heq).1⟩

theorem Sound.general (hsound : sp.Sound) (kind : TypeCode) (x : h.Value) :
    sp.Joins [x] (h.general kind x) := by
  unfold Host.general
  split
  · exact hsound.box kind x ‹_›
  · exact .refl x

end Spelling

namespace Lowering

open Pass (Ends)
open Config (Arrives Chronicle)

variable {cfg : Setting} {h : Host} {r : Routine} {s t u : State Chunk} {c d : Config h}
  {trace : List (KeyUse h)} {e : Expr} {kind : TypeCode} {sp : Spelling h}

/-! ## Operands -/

/-- A run goes through the code of an expression, which leaves these values. -/
def Evaluated (cfg : Setting) (r : Routine) (e : Expr) (kind : TypeCode) (out : List h.Value)
    (c d : Config h) : Prop :=
  ∃ s t, lower cfg e .value s = (.ok kind, t) ∧ t.active.Grows r ∧ c.pc = s.active.position ∧
    c.Leads r d ∧ d.pc = t.active.position ∧ d.stack = out ++ c.stack

/-- The part of a concatenation that is not its own. -/
def Operates (cfg : Setting) (r : Routine) (b : Expr × List h.Value) (c d : Config h) : Prop :=
  ∃ kind, Evaluated cfg r b.1 kind b.2 c d

/-- Operands with what they are worth: a literal what it is spelt as, everything else what its code leaves.
That code is run once for each of them, in order. -/
structure Worth (sp : Spelling h) (operands : List Expr) (events : List (Event h (Expr × List h.Value)))
    (values : List h.Value) : Prop where
  literals : List.Forall₂ (fun e x => ∀ v, e.value? = some v → sp.Spells v x) operands values
  evaluated : events.filterMap Event.part? = (operands.zip values).filterMap fun p =>
    if p.1.value? = none then some (p.1, [p.2]) else none

variable {operands more : List Expr} {events later : List (Event h (Expr × List h.Value))}
  {values others : List h.Value} {x : h.Value} {v : Literal}

theorem Worth.nil : Worth sp [] [] [] := ⟨.nil, rfl⟩

/-- What the host carries out besides is no part of the operands. -/
theorem Worth.behind (hworth : Worth sp operands events values) (hlater : later.filterMap Event.part? = []) :
    Worth sp operands (events ++ later) values :=
  ⟨hworth.literals, by rw [List.filterMap_append, hworth.evaluated, hlater, List.append_nil]⟩

theorem Worth.append (hworth : Worth sp operands events values) (hmore : Worth sp more later others) :
    Worth sp (operands ++ more) (events ++ later) (values ++ others) where
  literals := List.rel_append hworth.literals hmore.literals
  evaluated := by
    rw [List.filterMap_append, List.zip_append hworth.literals.length_eq, List.filterMap_append,
      hworth.evaluated, hmore.evaluated]

theorem worth_literal (he : e.value? = some v) (hx : sp.Spells v x) : Worth sp [e] [] [x] :=
  ⟨.cons (fun _ hv => Option.some.inj (he.symm.trans hv) ▸ hx) .nil, by simp [he]⟩

theorem worth_part (he : e.value? = none) : Worth sp [e] [.part (e, [x])] [x] :=
  ⟨.cons (fun _ hv => nomatch he.symm.trans hv) .nil, by simp [he, Event.part?]⟩

/-- The code of an operand leaves what its type code says. -/
def Obeys (sp : Spelling h) (cfg : Setting) (r : Routine) (e : Expr) : Prop :=
  ∀ (kind : TypeCode) (x : h.Value) (c d : Config h), Evaluated cfg r e kind [x] c d → sp.Conforms kind x

/-- The code of an expression is run as a whole. -/
theorem performs_value (hobeys : Obeys sp cfg r e) : Performs r (Operates cfg r) 0 TypeCode.height
    (fun kind _ events out => events = [.part (e, out)] ∧ ∀ x, out = [x] → sp.Conforms kind x)
    (lower cfg e .value) := by
  refine fun s hs => .intro (fun kind t hlower => ?_) fun _ _ _ => trivial
  have hlaid := (lays_lower cfg e .value s hs).of_ok hlower
  refine ⟨hlaid.toTidy, fun hr top hn goal c d trace base hpc hstack hgoal hrun => ?_⟩
  obtain rfl := List.length_eq_zero_iff.mp hn
  obtain ⟨mid, hmid⟩ := (hlaid.code.grows hr).passed hpc hstack rfl hgoal hrun
  obtain ⟨out, hout, hlength⟩ := hmid.stack
  obtain ⟨-, rest, -, -, hrest⟩ := hmid.split
  have hbase : c.stack = base := hstack
  have hevaluated : Evaluated cfg r e kind out c mid :=
    ⟨s, t, hlower, hr, hpc, hmid.leads, hmid.pc, hbase ▸ hout⟩
  refine ⟨mid, [.part (e, out)], out, rest, hmid.pc, hout, .part _ ⟨kind, hevaluated⟩ (.nil mid),
    ⟨hlength, rfl, ?_⟩, hrest⟩
  rintro x rfl
  exact hobeys kind x c mid hevaluated

/-- The string that a literal is pushed as. -/
def asOperand (v : Literal) : Literal :=
  if v.isBinary then v else .string v.toText

theorem pushOperand_eq (v : Literal) : (pushOperand v : Emit Chunk TypeCode) = pushLiteral (asOperand v) := by
  cases v <;> rfl

theorem spelt_asOperand (v : Literal) : (asOperand v).toBytes = v.toBytes ∧
    (asOperand v).isBinary = v.isBinary ∧ (∀ x, asOperand v ≠ .double x) ∧
    TypeCode.ofLiteral (asOperand v) = if v.isBinary then .bytes else .string := by
  cases v <;> exact ⟨rfl, rfl, nofun, rfl⟩

/-- A literal is pushed as the string that it is spelt as. -/
theorem performs_pushOperand (hsound : sp.Sound) (v : Literal) : Performs (h := h) r (Operates cfg r) 0
    (fun _ => 1) (fun kind _ events out => events = [] ∧ ∃ x, out = [x] ∧ sp.Spells v x ∧
      kind = if v.isBinary then .bytes else .string) (pushOperand v) := by
  obtain ⟨hbytes, hbinary, hdouble, hkind⟩ := spelt_asOperand v
  rw [pushOperand_eq]
  refine (performs_pushLiteral (asOperand v)).mono ?_
  rintro kind top events out - ⟨rfl, rfl, rfl⟩
  rw [Routine.filed_eq hdouble]
  have hliteral := hsound.literal (asOperand v)
  exact ⟨rfl, _, rfl, ⟨hliteral.bytes.trans hbytes, hliteral.isBinary.trans hbinary⟩, hkind⟩

/-! ## Two operands -/

/-- A value is in the representation that an operand is said to have. -/
structure Represents (sp : Spelling h) (form : Operand) (x : h.Value) : Prop where
  text : form = .text → sp.isBinary x = false
  binary : form = .bytes → sp.isBinary x = true

/-- The host turns a value into text. -/
theorem performs_toText (hsound : sp.Sound) : Performs (h := h) r (Operates cfg r) 1 (fun _ => 1)
    (fun _ top events out => events.filterMap Event.part? = [] ∧
      ∃ x, top = [x] ∧ (sp.isBinary x = false → ∃ y, out = [y] ∧ sp.Joins [x] y)) (callVoid .toText) := by
  refine (performs_callVoid .toText).mono ?_
  rintro - top events out hn ⟨rfl, -, hyields⟩
  obtain ⟨x, rfl⟩ := List.length_eq_one_iff.mp hn
  refine ⟨rfl, x, rfl, fun hx => ?_⟩
  obtain ⟨w, w', out', hperform, rfl⟩ := Spelling.perform_of_yields hyields
  exact hsound.toText hx hperform

/-- An operand is pushed in the representation that is answered. -/
theorem performs_concatOperand (hsound : sp.Sound) (hobeys : e.value? = none → Obeys sp cfg r e) :
    Performs r (Operates cfg r) 0 (fun _ => 1) (fun form _ events out => ∃ v x, out = [x] ∧
      Worth sp [e] events [v] ∧ sp.Joins [v] x ∧ Represents sp form x) (concatOperand e (lower cfg e)) := by
  unfold concatOperand
  split
  · rename_i v he
    refine ((performs_pushOperand hsound v).andThen fun kind => Performs.pure (g := fun _ => 1)
      (Q := fun form top events out => form = (if kind = .bytes then .bytes else .text) ∧ events = [] ∧
        out = top) fun top hn => ⟨rfl, rfl, rfl, rfl⟩).mono ?_
    rintro form top events out - ⟨kind, _, _, _, rfl, ⟨rfl, x, rfl, hx, rfl⟩, rfl, rfl, rfl⟩
    refine ⟨x, x, rfl, worth_literal he hx, .refl x, ?_⟩
    cases hbinary : v.isBinary <;> exact ⟨by simp [hx.isBinary, hbinary], by simp [hx.isBinary, hbinary]⟩
  · rename_i he
    refine ((performs_value (hobeys he)).andThen (T := fun kind form top events out =>
      events.filterMap Event.part? = [] ∧ ∃ x, top = [x] ∧ (sp.Conforms kind x → ∃ y, out = [y] ∧
        sp.Joins [x] y ∧ Represents sp form y)) fun kind => ?_).mono ?_
    · split
      · refine .pure fun top hn => ⟨rfl, rfl, ?_⟩
        obtain ⟨x, rfl⟩ := List.length_eq_one_iff.mp hn
        exact ⟨x, rfl, fun hx => ⟨x, rfl, .refl x, fun _ => hx.text (Or.inl rfl), nofun⟩⟩
      · refine .pure fun top hn => ⟨rfl, rfl, ?_⟩
        obtain ⟨x, rfl⟩ := List.length_eq_one_iff.mp hn
        exact ⟨x, rfl, fun hx => ⟨x, rfl, .refl x, nofun, fun _ => hx.binary rfl⟩⟩
      · cases hprimitive : kind.isPrimitive with
        | true =>
          refine ((performs_boxed kind).andThen fun _ => (performs_toText hsound).answer).mono ?_
          rintro form top events out - ⟨_, _, _, _, rfl, ⟨rfl, -, x, rfl, rfl⟩, rfl, hsilent, _, ⟨⟩, htext⟩
          refine ⟨hsilent, x, rfl, fun hx => ?_⟩
          have hboxed := hsound.general kind x
          have hnotBinary := (Spelling.joins_singleton.mp hboxed).2.trans (hx.text (Or.inr hprimitive))
          obtain ⟨y, rfl, hy⟩ := htext hnotBinary
          exact ⟨y, rfl, hboxed.trans hy,
            fun _ => (Spelling.joins_singleton.mp hy).2.trans hnotBinary, nofun⟩
        | false =>
          refine (performs_boxed kind).answer.mono ?_
          rintro form top events out - ⟨rfl, rfl, -, x, rfl, rfl⟩
          exact ⟨rfl, x, rfl, fun _ => ⟨_, rfl, hsound.general kind x, nofun, nofun⟩⟩
    · rintro form top events out - ⟨kind, _, _, later, rfl, ⟨rfl, hconforms⟩, hsilent, x, rfl, hleaves⟩
      obtain ⟨y, rfl, hy, hform⟩ := hleaves (hconforms x rfl)
      exact ⟨x, y, rfl, (worth_part he).behind hsilent, hy, hform⟩

/-- What a concatenation leaves: the operands put together.  The type code that is answered is `string` or
`bytes` only if the value is text or binary. -/
def Concatenates (sp : Spelling h) (operands : List Expr) (kind : TypeCode)
    (events : List (Event h (Expr × List h.Value))) (out : List h.Value) : Prop :=
  ∃ values x, out = [x] ∧ Worth sp operands events values ∧ sp.Joins values x ∧
    (kind = .string → sp.isBinary x = false) ∧ (kind = .bytes → sp.isBinary x = true)

/-- Two strings are joined by the host. -/
theorem performs_join (hsound : sp.Sound) {op : RuntimeOp} (hop : op ∈ RuntimeOp.joining) :
    Performs (h := h) r (Operates cfg r) 2 (fun _ => 1) (fun kind top events out => kind = op.result ∧
      events.filterMap Event.part? = [] ∧ ∀ a b, top = [b, a] → ∃ x, out = [x] ∧ sp.Joins [a, b] x)
      (call op) := by
  have hjoining : ∀ op ∈ RuntimeOp.joining, op.arity = 2 ∧ op.result.height = 1 := by decide
  obtain ⟨harity, hheight⟩ := hjoining op hop
  rw [← harity]
  have hcall : Performs (h := h) r (Operates cfg r) op.arity TypeCode.height (fun kind top events out =>
      kind = op.result ∧ events.filterMap Event.part? = [] ∧
        ∀ a b, top = [b, a] → ∃ x, out = [x] ∧ sp.Joins [a, b] x) (call op) := by
    refine (performs_call op).mono ?_
    rintro kind top events out hn ⟨rfl, rfl, -, hyields⟩
    refine ⟨rfl, rfl, ?_⟩
    rintro a b rfl
    obtain ⟨w, w', out', hperform, rfl⟩ := Spelling.perform_of_yields hyields
    exact hsound.join hop hperform
  refine hcall.leaving ?_
  rintro kind top events out ⟨rfl, -⟩
  exact hheight

theorem joinOp_mem_joining (l r : Operand) : joinOp l r ∈ RuntimeOp.joining := by
  cases l <;> cases r <;> decide

/-- The type code of a join says what is known of the operands. -/
theorem result_joinOp {l r : Operand} {x y : h.Value} (hx : Represents sp l x) (hy : Represents sp r y) :
    ((joinOp l r).result = .string → (sp.isBinary x || sp.isBinary y) = false) ∧
      ((joinOp l r).result = .bytes → (sp.isBinary x || sp.isBinary y) = true) := by
  obtain ⟨hxtext, hxbinary⟩ := hx
  obtain ⟨hytext, hybinary⟩ := hy
  cases l <;> cases r <;> simp_all [joinOp, RuntimeOp.result]

theorem performs_concatPair {left right : Expr} (hsound : sp.Sound) (hleft : left.value? = none → Obeys sp cfg r left)
    (hright : right.value? = none → Obeys sp cfg r right) : Performs r (Operates cfg r) 0 (fun _ => 1)
      (fun kind _ events out => Concatenates sp [left, right] kind events out)
      (concatResult [(left, lower cfg left), (right, lower cfg right)]) := by
  refine ((performs_concatOperand hsound hleft).andThen fun l =>
    ((performs_concatOperand hsound hright).frame 1).andThen fun r =>
      performs_join hsound (joinOp_mem_joining l r)).mono ?_
  rintro kind top events out - ⟨l, _, _, _, rfl, ⟨v, x, rfl, hv, hx, hl⟩, r, _, _, _, rfl,
    ⟨_, rfl, v', x', rfl, hv', hx', hr⟩, rfl, hsilent, hjoin⟩
  obtain ⟨z, rfl, hz⟩ := hjoin x x' rfl
  refine ⟨[v] ++ [v'], z, rfl, ?_, hx.pair hx' hz, ?_⟩
  · exact hv.append (hv'.behind hsilent)
  · have htyped := result_joinOp hl hr
    have hbinary : sp.isBinary z = (sp.isBinary x || sp.isBinary x') := by rw [hz.isBinary]; simp
    rwa [hbinary]

/-! ## One operand -/

theorem performs_isBytes (hsound : sp.Sound) : Performs (h := h) r (Operates cfg r) 1 (fun _ => 1)
    (fun _ top events out => events.filterMap Event.part? = [] ∧
      ∃ x b, top = [x] ∧ out = [b] ∧ h.truth b = sp.isBinary x) (callVoid .isBytes) := by
  refine (performs_callVoid .isBytes).mono ?_
  rintro - top events out hn ⟨rfl, -, hyields⟩
  obtain ⟨x, rfl⟩ := List.length_eq_one_iff.mp hn
  obtain ⟨w, w', out', hperform, rfl⟩ := Spelling.perform_of_yields hyields
  obtain ⟨b, hb, htruth⟩ := hsound.isBytes hperform
  exact ⟨rfl, x, b, rfl, hb, htruth⟩

/-- A value that is not binary is turned into text. -/
theorem performs_unlessBytes (hsound : sp.Sound) : Performs (h := h) r (Operates cfg r) 1 (fun _ => 1)
    (fun kind top events out => kind = .object ∧ events.filterMap Event.part? = [] ∧
      ∃ x y, top = [x] ∧ out = [y] ∧ sp.Joins [x] y) (do
        let done ← defineLabel
        emit .dup
        callVoid .isBytes
        emit (.branchIfTrue done)
        callVoid .toText
        mark done
        return TypeCode.object) := by
  refine .withLabel fun done => ?_
  have hskip : Performs r (Operates cfg r) 1 _ _ _ := performs_dup.andThen fun _ => ((performs_isBytes hsound).frame 1).andThen
    fun _ => (performs_skippable done (performs_toText hsound)).answer (c := TypeCode.object)
  simp only [skippable, bind_assoc] at hskip
  refine hskip.mono ?_
  rintro kind top events out hn ⟨-, _, _, _, rfl, ⟨rfl, rfl⟩, -, _, _, _, rfl,
    ⟨_, rfl, hsilent, x, b, hx, rfl, htruth⟩, rfl, _, _, ⟨⟩, hrel⟩
  obtain ⟨x, rfl⟩ := List.length_eq_one_iff.mp hn
  cases hx
  split at hrel
  · obtain ⟨rfl, rfl⟩ := hrel
    exact ⟨rfl, by simpa using hsilent, x, x, rfl, rfl, .refl x⟩
  · rename_i hfalse
    obtain ⟨hsilent', x', hx', htext⟩ := hrel
    cases hx'
    obtain ⟨y, rfl, hy⟩ := htext (by simpa [htruth] using hfalse)
    exact ⟨rfl, by simp [hsilent, hsilent'], x, y, rfl, rfl, hy⟩

theorem performs_concatSingle (hsound : sp.Sound) (hobeys : e.value? = none → Obeys sp cfg r e) :
    Performs r (Operates cfg r) 0 (fun _ => 1)
      (fun kind _ events out => Concatenates sp [e] kind events out) (concatSingle e (lower cfg e)) := by
  unfold concatSingle
  split
  · rename_i v he
    refine (performs_pushOperand hsound v).mono ?_
    rintro kind top events out - ⟨rfl, x, rfl, hx, rfl⟩
    refine ⟨[x], x, rfl, worth_literal he hx, .refl x, ?_⟩
    cases hbinary : v.isBinary <;> simp [hx.isBinary, hbinary]
  · rename_i he
    refine ((performs_value (hobeys he)).andThen (T := fun kind kind' top events out =>
      events.filterMap Event.part? = [] ∧ ∃ x, top = [x] ∧ (sp.Conforms kind x → ∃ y, out = [y] ∧
        sp.Joins [x] y ∧ (kind' = .string → sp.isBinary y = false) ∧
        (kind' = .bytes → sp.isBinary y = true))) fun kind => ?_).mono ?_
    · split
      · rename_i hkind
        have hheight : kind.height = 1 := by rcases hkind with rfl | rfl <;> rfl
        refine .pure fun top hn => ⟨hheight.symm, rfl, ?_⟩
        obtain ⟨x, rfl⟩ := List.length_eq_one_iff.mp (hn.trans hheight)
        exact ⟨x, rfl, fun hx => ⟨x, rfl, .refl x, fun heq => hx.text (Or.inl heq), hx.binary⟩⟩
      · refine ((performs_boxed kind).andThen fun _ => performs_unlessBytes hsound).mono ?_
        rintro kind' top events out - ⟨_, _, _, _, rfl, ⟨rfl, -, x, rfl, rfl⟩, rfl, hsilent, _, y, ⟨⟩, rfl, hy⟩
        exact ⟨hsilent, x, rfl, fun _ => ⟨y, rfl, (hsound.general kind x).trans hy, nofun, nofun⟩⟩
    · rintro kind top events out - ⟨kind', _, _, later, rfl, ⟨rfl, hconforms⟩, hsilent, x, rfl, hleaves⟩
      obtain ⟨y, rfl, hy, htyped⟩ := hleaves (hconforms x rfl)
      exact ⟨[x], y, rfl, (worth_part he).behind hsilent, hy, htyped⟩

/-! ## More operands -/

/-- A literal that is read is pushed as what it is filed as. -/
theorem performs_literal (tag : ExprTag) (v : Literal) : Performs (h := h) r (Operates cfg r) 0
    TypeCode.height (fun kind _ events out => kind.isValue = true →
      kind = .ofLiteral v ∧ events = [] ∧ out = [h.literal (r.filed v)]) (lower cfg (.literal tag v) .value) := by
  rw [lower]
  refine fun s hs => ends_byRule fun _ table => ?_
  have hliteral : Performs (h := h) r (Operates cfg r) 0 TypeCode.height (fun kind _ events out =>
      kind.isValue = true → kind = .ofLiteral v ∧ events = [] ∧ out = [h.literal (r.filed v)])
      (literalValue tag.access v) := by
    unfold literalValue
    split
    · exact .pure fun top hn => ⟨rfl, nofun⟩
    · split
      · exact .fail _
      · refine ((performs_pushLiteral v).leaving ?_).mono fun _ _ _ _ _ hrel _ => hrel
        rintro kind top events out ⟨rfl, -⟩
        rw [TypeCode.height, if_pos (TypeCode.isValue_ofLiteral v)]
  exact (hliteral { s with table := table } hs).mono fun _ t ht => ⟨ht.ofTable, ht.does⟩

/-- A literal number is filed as itself: no zero of the other sign has been filed before. -/
def FiledAsItself (r : Routine) (e : Expr) : Prop :=
  ∀ tag x, e = .literal tag (.double x) → r.filed (.double x) = .double x

theorem performs_boxedOperand (hsound : sp.Sound) (hobeys : e.value? = none → Obeys sp cfg r e)
    (hfiled : FiledAsItself r e) :
    Performs r (Operates cfg r) 0 (fun _ => 1) (fun _ _ events out => ∃ v x, out = [x] ∧
      Worth sp [e] events [v] ∧ sp.Joins [v] x) (boxed (lower cfg e)) := by
  cases he : e.value? with
  | none =>
    refine ((performs_value (hobeys he)).andThen performs_boxed).mono ?_
    rintro - top events out - ⟨kind, _, _, _, rfl, ⟨rfl, -⟩, rfl, -, x, rfl, rfl⟩
    exact ⟨x, _, rfl, worth_part he, hsound.general kind x⟩
  | some v =>
    obtain ⟨tag, rfl⟩ : ∃ tag, e = .literal tag v := by
      cases e with
      | literal tag w => exact ⟨tag, by rw [Option.some.inj he]⟩
      | _ => exact nomatch he
    have hv : r.filed v = v := by
      by_cases hdouble : ∃ x, v = .double x
      · obtain ⟨x, rfl⟩ := hdouble
        exact hfiled tag x rfl
      · exact Routine.filed_eq fun x heq => hdouble ⟨x, heq⟩
    refine ((performs_literal tag v).andThen performs_boxed).mono ?_
    rintro - top events out - ⟨kind, _, _, _, rfl, hliteral, rfl, hvalue, x, rfl, rfl⟩
    obtain ⟨-, rfl, ⟨⟩⟩ := hliteral hvalue
    rw [hv]
    exact ⟨_, _, rfl, worth_literal he ((hsound.literal v).trans (hsound.general kind _)), .refl _⟩

/-- Operands are pushed in order, the last one on top. -/
theorem performs_pushBoxed (hsound : sp.Sound) :
    ∀ operands : List Expr, (∀ e ∈ operands, e.value? = none → Obeys sp cfg r e) → (∀ e ∈ operands, FiledAsItself r e) →
      Performs r (Operates cfg r) 0 (fun _ => operands.length) (fun _ _ events out => ∃ values xs,
        out = xs.reverse ∧ Worth sp operands events values ∧
        List.Forall₂ (fun v x => sp.Joins [v] x) values xs) (pushBoxed (lowerAll cfg operands))
  | [], _, _ => .pure fun top hn => ⟨rfl, [], [], List.length_eq_zero_iff.mp hn, .nil, .nil⟩
  | e :: rest, hobeys, hfiled => by
    obtain ⟨he, hrest⟩ := List.forall_mem_cons.mp hobeys
    obtain ⟨hfiled, hothers⟩ := List.forall_mem_cons.mp hfiled
    refine ((performs_boxedOperand hsound he hfiled).andThen fun _ =>
      (performs_pushBoxed hsound rest hrest hothers).frame 1).mono ?_
    rintro - top events out - ⟨-, _, _, _, rfl, ⟨v, x, rfl, hv, hx⟩, _, rfl, values, xs, rfl, hvalues, hxs⟩
    exact ⟨v :: values, x :: xs, (List.reverse_cons ..).symm, hv.append hvalues, .cons hx hxs⟩

/-- Values are collected in an array and joined. -/
theorem performs_joinAll (hsound : sp.Sound) (n : Nat) : Performs (h := h) r (Operates cfg r) n (fun _ => 1)
    (fun kind top events out => kind = .object ∧ events.filterMap Event.part? = [] ∧
      ∃ x, out = [x] ∧ sp.Joins top.reverse x) (emit (.newValueArray n) >>= fun _ => call .concatN) := by
  refine Performs.mono (Performs.leaving
    ((performs_ran (i := .newValueArray n) rfl).andThen fun _ => performs_call .concatN) ?_) ?_
  · rintro kind top events out ⟨-, _, _, _, -, -, rfl, -⟩
    rfl
  · rintro kind top events out hn ⟨-, _, _, _, rfl, ⟨rfl, hone, hyields⟩, rfl, rfl, -, hyields'⟩
    obtain ⟨_, w, w', heval⟩ := hyields
    obtain ⟨⟨out', w₁⟩, hperform, heq⟩ := Option.map_eq_some_iff.mp heval
    obtain ⟨array, harray, hitems⟩ := hsound.collect hn hperform
    obtain rfl := (Prod.mk.inj heq).1.symm.trans harray
    obtain ⟨w, w', out', hperform', rfl⟩ := Spelling.perform_of_yields hyields'
    obtain ⟨x, hx, hjoins⟩ := hsound.joinAll hperform'
    exact ⟨rfl, rfl, x, hx, hitems ▸ hjoins⟩

theorem concatResult_many (a b c : Expr × Code Chunk) (rest : List (Expr × Code Chunk)) :
    concatResult (a :: b :: c :: rest) =
      if (a :: b :: c :: rest).length ≤ maxOperands then
        pushBoxed (a :: b :: c :: rest) >>= fun _ =>
          emit (.newValueArray (a :: b :: c :: rest).length) >>= fun _ => call .concatN
      else Pass.fail (.backend (.resourceExhausted .concatenationOperands)) := rfl

/-- However many operands there are, the code puts them together. -/
theorem performs_concatResult (hsound : sp.Sound) (hobeys : ∀ e ∈ operands, e.value? = none → Obeys sp cfg r e)
    (hfiled : 2 < operands.length → ∀ e ∈ operands, FiledAsItself r e) :
    Performs r (Operates cfg r) 0 (fun _ => 1)
      (fun kind _ events out => Concatenates sp operands kind events out)
      (concatResult (lowerAll cfg operands)) := by
  match operands, hobeys, hfiled with
  | [], _, _ =>
    refine (performs_pushLiteral (.string "")).mono ?_
    rintro kind top events out - ⟨rfl, rfl, rfl⟩
    rw [Routine.filed_eq (v := .string "") nofun]
    have hempty := hsound.literal (.string "")
    exact ⟨[], _, rfl, .nil, ⟨hempty.bytes, hempty.isBinary⟩, fun _ => hempty.isBinary, nofun⟩
  | [e], hobeys, _ => exact performs_concatSingle hsound (hobeys e List.mem_cons_self)
  | [left, right], hobeys, _ =>
    exact performs_concatPair hsound (hobeys left List.mem_cons_self)
      (hobeys right (List.mem_cons_of_mem _ List.mem_cons_self))
  | first :: second :: third :: rest, hobeys, hfiled =>
    have hlength := length_lowerAll (σ := Chunk) cfg (first :: second :: third :: rest)
    simp only [lowerAll] at hlength ⊢
    rw [concatResult_many, hlength]
    split
    · refine ((performs_pushBoxed hsound _ hobeys (hfiled (by simp))).andThen fun _ =>
        performs_joinAll hsound _).mono ?_
      rintro kind top events out - ⟨-, _, _, later, rfl, ⟨values, xs, rfl, hvalues, hxs⟩, rfl, hsilent, x, rfl, hx⟩
      rw [List.reverse_reverse] at hx
      exact ⟨values, x, rfl, hvalues.behind hsilent, hx.of_forall₂ hxs, nofun, nofun⟩
    · exact .fail _

/-- What is known of a run of the code of a concatenation. -/
theorem ends_concat {tag : ExprTag} (hsound : sp.Sound) (haccess : tag.access = .read)
    (hobeys : ∀ e ∈ operands, e.value? = none → Obeys sp cfg r e)
    (hfiled : 2 < operands.length → ∀ e ∈ operands, FiledAsItself r e) :
    Performs r (Operates cfg r) 0 (fun _ => 1)
      (fun kind _ events out => Concatenates sp operands kind events out)
      (lower cfg (.concat tag operands) .value) := by
  rw [lower]
  refine fun s hs => ends_byRule fun _ table => ?_
  have hread : concatValue tag.access (lowerAll cfg operands) =
      (concatResult (lowerAll cfg operands) : Emit Chunk TypeCode) := by
    simp [concatValue, unlessDropped, haccess]
  have hresult := performs_concatResult hsound hobeys hfiled { s with table := table } hs
  rw [← hread] at hresult
  exact hresult.mono fun _ t ht => ⟨ht.ofTable, ht.does⟩

/-- **Whatever the number of operands is, the value of a concatenation is what its operands are worth, put
together.**  Every operand that is no literal is evaluated once, in order.  The type code that is answered is
`string` only if the value is text, and `bytes` only if it is binary.  If there are more than two operands,
literal numbers have to be filed as themselves. -/
theorem joins_of_concat {tag : ExprTag} (hsound : sp.Sound) (haccess : tag.access = .read)
    (hs : s.active.SlotsInOrder) (hlower : lower cfg (.concat tag operands) .value s = (.ok kind, t))
    (hr : t.active.Grows r) (hobeys : ∀ e ∈ operands, e.value? = none → Obeys sp cfg r e)
    (hfiled : 2 < operands.length → ∀ e ∈ operands, FiledAsItself r e) (hpc : c.pc = s.active.position)
    (hrun : Arrives r t.active.position c trace d) :
    ∃ events values x, Chronicle r (Operates cfg r) c events d ∧ d.stack = x :: c.stack ∧
      Worth sp operands events values ∧ sp.Joins values x ∧ (kind = .string → sp.isBinary x = false) ∧
      (kind = .bytes → sp.isBinary x = true) := by
  have hacts := (ends_concat hsound haccess hobeys hfiled s hs).of_ok hlower
  obtain ⟨last, events, out, rest, hlast, hout, hevents, ⟨-, values, x, rfl, hworth, hjoins, htyped⟩, hrest⟩ :=
    hacts.does hr [] rfl hpc (List.nil_append c.stack).symm (Nat.le_refl _) hrun
  obtain rfl := hrest.eq_self hlast
  exact ⟨events, values, x, hevents, hout, hworth, hjoins, htyped⟩

/-! ### Runs with written values -/

/-- A value is a text in parts, or a value array. -/
inductive Written where
  | text (parts : List Literal)
  | array (items : List Written)

namespace Written

/-- The parts of a text. -/
def parts : Written → List Literal
  | text parts => parts
  | array _ => []

/-- The items of a value array. -/
def items : Written → List Written
  | text _ => []
  | array items => items

end Written

/-- Texts are put together part by part, and a variable holds its name. -/
def writing : Host where
  Value := Written
  World := Unit
  literal v := .text [v]
  box _ x := x
  truth x := match x with
    | .text [.bool b] => b
    | _ => false
  read name _ := .text [.string name]
  perform i args world := match i, args with
    | .newValueArray _, args => some (⟨[.array args.reverse], rfl⟩, world)
    | .call .concatN, [array] => some (⟨[.text (array.items.flatMap Written.parts)], rfl⟩, world)
    | .call .toText, [x] => some (⟨[.text x.parts], rfl⟩, world)
    | .call .isBytes, [x] => some (⟨[.text [.bool (x.parts.any Literal.isBinary)]], rfl⟩, world)
    | .call op, [b, a] =>
      if h : op.result.height = 1 then some (⟨[.text (a.parts ++ b.parts)], h.symm⟩, world) else none
    | i, _ => some (⟨List.replicate i.yields (.text []), List.length_replicate⟩, world)

/-- A text is spelt as its parts are. -/
def written : Spelling writing where
  bytes x := x.parts.flatMap Literal.toBytes
  isBinary x := x.parts.any Literal.isBinary
  items := Written.items

theorem written_sound : written.Sound where
  literal v := ⟨List.flatMap_singleton .., by simp [written, writing, Written.parts]⟩
  box _ x _ := .refl x
  join := by
    intro op a b w out w' hop hperform
    have hout : out.1 = [.text (a.parts ++ b.parts)] := by
      simp only [RuntimeOp.joining, List.mem_cons, List.not_mem_nil, or_false] at hop
      rcases hop with rfl | rfl | rfl | rfl | rfl | rfl | rfl <;> cases hperform <;> rfl
    refine ⟨_, hout, ?_, ?_⟩
    · show (a.parts ++ b.parts).flatMap Literal.toBytes = _
      simp [written]
    · show (a.parts ++ b.parts).any Literal.isBinary = _
      simp [written]
  collect := by
    intro n args w out w' _ hperform
    cases hperform
    exact ⟨_, rfl, rfl⟩
  joinAll := by
    intro array w out w' hperform
    cases hperform
    refine ⟨_, rfl, ?_, ?_⟩
    · exact List.flatMap_assoc ..
    · exact List.any_flatMap ..
  toText := by
    intro x w out w' _ hperform
    cases hperform
    exact ⟨_, rfl, Spelling.joins_singleton.mpr ⟨rfl, rfl⟩⟩
  isBytes := by
    intro x w out w' hperform
    cases hperform
    exact ⟨_, rfl, rfl⟩

/-- A variable that is read obeys its type code, which says nothing. -/
theorem obeys_var (name : String) (tag : ExprTag) (haccess : tag.access = .read) :
    Obeys sp cfg r (.var tag name) := by
  rintro kind x c d ⟨s, t, hlower, -⟩
  have hobject : Ends (lower cfg (.var tag name) .value) s (fun kind _ => kind = .object) anyFailure := by
    rw [lower]
    refine ends_byRule fun _ table => ?_
    show Ends (Place.value _ tag.access (variablePlace name)) _ _ _
    rw [haccess]
    exact Ends.bind (Q := fun _ _ => True) (.pure trivial) fun _ _ _ => (ends_emit _ _).bind fun _ _ _ => .pure rfl
  obtain rfl := hobject.of_ok hlower
  refine ⟨?_, nofun⟩
  rintro (heq | heq) <;> exact nomatch heq

/-- A run starts with an empty stack. -/
def blank : Config writing where
  pc := 0
  stack := []
  slots _ := Written.text []
  world := ()

/-- What the code of an expression leaves when it is run by itself: the bytes, and whether they are binary. -/
def spelt? (e : Expr) (fuel : Nat) : Option (List (List UInt8 × Bool)) :=
  match lower {} e .value alone with
  | (.ok _, t) => (Config.follow t.active t.active.position fuel blank).map fun run =>
      run.2.stack.map fun x => (written.bytes x, written.isBinary x)
  | (.error _, _) => none

theorem spelt?_eq_some {e : Expr} {fuel : Nat} {left : List (List UInt8 × Bool)} (h : spelt? e fuel = some left) :
    ∃ kind t trace d, lower {} e .value alone = (.ok kind, t) ∧
      Arrives t.active t.active.position blank trace d ∧
      d.stack.map (fun x => (written.bytes x, written.isBinary x)) = left := by
  unfold spelt? at h
  split at h
  · rename_i kind t hlower
    obtain ⟨⟨trace, d⟩, hfollow, hleft⟩ := Option.map_eq_some_iff.mp h
    exact ⟨kind, t, trace, d, hlower, Config.arrives_of_follow hfollow, hleft⟩
  · exact nomatch h

/-- `7 . $x . b"\xFF"` -/
def mixedOperands : List Expr :=
  [.literal ⟨1, {}, .read⟩ (.int 7), .var ⟨2, {}, .read⟩ "x", .literal ⟨3, {}, .read⟩ (.bytes [255])]

/-- `0.0 . -0.0 . $x` -/
def zeros : Expr :=
  .concat ⟨0, {}, .none⟩ [.literal ⟨1, {}, .none⟩ (.double 0), .literal ⟨2, {}, .none⟩ (.double (-0)),
    .var ⟨3, {}, .none⟩ "x"]

/-- What is left of the operands if nothing is computed ahead of time. -/
def zeroOperands : List Expr :=
  [.literal ⟨4, {}, .read⟩ (.double 0), .literal ⟨5, {}, .read⟩ (.double (-0)), .var ⟨3, {}, .read⟩ "x"]

/-- Three operands of different kinds, with a concatenation that is binary. -/
theorem joins_mixedOperands :
    ∃ kind t trace d, lower {} (.concat ⟨0, {}, .read⟩ mixedOperands) .value alone = (.ok kind, t) ∧
      Arrives t.active t.active.position blank trace d ∧
      d.stack.map (fun x => (written.bytes x, written.isBinary x)) = [([55, 120, 255], true)] ∧
      ∃ events values x, Chronicle t.active (Operates {} t.active) blank events d ∧ d.stack = [x] ∧
        Worth written mixedOperands events values ∧ written.Joins values x := by
  have hspelt : spelt? (.concat ⟨0, {}, .read⟩ mixedOperands) 100 = some [([55, 120, 255], true)] := by
    decide +kernel
  obtain ⟨kind, t, trace, d, hlower, hrun, hleft⟩ := spelt?_eq_some hspelt
  have hslots : alone.active.SlotsInOrder := ⟨List.nodup_nil, List.forall_mem_nil _⟩
  have hobeys : ∀ e ∈ mixedOperands, e.value? = none → Obeys written {} t.active e := by
    simp only [mixedOperands, List.forall_mem_cons]
    exact ⟨by rintro ⟨⟩, fun _ => obeys_var "x" _ rfl, by rintro ⟨⟩, List.forall_mem_nil _⟩
  have hfiled : ∀ e ∈ mixedOperands, FiledAsItself t.active e := by
    simp only [mixedOperands, List.forall_mem_cons]
    exact ⟨by rintro _ _ ⟨⟩, by rintro _ _ ⟨⟩, by rintro _ _ ⟨⟩, List.forall_mem_nil _⟩
  obtain ⟨events, values, x, hevents, hstack, hworth, hjoins, -⟩ :=
    joins_of_concat written_sound rfl hslots hlower (.refl _) hobeys (fun _ => hfiled) rfl hrun
  exact ⟨kind, t, trace, d, hlower, hrun, hleft, events, values, x, hevents, hstack, hworth, hjoins⟩

/-- The zero with the sign is filed as the one without, so it is spelt as that one. -/
theorem joins_zeros : written.Sound ∧
    (∃ a, Analysis.kept (Analysis.analyze { options := { foldConstants := false } } zeros .read)
      { nextId := 4 } = (.ok (.concat ⟨0, {}, .read⟩ zeroOperands), a)) ∧
    ∃ kind t trace d x, lower {} (.concat ⟨0, {}, .read⟩ zeroOperands) .value alone = (.ok kind, t) ∧
      (∀ e ∈ zeroOperands, e.value? = none → Obeys written {} t.active e) ∧
      Arrives t.active t.active.position blank trace d ∧ d.stack = [x] ∧ written.bytes x = [48, 48, 120] ∧
      ∀ events values, Worth written zeroOperands events values → ¬ written.Joins values x := by
  have hspelt : spelt? (.concat ⟨0, {}, .read⟩ zeroOperands) 100 = some [([48, 48, 120], false)] := by
    decide +kernel
  have hzero : (Literal.double 0).toBytes = [48] := by decide +kernel
  have hsigned : (Literal.double (-0)).toBytes = [45, 48] := by decide +kernel
  obtain ⟨kind, t, trace, d, hlower, hrun, hleft⟩ := spelt?_eq_some hspelt
  obtain ⟨x, hstack⟩ : ∃ x, d.stack = [x] :=
    List.length_eq_one_iff.mp (by simpa using congrArg List.length hleft)
  have hobeys : ∀ e ∈ zeroOperands, e.value? = none → Obeys written {} t.active e := by
    simp only [zeroOperands, List.forall_mem_cons]
    exact ⟨by rintro ⟨⟩, by rintro ⟨⟩, fun _ => obeys_var "x" _ rfl, List.forall_mem_nil _⟩
  have hbytes : written.bytes x = [48, 48, 120] := by
    rw [hstack] at hleft
    exact (Prod.mk.inj (List.cons.inj hleft).1).1
  refine ⟨written_sound, ⟨_, rfl⟩, kind, t, trace, d, x, hlower, hobeys, hrun, hstack, hbytes, ?_⟩
  rintro events values ⟨hliterals, -⟩ hjoins
  unfold zeroOperands at hliterals
  cases hliterals with
  | cons hfirst hrest =>
    cases hrest with
    | cons hsecond _ =>
      have hspelled := hjoins.bytes
      rw [hbytes, List.flatMap_cons, List.flatMap_cons, (hfirst _ rfl).bytes, (hsecond _ rfl).bytes, hzero,
        hsigned] at hspelled
      exact absurd hspelled (by simp)

end Lowering
end PhpLowering
