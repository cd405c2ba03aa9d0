import PhpLowering.Proofs.Code.Chronicle
import PhpLowering.Proofs.Lowering.Halves

/-!
# What emitted code does

`Acts r part n R s t` says that a piece of the emission has led from the state `s` to the state `t`, and
what the code between them does: every run through it takes `n` values off the stack, tells some events
and leaves some values, as the relation `R` has it.  `Performs r part n R x` says so of a step of the
emission whenever it succeeds; `R` may depend on the answer.  The lemmas go from the elements that all
constructs are made of to code that is skipped and to alternatives.
-/

namespace PhpLowering

namespace Routine

variable {r : Routine} {v : Literal}

/-- A literal that is no double is filed as what it is. -/
theorem filed_eq (hv : ∀ x, v ≠ .double x) : r.filed v = v := by
  unfold filed
  cases hfind : r.constants.find? (· == v) with
  | none => rfl
  | some w =>
    rw [Option.getD_some]
    have heq : (w == v) = true := by simpa using Array.find?_some hfind
    cases v with
    | double x => exact (hv x rfl).elim
    | null => cases w <;> first | rfl | exact nomatch heq
    | bytes data =>
      cases w with
      | bytes data' => exact congrArg Literal.bytes (eq_of_beq (a := data') (b := data) heq)
      | _ => exact nomatch heq
    | _ => cases w <;> simp_all [BEq.beq, instBEqLiteral.beq]

end Routine

/-- A value of a type code in general form. -/
def Host.general (h : Host) (code : TypeCode) (v : h.Value) : h.Value :=
  if code.isPrimitive then h.box code v else v

namespace Lowering

open Pass (Ends)

variable {h : Host} {β α γ : Type} {r : Routine} {part : β → Config h → Config h → Prop}
  {s t u : State Chunk} {n m l : Nat}

/-- What code does on the values that it finds: the events that are told and the values that are left. -/
abbrev Deed (h : Host) (β : Type) :=
  List h.Value → List (Event h β) → List h.Value → Prop

/-- One deed after the other. -/
def Deed.then (R S : Deed h β) : Deed h β := fun top events out =>
  ∃ before mid after, events = before ++ after ∧ R top before mid ∧ S mid after out

/-- Only so many values are touched. -/
def Deed.above (n : Nat) (R : Deed h β) : Deed h β := fun top events out =>
  ∃ out', out = out' ++ top.drop n ∧ R (top.take n) events out'

/-- A piece of the emission whose code takes so many values and leaves so many. -/
structure Acts (r : Routine) (part : β → Config h → Config h → Prop) (n m : Nat) (R : Deed h β)
    (s t : State Chunk) : Prop extends Tidy s t where
  does : t.active.Grows r → ∀ top : List h.Value, top.length = n →
    Config.Does r part s.active.position t.active.position top fun events out =>
      out.length = m ∧ R top events out

/-- Whenever a step succeeds, its code takes so many values and leaves so many. -/
def Performs (r : Routine) (part : β → Config h → Config h → Prop) (n : Nat) (g : α → Nat)
    (R : α → Deed h β) (x : Emit Chunk α) : Prop :=
  ∀ s, s.active.SlotsInOrder → Ends x s (fun a t => Acts r part n (g a) (R a) s t) anyFailure

variable {R S : Deed h β} {x : Emit Chunk α} {f : α → Emit Chunk γ} {Q Q' : α → Deed h β}
  {T : α → γ → Deed h β} {g : α → Nat} {g' : γ → Nat}

theorem Acts.mono {R' : Deed h β} (hacts : Acts r part n m R s t)
    (hR : ∀ top events out, top.length = n → R top events out → R' top events out) :
    Acts r part n m R' s t :=
  ⟨hacts.toTidy, fun hr top hn => (hacts.does hr top hn).mono fun events out hrel =>
    ⟨hrel.1, hR top events out hn hrel.2⟩⟩

theorem Acts.andThen (hst : Acts r part n m R s t) (htu : Acts r part m l S t u) :
    Acts r part n l (R.then S) s u where
  toTidy := hst.toTidy.trans htu.toTidy
  does hr top hn := by
    refine ((hst.does (htu.grows.trans hr) top hn).seq htu.grows.position fun events out hrel =>
      htu.does hr out hrel.1).mono ?_
    rintro _ out ⟨before, mid, after, rfl, hbefore, hafter⟩
    exact ⟨hafter.1, before, mid, after, rfl, hbefore.2, hafter.2⟩

theorem Acts.frame (hst : Acts r part n m R s t) (k : Nat) : Acts r part (n + k) (m + k) (R.above n) s t where
  toTidy := hst.toTidy
  does hr top hn := by
    have hown : (top.take n).length = n := by rw [List.length_take]; omega
    have hmore : (top.drop n).length = k := by rw [List.length_drop]; omega
    have hdoes := (hst.does hr _ hown).frame (top.drop n)
    rw [List.take_append_drop] at hdoes
    refine hdoes.mono ?_
    rintro events _ ⟨out, rfl, hlength, hrel⟩
    exact ⟨by rw [List.length_append, hlength, hmore], out, rfl, hrel⟩

namespace Performs

theorem mono (hx : Performs r part n g Q x)
    (hQ : ∀ a top events out, top.length = n → Q a top events out → Q' a top events out) :
    Performs r part n g Q' x :=
  fun s hs => (hx s hs).mono fun a _ ht => ht.mono (hQ a)

/-- The number of values that are left may be known from what is done. -/
theorem leaving {g₂ : α → Nat} (hx : Performs r part n g Q x)
    (hg : ∀ a top events out, Q a top events out → g a = g₂ a) : Performs r part n g₂ Q x :=
  fun s hs => (hx s hs).mono fun a _ ht => ⟨ht.toTidy, fun hr top hn => (ht.does hr top hn).mono
    fun events out hrel => ⟨hrel.1.trans (hg a top events out hrel.2), hrel.2⟩⟩

theorem frame (hx : Performs r part n g Q x) (k : Nat) :
    Performs r part (n + k) (fun a => g a + k) (fun a => (Q a).above n) x :=
  fun s hs => (hx s hs).mono fun _ _ ht => ht.frame k

theorem andThen (hx : Performs r part n g Q x) (hf : ∀ a, Performs r part (g a) g' (T a) (f a)) :
    Performs r part n g' (fun c top events out => ∃ a, ((Q a).then (T a c)) top events out) (x >>= f) := by
  intro s hs
  refine (hx s hs).bind fun a t ht => ?_
  refine (hf a t ht.order).mono fun c u hu => ?_
  exact (ht.andThen hu).mono fun _ _ _ _ hrel => ⟨a, hrel⟩

theorem pure {a : α} (ha : ∀ top : List h.Value, top.length = n → g a = n ∧ Q a top [] top) :
    Performs r part n g Q (Pure.pure a) := by
  intro s hs
  refine Ends.pure ⟨(Laid.refl (P := fun _ => True) (n := 0) hs).toTidy, fun _ top hn => ?_⟩
  refine Config.does_nil.mono ?_
  rintro events out ⟨rfl, hout⟩
  obtain ⟨hg, hQ⟩ := ha top hn
  rw [hout]
  exact ⟨hn.trans hg.symm, hQ⟩

/-- What a step answers does not matter for its code. -/
theorem answer {c : γ} (hx : Performs r part n (fun _ => m) (fun _ => R) x) : Performs r part n (fun _ => m)
    (fun c' top events out => c' = c ∧ R top events out) (x >>= fun _ => Pure.pure c) :=
  fun s hs => (hx s hs).bind fun _ _ ht => .pure (ht.mono fun _ _ _ _ hrel => ⟨rfl, hrel⟩)

theorem fail (e : CompileError) : Performs r part n g Q (Pass.fail e) :=
  fun _ _ => .fail trivial

/-- A step that adds no code. -/
theorem of_lays (hx : Lays 0 (fun _ => 0) x)
    (hcode : ∀ s, Ends x s (fun _ t => t.active.code = s.active.code) anyFailure) :
    Performs (h := h) r part n (fun _ => n) (fun _ top events out => events = [] ∧ out = top) x := by
  intro s hs
  refine ((hx s hs).and (hcode s)).mono fun a t ht => ⟨ht.1.toTidy, fun _ top hn => ?_⟩
  rw [show t.active.position = s.active.position from congrArg Array.size ht.2]
  refine Config.does_nil.mono ?_
  rintro events out ⟨rfl, hout⟩
  exact ⟨hout ▸ hn, rfl, hout⟩

end Performs

/-! ## Instructions -/

/-- One plain instruction is emitted. -/
theorem performs_emit {i : Instruction} {R : Deed h β}
    (hdoes : ∀ (p : Nat) (top : List h.Value), r.code[p]? = some i → top.length = i.pops →
      Config.Does r part p (p + 1) top fun events out =>
        out.length = i.yields ∧ R top events out) :
    Performs r part i.pops (fun _ => i.yields) (fun _ => R) (emit i) := by
  refine fun s hs => (ends_appended i hs).mono fun _ t ht => ⟨ht.toTidy, fun hr top hn => ?_⟩
  rw [ht.position]
  exact hdoes _ top (ht.code hr) hn

/-- An instruction that is carried out by the host. -/
theorem performs_ran {i : Instruction} (hplain : i.isPlain = true) :
    Performs (h := h) r part i.pops (fun _ => i.yields)
      (fun _ top events out => events = [.ran i top out] ∧ out.length = i.yields ∧ h.Yields r i top out)
      (emit i) :=
  performs_emit fun _ _ hi hn => (Config.does_ran hi hplain hn).mono fun _ _ ⟨hevents, hyields⟩ =>
    ⟨hyields.length hn, hevents, hyields.length hn, hyields⟩

/-- An instruction that moves a value. -/
theorem performs_move {i : Instruction} (hplain : i.isPlain = true) (hmove : i.isMove = true)
    {f : List h.Value → List h.Value}
    (hf : ∀ top out, top.length = i.pops → h.Yields r i top out → out = f top) :
    Performs (h := h) r part i.pops (fun _ => i.yields)
      (fun _ top events out => events = [] ∧ out = f top) (emit i) :=
  performs_emit fun _ _ hi hn => (Config.does_move hi hplain hmove hn).mono fun _ _ ⟨hevents, hyields⟩ =>
    ⟨hyields.length hn, hevents, hf _ _ hn hyields⟩

theorem performs_dup : Performs (h := h) r part 1 (fun _ => 2)
    (fun _ top events out => events = [] ∧ out = top ++ top) (emit .dup) := by
  refine performs_move (i := .dup) rfl rfl ?_
  rintro top out hn ⟨_, _, _, heval⟩
  obtain ⟨v, rfl⟩ := List.length_eq_one_iff.mp hn
  exact (Prod.mk.inj (Option.some.inj heval)).1.symm

theorem performs_pop : Performs (h := h) r part 1 (fun _ => 0)
    (fun _ _ events out => events = [] ∧ out = []) (emit .pop) := by
  refine performs_move (i := .pop) (f := fun _ => []) rfl rfl ?_
  rintro top out - ⟨_, _, _, heval⟩
  exact (Prod.mk.inj (Option.some.inj heval)).1.symm

theorem performs_callVoid (op : RuntimeOp) :
    Performs (h := h) r part op.arity (fun _ => op.result.height) (fun _ top events out =>
      events = [.ran (.call op) top out] ∧ out.length = op.result.height ∧ h.Yields r (.call op) top out)
      (callVoid op) :=
  performs_ran (i := .call op) rfl

theorem performs_call (op : RuntimeOp) :
    Performs (h := h) r part op.arity TypeCode.height (fun code top events out => code = op.result ∧
      events = [.ran (.call op) top out] ∧ out.length = op.result.height ∧ h.Yields r (.call op) top out)
      (call op) := by
  intro s hs
  have hcall : Ends (callVoid op) s (fun _ t => Acts (h := h) r part op.arity op.result.height _ s t) anyFailure :=
    performs_callVoid op s hs
  exact hcall.bind fun _ t ht => .pure (ht.mono fun _ _ _ _ hrel => ⟨rfl, hrel⟩)

/-! ## Values -/

theorem performs_box (code : TypeCode) : Performs (h := h) r part 1 (fun _ => 1)
    (fun code' top events out => events = [] ∧ code.isValue = true ∧ code'.isPrimitive = false ∧
      out = top.map (h.general code)) (box code) := by
  unfold box
  split
  · rename_i hprimitive
    have hgeneral : h.general code = h.box code := funext fun v => if_pos hprimitive
    have hemit : Performs (h := h) r part 1 (fun _ => 1)
        (fun _ top events out => events = [] ∧ out = top.map (h.general code)) (emit (.box code)) := by
      refine performs_move (i := .box code) rfl rfl ?_
      rintro top out hn ⟨_, _, _, heval⟩
      obtain ⟨v, rfl⟩ := List.length_eq_one_iff.mp hn
      rw [hgeneral]
      exact (Prod.mk.inj (Option.some.inj heval)).1.symm
    intro s hs
    refine (hemit s hs).bind fun _ t ht => .pure ?_
    exact ht.mono fun _ _ _ _ hrel => ⟨hrel.1, TypeCode.isValue_of_isPrimitive hprimitive, rfl, hrel.2⟩
  · rename_i hprimitive
    have hgeneral : h.general code = id := funext fun v => if_neg hprimitive
    split
    · rename_i hvalue
      refine .pure fun top hn => ⟨hn.symm ▸ rfl, rfl, hvalue, by simpa using hprimitive, ?_⟩
      rw [hgeneral, List.map_id]
    · exact .fail _

/-- A value that code leaves is turned into general form. -/
theorem performs_boxed (kind : TypeCode) : Performs (h := h) r part kind.height (fun _ => 1)
    (fun _ top events out => events = [] ∧ kind.isValue = true ∧ ∃ x, top = [x] ∧ out = [h.general kind x])
    (box kind) := by
  cases hvalue : kind.isValue with
  | true =>
    rw [show kind.height = 1 by rw [TypeCode.height, if_pos hvalue]]
    refine (performs_box kind).mono ?_
    rintro - top events out hn ⟨rfl, -, -, rfl⟩
    obtain ⟨x, rfl⟩ := List.length_eq_one_iff.mp hn
    exact ⟨rfl, rfl, x, rfl, rfl⟩
  | false =>
    have hprimitive : kind.isPrimitive = false := by
      by_contra hne
      exact absurd (TypeCode.isValue_of_isPrimitive (eq_true_of_ne_false hne)) (hvalue ▸ Bool.false_ne_true)
    unfold box
    rw [if_neg (hprimitive ▸ Bool.false_ne_true), if_neg (hvalue ▸ Bool.false_ne_true)]
    exact .fail _

/-- A literal is filed, and its entry is pushed. -/
theorem ends_pushLiteral (v : Literal) (hs : s.active.SlotsInOrder) :
    Ends (pushLiteral v) s (fun code t => code = .ofLiteral v ∧ Tidy s t ∧
      t.active.position = s.active.position + 1 ∧ ∃ k, t.active.code[s.active.position]? = some (.const k) ∧
        ∀ r, t.active.Grows r → r.constants[k]? = some (r.filed v)) anyFailure := by
  refine ((lays_addConstant (n := 0) v s hs).and (ends_addConstant v)).bind ?_
  rintro k t ⟨hlaid, -, hcode, hentry⟩
  refine (ends_appended (.const k) hlaid.order).bind fun _ u hu => .pure ?_
  have hposition : t.active.position = s.active.position := congrArg Array.size hcode
  refine ⟨rfl, hlaid.toTidy.trans hu.toTidy, ?_, k, ?_, fun r hr => hentry r (hu.grows.trans hr)⟩
  · rw [hu.active, Routine.position_push, hposition]
  · rw [hu.active, ← hposition]
    exact t.active.code_push_self _

/-- A literal is pushed as what it is filed as. -/
theorem performs_pushLiteral (v : Literal) : Performs (h := h) r part 0 (fun _ => 1)
    (fun code _ events out => code = .ofLiteral v ∧ events = [] ∧ out = [h.literal (r.filed v)])
    (pushLiteral v) := by
  intro s hs
  refine (ends_pushLiteral v hs).mono ?_
  rintro _ t ⟨rfl, htidy, hposition, k, hi, hentry⟩
  refine ⟨htidy, fun hr top hn => ?_⟩
  obtain rfl := List.length_eq_zero_iff.mp hn
  rw [hposition]
  refine Config.Does.mono (Config.does_move (hr.code hi) rfl rfl rfl) ?_
  rintro events out ⟨rfl, slots, w, w', heval⟩
  rw [Host.evaluate, hentry r hr] at heval
  obtain ⟨rfl, -⟩ := Prod.mk.inj (Option.some.inj heval)
  exact ⟨rfl, rfl, rfl, rfl⟩

/-! ## Branches -/

theorem performs_defineLabel : Performs (h := h) r part n (fun _ => n)
    (fun _ top events out => events = [] ∧ out = top) defineLabel := by
  refine .of_lays lays_defineLabel fun s => .transform ?_
  show Routine.code (State.active { s with sink := (Chunk.onActive Routine.defineLabel s.sink).2 }) = _
  rw [Chunk.onActive_eq]
  show Routine.code (State.active (s.withActive s.active.defineLabel.2)) = _
  rw [State.active_withActive]
  rfl

/-- A new label adds no code. -/
theorem Performs.withLabel {f : Label → Emit Chunk γ} {U : γ → Deed h β}
    (hf : ∀ l, Performs r part n g' U (f l)) : Performs r part n g' U (defineLabel >>= f) := by
  refine (performs_defineLabel.andThen hf).mono ?_
  rintro c top events out - ⟨-, _, _, _, rfl, ⟨rfl, rfl⟩, hrel⟩
  exact hrel

/-- Code that is skipped if the value on top is true. -/
theorem performs_skippable (done : Label) {body : Emit Chunk Unit}
    (hbody : Performs r part n (fun _ => n) (fun _ => R) body) :
    Performs r part (n + 1) (fun _ => n) (fun _ top events out => ∃ v below, top = v :: below ∧
      if h.truth v then events = [] ∧ out = below else R below events out) (skippable done body) := by
  intro s hs
  refine (ends_skippable done hs hbody fun h => h.toTidy).mono ?_
  rintro _ v ⟨t, u, htu, hst, huv, ht, hv, hi, hl⟩
  refine ⟨(hst.trans htu.toTidy).trans huv, fun hr top hn => ?_⟩
  obtain ⟨b, below, rfl⟩ := List.exists_cons_of_length_eq_add_one hn
  have hle := htu.grows.position
  have hbelow : below.length = n := Nat.succ.inj hn
  have hbody := htu.does (huv.grows.trans hr) below hbelow
  rw [hv]
  rw [ht] at hbody
  refine (Config.Does.skip (hr.code hi) (by omega) (fun _ => hbody)
    (hr.labelPosition? hl)).mono fun events out hrel => ?_
  cases htruth : h.truth b with
  | true =>
    rw [htruth, if_pos rfl] at hrel
    exact ⟨hrel.2 ▸ hbelow, b, below, rfl, by rwa [htruth, if_pos rfl]⟩
  | false =>
    rw [htruth, if_neg Bool.false_ne_true] at hrel
    exact ⟨hrel.1, b, below, rfl, by rw [htruth, if_neg Bool.false_ne_true]; exact hrel.2⟩

/-- Two alternatives. -/
theorem performs_alternatives (otherwise done : Label) {first second : Emit Chunk Unit}
    (hfirst : Performs r part n (fun _ => m) (fun _ => R) first)
    (hsecond : Performs r part n (fun _ => m) (fun _ => S) second) :
    Performs r part (n + 1) (fun _ => m) (fun _ top events out => ∃ v below, top = v :: below ∧
      if h.truth v then R below events out else S below events out)
      (alternatives otherwise done first second) := by
  intro s hs
  refine (ends_alternatives otherwise done hs hfirst hsecond (fun h => h.toTidy) fun h => h.toTidy).mono ?_
  rintro _ x ⟨t, u, v, w, htu, hvw, hst, huv, hwx, ht, hv, hx, hi, hbranch, hotherwise, hdone⟩
  have hvx := hvw.toTidy.trans hwx
  refine ⟨((hst.trans htu.toTidy).trans huv).trans hvx, fun hr top hn => ?_⟩
  obtain ⟨b, below, rfl⟩ := List.exists_cons_of_length_eq_add_one hn
  have hle := htu.grows.position
  have hle' := hvw.grows.position
  have hone := htu.does ((huv.trans hvx).grows.trans hr) below (Nat.succ.inj hn)
  have hother := hvw.does (hwx.grows.trans hr) below (Nat.succ.inj hn)
  rw [hx]
  rw [ht] at hone
  rw [hv] at hother
  refine (Config.Does.fork (hr.code hi) (by omega) (fun _ => hone) (hr.code hbranch)
    (hr.labelPosition? hotherwise) (by omega) (fun _ => hother)
    (hr.labelPosition? hdone)).mono fun events out hrel => ?_
  split at hrel
  · rename_i htruth
    exact ⟨hrel.1, b, below, rfl, by rw [if_pos htruth]; exact hrel.2⟩
  · rename_i htruth
    exact ⟨hrel.1, b, below, rfl, by rw [if_neg htruth]; exact hrel.2⟩

end Lowering
end PhpLowering
