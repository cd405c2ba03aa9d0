import PhpLowering.Proofs.Code.Provenance
import PhpLowering.Proofs.CopyOnStore

/-!
# Which values are reference cells

Marks tell what instruction has produced a value.  An expression that is asked for its value leaves one
that no instruction has produced that leaves a reference cell (**`values_lower`**): its parts may leave
what they want, as whatever they leave is handed to an instruction that leaves a value of its own, but for
those parts whose value is handed on, and these are asked for their value as well.  A location that is
asked for a reference leaves a reference cell.

So the code in front of a `return` leaves what the routine returns (**`ends_returnValue`**).
-/

namespace PhpLowering

namespace Host

variable {h : Host} {r : Routine} {i : Instruction} {args out : List h.marking.Value}

/-- None of some values was produced by an instruction that leaves a reference cell. -/
def Unmarked (vs : List h.marking.Value) : Prop :=
  ∀ v ∈ vs, mark v = false

theorem unmarked_nil : Unmarked ([] : List h.marking.Value) :=
  nofun

theorem unmarked_singleton {v : h.marking.Value} (hv : mark v = false) : Unmarked [v] :=
  List.forall_mem_singleton.mpr hv

theorem Yields.mark (hyields : h.marking.Yields r i args out) (hdup : i ≠ .dup) (hload : ∀ k, i ≠ .loadTemp k) :
    ∀ v ∈ out, Host.mark v = i.yieldsCell := by
  obtain ⟨_, _, _, heval⟩ := hyields
  exact mark_of_evaluate hdup hload heval

theorem Unmarked.general {v : h.marking.Value} (hv : Unmarked [v]) (kind : TypeCode) :
    Unmarked [h.marking.general kind v] := by
  unfold Host.general
  split
  · exact unmarked_singleton rfl
  · exact hv

end Host

theorem RuntimeOp.yieldsCell_call (op : RuntimeOp) :
    (Instruction.call op).yieldsCell = decide (op.result = .referenceCell) := by
  cases op <;> rfl

/-- What is returned, by reference or not. -/
def Expr.Returned (byRef : Bool) (e : Expr) : Prop :=
  Wanted e.subexprs ∧ (e.access = .read ∨ byRef = true ∧ e.isPlace = true ∧ e.access = .readRef)

namespace Lowering

open Pass (Ends)
open Config (Arrives Chronicle)
open Expr (Wanted ReadWanted)
open Analysis (operandAccess branchAccess)
open Host (Unmarked unmarked_nil unmarked_singleton)

variable {cfg : Setting} {h : Host} {r : Routine} {α β γ : Type} {s t u : State Chunk} {n m w : Nat}
  {g : α → Nat} {g' : γ → Nat}

/-! ## What code leaves -/

/-- Of a part of the code it does not matter what it is. -/
def anyPart : Unit → Config h → Config h → Prop :=
  fun _ _ _ => True

/-- The code of a step turns so many values on the stack into others. -/
def Turns (h : Host) (r : Routine) (n : Nat) (g : α → Nat)
    (Q : α → List h.marking.Value → List h.marking.Value → Prop) (x : Emit Chunk α) : Prop :=
  Performs (h := h.marking) r anyPart n g (fun a top _ out => Q a top out) x

variable {Q Q' : α → List h.marking.Value → List h.marking.Value → Prop}
  {T : γ → List h.marking.Value → List h.marking.Value → Prop} {x : Emit Chunk α} {f : α → Emit Chunk γ}

namespace Turns

/-- What the code does besides is not told. -/
theorem forget {part : β → Config h.marking → Config h.marking → Prop}
    {R : α → Deed h.marking β} (hx : Performs r part n g R x) :
    Turns h r n g (fun a top out => ∃ events, R a top events out) x := by
  refine fun s hs => (hx s hs).mono fun a t ht => ⟨ht.toTidy, fun hr top hn => ?_⟩
  intro goal c d trace base hpc hstack hgoal hrun
  obtain ⟨mid, events, out, rest, hmid, hout, -, ⟨hlength, hrel⟩, hrest⟩ := ht.does hr top hn hpc hstack hgoal hrun
  exact ⟨mid, [.part ()], out, rest, hmid, hout, .part () trivial (.nil mid), ⟨hlength, events, hrel⟩, hrest⟩

theorem of_performs {R : α → Deed h.marking Unit} (hx : Performs r anyPart n g R x) :
    Turns h r n g (fun a top out => ∃ events, R a top events out) x :=
  forget hx

/-- Whatever lays a stretch leaves as many values as it says. -/
theorem of_lays (hx : Lays n g x) : Turns h r n g (fun a _ out => out.length = g a) x := by
  refine fun s hs => (hx s hs).mono fun a t ht => ⟨ht.toTidy, fun hr top hn => ?_⟩
  intro goal c d trace base hpc hstack hgoal hrun
  obtain ⟨mid, hmid⟩ := (ht.code.grows hr).passed hpc hstack hn hgoal hrun
  obtain ⟨out, hout, hlength⟩ := hmid.stack
  obtain ⟨-, rest, -, -, hrest⟩ := hmid.split
  exact ⟨mid, [.part ()], out, rest, hmid.pc, hout, .part () trivial (.nil mid), ⟨hlength, hlength⟩, hrest⟩

theorem mono (hx : Turns h r n g Q x) (hQ : ∀ a top out, top.length = n → Q a top out → Q' a top out) :
    Turns h r n g Q' x :=
  Performs.mono hx fun a top _ out => hQ a top out

/-- So many values are left. -/
theorem counted (hx : Turns h r n g Q x) : Turns h r n g (fun a top out => out.length = g a ∧ Q a top out) x :=
  fun s hs => (hx s hs).mono fun _ _ ht => ⟨ht.toTidy, fun hr top hn => (ht.does hr top hn).mono
    fun _ _ hrel => ⟨hrel.1, hrel⟩⟩

theorem frame (hx : Turns h r n g Q x) (k : Nat) : Turns h r (n + k) (fun a => g a + k)
    (fun a top out => ∃ out', out = out' ++ top.drop n ∧ Q a (top.take n) out') x :=
  Performs.frame hx k

/-- What comes last decides. -/
theorem andThen (hx : Turns h r n g Q x) (hf : ∀ a, Turns h r (g a) g' (fun c mid out =>
    ∀ top, Q a top mid → T c top out) (f a)) : Turns h r n g' T (x >>= f) := by
  refine Performs.mono (Performs.andThen hx hf) ?_
  rintro c top events out - ⟨a, _, mid, _, -, hmid, hout⟩
  exact hout top hmid

/-- The number of values that are left may be known from what they are. -/
theorem leaving {g₂ : α → Nat} (hx : Turns h r n g Q x) (hg : ∀ a top out, Q a top out → g a = g₂ a) :
    Turns h r n g₂ Q x :=
  Performs.leaving hx fun a top _ out => hg a top out

/-- What is below stays as it is. -/
theorem above (hx : Lays n (fun _ => 0) x) (k : Nat) :
    Turns h r (n + k) (fun _ => k) (fun _ top out => out = top.drop n) x := by
  refine (((of_lays hx).frame k).leaving fun _ _ _ _ => Nat.zero_add k).mono ?_
  rintro _ top out - ⟨none, rfl, hnone⟩
  rw [List.length_eq_zero_iff.mp hnone, List.nil_append]

theorem pure {a : α} (ha : ∀ top : List h.marking.Value, top.length = n → g a = n ∧ Q a top top) :
    Turns h r n g Q (Pure.pure a) :=
  Performs.pure ha

/-- Nothing is done after a step but to say what is left. -/
theorem answer {R : List h.marking.Value → List h.marking.Value → Prop} {x : Emit Chunk Unit} (kind : TypeCode)
    (hm : kind.height = m) (hx : Turns h r n (fun _ => m) (fun _ => R) x) : Turns h r n TypeCode.height
      (fun answer top out => answer = kind ∧ R top out) (do x; return kind) :=
  andThen hx fun _ => .pure fun _ _ => ⟨hm, fun _ hout => ⟨rfl, hout⟩⟩

theorem dup : Turns h r 1 (fun _ => 2) (fun _ top out => ∃ v, top = [v] ∧ out = [v, v]) (emit .dup) := by
  refine (of_performs performs_dup).mono ?_
  rintro _ top out hn ⟨_, -, rfl⟩
  obtain ⟨v, rfl⟩ := List.length_eq_one_iff.mp hn
  exact ⟨v, rfl, rfl⟩

/-- A copy of the value on top is tested. -/
theorem test {op : RuntimeOp} (harity : op.arity = 1) (hone : op.result.height = 1) {y : Emit Chunk α}
    {R : List h.marking.Value → α → List h.marking.Value → Prop}
    (hy : Turns h r 2 g (fun a top out => R top.tail a out) y) :
    Turns h r 1 g (fun a top out => R top a out) (do emit .dup; callVoid op; y) := by
  have hflag := (of_lays (h := h) (r := r) (lays_callVoid op)).frame 1
  rw [harity, hone] at hflag
  refine dup.andThen fun _ => hflag.andThen fun _ => hy.mono ?_
  rintro a _ out - hout _ ⟨flag, rfl, hlength⟩ _ ⟨v, rfl, rfl⟩
  obtain ⟨b, rfl⟩ := List.length_eq_one_iff.mp hlength
  exact hout

/-- Code that is skipped if the value on top is true. -/
theorem skippable (done : Label) {R : List h.marking.Value → List h.marking.Value → Prop} {body : Emit Chunk Unit}
    (hskip : ∀ below, R below below) (hbody : Turns h r n (fun _ => n) (fun _ => R) body) :
    Turns h r (n + 1) (fun _ => n) (fun _ top out => R top.tail out) (Lowering.skippable done body) := by
  refine (of_performs (performs_skippable done hbody)).mono ?_
  rintro _ top out - ⟨_, v, below, rfl, hrel⟩
  split at hrel
  · exact hrel.2 ▸ hskip below
  · exact hrel

/-- Two alternatives, between which the value on top decides. -/
theorem alternatives (otherwise done : Label) {R : List h.marking.Value → List h.marking.Value → Prop}
    {first second : Emit Chunk Unit} (hfirst : Turns h r n (fun _ => m) (fun _ => R) first)
    (hsecond : Turns h r n (fun _ => m) (fun _ => R) second) :
    Turns h r (n + 1) (fun _ => m) (fun _ top out => R top.tail out)
      (Lowering.alternatives otherwise done first second) := by
  refine (of_performs (performs_alternatives otherwise done hfirst hsecond)).mono ?_
  rintro _ top out - ⟨_, v, below, rfl, hrel⟩
  split at hrel <;> exact hrel

end Turns

/-- What an instruction leaves that is no move has its mark. -/
theorem turns_emit {i : Instruction} (hplain : i.isPlain = true) (hdup : i ≠ .dup) (hload : ∀ k, i ≠ .loadTemp k) :
    Turns h r i.pops (fun _ => i.yields) (fun _ _ out => ∀ v ∈ out, Host.mark v = i.yieldsCell) (emit i) := by
  refine (Turns.of_performs (performs_ran hplain)).mono ?_
  rintro _ top out hn ⟨_, -, -, hyields⟩
  exact hyields.mark hdup hload

/-! ## Values -/

/-- The code of a step leaves values, and no reference cells. -/
def Values (h : Host) (r : Routine) (n : Nat) (x : Emit Chunk TypeCode) : Prop :=
  Turns h r n TypeCode.height (fun kind _ out => kind ≠ .referenceCell ∧ Unmarked out) x

variable {value : Emit Chunk TypeCode} {code target : Code Chunk} {access : Access} {kind : TypeCode} {e : Expr}

/-- What the last step leaves is all that is left. -/
theorem Lays.values {f : α → Emit Chunk TypeCode} (hx : Lays n g x) (hf : ∀ a, Values h r (g a) (f a)) :
    Values h r n (x >>= f) :=
  (Turns.of_lays hx).andThen fun a => Turns.mono (hf a) fun _ _ _ _ hout _ _ => hout

theorem values_fail (e : CompileError) : Values h r n (Pass.fail e) :=
  fun _ _ => .fail trivial

theorem values_emit {i : Instruction} (hplain : i.isPlain = true) (hdup : i ≠ .dup) (hload : ∀ k, i ≠ .loadTemp k)
    (hcell : i.yieldsCell = false) (hkind : kind ≠ .referenceCell) (hheight : kind.height = i.yields) :
    Values h r i.pops (do emit i; return kind) :=
  (turns_emit hplain hdup hload).andThen fun _ => .pure fun _ _ => ⟨hheight, fun _ hout =>
    ⟨hkind, fun v hv => (hout v hv).trans hcell⟩⟩

theorem values_call (op : RuntimeOp) (hop : op.result ≠ .referenceCell) : Values h r op.arity (call op) :=
  values_emit (i := .call op) rfl nofun nofun (by rw [op.yieldsCell_call]; exact decide_eq_false hop) hop rfl

theorem values_pushLiteral (v : Literal) : Values h r 0 (pushLiteral v) := by
  have hpushed := Turns.of_performs (performs_pushLiteral (h := h.marking) (r := r) v)
  refine (hpushed.leaving (by rintro _ _ _ ⟨_, rfl, -⟩; cases v <;> rfl)).mono ?_
  rintro _ top out - ⟨_, rfl, -, rfl⟩
  exact ⟨by cases v <;> nofun, unmarked_singleton rfl⟩

theorem values_void : Values h r 0 (Pure.pure .void) :=
  .pure fun _ hn => ⟨rfl, nofun, List.length_eq_zero_iff.mp hn ▸ unmarked_nil⟩

/-- A value is dropped, or left as it is. -/
theorem Values.unlessDropped (hx : Values h r n value) (access : Access) :
    Values h r n (value >>= Lowering.unlessDropped access) := by
  unfold Lowering.unlessDropped
  refine Turns.andThen hx fun kind => ?_
  split
  · have hdropped : Values h r kind.height (discard kind) := by
      unfold discard
      split
      · rename_i hvalue
        rw [height_of_isValue hvalue]
        exact lays_pop.values fun _ => values_void
      · rename_i hvalue
        rw [TypeCode.height, if_neg hvalue]
        exact values_void
    exact hdropped.mono fun _ _ _ _ hout _ _ => hout
  · exact .pure fun _ _ => ⟨rfl, fun _ hout => hout⟩

theorem turns_box (kind : TypeCode) :
    Turns h r kind.height (fun _ => 1) (fun _ top out => Unmarked top → Unmarked out) (box kind) := by
  refine (Turns.of_performs (performs_boxed kind)).mono ?_
  rintro _ _ _ - ⟨_, -, -, v, rfl, rfl⟩ hout
  exact hout.general kind

/-- A value in general form. -/
theorem Values.boxed (hx : Values h r 0 (code .value)) :
    Turns h r 0 (fun _ => 1) (fun _ _ out => Unmarked out) (boxed code) :=
  Turns.andThen hx fun kind => (turns_box kind).mono fun _ _ _ _ hout _ hin => hout hin.2

/-- A value is converted by a primitive, unless it has the representation already. -/
theorem Values.converted (hx : Values h r 0 (code .value)) {target : TypeCode}
    {op : RuntimeOp} (hop : converter? target = some op) (hobject : target ≠ .object) :
    Values h r 0 (converted code target) := by
  have hresult : op.result ≠ .referenceCell ∧ op.arity = 1 := by
    unfold converter? at hop
    split at hop <;> cases hop <;> exact ⟨nofun, rfl⟩
  refine Turns.andThen hx fun kind => ?_
  unfold convert
  split
  · exact .pure fun _ _ => ⟨rfl, fun _ hout => hout⟩
  · rw [hop]
    have hcall := values_call (h := h) (r := r) op hresult.1
    rw [hresult.2] at hcall
    exact (turns_box kind).andThen fun _ => Turns.mono hcall fun _ _ _ _ hout _ _ _ _ => hout

/-! ## Locations -/

/-- What a location leaves: a value, or a reference if that is what it is asked for. -/
structure Place.Marks (h : Host) (r : Routine) (w : Nat) (p : Place Chunk) : Prop where
  load : Values h r w p.load
  loadRef : Turns h r 0 TypeCode.height (fun kind _ out => kind = .referenceCell ∧ ∀ v ∈ out, Host.mark v = true)
    p.loadRef

theorem Place.Marks.values {p : Place Chunk} (hp : p.LaysPlace w) (hmarks : p.Marks h r w) {rule : ExprKind}
    (haccess : access = .none ∨ access = .read) : Values h r 0 (p.value rule access) := by
  unfold Place.value
  rcases haccess with rfl | rfl
  · refine (hp.prepare .read).values fun _ => hp.load.one.values fun _ => lays_pop.values fun _ => values_void
  · exact (hp.prepare .read).values fun _ => hmarks.load

theorem turns_reference {i : Instruction} (hplain : i.isPlain = true) (hdup : i ≠ .dup) (hload : ∀ k, i ≠ .loadTemp k)
    (hcell : i.yieldsCell = true) (hone : i.yields = 1) : Turns h r i.pops TypeCode.height
      (fun kind _ out => kind = .referenceCell ∧ ∀ v ∈ out, Host.mark v = true)
      (do emit i; return .referenceCell) :=
  (turns_emit hplain hdup hload).andThen fun _ => .pure fun _ _ => ⟨hone.symm, fun _ hout =>
    ⟨rfl, fun v hv => (hout v hv).trans hcell⟩⟩

theorem marks_variable (name : String) : (variablePlace name).Marks h r 0 where
  load := values_emit (i := .loadVar name) rfl nofun nofun rfl nofun rfl
  loadRef := turns_reference (i := .loadVarRef name) rfl nofun nofun rfl rfl

theorem marks_item {container : Code Chunk} {key : Emit Chunk TypeCode} (hp : (itemPlace container key).LaysPlace 2) :
    (itemPlace container key).Marks h r 2 where
  load := by
    refine Lays.values (lays_peek (n := 2) _) fun quiet => ?_
    cases quiet <;> exact values_call _ nofun
  loadRef := by
    refine (Turns.of_lays (hp.prepare .write)).andThen fun _ => ?_
    exact (turns_reference (i := .call .getItemRef) rfl nofun nofun rfl rfl).mono fun _ _ _ _ hout _ _ => hout

theorem marks_append {container : Code Chunk} (hp : (appendPlace container).LaysPlace 1) :
    (appendPlace container).Marks h r 1 where
  load := values_fail _
  loadRef := by
    refine (Turns.of_lays (hp.prepare .write)).andThen fun _ => ?_
    exact (turns_reference (i := .call .appendReference) rfl nofun nofun rfl rfl).mono fun _ _ _ _ hout _ _ => hout

/-! ## Values that are kept meanwhile -/

/-- What is known of the slots where values are kept. -/
abbrev Known (h : Host) :=
  (Temp → h.marking.Value) → Prop

/-- A slot has a value if there is one. -/
def Filled (h : Host) (saved : Option Temp) : Known h :=
  fun slots => ∀ k, saved = some k → Host.mark (slots k) = false

/-- A piece of the emission whose code works on the value on top of the stack, and on the slots. -/
structure Changes (r : Routine) (K K' : Known h) (s t : State Chunk) : Prop extends Tidy s t where
  does : t.active.Grows r → ∀ ⦃goal : Nat⦄ ⦃c d : Config h.marking⦄ ⦃trace : List (KeyUse h.marking)⦄
    ⦃v : h.marking.Value⦄ ⦃base : List h.marking.Value⦄, c.pc = s.active.position → c.stack = v :: base →
    Host.mark v = false → K c.slots → t.active.position ≤ goal → Arrives r goal c trace d →
    ∃ mid w rest, mid.pc = t.active.position ∧ mid.stack = w :: base ∧ Host.mark w = false ∧ K' mid.slots ∧
      Arrives r goal mid rest d

variable {K K' K'' : Known h} {saved : Option Temp} {k : Temp}

theorem Changes.refl (hs : s.active.SlotsInOrder) (hK : ∀ slots, K slots → K' slots) : Changes r K K' s s where
  toTidy := .of_eq hs (.refl _) rfl (.refl _) rfl rfl rfl
  does _ _ c _ trace v _ hpc hstack hv hslots _ hrun := ⟨c, v, trace, hpc, hstack, hv, hK _ hslots, hrun⟩

theorem Changes.trans (hst : Changes r K K' s t) (htu : Changes r K' K'' t u) : Changes r K K'' s u where
  toTidy := hst.toTidy.trans htu.toTidy
  does hr goal c d trace v base hpc hstack hv hslots hgoal hrun := by
    obtain ⟨mid, w, rest, hmid, hout, hw, hkept, hrest⟩ := hst.does (htu.grows.trans hr) hpc hstack hv hslots
      (Nat.le_trans htu.grows.position hgoal) hrun
    exact htu.does hr hmid hout hw hkept hgoal hrest

theorem ends_saveTo_changes (hs : s.active.SlotsInOrder) :
    Ends (saveTo k) s (fun _ t => Changes r K (Filled h (some k)) s t) anyFailure := by
  refine (ends_saveTo (P := fun _ => True) hs trivial trivial).mono ?_
  rintro _ t ⟨ht, hdup, hstore, hposition⟩
  refine ⟨ht.toTidy, fun hr goal c d trace v base hpc hstack hv _ hgoal hrun => ?_⟩
  rw [← hpc] at hdup hstore
  obtain ⟨use, c', out, rest, -, hc', heval, hout, -, hrest⟩ :=
    hrun.stepsPlain (by omega) (hr.code hdup) rfl (show c.stack = [v] ++ base from hstack) rfl
  obtain ⟨rfl, -⟩ := Prod.mk.inj (Option.some.inj heval)
  rw [← hc'] at hstore
  obtain ⟨use', mid, out', rest', -, hmid, heval', hout', hslots, hrest'⟩ :=
    hrest.stepsPlain (by omega) (hr.code hstore) rfl (show c'.stack = [v] ++ (v :: base) from hout) rfl
  obtain ⟨rfl, -⟩ := Prod.mk.inj (Option.some.inj heval')
  refine ⟨mid, v, rest', by omega, hout', hv, ?_, hrest'⟩
  rintro _ ⟨⟩
  rw [hslots, show h.marking.store c'.slots (.storeTemp k) [v] k = v from if_pos rfl]
  exact hv

theorem ends_saveResult_changes (saved : Option Temp) (hs : s.active.SlotsInOrder) :
    Ends (incDecValue.saveResult saved) s (fun _ t => Changes r K (Filled h saved) s t) anyFailure := by
  cases saved with
  | none => exact .pure (.refl hs fun _ _ => nofun)
  | some k => exact ends_saveTo_changes hs

/-- A primitive leaves a value of its own on top. -/
theorem ends_callVoid_changes {op : RuntimeOp} (harity : op.arity = 1) (hone : op.result.height = 1)
    (hop : op.result ≠ .referenceCell) (hs : s.active.SlotsInOrder) :
    Ends (callVoid op) s (fun _ t => Changes r K K s t) anyFailure := by
  refine (ends_appended (.call op) hs).mono fun _ t ht => ⟨ht.toTidy, ?_⟩
  intro hr goal c d trace v base hpc hstack hv hslots hgoal hrun
  have hposition := ht.position
  have hargs : [v].length = (Instruction.call op).pops := harity.symm
  obtain ⟨use, mid, out, rest, -, hmid, heval, hout, hstore, hrest⟩ :=
    hrun.stepsPlain (by omega) (hpc ▸ ht.code hr) rfl (show c.stack = [v] ++ base from hstack) hargs
  have hlength := h.marking.length_of_evaluate hargs heval
  obtain ⟨w, rfl⟩ := List.length_eq_one_iff.mp (hlength.trans hone)
  have hmark := Host.mark_of_evaluate (i := .call op) nofun nofun heval w (List.mem_singleton_self w)
  rw [op.yieldsCell_call, decide_eq_false hop] at hmark
  exact ⟨mid, w, rest, by omega, hout, hmark, hstore ▸ hslots, hrest⟩

theorem ends_changeValue_changes (increment post : Bool) (saved : Option Temp) (hs : s.active.SlotsInOrder) :
    Ends (changeValue increment post saved) s (fun _ t => Changes r K (Filled h saved) s t) anyFailure := by
  have hchange (K : Known h) (s : State Chunk) (hs : s.active.SlotsInOrder) :
      Ends (callVoid (if increment then .increment else .decrement)) s (fun _ t => Changes r K K s t) anyFailure := by
    cases increment <;> exact ends_callVoid_changes rfl rfl nofun hs
  unfold changeValue
  cases post with
  | true =>
    refine (ends_saveResult_changes (K := K) (r := r) saved hs).bind fun _ t ht => ?_
    exact (hchange _ t ht.order).bind fun _ u hu => .pure (ht.trans hu)
  | false =>
    show Ends (callVoid _ >>= fun _ => incDecValue.saveResult saved) s _ _
    exact (hchange K s hs).bind fun _ t ht => (ends_saveResult_changes saved ht.order).mono fun _ u hu => ht.trans hu

/-- The value on top is kept in a slot if it is used. -/
structure Retains (r : Routine) (h : Host) (access : Access) (saved : Option Temp) (s t : State Chunk) : Prop
    extends Changes r (h := h) (fun _ => True) (Filled h saved) s t where
  used : saved = none ↔ access = .none
  slot : ∀ k, saved = some k → s.active.Vacant k ∧ ¬ t.active.Vacant k

theorem ends_saveUsed_retains (access : Access) (hs : s.active.SlotsInOrder) :
    Ends (saveUsed access) s (fun saved t => Retains r h access saved s t) anyFailure := by
  refine (ends_saveUsed (h := h.marking) anyPart access hs).mono ?_
  rintro saved t ⟨ht, hused, hslot, hdoes⟩
  refine ⟨⟨ht, fun hr goal c d trace x base hpc hstack hx _ hgoal hrun => ?_⟩, hused, hslot⟩
  obtain ⟨mid, rest, hmid, hout, -, hsaved, hrest⟩ := hdoes r hr hpc hstack hgoal hrun
  exact ⟨mid, x, rest, hmid, hout.trans hstack, hx, fun k hk => hsaved k hk ▸ hx, hrest⟩

theorem ends_changeUsed_retains (increment post : Bool) (access : Access) (hs : s.active.SlotsInOrder) :
    Ends (do
      let saved ← resultSlot (access ≠ .none)
      changeValue increment post saved
      return saved) s (fun saved t => Retains r h access saved s t) anyFailure := by
  have hslot : Ends (resultSlot (access ≠ .none)) s (fun saved _ => saved = none ↔ access = .none) anyFailure := by
    unfold resultSlot
    split
    · rename_i hused
      exact (ends_declareTemp hs).bind fun _ _ _ => .pure ⟨nofun, fun h => absurd h (of_decide_eq_true hused)⟩
    · rename_i hused
      exact .pure ⟨fun _ => not_not.mp fun h => hused (decide_eq_true h), fun _ => rfl⟩
  refine ((ends_resultSlot _ hs).and hslot).bind ?_
  rintro saved t ⟨⟨ht, hcode, -, htaken⟩, hused⟩
  refine (ends_changeValue_changes (h := h) (r := r) (K := fun _ => True) increment post saved ht.order).bind
    fun _ u hu => .pure ?_
  refine ⟨⟨ht.trans hu.toTidy, fun hr goal c d trace v base hpc => hu.does hr (hpc.trans ?_)⟩, hused, fun k hk => ?_⟩
  · exact congrArg Array.size hcode.symm
  · exact ⟨(htaken k hk).1, fun hvacant => (htaken k hk).2 (hu.vacant k hvacant)⟩

/-- A value is computed, kept if it is used, and stored: the rest of the work leaves the slot alone. -/
theorem saves_of_retains {x : Emit Chunk α} {y : Emit Chunk (Option Temp)} {z : Emit Chunk β}
    (hx : Turns h r 0 (fun _ => w + 1) (fun _ _ out => ∀ v ∈ out.head?, Host.mark v = false) x)
    (hy : ∀ s, s.active.SlotsInOrder → Ends y s (fun saved t => Retains r h access saved s t) anyFailure)
    (hz : Lays (w + 1) (fun _ => 0) z) (hs : s.active.SlotsInOrder) :
    Ends (do
      let _ ← x
      let saved ← y
      let _ ← z
      return saved) s (fun saved t =>
        Saves r anyPart (fun _ (v : h.marking.Value) => Host.mark v = false) access saved s t)
      anyFailure := by
  refine (hx s hs).bind fun _ t ht => (hy t ht.order).bind fun saved u hu => ?_
  refine (hz u hu.order).bind fun _ v hv => .pure ?_
  have hsu := ht.toTidy.trans hu.toTidy
  refine ⟨hsu.trans hv.toTidy, hu.used, fun k hk => ?_, ?_⟩
  · exact ⟨ht.vacant k (hu.slot k hk).1, fun hvacant => (hu.slot k hk).2 (hv.vacant k hvacant)⟩
  intro hr goal c d trace hpc hgoal hrun
  have hur := hv.grows.trans hr
  have hle := hu.grows.position
  have hle' := hv.grows.position
  obtain ⟨computed, _, out, rest, hcomputed, hout, -, ⟨hlength, hmark⟩, hrest⟩ :=
    ht.does (hu.grows.trans hur) [] rfl hpc (List.nil_append c.stack).symm (by omega) hrun
  obtain ⟨first, below, rfl⟩ := List.exists_cons_of_length_eq_add_one hlength
  obtain ⟨kept, top, rest, hkept, hstack, -, hsaved, hrest⟩ :=
    hu.does hur hcomputed (show computed.stack = first :: (below ++ c.stack) from hout) (hmark first rfl) trivial
      (by omega) hrest
  obtain ⟨stored, hstored⟩ := (hv.code.grows hr).passed hkept
    (show kept.stack = (top :: below) ++ c.stack from hstack) hlength hgoal hrest
  obtain ⟨none, hnone, hzero⟩ := hstored.stack
  obtain rfl := List.length_eq_zero_iff.mp hzero
  obtain ⟨-, rest, -, -, hrest⟩ := hstored.split
  have hevent : Chronicle r anyPart c [.part ()] stored := .part () trivial (.nil stored)
  cases saved with
  | none => exact ⟨stored, _, first, rest, hstored.pc, hnone, hevent, hmark first rfl, nofun, hrest⟩
  | some k =>
    have hslot : stored.slots k = kept.slots k := hstored.slots k fun hvacant => (hu.slot k rfl).2 (hvacant.slot k rfl)
    refine ⟨stored, _, stored.slots k, rest, hstored.pc, hnone, hevent, hslot ▸ hsaved k rfl, ?_, hrest⟩
    rintro _ ⟨⟩
    rfl

/-- What has been kept is left if it is used. -/
theorem values_ownChain {x : Emit Chunk (Option Temp)} (hx : ∀ s, s.active.SlotsInOrder → Ends x s (fun saved t =>
      Saves r anyPart (fun _ (v : h.marking.Value) => Host.mark v = false) access saved s t) anyFailure) :
    Values h r 0 (do
      beginChain false
      let saved ← x
      Pass.update State.endChain
      loadSaved saved) := by
  intro s hs
  have hkind : Ends (do
      beginChain false
      let saved ← x
      Pass.update State.endChain
      loadSaved saved) s (fun kind _ => kind ≠ .referenceCell) anyFailure := by
    refine .update_bind ((hx (s.openChain false) hs).bind fun saved _ _ => .update_bind ?_)
    cases saved with
    | none => exact .pure nofun
    | some k => exact (ends_emit _ _).bind fun _ _ _ => .update_bind (.pure nofun)
  refine ((ends_ownChain (hx (s.openChain false) hs)).and hkind).mono fun kind t ht => ht.1.mono ?_
  rintro top events out - ⟨v, hv, rfl⟩
  refine ⟨ht.2, ?_⟩
  unfold Lowering.kept
  split
  · exact unmarked_nil
  · exact unmarked_singleton hv

/-! ## Constructs -/

theorem values_literalValue (v : Literal) (haccess : access = .none ∨ access = .read) :
    Values h r 0 (literalValue access v) := by
  unfold literalValue
  rcases haccess with rfl | rfl
  · exact values_void
  · exact values_pushLiteral v

theorem values_constantValue (name : String) : Values h r 0 (constantValue access name) := by
  have hvalue : Values h r 0 (do emit (.loadConstant name); return .object) :=
    values_emit (i := .loadConstant name) rfl nofun nofun rfl nofun rfl
  have hconstant := hvalue.unlessDropped access
  simp only [bind_assoc, pure_bind] at hconstant
  exact hconstant

theorem values_callOn {op : RuntimeOp} (harity : op.arity = 1) (hop : op.result ≠ .referenceCell)
    (hcode : LaysCode w code) : Values h r 0 (callOn op code) :=
  hcode.boxed.one.values fun _ => harity ▸ values_call op hop

theorem values_unaryResult (op : UnaryOp) (hcode : LaysCode w code) (hvalue : Values h r 0 (code .value)) :
    Values h r 0 (unaryResult op code) := by
  cases op with
  | plus | minus | logicNot | bitNot | clone | print => exact values_callOn rfl nofun hcode
  | intCast | doubleCast | stringCast | binaryCast | boolCast => exact hvalue.converted rfl nofun
  | unsetCast =>
    exact hcode.value.values fun kind => (lays_discard kind (g := fun _ => 0) rfl).values fun _ => values_pushLiteral _
  | silence => exact hvalue

theorem values_unaryValue (op : UnaryOp) (hcode : LaysCode w code) (hvalue : Values h r 0 (code .value)) :
    Values h r 0 (unaryValue access op code) := by
  unfold unaryValue
  split
  · refine (lays_callVoid .beginSilence).values fun _ => Turns.andThen hvalue fun kind => ?_
    have hend : Turns h r (0 + kind.height) (fun _ => kind.height) (fun _ top out => out = top)
        (callVoid .endSilence) := .above (lays_callVoid .endSilence) kind.height
    rw [Nat.zero_add] at hend
    exact hend.andThen fun _ => .pure fun top _ => ⟨rfl, fun below hbelow _ hout => hbelow ▸ hout⟩
  · exact (values_unaryResult op hcode hvalue).unlessDropped access

theorem values_binaryValue (op : BinaryOp) {left right : Code Chunk} (hl : LaysCode n left) (hr : LaysCode m right) :
    Values h r 0 (binaryValue access op left right) := by
  have hcall : Values h r 2 (call op.runtimeOp) := by cases op <;> exact values_call _ nofun
  exact hl.boxed.one.values fun _ => (hr.boxed.one.frame 1).values fun _ => hcall.unlessDropped access

theorem values_callValue (name : String) {args : List (Expr × Code Chunk)} (hargs : AllLay args) :
    Values h r 0 (callValue access name args) := by
  unfold callValue
  split
  · have hcall : Values h r args.length (do emit (.callFunction name args.length); return .object) :=
      values_emit (i := .callFunction name args.length) rfl nofun nofun rfl nofun rfl
    have hboth := (lays_pushArguments hargs).values fun _ => hcall.unlessDropped access
    simp only [bind_assoc, pure_bind] at hboth
    exact hboth
  · exact values_fail _

theorem values_pushOperand (v : Literal) : Values h r 0 (pushOperand v) := by
  unfold pushOperand
  split <;> exact values_pushLiteral _

/-- A single operand may be what is left. -/
theorem values_concatSingle (hvalue : Values h r 0 (code .value)) : Values h r 0 (concatSingle e code) := by
  unfold concatSingle
  split
  · exact values_pushOperand _
  · refine Turns.andThen hvalue fun kind => ?_
    split
    · exact .pure fun _ _ => ⟨rfl, fun _ hout => hout⟩
    · refine (turns_box kind).andThen fun _ => Performs.withLabel fun done => ?_
      have htext : Turns h r 1 (fun _ => 1) (fun _ top out => Unmarked top → Unmarked out) (callVoid .toText) :=
        (turns_emit (i := .call .toText) rfl (by rintro ⟨⟩) (by rintro _ ⟨⟩)).mono fun _ _ _ _ hout _ => hout
      have hskip := (Turns.skippable done (fun _ => id) htext).answer .object rfl
      simp only [skippable, bind_assoc] at hskip
      refine (Turns.test (R := fun top kind out => kind = .object ∧ (Unmarked top → Unmarked out)) rfl rfl hskip).mono ?_
      rintro _ top out - ⟨rfl, hout⟩ before hbox top' ⟨-, htop⟩
      exact ⟨by rintro ⟨⟩, hout (hbox htop)⟩

theorem AllLay.cons {e : Expr} {operands : List (Expr × Code Chunk)} (h : AllLay ((e, code) :: operands)) :
    (∃ w, LaysCode w code) ∧ AllLay operands :=
  List.forall_mem_cons.mp h

theorem values_concatValue {operands : List (Expr × Code Chunk)} (hoperands : AllLay operands)
    (hvalue : ∀ o ∈ operands, Values h r 0 (o.2 .value)) :
    Values h r 0 (concatValue access operands) := by
  refine Values.unlessDropped ?_ access
  unfold concatResult
  split
  · exact values_pushLiteral _
  · exact values_concatSingle (hvalue _ (List.mem_singleton_self _))
  · obtain ⟨⟨_, hl⟩, hrest⟩ := hoperands.cons
    obtain ⟨⟨_, hr⟩, -⟩ := hrest.cons
    refine (lays_concatOperand hl).values fun l => ((lays_concatOperand hr).frame 1).values fun r => ?_
    cases l <;> cases r <;> exact values_call _ nofun
  · split
    · refine (lays_pushBoxed hoperands).values fun _ => ?_
      refine Lays.values (g := fun _ => 1) ?_ fun _ => values_call .concatN nofun
      exact lays_emit rfl (Nat.le_refl _) (by simp [Instruction.pops, Instruction.yields]) nofun nofun
    · exact values_fail _

/-- A branch leaves its value in general form if it is used. -/
theorem turns_branchValue (used : Bool) (hvalue : Values h r 0 (code .value)) :
    Turns h r 0 (fun _ => if used then 1 else 0) (fun _ _ out => Unmarked out) (branchValue used code) := by
  unfold branchValue
  refine Turns.andThen hvalue fun kind => ?_
  cases used with
  | true => exact (turns_box kind).andThen fun _ => .pure fun _ _ => ⟨rfl, fun _ hout _ hin => hout hin.2⟩
  | false =>
    refine (Turns.of_lays (lays_discard kind (g := fun _ => 0) rfl)).andThen fun _ => .pure fun out hn => ⟨rfl, ?_⟩
    rw [List.length_eq_zero_iff.mp hn]
    exact fun _ _ _ _ => unmarked_nil

theorem conditionalResult_ne (access : Access) : conditionalResult access ≠ .referenceCell := by
  unfold conditionalResult
  split <;> nofun

theorem values_conditionalValue {condition ifTrue ifFalse : Code Chunk} (hc : LaysCode w condition)
    (htrue : Values h r 0 (ifTrue .value)) (hfalse : Values h r 0 (ifFalse .value)) :
    Values h r 0 (conditionalValue access condition ifTrue ifFalse) := by
  refine Performs.withLabel fun done => Performs.withLabel fun otherwise => ?_
  refine (hc.converted .boolean (g := fun _ => 1) fun _ _ => rfl).values fun _ => ?_
  have hboth := (Turns.alternatives otherwise done (turns_branchValue (access ≠ .none) htrue)
    (turns_branchValue (access ≠ .none) hfalse)).answer (conditionalResult access) (height_conditionalResult access)
  simp only [alternatives, bind_assoc] at hboth
  exact hboth.mono fun _ _ _ _ hout => ⟨hout.1 ▸ conditionalResult_ne access, hout.2⟩

theorem values_shortcutValue {condition ifFalse : Code Chunk} (hc : LaysCode w condition)
    (hvalue : access ≠ .none → Values h r 0 (condition .value)) (hfalse : Values h r 0 (ifFalse .value)) :
    Values h r 0 (shortcutValue access condition ifFalse) := by
  refine Performs.withLabel fun done => ?_
  have hresult := height_conditionalResult access
  have hbranch := turns_branchValue (access ≠ .none) hfalse
  by_cases haccess : access = .none
  · subst haccess
    refine (hc.converted .boolean (g := fun _ => 1) fun _ _ => rfl).values fun _ => ?_
    have hskip := (Turns.skippable (R := fun below out => Unmarked below → Unmarked out) done (fun _ => id)
      (hbranch.mono fun _ _ _ _ hout _ => hout)).answer (conditionalResult .none) rfl
    simp only [skippable, bind_assoc] at hskip
    refine Turns.mono hskip ?_
    rintro _ top out hn ⟨rfl, hout⟩
    obtain ⟨v, rfl⟩ := List.length_eq_one_iff.mp hn
    exact ⟨by rintro ⟨⟩, hout unmarked_nil⟩
  · simp only [decide_eq_true haccess, if_true] at hresult hbranch ⊢
    rw [if_pos haccess]
    refine (hvalue haccess).boxed.andThen fun _ => ?_
    have hrest : Turns h r 1 (fun _ => 1) (fun _ top out => Unmarked top → Unmarked out)
        (do emit .pop; branchValue true ifFalse) :=
      (Turns.of_lays lays_pop).andThen fun _ => hbranch.mono fun _ _ _ _ hout _ _ _ => hout
    have hskip := (Turns.skippable done (fun _ => id) hrest).answer (conditionalResult access) hresult
    simp only [skippable, bind_assoc] at hskip
    refine (Turns.test (R := fun top kind out => kind = conditionalResult access ∧ (Unmarked top → Unmarked out))
      rfl rfl hskip).mono ?_
    rintro _ top out - ⟨rfl, hout⟩ _ htop
    exact ⟨conditionalResult_ne access, hout htop⟩

/-- Of a destructuring the array itself is left. -/
theorem values_listValue {unpacked : Emit Chunk Unit} (hvalue : Values h r 0 (code .value))
    (hunpacked : Lays 1 (fun _ => 0) unpacked) : Values h r 0 (listValue access code unpacked) := by
  refine hvalue.boxed.andThen fun _ => ?_
  by_cases haccess : access = .none
  · rw [if_neg (not_not.mpr haccess), if_pos haccess]
    exact Turns.mono (hunpacked.values fun _ => values_void) fun _ _ _ _ hout _ _ => hout
  · rw [if_pos haccess, if_neg haccess]
    refine Turns.dup.andThen fun _ => (Turns.above hunpacked 1).andThen fun _ => .pure fun out _ => ⟨rfl, ?_⟩
    rintro _ rfl _ ⟨v, rfl, rfl⟩ _ hv
    exact ⟨nofun, hv⟩

theorem values_arrayValue (home : Home ExprKind) {elements : Emit Chunk Unit}
    (helements : Turns h r 1 (fun _ => 1) (fun _ top out => out = top) elements) :
    Values h r 0 (arrayValue access home elements) := by
  refine Lays.values (lays_peek _) fun keys => ?_
  have hnew := (turns_emit (h := h) (r := r) (i := .newArray keys.integers keys.others) rfl nofun nofun)
  have hvalue : Values h r 0 (do
      emit (.newArray keys.integers keys.others)
      elements
      return .arrayHandle) :=
    hnew.andThen fun _ => helements.andThen fun _ => .pure fun _ _ => ⟨rfl, fun _ heq _ hout =>
      ⟨nofun, heq ▸ hout⟩⟩
  have harray := hvalue.unlessDropped access
  simp only [bind_assoc, pure_bind] at harray
  exact harray

/-- What is stored is on top, in general form. -/
theorem turns_valueToStore (hvalue : Values h r 0 (code .value)) :
    Turns h r 0 (fun _ => 1) (fun _ _ out => Unmarked out) (valueToStore e code) := by
  refine hvalue.boxed.andThen fun kind => ?_
  split
  · exact (turns_emit (i := .call .deepCopy) rfl nofun nofun).mono fun _ _ _ _ hout _ _ => hout
  · exact .pure fun _ _ => ⟨rfl, fun _ hout => hout⟩

/-- A value is computed above what a location is found by. -/
theorem turns_onTop {x : Emit Chunk α} {y : Emit Chunk β} (hx : Lays 0 (fun _ => w) x)
    (hy : Turns h r 0 (fun _ => 1) (fun _ _ out => Unmarked out) y) :
    Turns h r 0 (fun _ => w + 1) (fun _ _ out => ∀ v ∈ out.head?, Host.mark v = false) (do let _ ← x; y) := by
  have hframed := hy.counted.frame w
  rw [Nat.zero_add] at hframed
  refine (Turns.of_lays hx).andThen fun _ => (hframed.leaving fun _ _ _ _ => Nat.add_comm 1 w).mono ?_
  rintro _ _ _ - ⟨out, rfl, hone, hout⟩ _ -
  obtain ⟨v, rfl⟩ := List.length_eq_one_iff.mp hone
  rintro _ ⟨⟩
  exact hout v (List.mem_singleton_self v)

theorem values_assignValue (htarget : LaysCode w target) (hvalue : Values h r 0 (code .value)) :
    Values h r 0 (assignValue access target e code) := by
  have hsaves (s : State Chunk) (hs : s.active.SlotsInOrder) :=
    saves_of_retains (turns_onTop (htarget (.prepare .write)) (turns_valueToStore (e := e) hvalue))
      (fun _ => ends_saveUsed_retains access) (htarget .store) hs
  simp only [bind_assoc] at hsaves
  rw [assignValue_eq]
  exact values_ownChain hsaves

theorem values_incDecValue (increment post : Bool) (haccess : access = .none ∨ access = .read)
    (htarget : LaysCode w target) (hload : Values h r w (target .load)) :
    Values h r 0 (incDecValue cfg access increment post e target) := by
  have hread : Turns h r 0 (fun _ => 1) (fun _ _ out => Unmarked out) (do
      let _ ← target (.prepare .read)
      let kind ← target .load
      box kind) :=
    (Turns.of_lays (htarget (.prepare .read))).andThen fun _ => Turns.andThen hload fun kind =>
      (turns_box kind).mono fun _ _ _ _ hout _ hin _ _ => hout hin.2
  have hsaves (s : State Chunk) (hs : s.active.SlotsInOrder) :=
    saves_of_retains (turns_onTop (htarget (.prepare .write)) hread)
      (fun _ => ends_changeUsed_retains increment post access) (htarget .store) hs
  simp only [bind_assoc, pure_bind] at hsaves
  rw [incDecValue_eq]
  refine Lays.values (g := fun _ => 0) ?_ fun isPlace => ?_
  · exact (lays_onTable _).andThen fun handle => .pure _ rfl
  split
  · exact values_fail _
  rcases haccess with rfl | rfl
  · exact values_ownChain hsaves
  · exact values_ownChain hsaves

/-! ## Expressions -/

theorem turns_byRule {rule : ExprKind} {tag : ExprTag} {use : Use} {code : Home ExprKind → Code Chunk}
    {g : TypeCode → Nat} {Q : TypeCode → List h.marking.Value → List h.marking.Value → Prop}
    (hcode : ∀ home, Turns h r n g Q (code home use)) : Turns h r n g Q (byRule cfg rule tag code use) :=
  fun s hs => ends_byRule fun home table => (hcode home { s with table } hs).mono fun _ _ ht => ⟨ht.ofTable, ht.does⟩

/-- What is loaded from a location is a value. -/
theorem values_load (cfg : Setting) : ∀ e : Expr, Values h r (width e) (lower cfg e .load)
  | .var tag name => by
    rw [lower]
    exact turns_byRule fun _ => (marks_variable name).load
  | .item tag container index => by
    rw [lower]
    exact turns_byRule fun _ => (marks_item (laysPlace_item (lays_lower cfg container)
      (lays_chainOperand (lays_lower cfg index)))).load
  | .append tag container => by
    rw [lower]
    exact turns_byRule fun _ => (marks_append (laysPlace_append (lays_lower cfg container))).load
  | .literal .. | .constant .. | .array .. | .concat .. | .binary .. | .unary .. | .incDec .. | .conditional ..
  | .shortcut .. | .list .. | .assign .. | .call .. => by
    rw [lower]
    exact turns_byRule fun _ => values_fail _

mutual

/-- **An expression that is asked for its value leaves one.** -/
theorem values_lower (cfg : Setting) : ∀ e : Expr, Wanted e.subexprs → e.access = .none ∨ e.access = .read →
    Values h r 0 (lower cfg e .value)
  | .literal tag v, _, haccess => by
    rw [lower]
    exact turns_byRule fun _ => values_literalValue v haccess
  | .constant tag name, _, _ => by
    rw [lower]
    exact turns_byRule fun _ => values_constantValue name
  | .var tag name, _, haccess => by
    rw [lower]
    exact turns_byRule fun _ => (marks_variable name).values (laysPlace_variable name) haccess
  | .item tag container index, _, haccess => by
    have hp := laysPlace_item (lays_lower cfg container) (lays_chainOperand (e := index) (lays_lower cfg index))
    rw [lower]
    exact turns_byRule fun _ => (marks_item hp).values hp haccess
  | .append tag container, _, haccess => by
    have hp := laysPlace_append (lays_lower cfg container)
    rw [lower]
    exact turns_byRule fun _ => (marks_append hp).values hp haccess
  | .array tag elements, hwanted, _ => by
    have helements : Turns h r 1 (fun _ => 1) (fun _ top out => out = top) (storeElements cfg elements) := by
      refine (Turns.forget (performs_storeElements cfg elements fun element helement => ?_)).mono ?_
      · exact hwanted.part (List.mem_map_of_mem helement)
      · rintro _ _ _ - ⟨_, rfl, -⟩
        rfl
    rw [lower]
    exact turns_byRule fun home => values_arrayValue home helements
  | .concat tag operands, hwanted, _ => by
    rw [lower]
    refine turns_byRule fun _ => values_concatValue (allLay_lowerAll cfg operands) ?_
    refine values_lowerAll cfg operands ⟨fun operand hoperand => ?_, (List.forall_mem_cons.mp hwanted).2⟩
    exact hwanted.part (List.mem_map_of_mem hoperand)
  | .binary tag op left right, _, _ => by
    rw [lower]
    exact turns_byRule fun _ => values_binaryValue op (lays_lower cfg left) (lays_lower cfg right)
  | .unary tag op operand, hwanted, haccess => by
    have hpart : (operand, operandAccess op tag.access) ∈ (Expr.unary tag op operand).wants := by
      rw [Expr.wants, if_pos (show tag.access = .none ∨ tag.access = .read from haccess)]
      exact List.mem_singleton_self _
    have hasked : operandAccess op tag.access = .none ∨ operandAccess op tag.access = .read := by
      unfold operandAccess
      split
      · exact haccess
      · exact Or.inr rfl
    have hoperand := (List.forall_mem_cons.mp hwanted).2
    rw [← hwanted.part hpart] at hasked
    rw [lower]
    exact turns_byRule fun _ => values_unaryValue op (lays_lower cfg operand) (values_lower cfg operand hoperand hasked)
  | .incDec tag increment post target, _, haccess => by
    rw [lower]
    exact turns_byRule fun _ => values_incDecValue increment post haccess (lays_lower cfg target) (values_load cfg target)
  | .conditional tag condition ifTrue ifFalse, hwanted, _ => by
    obtain ⟨hbefore, hfalse⟩ := List.forall_mem_append.mp (List.forall_mem_cons.mp hwanted).2
    obtain ⟨-, htrue⟩ := List.forall_mem_append.mp hbefore
    have hasked := Analysis.branchAccess_cases tag.access
    have hifTrue : ifTrue.access = branchAccess tag.access := hwanted.part (.tail _ (.head _))
    have hifFalse : ifFalse.access = branchAccess tag.access := hwanted.part (.tail _ (.tail _ (.head _)))
    rw [lower]
    exact turns_byRule fun _ => values_conditionalValue (lays_lower cfg condition)
      (values_lower cfg ifTrue htrue (hifTrue ▸ hasked)) (values_lower cfg ifFalse hfalse (hifFalse ▸ hasked))
  | .shortcut tag condition ifFalse, hwanted, _ => by
    obtain ⟨hcondition, hfalse⟩ := List.forall_mem_append.mp (List.forall_mem_cons.mp hwanted).2
    have hread : condition.access = .read := hwanted.part (.head _)
    have hifFalse : ifFalse.access = branchAccess tag.access := hwanted.part (.tail _ (.head _))
    rw [lower]
    exact turns_byRule fun _ => values_shortcutValue (lays_lower cfg condition)
      (fun _ => values_lower cfg condition hcondition (Or.inr hread))
      (values_lower cfg ifFalse hfalse (hifFalse ▸ Analysis.branchAccess_cases tag.access))
  | .list tag targets value, hwanted, _ => by
    obtain ⟨-, hvalue⟩ := List.forall_mem_append.mp (List.forall_mem_cons.mp hwanted).2
    have hread : value.access = .read := hwanted.part (.head _)
    rw [lower]
    exact turns_byRule fun _ => values_listValue (values_lower cfg value hvalue (Or.inr hread))
      (lays_unpack (lays_assignElements cfg 0 targets) (lays_assignNulls cfg targets))
  | .assign tag target value, hwanted, _ => by
    obtain ⟨-, hvalue⟩ := List.forall_mem_append.mp (List.forall_mem_cons.mp hwanted).2
    have hread : value.access = .read := hwanted.part (.head _)
    rw [lower]
    exact turns_byRule fun _ => values_assignValue (lays_lower cfg target)
      (values_lower cfg value hvalue (Or.inr hread))
  | .call tag name args, _, _ => by
    rw [lower]
    exact turns_byRule fun _ => values_callValue name (allLay_lowerAll cfg args)
termination_by structural e => e

theorem values_lowerAll (cfg : Setting) : ∀ es : List Expr, ReadWanted es →
    ∀ o ∈ (lowerAll cfg es : List (Expr × Code Chunk)), Values h r 0 (o.2 .value)
  | [], _ => nofun
  | e :: rest, ⟨haccess, hwanted⟩ => by
    obtain ⟨he, hrest⟩ := List.forall_mem_cons.mp haccess
    obtain ⟨hwanted, hlater⟩ := List.forall_mem_append.mp hwanted
    exact List.forall_mem_cons.mpr ⟨values_lower cfg e hwanted (Or.inr he), values_lowerAll cfg rest ⟨hrest, hlater⟩⟩
termination_by structural es => es

end

/-- **A location that is asked for a reference leaves a reference cell.** -/
theorem turns_lower_reference (cfg : Setting) (hplace : e.isPlace = true) (haccess : e.access = .readRef) :
    Turns h r 0 TypeCode.height (fun kind _ out => kind = .referenceCell ∧ ∀ v ∈ out, Host.mark v = true)
      (lower cfg e .value) := by
  cases e with
  | var tag name =>
    rw [lower]
    refine turns_byRule fun _ => ?_
    show Turns h r 0 _ _ (Place.value _ tag.access (variablePlace name))
    rw [show tag.access = .readRef from haccess]
    exact (marks_variable name).loadRef
  | item tag container index =>
    have hp := laysPlace_item (lays_lower cfg container) (lays_chainOperand (e := index) (lays_lower cfg index))
    rw [lower]
    refine turns_byRule fun _ => ?_
    show Turns h r 0 _ _ (Place.value _ tag.access _)
    rw [show tag.access = .readRef from haccess]
    exact (marks_item hp).loadRef
  | append tag container =>
    rw [lower]
    refine turns_byRule fun _ => ?_
    show Turns h r 0 _ _ (Place.value _ tag.access _)
    rw [show tag.access = .readRef from haccess]
    exact (marks_append (laysPlace_append (lays_lower cfg container))).loadRef
  | _ => exact absurd hplace Bool.false_ne_true

/-! ## Returns -/

/-- A routine that returns by reference makes a reference of any value. -/
theorem turns_returned_reference (cfg : Setting) (hreturned : e.Returned true) :
    Turns h r 0 (fun _ => 1) (fun _ _ out => ∀ v ∈ out, Host.mark v = true) (do
      let code ← lower cfg e .value
      if code ≠ .referenceCell then
        let _ ← box code
        callVoid .newReference) := by
  have hvalue : Turns h r 0 TypeCode.height (fun kind _ out => kind = .referenceCell → ∀ v ∈ out, Host.mark v = true)
      (lower cfg e .value) := by
    obtain ⟨hwanted, hread | ⟨-, hplace, href⟩⟩ := hreturned
    · exact Turns.mono (values_lower cfg e hwanted (Or.inr hread)) fun _ _ _ _ hout heq => absurd heq hout.1
    · exact (turns_lower_reference cfg hplace href).mono fun _ _ _ _ hout _ => hout.2
  refine hvalue.andThen fun kind => ?_
  split
  · refine (turns_box kind).andThen fun _ => ?_
    exact (turns_emit (i := .call .newReference) rfl nofun nofun).mono fun _ _ _ _ hout _ _ _ _ => hout
  · rename_i hcell
    have heq : kind = .referenceCell := not_not.mp hcell
    exact .pure fun _ _ => ⟨heq ▸ rfl, fun _ hout => hout heq⟩

/-- Another routine returns a value, and an array goes over to the caller. -/
theorem turns_returned_value (cfg : Setting) (hreturned : e.Returned false) :
    Turns h r 0 (fun _ => 1) (fun _ _ out => ∀ v ∈ out, Host.mark v = false) (do
      let code ← lower cfg e .value
      if code = .referenceCell then callVoid .dereference
      else if code = .arrayHandle then
        emit .dup
        callVoid .markInplaceCopyOnReturn
      else
        let _ ← box code) := by
  obtain ⟨hwanted, hread | ⟨hfalse, -⟩⟩ := hreturned
  · refine Turns.andThen (values_lower cfg e hwanted (Or.inr hread)) fun kind => ?_
    split
    · rename_i hcell
      rw [show kind.height = 1 by rw [hcell]; rfl]
      exact (turns_emit (i := .call .dereference) rfl nofun nofun).mono fun _ _ _ _ hout _ _ => hout
    · split
      · rename_i harray
        rw [show kind.height = 1 by rw [harray]; rfl]
        refine Turns.dup.andThen fun _ => (Turns.above (lays_callVoid .markInplaceCopyOnReturn) 1).mono ?_
        rintro _ _ _ - rfl _ ⟨v, rfl, rfl⟩ _ ⟨-, hv⟩
        exact hv
      · exact (turns_box kind).andThen fun _ => .pure fun _ _ => ⟨rfl, fun _ hout _ hin => hout hin.2⟩
  · exact nomatch hfalse

/-- What a routine returns if there is nothing else to return. -/
theorem turns_nothing (byRef : Bool) : Turns h r 0 (fun _ => 1) (fun _ _ out => ∀ v ∈ out, Host.mark v = byRef) (do
    if byRef then callVoid .newReferenceEmpty
    else
      let _ ← pushLiteral .null) := by
  cases byRef with
  | true => exact turns_emit (i := .call .newReferenceEmpty) rfl nofun nofun
  | false =>
    refine (Turns.of_performs (performs_pushLiteral .null)).andThen fun _ => .pure fun _ _ => ⟨rfl, ?_⟩
    rintro _ ⟨_, -, -, rfl⟩
    exact unmarked_singleton rfl

/-- **The code in front of a `return` leaves what the routine returns.** -/
theorem ends_returnValue (cfg : Setting) {expr : Option Expr} (hreturned : ∀ e ∈ expr, e.Returned s.frame.returnsRef)
    (hs : s.active.SlotsInOrder) : Ends (returnValue cfg expr) s (fun _ t => Acts (h := h.marking) r anyPart 0 1
      (fun _ _ out => ∀ v ∈ out, Host.mark v = s.frame.returnsRef) s t) anyFailure := by
  unfold returnValue
  refine .peek_bind ?_
  generalize s.frame.returnsRef = byRef at hreturned ⊢
  cases expr with
  | none => exact turns_nothing byRef s hs
  | some e =>
    have he := hreturned e rfl
    cases byRef with
    | true => exact turns_returned_reference cfg he s hs
    | false => exact turns_returned_value cfg he s hs

end Lowering
end PhpLowering
