import PhpLowering.Proofs.Analysis.Wants
import PhpLowering.Proofs.Destructuring

/-!
# What is stored is copied if it is read from a location

An assignment addresses its target, evaluates the value and stores it, and an array literal does so with each of its
elements.  If the value is a variable or an item, what is stored is a copy of it; a value of any other kind
is stored as it is.  `Host.Stores` says so with all events there are, and **`stores_of_analyze`** says so of every
assignment and every array literal that analysis leaves in a unit.

So no two locations come to hold the same array if the value is a location itself.  But `@` and a conditional hand on the
very array that their operand reads, and an assignment the one that it has stored; no copy is made of these
(`shares_handedOn`).
-/

namespace PhpLowering

/-- The value of an expression may be what a location holds. -/
def Expr.isPlaceValued : Expr → Bool
  | .var .. | .item .. | .assign .. => true
  | .unary _ op operand => op = .silence && operand.isPlaceValued
  | .conditional _ _ ifTrue ifFalse => ifTrue.isPlaceValued || ifFalse.isPlaceValued
  | .shortcut _ condition ifFalse => condition.isPlaceValued || ifFalse.isPlaceValued
  | .literal .. | .constant .. | .append .. | .array .. | .concat .. | .binary .. | .incDec .. | .list .. | .call .. =>
    false

namespace Host

open Lowering (Use width kept)

variable (h : Host)

/-- The parts are the code for some use of an expression, which leaves some values. -/
abbrev Storing := Event h ((Expr × Use) × List h.Value)

/-- What is stored for an expression with a value: a copy of it if the expression is a location, and otherwise the value
itself in general form. -/
def Hands (value : Expr) (v : h.Value) (copying : List h.Storing) (x : h.Value) : Prop :=
  if value.isPlace then copying = [.ran (.call .deepCopy) [v] [x]]
  else copying = [] ∧ ∃ kind, x = h.general kind v

/-- Elements are stored in an array, one after the other. -/
inductive Fills (array : h.Value) : List ArrayElement → List h.Storing → Prop where
  | nil : Fills array [] []
  | plain {span : Span} {value : Expr} {rest : List ArrayElement} {v x : h.Value} {copying later : List h.Storing}
      (hx : h.Hands value v copying x) (hrest : Fills array rest later) :
      Fills array (.plain span value :: rest)
        (.part ((value, .value), [v]) :: (copying ++ .ran (.call .append) [x, array] [] :: later))
  | keyed {span : Span} {key value : Expr} {rest : List ArrayElement} {k v x : h.Value} {kind : TypeCode}
      {copying later : List h.Storing} (hx : h.Hands value v copying x) (hrest : Fills array rest later) :
      Fills array (.keyed span key value :: rest) (.part ((key, .value), [k]) :: .part ((value, .value), [v]) ::
        (copying ++ .ran (.call .setItem) [x, h.general kind k, array] [] :: later))

/-- What an assignment or an array literal does, and what it leaves. -/
inductive Stores : Expr → List h.Storing → List h.Value → Prop where
  | array {tag : ExprTag} {elements : List ArrayElement} {integers others : Nat} {array : h.Value}
      {events : List h.Storing} (helements : h.Fills array elements events) :
      Stores (.array tag elements) (.ran (.newArray integers others) [] [array] :: events) (kept tag.access array)
  | assign {tag : ExprTag} {target value : Expr} {location : List h.Value} {v x : h.Value}
      {copying : List h.Storing} {store : Instruction} (hlocation : location.length = width target)
      (hx : h.Hands value v copying x) (hstore : target.storer? = some store) :
      Stores (.assign tag target value) (.part ((target, .prepare .write), location) :: .part ((value, .value), [v]) ::
        (copying ++ [.ran store (x :: location) []])) (kept tag.access x)

end Host

namespace Lowering

open Pass (Ends)
open Config (Arrives Chronicle)

variable {cfg : Setting} {h : Host} {α β : Type} {r : Routine} {s t u : State Chunk} {c d : Config h}
  {trace : List (KeyUse h)} {part : β → Config h → Config h → Prop} {goal n : Nat} {e value target : Expr}
  {kind : TypeCode} {tag : ExprTag} {access : Access}

/-! ## Parts -/

variable (cfg r) in
/-- A run goes through the code for a use of an expression, which leaves some values. -/
def Works (b : (Expr × Use) × List h.Value) (c d : Config h) : Prop :=
  ∃ s kind t, lower cfg b.1.1 b.1.2 s = (.ok kind, t) ∧ t.active.Grows r ∧ c.pc = s.active.position ∧
    c.Leads r d ∧ d.pc = t.active.position ∧ d.stack = b.2 ++ c.stack

/-- The code for a use is run as a whole. -/
theorem performs_part (cfg : Setting) (e : Expr) (use : Use) (huse : use.takes (width e) = 0) :
    Performs (h := h) r (Works cfg r) 0 (use.leaves (width e))
      (fun kind _ events out => out.length = use.leaves (width e) kind ∧ events = [.part ((e, use), out)])
      (lower cfg e use) := by
  refine fun s hs => .intro (fun kind t hlower => ?_) fun _ _ _ => trivial
  have hlaid := (lays_lower cfg e use s hs).of_ok hlower
  rw [huse] at hlaid
  refine ⟨hlaid.toTidy, fun hr top hn goal c d trace base hpc hstack hgoal hrun => ?_⟩
  obtain rfl := List.length_eq_zero_iff.mp hn
  obtain ⟨mid, hmid⟩ := (hlaid.code.grows hr).passed hpc hstack rfl hgoal hrun
  obtain ⟨out, hout, hlength⟩ := hmid.stack
  obtain ⟨-, rest, -, -, hrest⟩ := hmid.split
  have hbase : c.stack = base := hstack
  exact ⟨mid, [.part ((e, use), out)], out, rest, hmid.pc, hout,
    .part _ ⟨s, kind, t, hlower, hr, hpc, hmid.leads, hmid.pc, hbase ▸ hout⟩ (.nil mid), ⟨hlength, hlength, rfl⟩, hrest⟩

/-- If it is known what a step answers, it is known what comes next. -/
theorem Performs.knowing {γ : Type} {a : α} {g : α → Nat} {g' : γ → Nat} {Q : α → Deed h β} {T : γ → Deed h β}
    {x : Emit Chunk α} {f : α → Emit Chunk γ} (hx : Performs r part n g Q x)
    (ha : ∀ s, Ends x s (fun a' _ => a' = a) anyFailure) (hf : Performs r part (g a) g' T (f a)) :
    Performs r part n g' (fun c => (Q a).then (T c)) (x >>= f) := by
  intro s hs
  refine ((hx s hs).and (ha s)).bind ?_
  rintro _ t ⟨ht, rfl⟩
  exact (hf t ht.order).mono fun _ _ hu => ht.andThen hu

/-- The value of a location that is read is in general form. -/
theorem ends_place (hplace : e.isPlace = true) (hread : e.access = .read) (s : State Chunk) :
    Ends (lower cfg e .value) s (fun kind _ => kind = .object) anyFailure := by
  have hfirst : ∀ (x : Emit Chunk Unit) (s : State Chunk), Ends x s (fun _ _ => True) anyFailure :=
    fun _ _ => .intro (fun _ _ _ => trivial) fun _ _ _ => trivial
  cases e with
  | var tag name =>
    rw [lower]
    refine ends_byRule fun _ table => ?_
    show Ends (Place.value _ tag.access (variablePlace name)) _ _ _
    rw [show tag.access = .read from hread]
    exact (hfirst _ _).bind fun _ _ _ => (ends_emit _ _).bind fun _ _ _ => .pure rfl
  | item tag container index =>
    rw [lower]
    refine ends_byRule fun _ table => ?_
    show Ends (Place.value _ tag.access _) _ _ _
    rw [show tag.access = .read from hread]
    refine (hfirst _ _).bind fun _ _ _ => .peek_bind ?_
    split <;> exact (hfirst _ _).bind fun _ _ _ => .pure rfl
  | append tag container =>
    rw [lower]
    refine ends_byRule fun _ table => ?_
    show Ends (Place.value _ tag.access _) _ _ _
    rw [show tag.access = .read from hread]
    exact .fail trivial
  | _ => exact absurd hplace Bool.false_ne_true

/-- The value of an expression in general form. -/
theorem performs_boxedPart (cfg : Setting) (e : Expr) : Performs (h := h) r (Works cfg r) 0 (fun _ => 1)
    (fun _ _ events out => ∃ v kind, events = [.part ((e, .value), [v])] ∧ out = [h.general kind v])
    (boxed (lower cfg e)) := by
  refine ((performs_part cfg e .value rfl).andThen fun kind => performs_boxed kind).mono ?_
  rintro _ top events out - ⟨kind, _, _, _, rfl, ⟨-, rfl⟩, rfl, -, v, rfl, rfl⟩
  exact ⟨v, kind, rfl, rfl⟩

/-- What is about to be stored is evaluated, and copied if it is a location. -/
theorem performs_valueToStore (cfg : Setting) (value : Expr) (hread : value.access = .read) :
    Performs (h := h) r (Works cfg r) 0 (fun _ => 1) (fun _ _ events out => ∃ v copying x,
      events = .part ((value, .value), [v]) :: copying ∧ h.Hands value v copying x ∧ out = [x])
      (valueToStore value (lower cfg value)) := by
  unfold valueToStore Host.Hands
  cases hplace : value.isPlace with
  | false =>
    refine (performs_boxedPart cfg value).answer.mono ?_
    rintro _ top events out - ⟨-, v, kind, rfl, rfl⟩
    exact ⟨v, [], _, rfl, ⟨rfl, kind, rfl⟩, rfl⟩
  | true =>
    have hcopied := (performs_part (h := h) (r := r) cfg value .value rfl).knowing (f := fun kind => do
      let code ← box kind
      if true && code.mayBeArray then callVoid .deepCopy) (ends_place hplace hread) (performs_callVoid .deepCopy)
    simp only [boxed, bind_assoc]
    refine hcopied.mono ?_
    rintro - top events out - ⟨_, located, _, rfl, ⟨hlocated, rfl⟩, rfl, hone, -⟩
    obtain ⟨v, rfl⟩ := List.length_eq_one_iff.mp hlocated
    obtain ⟨x, rfl⟩ := List.length_eq_one_iff.mp hone
    exact ⟨v, [.ran (.call .deepCopy) [v] [x]], x, rfl, (if_pos trivial).mpr rfl, rfl⟩

/-! ## Arrays -/

theorem performs_storePlain (cfg : Setting) (value : Expr) (hread : value.access = .read) :
    Performs (h := h) r (Works cfg r) 1 (fun _ => 1) (fun _ top events out => out = top ∧ ∃ array v copying x,
      top = [array] ∧ h.Hands value v copying x ∧
      events = .part ((value, .value), [v]) :: (copying ++ [.ran (.call .append) [x, array] []]))
      (storePlain value (lower cfg value)) := by
  refine (performs_dup.andThen fun _ => ((performs_valueToStore cfg value hread).frame 2).andThen fun _ =>
    (performs_callVoid .append).frame 1).mono ?_
  rintro - top events out hn ⟨-, _, _, _, rfl, ⟨rfl, rfl⟩, -, _, _, _, rfl, ⟨_, rfl, v, copying, x, rfl, hx, rfl⟩,
    _, rfl, rfl, hnone, -⟩
  obtain ⟨array, rfl⟩ := List.length_eq_one_iff.mp hn
  obtain rfl := List.length_eq_zero_iff.mp hnone
  exact ⟨rfl, array, v, copying, x, rfl, hx, rfl⟩

theorem performs_storeKeyed (cfg : Setting) (key value : Expr) (hread : value.access = .read) :
    Performs (h := h) r (Works cfg r) 1 (fun _ => 1) (fun _ top events out => out = top ∧
      ∃ array k kind v copying x, top = [array] ∧ h.Hands value v copying x ∧
        events = .part ((key, .value), [k]) :: .part ((value, .value), [v]) ::
          (copying ++ [.ran (.call .setItem) [x, h.general kind k, array] []]))
      (storeKeyed (lower cfg key) value (lower cfg value)) := by
  refine (performs_dup.andThen fun _ => ((performs_boxedPart cfg key).frame 2).andThen fun _ =>
    ((performs_valueToStore cfg value hread).frame 3).andThen fun _ => (performs_callVoid .setItem).frame 1).mono ?_
  rintro - top events out hn ⟨-, _, _, _, rfl, ⟨rfl, rfl⟩, -, _, _, _, rfl, ⟨_, rfl, k, kind, rfl, rfl⟩,
    -, _, _, _, rfl, ⟨_, rfl, v, copying, x, rfl, hx, rfl⟩, _, rfl, rfl, hnone, -⟩
  obtain ⟨array, rfl⟩ := List.length_eq_one_iff.mp hn
  obtain rfl := List.length_eq_zero_iff.mp hnone
  exact ⟨rfl, array, k, kind, v, copying, x, rfl, hx, rfl⟩

theorem performs_storeElements (cfg : Setting) : ∀ elements : List ArrayElement,
    (∀ element ∈ elements, element.value.access = .read) →
    Performs (h := h) r (Works cfg r) 1 (fun _ => 1) (fun _ top events out => out = top ∧
      ∃ array, top = [array] ∧ h.Fills array elements events) (storeElements cfg elements)
  | [], _ => .pure fun top hn => by
    obtain ⟨array, rfl⟩ := List.length_eq_one_iff.mp hn
    exact ⟨rfl, rfl, array, rfl, .nil⟩
  | .plain span value :: rest, hread => by
    obtain ⟨hvalue, hrest⟩ := List.forall_mem_cons.mp hread
    rw [storeElements]
    refine ((performs_storePlain cfg value hvalue).andThen fun _ => performs_storeElements cfg rest hrest).mono ?_
    rintro - top events out - ⟨-, _, _, later, rfl, ⟨rfl, array, v, copying, x, rfl, hx, rfl⟩, rfl, _, ⟨⟩, hlater⟩
    refine ⟨rfl, array, rfl, ?_⟩
    rw [List.cons_append, List.append_assoc]
    exact .plain hx hlater
  | .keyed span key value :: rest, hread => by
    obtain ⟨hvalue, hrest⟩ := List.forall_mem_cons.mp hread
    rw [storeElements]
    refine ((performs_storeKeyed cfg key value hvalue).andThen fun _ => performs_storeElements cfg rest hrest).mono ?_
    rintro - top events out - ⟨-, _, _, later, rfl, ⟨rfl, array, k, kind, v, copying, x, rfl, hx, rfl⟩, rfl, _, ⟨⟩,
      hlater⟩
    refine ⟨rfl, array, rfl, ?_⟩
    rw [List.cons_append, List.cons_append, List.append_assoc]
    exact .keyed hx hlater
termination_by elements => sizeOf elements

/-- A value that is in general form is left if it is used. -/
theorem performs_unlessDropped (access : Access) (hvalue : kind.isValue = true) :
    Performs (h := h) r part 1 TypeCode.height (fun _ top events out => events = [] ∧ ∃ v, top = [v] ∧
      out = kept access v) (unlessDropped access kind) := by
  unfold unlessDropped discard
  split
  · rename_i haccess
    refine (performs_pop.answer (c := TypeCode.void)).leaving ?_ |>.mono ?_
    · rintro _ top events out ⟨rfl, -⟩
      rfl
    · rintro _ top events out hn ⟨-, rfl, rfl⟩
      obtain ⟨v, rfl⟩ := List.length_eq_one_iff.mp hn
      exact ⟨rfl, v, rfl, (if_pos haccess).symm⟩
  · rename_i haccess
    refine .pure fun top hn => ⟨(height_of_isValue hvalue), rfl, ?_⟩
    obtain ⟨v, rfl⟩ := List.length_eq_one_iff.mp hn
    exact ⟨v, rfl, (if_neg haccess).symm⟩

theorem performs_array (cfg : Setting) (tag : ExprTag) (elements : List ArrayElement)
    (hread : ∀ element ∈ elements, element.value.access = .read) :
    Performs (h := h) r (Works cfg r) 0 TypeCode.height (fun _ _ events out => h.Stores (.array tag elements) events out)
      (lower cfg (.array tag elements) .value) := by
  have hliteral : ∀ home : Home ExprKind, Performs (h := h) r (Works cfg r) 0 TypeCode.height
      (fun _ _ events out => h.Stores (.array tag elements) events out)
      (arrayValue tag.access home (storeElements cfg elements)) := by
    intro home s hs
    refine .peek_bind ?_
    have hrest := (performs_ran (h := h) (r := r)
      (i := .newArray (s.memory.keyCount home).integers (s.memory.keyCount home).others) rfl).andThen fun _ =>
        (performs_storeElements cfg elements hread).andThen fun _ => performs_unlessDropped tag.access
          (show TypeCode.arrayHandle.isValue = true from rfl)
    refine (hrest s hs).mono fun kind t ht => ht.mono ?_
    rintro top events out hn ⟨-, _, _, _, rfl, ⟨rfl, hone, -⟩, -, _, _, _, rfl, ⟨rfl, array, rfl, hfills⟩, rfl, _, ⟨⟩, rfl⟩
    obtain rfl := List.length_eq_zero_iff.mp hn
    rw [List.append_nil]
    exact .array hfills
  rw [lower]
  refine fun s hs => ends_byRule fun home table => ?_
  exact (hliteral home { s with table } hs).mono fun _ t ht => ⟨ht.ofTable, ht.does⟩

/-! ## Assignments -/

/-- A value is stored, and if it is used there is a copy of it in a slot. -/
structure Saves (r : Routine) (part : β → Config h → Config h → Prop) (R : List (Event h β) → h.Value → Prop)
    (access : Access) (saved : Option Temp) (s t : State Chunk) : Prop extends Tidy s t where
  used : saved = none ↔ access = .none
  slot : ∀ k, saved = some k → s.active.Vacant k ∧ ¬ t.active.Vacant k
  does : t.active.Grows r → ∀ ⦃goal : Nat⦄ ⦃c d : Config h⦄ ⦃trace : List (KeyUse h)⦄, c.pc = s.active.position →
    t.active.position ≤ goal → Arrives r goal c trace d →
    ∃ mid events x rest, mid.pc = t.active.position ∧ mid.stack = c.stack ∧ Chronicle r part c events mid ∧
      R events x ∧ (∀ k, saved = some k → mid.slots k = x) ∧ Arrives r goal mid rest d

/-- When the chain is closed, the value is loaded from its slot, which is given back. -/
theorem ends_ownChain {R : List (Event h β) → h.Value → Prop} {x : Emit Chunk (Option Temp)}
    (hx : Ends x (s.openChain false) (fun saved t => Saves r part R access saved (s.openChain false) t) anyFailure) :
    Ends (do
      beginChain false
      let saved ← x
      Pass.update State.endChain
      loadSaved saved) s (fun kind t => Acts r part 0 kind.height (fun _ events out =>
        ∃ x, R events x ∧ out = kept access x) s t) anyFailure := by
  refine .update_bind (hx.bind fun saved t ht => .update_bind ?_)
  obtain ⟨hend, hgrows, hchains, hcount⟩ := ht.toTidy.endChain
  have hposition : t.endChain.active.position = t.active.position := congrArg Array.size (code_endChain t)
  cases hsaved : saved with
  | none =>
    refine .pure ⟨hend, fun hr top hn goal c d trace base hpc hstack hgoal hrun => ?_⟩
    obtain rfl := List.length_eq_zero_iff.mp hn
    obtain ⟨mid, events, x, rest, hmid, hout, hevents, hrel, -, hrest⟩ :=
      ht.does (hgrows.trans hr) hpc (hposition ▸ hgoal) hrun
    refine ⟨mid, events, [], rest, hmid.trans hposition.symm, hout.trans hstack, hevents, ⟨rfl, x, hrel, ?_⟩, hrest⟩
    exact (if_pos (ht.used.mp hsaved)).symm
  | some k =>
    obtain ⟨hk, htaken⟩ := ht.slot k hsaved
    refine (ends_appended (.loadTemp k) hend.order).bind fun _ u hu => .update_bind (.pure ?_)
    have hlt : k.index < u.active.tempCount := by
      rw [hu.active]
      exact hcount ▸ Routine.lt_of_not_vacant htaken
    have hreturned := (hend.trans hu.toTidy).returnTemp (hu.sameChains.trans hchains) hk hlt
    refine ⟨hreturned, fun hr top hn goal c d trace base hpc hstack hgoal hrun => ?_⟩
    obtain rfl := List.length_eq_zero_iff.mp hn
    have hur := (grows_active_returnTemp k u.sink).trans hr
    have hlast : Routine.position (Sink.returnTemp k u.sink).active = t.active.position + 1 := by
      rw [position_active_returnTemp]
      exact hu.position.trans (congrArg (· + 1) hposition)
    have hgoal : t.active.position + 1 ≤ goal := hlast ▸ hgoal
    obtain ⟨mid, events, x, rest, hmid, hout, hevents, hrel, hkept, hrest⟩ :=
      ht.does (hgrows.trans (hu.grows.trans hur)) hpc (by omega) hrun
    have hload : r.code[mid.pc]? = some (.loadTemp k) := by
      rw [hmid, ← hposition]
      exact hu.code hur
    obtain ⟨use, last, out, rest', hstep, hlastpc, heval, hloaded, -, hrest'⟩ :=
      hrest.stepsPlain (by omega) hload rfl (List.nil_append mid.stack).symm rfl
    obtain ⟨rfl, -⟩ := Prod.mk.inj (Option.some.inj heval)
    refine ⟨last, events, [x], rest', ?_, ?_, ?_, ⟨rfl, x, hrel, ?_⟩, hrest'⟩
    · exact (hlastpc.trans (congrArg (· + 1) hmid)).trans hlast.symm
    · rw [hloaded, hkept k hsaved, hout, hstack]
      rfl
    · exact (List.append_nil events) ▸ hevents.append (.move hload rfl hstep (.nil last))
    · exact (if_neg fun haccess => nomatch hsaved.symm.trans (ht.used.mpr haccess)).symm

theorem ends_saveUsed (part : β → Config h → Config h → Prop) (access : Access) (hs : s.active.SlotsInOrder) :
    Ends (saveUsed access) s (fun saved t => Tidy s t ∧ (saved = none ↔ access = .none) ∧
      (∀ k, saved = some k → s.active.Vacant k ∧ ¬ t.active.Vacant k) ∧
      ∀ r, t.active.Grows r → ∀ ⦃goal : Nat⦄ ⦃c d : Config h⦄ ⦃trace : List (KeyUse h)⦄ ⦃x : h.Value⦄
        ⦃base : List h.Value⦄, c.pc = s.active.position → c.stack = x :: base → t.active.position ≤ goal →
        Arrives r goal c trace d → ∃ mid rest, mid.pc = t.active.position ∧ mid.stack = c.stack ∧
          Chronicle r part c [] mid ∧ (∀ k, saved = some k → mid.slots k = x) ∧ Arrives r goal mid rest d)
      anyFailure := by
  unfold saveUsed
  split
  · rename_i haccess
    refine .pure ⟨(Laid.refl (P := fun _ => True) (n := 0) hs).toTidy, ⟨fun _ => haccess, fun _ => rfl⟩, nofun, ?_⟩
    exact fun r hr goal c d trace x base hpc hstack hgoal hrun => ⟨c, trace, hpc, rfl, .nil c, nofun, hrun⟩
  · rename_i haccess
    refine (ends_declareTemp hs).bind ?_
    rintro k t ⟨ht, hcode, -, hk, htaken⟩
    refine (ends_saveTo (P := fun _ => True) ht.order trivial trivial).bind ?_
    rintro _ u ⟨hu, hdup, hstore, hposition⟩
    refine .pure ⟨ht.trans hu.toTidy, ⟨nofun, fun h => (haccess h).elim⟩, ?_, ?_⟩
    · rintro _ ⟨⟩
      exact ⟨hk, fun hv => htaken (hu.vacant _ hv)⟩
    intro r hr goal c d trace x base hpc hstack hgoal hrun
    have hstart : c.pc = t.active.position := hpc.trans (congrArg Array.size hcode).symm
    rw [← hstart] at hdup hstore hposition
    obtain ⟨use, c', out, rest, hstep, hc', heval, hout, -, hrest⟩ :=
      hrun.stepsPlain (by omega) (hr.code hdup) rfl (show c.stack = [x] ++ base from hstack) rfl
    obtain ⟨rfl, -⟩ := Prod.mk.inj (Option.some.inj heval)
    rw [← hc'] at hstore
    obtain ⟨use', c'', out', rest', hstep', hc'', heval', hout', hslots, hrest'⟩ :=
      hrest.stepsPlain (by omega) (hr.code hstore) rfl (show c'.stack = [x] ++ (x :: base) from hout) rfl
    obtain ⟨rfl, -⟩ := Prod.mk.inj (Option.some.inj heval')
    refine ⟨c'', rest', by omega, hout'.trans hstack.symm, ?_, ?_, hrest'⟩
    · exact .move (hr.code hdup) rfl hstep (.move (hr.code hstore) rfl hstep' (.nil c''))
    · rintro _ ⟨⟩
      rw [hslots]
      exact if_pos rfl

/-- The target is addressed, the value is computed, and it is stored. -/
theorem ends_storeUsed (cfg : Setting) (access : Access) (target : Expr) (hread : value.access = .read)
    (hs : s.active.SlotsInOrder) :
    Ends (do
      let _ ← lower cfg target (.prepare .write)
      valueToStore value (lower cfg value)
      let saved ← saveUsed access
      let _ ← lower cfg target .store
      return saved) s (fun saved t => Saves r (Works cfg r) (fun (events : List h.Storing) x =>
        ∃ location v copying store, location.length = width target ∧ h.Hands value v copying x ∧
          target.storer? = some store ∧ events = .part ((target, .prepare .write), location) ::
            .part ((value, .value), [v]) :: (copying ++ [.ran store (x :: location) []])) access saved s t)
      anyFailure := by
  refine (performs_part (h := h) (r := r) cfg target (.prepare .write) rfl s hs).bind fun _ t ht => ?_
  refine (performs_valueToStore (h := h) (r := r) cfg value hread t ht.order).bind fun _ u hu => ?_
  refine (ends_saveUsed (Works (h := h) cfg r) access hu.order).bind ?_
  rintro saved v ⟨hv, hused, hslot, hsaves⟩
  refine (ends_store target hv.order).bind ?_
  rintro _ w ⟨store, hstorer, hw⟩
  have hsu := ht.toTidy.trans hu.toTidy
  refine .pure ⟨(hsu.trans hv).trans hw.toTidy, hused, fun k hk => ?_, ?_⟩
  · exact ⟨hsu.vacant k (hslot k hk).1, fun hvacant => (hslot k hk).2 (hw.vacant k hvacant)⟩
  intro hr goal c d trace hpc hgoal hrun
  have hvr := hw.grows.trans hr
  have hur := hv.grows.trans hvr
  have hle := hu.grows.position
  have hle' := hv.grows.position
  have hend := hw.position
  obtain ⟨addressed, before, location, rest, haddressed, hlocation, hbefore, ⟨hwidth, -, rfl⟩, hrest⟩ :=
    ht.does (hu.grows.trans hur) [] rfl hpc (List.nil_append c.stack).symm (by omega) hrun
  obtain ⟨valued, middle, out, rest, hvalued, hout, hmiddle, ⟨-, val, copying, x, rfl, hx, rfl⟩, hrest⟩ :=
    hu.does hur [] rfl haddressed (List.nil_append addressed.stack).symm (by omega) hrest
  obtain ⟨copied, rest, hcopied, hstack, hnone, hkept, hrest⟩ :=
    hsaves r hvr hvalued hout (by omega) hrest
  obtain ⟨hplain, hpops, hyields⟩ := pops_of_storer? hstorer
  have hi : r.code[copied.pc]? = some store := hcopied ▸ hw.code hr
  have hargs : (x :: location).length = store.pops := by rw [hpops, List.length_cons, hwidth]; rfl
  have hfull : copied.stack = (x :: location) ++ c.stack := by rw [hstack, hout, hlocation]; rfl
  obtain ⟨use, last, out, rest, hstep, hlast, heval, hleft, hslots, hrest⟩ :=
    hrest.stepsPlain (by omega) hi hplain hfull hargs
  obtain rfl : out = [] := by
    have hlength := h.length_of_evaluate hargs heval
    rw [hyields] at hlength
    exact List.length_eq_zero_iff.mp hlength
  have hstored : Chronicle r (Works cfg r) copied [.ran store (x :: location) []] last :=
    .ran hi hstep hfull hargs hleft (.nil last)
  refine ⟨last, _, x, rest, by omega, hleft, hbefore.append (hmiddle.append (hnone.append hstored)),
    ⟨location, val, copying, store, hwidth, hx, hstorer, rfl⟩, fun k hk => ?_, hrest⟩
  rw [hslots, h.store_apply k (by rintro rfl; cases target <;> exact nomatch hstorer)]
  exact hkept k hk

/-- The code of an assignment. -/
theorem performs_assign (cfg : Setting) (tag : ExprTag) (target value : Expr) (hread : value.access = .read) :
    Performs (h := h) r (Works cfg r) 0 TypeCode.height
      (fun _ _ events out => h.Stores (.assign tag target value) events out)
      (lower cfg (.assign tag target value) .value) := by
  rw [lower]
  refine fun s hs => ends_byRule fun home table => ?_
  show Ends (assignValue tag.access (lower cfg target) value (lower cfg value)) _ _ _
  rw [assignValue_eq]
  refine (ends_ownChain (s := { s with table }) (ends_storeUsed (h := h) (r := r) cfg tag.access target hread hs)).mono ?_
  refine fun kind t ht => ⟨ht.ofTable, fun hr top hn => (ht.does hr top hn).mono ?_⟩
  rintro events out ⟨hlength, x, ⟨location, v, copying, store, hwidth, hx, hstorer, rfl⟩, rfl⟩
  exact ⟨hlength, .assign hwidth hx hstorer⟩

end Lowering

namespace Compiler

open Lowering
open Config (Arrives Chronicle)

variable {c : Compiler} {unit : SourceUnit} {analyzed : AnalyzedUnit} {diagnostics : Array Diagnostic} {h : Host}
  {r : Routine} {s t : State Chunk} {x : Expr} {kind : TypeCode} {start last : Config h} {trace : List (KeyUse h)}

/-- **What an assignment or an array literal stores is a copy if it has been read from a location.**  In every run of the
code of such a node of an analysed unit, the parts are evaluated once, in their order.  The value of a variable
or an item is copied before it is stored, and the copy is stored; every other value is stored as it is. -/
theorem stores_of_analyze (hc : c.registry = .standard) (hanalyze : c.analyze unit = (.ok analyzed, diagnostics))
    (hx : .expr x ∈ Stmt.nodesOf analyzed.statements) (hkind : x.kind = .assign ∨ x.kind = .array)
    (hs : s.active.SlotsInOrder) (hlower : lower c.loweringSetting x .value s = (.ok kind, t)) (hr : t.active.Grows r)
    (hpc : start.pc = s.active.position) (hrun : Arrives r t.active.position start trace last) :
    ∃ events out, Chronicle r (Works c.loweringSetting r) start events last ∧ h.Stores x events out ∧
      last.stack = out ++ start.stack := by
  have hwanted := wanted_of_analyze hc hanalyze hx
  have hperforms : Performs (h := h) r (Works c.loweringSetting r) 0 TypeCode.height
      (fun _ _ events out => h.Stores x events out) (lower c.loweringSetting x .value) := by
    cases x with
    | array tag elements =>
      refine performs_array _ tag elements fun element helement => ?_
      exact hwanted (element.value, .read) (List.mem_map_of_mem helement)
    | assign tag target value => exact performs_assign _ tag target value (hwanted _ (List.mem_singleton.mpr rfl))
    | _ => rcases hkind with hkind | hkind <;> exact nomatch hkind
  obtain ⟨mid, events, out, rest, hmid, hout, hevents, ⟨-, hstores⟩, hrest⟩ :=
    ((hperforms s hs).of_ok hlower).does hr [] rfl hpc (List.nil_append start.stack).symm (Nat.le_refl _) hrun
  obtain rfl := hrest.eq_self hmid
  exact ⟨events, out, hevents, hstores, hout⟩

/-! ### Arrays in variables -/

/-- Arrays are known by their numbers.  The world has the next number and what the variables hold, the last assignment
first. -/
def arrays : Host where
  Value := Nat
  World := Nat × List (String × Nat)
  literal _ := 0
  box _ v := v
  truth v := v != 0
  read name world := (world.2.lookup name).getD 0
  perform i args world := match i, args with
    | .storeVar name, [v] => some (⟨[], rfl⟩, world.1, (name, v) :: world.2)
    | .call .deepCopy, [_] => some (⟨[world.1], rfl⟩, world.1 + 1, world.2)
    | i, _ => some (⟨List.replicate i.yields 0, List.length_replicate⟩, world)

/-- `$a` holds an array. -/
def holding : Config arrays where
  pc := 0
  stack := []
  slots _ := (0 : Nat)
  world := (8, [("a", (7 : Nat))])

/-- What the variables hold when the code of an expression has been run by itself. -/
def held? (e : Expr) (fuel : Nat) : Option (List (String × Nat)) :=
  match lower {} e .value alone with
  | (.ok _, t) => (Config.follow t.active t.active.position fuel holding).map fun run => run.2.world.2
  | (.error _, _) => none

theorem held?_eq_some {e : Expr} {fuel : Nat} {left : List (String × Nat)} (h : held? e fuel = some left) :
    ∃ kind t trace d, lower {} e .value alone = (.ok kind, t) ∧
      Arrives t.active t.active.position holding trace d ∧ d.world.2 = left := by
  unfold held? at h
  split at h
  · rename_i kind t hlower
    obtain ⟨⟨trace, d⟩, hfollow, hleft⟩ := Option.map_eq_some_iff.mp h
    exact ⟨kind, t, trace, d, hlower, Config.arrives_of_follow hfollow, hleft⟩
  · exact nomatch h

/-- What is stored in a unit with a single assignment: whether it may be what a location holds, and what the variables
hold when the code has been run. -/
def stored? (unit : SourceUnit) (fuel : Nat) : Option (Bool × List (String × Nat)) :=
  match ({} : Compiler).analyze unit with
  | (.ok analyzed, _) =>
    match analyzed.statements with
    | [.expression _ (.assign tag target value)] =>
      (held? (.assign tag target value) fuel).map fun left => (value.isPlaceValued, left)
    | _ => none
  | (.error _, _) => none

theorem stored?_eq_some {fuel : Nat} {placeValued : Bool} {left : List (String × Nat)}
    (h : stored? unit fuel = some (placeValued, left)) :
    ∃ analyzed diagnostics tag tag' target value, ({} : Compiler).analyze unit = (.ok analyzed, diagnostics) ∧
      analyzed.statements = [.expression tag (.assign tag' target value)] ∧ value.isPlaceValued = placeValued ∧
      held? (.assign tag' target value) fuel = some left := by
  unfold stored? at h
  split at h
  · rename_i analyzed diagnostics hanalyze
    split at h
    · rename_i tag tag' target value hstatements
      obtain ⟨_, hheld, heq⟩ := Option.map_eq_some_iff.mp h
      obtain ⟨rfl, rfl⟩ := Prod.mk.inj heq
      exact ⟨analyzed, diagnostics, tag, tag', target, value, hanalyze, hstatements, rfl, hheld⟩
    · exact nomatch h
  · exact nomatch h

/-- `$b = ...;` -/
def storing (value : Expr) : SourceUnit :=
  { name := "unit", nextId := 10, span := {}
    statements := [.expression ⟨0, {}⟩ (.assign ⟨1, {}, .none⟩ (.var ⟨2, {}, .none⟩ "b") value)] }

/-- `$b = $a` copies the array, so there are two of them afterwards. -/
theorem stores_variable :
    ∃ analyzed diagnostics x kind t trace d events out,
      ({} : Compiler).analyze (storing (.var ⟨3, {}, .none⟩ "a")) = (.ok analyzed, diagnostics) ∧
      .expr x ∈ Stmt.nodesOf analyzed.statements ∧ lower {} x .value alone = (.ok kind, t) ∧
      Arrives t.active t.active.position holding trace d ∧ d.world.2 = [("b", 8), ("a", 7)] ∧
      Chronicle t.active (Works {} t.active) holding events d ∧ arrays.Stores x events out := by
  have hstored : stored? (storing (.var ⟨3, {}, .none⟩ "a")) 100 = some (true, [("b", 8), ("a", 7)]) := by
    decide +kernel
  obtain ⟨analyzed, diagnostics, tag, tag', target, value, hanalyze, hstatements, -, hheld⟩ := stored?_eq_some hstored
  obtain ⟨kind, t, trace, d, hlower, hrun, hworld⟩ := held?_eq_some hheld
  have hx : .expr (.assign tag' target value) ∈ Stmt.nodesOf analyzed.statements := by
    rw [hstatements]
    simp [Stmt.nodesOf, Stmt.nodes, Expr.nodes, Expr.subexprs]
  have hslots : alone.active.SlotsInOrder := ⟨List.nodup_nil, List.forall_mem_nil _⟩
  obtain ⟨events, out, hevents, hstores, -⟩ :=
    stores_of_analyze rfl hanalyze hx (.inl rfl) hslots hlower (.refl _) rfl hrun
  exact ⟨analyzed, diagnostics, _, kind, t, trace, d, events, out, hanalyze, hx, hlower, hrun, hworld, hevents, hstores⟩

/-- `@$a`, `$c ? $d : $a`, `$c ?: $a` and `$x = $a` -/
def handedOn : List Expr :=
  [.unary ⟨3, {}, .none⟩ .silence (.var ⟨4, {}, .none⟩ "a"),
    .conditional ⟨3, {}, .none⟩ (.var ⟨4, {}, .none⟩ "c") (.var ⟨5, {}, .none⟩ "d") (.var ⟨6, {}, .none⟩ "a"),
    .shortcut ⟨3, {}, .none⟩ (.var ⟨4, {}, .none⟩ "c") (.var ⟨5, {}, .none⟩ "a"),
    .assign ⟨3, {}, .none⟩ (.var ⟨4, {}, .none⟩ "x") (.var ⟨5, {}, .none⟩ "a")]

/-- In a unit with `$b = ...`, the value is read from a location, and in the end `$b` and another variable hold the same
array. -/
def Shares (value : Expr) : Prop :=
  ∃ analyzed diagnostics tag tag' target value' left name,
    ({} : Compiler).analyze (storing value) = (.ok analyzed, diagnostics) ∧
    analyzed.statements = [.expression tag (.assign tag' target value')] ∧ value'.isPlaceValued = true ∧
    held? (.assign tag' target value') 100 = some left ∧ name ≠ "b" ∧ left.lookup "b" = left.lookup name ∧
    (left.lookup name).isSome = true

theorem shares_of_stored {value : Expr} (left : List (String × Nat)) (name : String)
    (hstored : stored? (storing value) 100 = some (true, left))
    (hsame : name ≠ "b" ∧ left.lookup "b" = left.lookup name ∧ (left.lookup name).isSome = true) : Shares value := by
  obtain ⟨analyzed, diagnostics, tag, tag', target, value', hanalyze, hstatements, hplace, hheld⟩ :=
    stored?_eq_some hstored
  exact ⟨analyzed, diagnostics, tag, tag', target, value', left, name, hanalyze, hstatements, hplace, hheld, hsame⟩

/-- What another expression hands on from a location is not copied: in the end two variables hold the same array. -/
theorem shares_handedOn : handedOn.Forall Shares := by
  refine ⟨?silenced, ?conditional, ?shortcut, ?assigned⟩
  case silenced => exact shares_of_stored [("b", 7), ("a", 7)] "a" (by decide +kernel) (by decide)
  case conditional => exact shares_of_stored [("b", 7), ("a", 7)] "a" (by decide +kernel) (by decide)
  case shortcut => exact shares_of_stored [("b", 7), ("a", 7)] "a" (by decide +kernel) (by decide)
  case assigned => exact shares_of_stored [("b", 8), ("x", 8), ("a", 7)] "x" (by decide +kernel) (by decide)

end Compiler
end PhpLowering
