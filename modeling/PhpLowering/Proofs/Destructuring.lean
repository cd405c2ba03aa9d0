import PhpLowering.Proofs.CallOrder
import PhpLowering.Proofs.Lowering.Acts

/-!
# Destructurings

A destructuring takes a value apart: if the value is an array, its elements are fetched and assigned, the
last one first, and an element for which there are targets of its own is taken apart in turn; if it is
none, all targets are null.  `Host.TakesApart` says so with all events there are.

**`takesApart_of_list`**: a run of the code of a destructuring does that, whichever values turn out to be
arrays.  Every leaf is assigned once, the last one first, and what it is given can be told from the
positions that lead to it (`Host.Gives`).
-/

namespace PhpLowering

namespace ListTarget

mutual

/-- The leaves of a target at a position, each with the positions that lead to it. -/
def paths (index : Nat) : ListTarget → List (List Nat × Expr)
  | .skip => []
  | .leaf target => [([index], target)]
  | .nested targets => (pathsOf 0 targets).map fun leaf => (index :: leaf.1, leaf.2)
termination_by structural t => t

/-- The leaves of the targets from a position on, in the order of the source. -/
def pathsOf (index : Nat) : List ListTarget → List (List Nat × Expr)
  | [] => []
  | t :: rest => paths index t ++ pathsOf (index + 1) rest
termination_by structural ts => ts

end

end ListTarget

namespace Host

variable (h : Host)

/-- An assignment of a value to a leaf is the part of a destructuring that is not its own. -/
abbrev Unpacking := Event h (Expr × h.Value)

/-- The key that stands for a position. -/
def position (index : Nat) : h.Value :=
  h.general (.ofLiteral (.ofInt64 (Int64.ofNat index))) (h.literal (.ofInt64 (Int64.ofNat index)))

mutual

/-- The leaves of a target are assigned null, the last one first. -/
def nulls : ListTarget → List h.Unpacking
  | .skip => []
  | .leaf target => [.part (target, h.literal .null)]
  | .nested targets => nullsOf targets
termination_by structural t => t

/-- The leaves of some targets are assigned null, the last one first. -/
def nullsOf : List ListTarget → List h.Unpacking
  | [] => []
  | t :: rest => nullsOf rest ++ nulls t
termination_by structural ts => ts

end

mutual

/-- The element at a position of an array is fetched and assigned. -/
def AssignsElement (index : Nat) : ListTarget → h.Value → List h.Unpacking → Prop
  | .skip, _, events => events = []
  | .leaf target, array, events => ∃ e x,
    events = [.ran (.call .getItemQuiet) [h.position index, array] [e], .ran (.call .deepCopy) [e] [x],
      .part (target, x)]
  | .nested targets, array, events => ∃ e b inner,
    events = .ran (.call .getItemQuiet) [h.position index, array] [e] ::
      .ran (.call .isArrayLike) [e] [b] :: inner ∧
    if h.truth b then AssignsElements 0 targets e inner else inner = h.nullsOf targets
termination_by structural t => t

/-- The elements of an array from a position on are fetched and assigned, the last one first. -/
def AssignsElements (index : Nat) : List ListTarget → h.Value → List h.Unpacking → Prop
  | [], _, events => events = []
  | t :: rest, array, events => ∃ before after, events = before ++ after ∧
    AssignsElements (index + 1) rest array before ∧ AssignsElement index t array after
termination_by structural ts => ts

end

/-- A value is taken apart if it is an array; otherwise all leaves are null. -/
def TakesApart (targets : List ListTarget) (v : h.Value) (events : List h.Unpacking) : Prop :=
  ∃ b inner, events = .ran (.call .isArrayLike) [v] [b] :: inner ∧
    if h.truth b then h.AssignsElements 0 targets v inner else inner = h.nullsOf targets

/-- What the leaf at a path is given when a value is taken apart: a copy of the element there, or null if
something on the way to it is no array. -/
def Gives (events : List h.Unpacking) : h.Value → List Nat → h.Value → Prop
  | v, [], x => .ran (.call .deepCopy) [v] [x] ∈ events
  | v, index :: path, x => ∃ b, .ran (.call .isArrayLike) [v] [b] ∈ events ∧
    if h.truth b then
      ∃ e, .ran (.call .getItemQuiet) [h.position index, v] [e] ∈ events ∧ Gives events e path x
    else x = h.literal .null

/-- What the leaf at a path is given by an array. -/
def GivesElement (events : List h.Unpacking) (array : h.Value) : List Nat → h.Value → Prop
  | [], _ => False
  | index :: path, x => ∃ e, .ran (.call .getItemQuiet) [h.position index, array] [e] ∈ events ∧
    h.Gives events e path x

variable {h} {events events' : List h.Unpacking} {v x array : h.Value} {path : List Nat} {index : Nat}

theorem Gives.mono (hgives : h.Gives events v path x) (hsub : events ⊆ events') :
    h.Gives events' v path x := by
  induction path generalizing v with
  | nil => exact hsub hgives
  | cons index path ih =>
    obtain ⟨b, hb, hrest⟩ := hgives
    refine ⟨b, hsub hb, ?_⟩
    cases htruth : h.truth b with
    | true =>
      rw [htruth, if_pos rfl] at hrest
      obtain ⟨e, he, hrest⟩ := hrest
      exact ⟨e, hsub he, ih hrest⟩
    | false => simpa [htruth] using hrest

theorem GivesElement.mono (hgives : h.GivesElement events array path x) (hsub : events ⊆ events') :
    h.GivesElement events' array path x := by
  cases path with
  | nil => exact hgives
  | cons index path =>
    obtain ⟨e, he, hrest⟩ := hgives
    exact ⟨e, hsub he, hrest.mono hsub⟩

/-! ## What the leaves are given -/

/-- The leaves are assigned, the last one first, and each is given what it should be. -/
def Assigns (events : List h.Unpacking) (leaves : List (List Nat × Expr))
    (gives : List Nat → h.Value → Prop) : Prop :=
  List.Forall₂ (fun leaf assigned => assigned.1 = leaf.2 ∧ gives leaf.1 assigned.2) leaves.reverse
    (events.filterMap Event.part?)

variable {leaves leaves' : List (List Nat × Expr)} {gives gives' : List Nat → h.Value → Prop}

theorem Assigns.append (hfirst : Assigns events leaves gives) (hsecond : Assigns events' leaves' gives) :
    Assigns (events' ++ events) (leaves ++ leaves') gives := by
  unfold Assigns
  rw [List.reverse_append, List.filterMap_append]
  exact List.rel_append hsecond hfirst

theorem Assigns.mono (hassigns : Assigns events leaves gives)
    (hgives : ∀ path x, gives path x → gives' path x) : Assigns events leaves gives' :=
  hassigns.imp fun _ _ ht => ⟨ht.1, hgives _ _ ht.2⟩

/-- What the host carries out assigns nothing. -/
theorem Assigns.ran {i : Instruction} {args out : List h.Value} (hassigns : Assigns events leaves gives) :
    Assigns (.ran i args out :: events) leaves gives := hassigns

theorem Assigns.nested (hassigns : Assigns events leaves fun path => gives (index :: path)) :
    Assigns events (leaves.map fun leaf => (index :: leaf.1, leaf.2)) gives := by
  unfold Assigns
  rw [← List.map_reverse, List.forall₂_map_left_iff]
  exact hassigns

mutual

theorem assigns_nulls : ∀ (index : Nat) (t : ListTarget),
    Assigns (h.nulls t) (t.paths index) fun path x => path ≠ [] ∧ x = h.literal .null
  | _, .skip => .nil
  | _, .leaf _ => .cons ⟨rfl, List.cons_ne_nil _ _, rfl⟩ .nil
  | index, .nested targets => by
    rw [nulls, ListTarget.paths]
    exact ((assigns_nullsOf 0 targets).mono fun _ _ hx => ⟨List.cons_ne_nil _ _, hx.2⟩).nested
termination_by structural _ t => t

theorem assigns_nullsOf : ∀ (index : Nat) (ts : List ListTarget),
    Assigns (h.nullsOf ts) (ListTarget.pathsOf index ts) fun path x => path ≠ [] ∧ x = h.literal .null
  | _, [] => .nil
  | index, t :: rest => (assigns_nulls index t).append (assigns_nullsOf (index + 1) rest)
termination_by structural _ ts => ts

end

/-- If an array gives its leaves what it should, so does a value that is taken apart. -/
theorem TakesApart.assigns {targets : List ListTarget} (htakes : h.TakesApart targets v events)
    (helements : ∀ inner, h.AssignsElements 0 targets v inner →
      Assigns inner (ListTarget.pathsOf 0 targets) (h.GivesElement inner v)) :
    Assigns events (ListTarget.pathsOf 0 targets) (h.Gives events v) := by
  obtain ⟨b, inner, rfl, hinner⟩ := htakes
  cases htruth : h.truth b with
  | true =>
    rw [htruth, if_pos rfl] at hinner
    refine (helements inner hinner).ran.mono fun path x hx => ?_
    cases path with
    | nil => exact hx.elim
    | cons index path =>
      refine ⟨b, List.mem_cons_self, ?_⟩
      rw [htruth, if_pos rfl]
      exact hx.mono (List.subset_cons_self _ _)
  | false =>
    rw [htruth, if_neg Bool.false_ne_true] at hinner
    subst hinner
    refine (assigns_nullsOf 0 targets).ran.mono fun path x hx => ?_
    cases path with
    | nil => exact absurd rfl hx.1
    | cons index path =>
      refine ⟨b, List.mem_cons_self, ?_⟩
      rw [htruth, if_neg Bool.false_ne_true]
      exact hx.2

mutual

theorem assigns_element : ∀ (index : Nat) (t : ListTarget) (array : h.Value) (events : List h.Unpacking),
    h.AssignsElement index t array events →
      Assigns events (t.paths index) (h.GivesElement events array)
  | _, .skip, _, _, rfl => .nil
  | index, .leaf target, array, _, ⟨e, x, rfl⟩ =>
    .cons ⟨rfl, e, List.mem_cons_self, List.mem_cons_of_mem _ List.mem_cons_self⟩ .nil
  | index, .nested targets, array, _, ⟨e, b, inner, rfl, hinner⟩ => by
    rw [ListTarget.paths]
    have htakes : h.TakesApart targets e (.ran (.call .isArrayLike) [e] [b] :: inner) :=
      ⟨b, inner, rfl, hinner⟩
    have hassigns := htakes.assigns fun inner => assigns_elements 0 targets e inner
    refine Assigns.nested (hassigns.ran.mono fun path x hx => ⟨e, List.mem_cons_self, ?_⟩)
    exact hx.mono (List.subset_cons_self _ _)
termination_by structural _ t => t

theorem assigns_elements : ∀ (index : Nat) (ts : List ListTarget) (array : h.Value)
    (events : List h.Unpacking), h.AssignsElements index ts array events →
      Assigns events (ListTarget.pathsOf index ts) (h.GivesElement events array)
  | _, [], _, _, rfl => .nil
  | index, t :: rest, array, _, ⟨before, after, rfl, hrest, ht⟩ => by
    have hlater := assigns_elements (index + 1) rest array before hrest
    have hfirst := assigns_element index t array after ht
    exact (hfirst.mono fun _ _ hx => hx.mono (List.subset_append_right _ _)).append
      (hlater.mono fun _ _ hx => hx.mono (List.subset_append_left _ _))
termination_by structural _ ts => ts

end

/-- A value that is taken apart gives every leaf what it should. -/
theorem assigns_of_takesApart {targets : List ListTarget} (htakes : h.TakesApart targets v events) :
    Assigns events (ListTarget.pathsOf 0 targets) (h.Gives events v) :=
  htakes.assigns fun inner => assigns_elements 0 targets v inner

end Host

namespace Lowering

open Pass (Ends)
open Config (Arrives Chronicle)

variable {cfg : Setting} {h : Host} {r : Routine} {s t u : State Chunk} {c d : Config h}
  {trace : List (KeyUse h)} {target value' : Expr} {value : h.Value} {kind : TypeCode} {i j : Instruction}
  {goal : Nat}

/-! ## Assignments -/

/-- A value is assigned to a location: the location is addressed, the value is pushed, and what is on the
stack by then is stored. -/
inductive Assigned (cfg : Setting) (r : Routine) : Expr × h.Value → Config h → Config h → Prop where
  | intro {target : Expr} {value : h.Value} {s t : State Chunk} {kind : TypeCode}
      {c addressed pushed d : Config h} {push store : Instruction} {use use' : Option (KeyUse h)}
      (haddress : lower cfg target (.prepare .write) s = (.ok kind, t)) (hgrows : t.active.Grows r)
      (hpc : c.pc = s.active.position) (hleads : c.Leads r addressed)
      (haddressed : addressed.pc = t.active.position)
      (hpush : r.code[addressed.pc]? = some push) (hmove : push.isMove = true)
      (hpushed : addressed.step r = some (use, pushed)) (hvalue : pushed.stack = value :: addressed.stack)
      (hstorer : target.storer? = some store) (hstore : r.code[pushed.pc]? = some store)
      (hstored : pushed.step r = some (use', d)) (hstack : d.stack = c.stack) :
      Assigned cfg r (target, value) c d

/-- What stores takes the value and what the location is found by. -/
theorem pops_of_storer? (hi : target.storer? = some i) :
    i.isPlain = true ∧ i.pops = width target + 1 ∧ i.yields = 0 := by
  cases target with
  | var | item | append => cases hi; exact ⟨rfl, rfl, rfl⟩
  | _ => exact nomatch hi

/-- The code of a location, an instruction that pushes a value and one that stores it make an assignment. -/
theorem assigned_of_arrives (hs : s.active.SlotsInOrder)
    (haddress : lower cfg target (.prepare .write) s = (.ok kind, t)) (hgrows : t.active.Grows r)
    (hj : r.code[t.active.position]? = some j) (hplain : j.isPlain = true) (hmove : j.isMove = true)
    (hpops : j.pops = 0) (hstorer : target.storer? = some i)
    (hi : r.code[t.active.position + 1]? = some i) (hpc : c.pc = s.active.position)
    (hvalue : ∀ mid : Config h, (∀ k, ¬ s.active.Vacant k → mid.slots k = c.slots k) →
      ∀ out w w', h.evaluate r mid.slots j [] w = some (out, w') → out = [value])
    (hgoal : t.active.position + 2 ≤ goal) (hrun : Arrives r goal c trace d) :
    ∃ last rest, last.pc = t.active.position + 2 ∧ last.stack = c.stack ∧
      Assigned cfg r (target, value) c last ∧ Arrives r goal last rest d := by
  have hcode := ((lays_lower cfg target (.prepare .write) s hs).of_ok haddress).code.grows hgrows
  obtain ⟨mid, hmid⟩ := hcode.passed hpc (List.nil_append c.stack).symm rfl (by omega) hrun
  obtain ⟨location, hlocation, hwidth⟩ := hmid.stack
  obtain ⟨-, rest, -, -, hrest⟩ := hmid.split
  have hslots : ∀ k, ¬ s.active.Vacant k → mid.slots k = c.slots k :=
    fun k hk => hmid.slots k fun hstores => hk (hstores.slot k rfl)
  rw [← hmid.pc] at hj hi hgoal ⊢
  obtain ⟨use, pushed, out, rest', hpushed, hpushedpc, heval, hout, -, hrest'⟩ :=
    hrest.stepsPlain (by omega) hj hplain (List.nil_append mid.stack).symm hpops.symm
  obtain rfl := hvalue mid hslots out _ _ heval
  obtain ⟨hplain', hpops', hyields⟩ := pops_of_storer? hstorer
  rw [← hpushedpc] at hi
  have hargs : (value :: location).length = i.pops := by rw [hpops', List.length_cons, hwidth]; rfl
  have hfull : pushed.stack = (value :: location) ++ c.stack := by rw [hout, hlocation]; rfl
  obtain ⟨use', last, out', rest'', hstored, hlast, heval', hout', -, hrest''⟩ :=
    hrest'.stepsPlain (by omega) hi hplain' hfull hargs
  have hnone : out' = [] := by
    have hlength := h.length_of_evaluate hargs heval'
    rw [hyields] at hlength
    exact List.length_eq_zero_iff.mp hlength
  have hstack : last.stack = c.stack := by rw [hout', hnone]; rfl
  exact ⟨last, rest'', by omega, hstack, .intro haddress hgrows hpc hmid.leads hmid.pc hj hmove hpushed hout
    hstorer hi hstored hstack, hrest''⟩

/-! ## The code of an assignment -/

/-- Assigns the value on top of the stack to a location.  The value waits in a slot while the location is
addressed. -/
def assignKept (target : Code Chunk) : Emit Chunk Unit := do
  let k ← declareTemp
  emit (.storeTemp k)
  beginChain false
  let _ ← target (.prepare .write)
  emit (.loadTemp k)
  let _ ← target .store
  Pass.update State.endChain
  returnTemp k

variable (cfg) in
theorem ends_addressing (target : Expr) (half : Half) (hs : s.active.SlotsInOrder) :
    Ends (lower cfg target (.prepare half)) s (fun kind t => Tidy s t ∧
      lower cfg target (.prepare half) s = (.ok kind, t)) anyFailure :=
  .intro (fun _ _ hrun => ⟨((lays_lower cfg target (.prepare half) s hs).of_ok hrun).toTidy, hrun⟩)
    fun _ _ _ => trivial

/-- The code between two states assigns a value to a location. -/
theorem performs_assignNull (target : Expr) : Performs (h := h) r (Assigned cfg r) 0 (fun _ => 0)
    (fun _ _ events out => events = [.part (target, h.literal .null)] ∧ out = [])
    (assignNull (lower cfg target)) := by
  refine fun s hs => .update_bind ?_
  refine (ends_addressing cfg target .write (s := s.openChain false) hs).bind ?_
  rintro kind t ⟨ht, haddress⟩
  refine (ends_pushLiteral .null ht.order).bind ?_
  rintro _ u ⟨-, hu, hposition, k, hconst, hentry⟩
  refine (ends_store target hu.order).bind ?_
  rintro _ v ⟨i, hstorer, hv⟩
  obtain ⟨hend, hgrows, -, -⟩ := ((ht.trans hu).trans hv.toTidy).endChain
  have hlast : v.endChain.active.position = t.active.position + 2 := by
    rw [show v.endChain.active.position = v.active.position from congrArg Array.size (code_endChain v),
      hv.position, hposition]
  refine .update ⟨hend, fun hr top hn => ?_⟩
  obtain rfl := List.length_eq_zero_iff.mp hn
  rintro goal c d trace base hpc hstack hgoal hrun
  have hvr := hgrows.trans hr
  have hur := hv.grows.trans hvr
  have hvalue : ∀ (slots : Temp → h.Value) out w w', h.evaluate r slots (.const k) [] w = some (out, w') →
      out = [h.literal .null] := by
    intro slots out w w' heval
    rw [Host.evaluate, hentry r hur, Routine.filed_eq (v := .null) (by rintro _ ⟨⟩)] at heval
    exact (Prod.mk.inj (Option.some.inj heval)).1.symm
  obtain ⟨last, rest, hlastpc, hlaststack, hassigned, hrest⟩ := assigned_of_arrives (s := s.openChain false)
    hs haddress (hu.grows.trans hur) (hur.code hconst) rfl rfl rfl hstorer (hposition ▸ hv.code hvr) hpc
    (fun mid _ => hvalue mid.slots) (by omega) hrun
  exact ⟨last, _, [], rest, by omega, hlaststack.trans hstack, .part _ hassigned (.nil last),
    ⟨rfl, rfl, rfl⟩, hrest⟩

theorem performs_assignKept (target : Expr) : Performs (h := h) r (Assigned cfg r) 1 (fun _ => 0)
    (fun _ top events out => ∃ x, top = [x] ∧ events = [.part (target, x)] ∧ out = [])
    (assignKept (lower cfg target)) := by
  refine fun s hs => (ends_declareTemp hs).bind ?_
  rintro k t ⟨ht, hcode, hchains, hk, htaken⟩
  refine (ends_appended (.storeTemp k) ht.order).bind fun _ u hu => .update_bind ?_
  refine (ends_addressing cfg target .write (s := u.openChain false) hu.order).bind ?_
  rintro kind v ⟨hv, haddress⟩
  refine (ends_appended (.loadTemp k) hv.order).bind fun _ w hw => ?_
  refine (ends_store target hw.order).bind ?_
  rintro _ x ⟨i, hstorer, hx⟩
  have hux := (hv.trans hw.toTidy).trans hx.toTidy
  obtain ⟨hend, hgrows, hclosed, hcount⟩ := hux.endChain
  have hktaken : ¬ u.active.Vacant k := fun hvacant => htaken (hu.vacant k hvacant)
  have hreturned := ((ht.trans hu.toTidy).trans hend).returnTemp (hclosed.trans (hu.sameChains.trans hchains))
    hk (hcount ▸ Routine.lt_of_not_vacant fun hvacant => hktaken (hux.vacant k hvacant))
  have hstart : s.active.position = t.active.position := (congrArg Array.size hcode).symm
  have hlast : x.active.position = v.active.position + 2 := by
    rw [hx.position, hw.position]
  refine .update_bind (.update ⟨hreturned, fun hr top hn => ?_⟩)
  obtain ⟨value, rfl⟩ := List.length_eq_one_iff.mp hn
  rintro goal c d trace base hpc hstack hgoal hrun
  have hyr := (grows_active_returnTemp k x.endChain.sink).trans hr
  have hxr := hgrows.trans hyr
  have hwr := hx.grows.trans hxr
  have hvr := hw.grows.trans hwr
  have hend : Routine.position (Sink.returnTemp k x.endChain.sink).active = v.active.position + 2 :=
    (position_active_returnTemp k x.endChain.sink).trans ((congrArg Array.size (code_endChain x)).trans hlast)
  have hvalue : ∀ slots : Temp → h.Value, slots k = value → ∀ out w w',
      h.evaluate r slots (.loadTemp k) [] w = some (out, w') → out = [value] := by
    rintro slots rfl out w w' heval
    exact (Prod.mk.inj (Option.some.inj heval)).1.symm
  have hgoal : v.active.position + 2 ≤ goal := hend ▸ hgoal
  have hle : u.active.position ≤ v.active.position := hv.grows.position
  have hfirst := hu.position
  have hstore : r.code[c.pc]? = some (.storeTemp k) := by
    rw [hpc, hstart]
    exact hu.code (hv.grows.trans hvr)
  obtain ⟨use, c', out, rest, hstep, hc', heval, hout, hslots, hrest⟩ :=
    hrun.stepsPlain (by omega) hstore rfl hstack rfl
  obtain ⟨rfl, -⟩ := Prod.mk.inj (Option.some.inj heval)
  have hkept : c'.slots k = value := by
    rw [hslots]
    exact if_pos rfl
  have hopened : c'.pc = u.active.position := by omega
  obtain ⟨last, rest', hlastpc, hlaststack, hassigned, hrest'⟩ := assigned_of_arrives
    (s := u.openChain false) hu.order haddress hvr (hw.code hwr) rfl rfl rfl hstorer
    (hw.position ▸ hx.code hxr) hopened
    (fun mid hmid => hvalue mid.slots ((hmid k hktaken).trans hkept)) (by omega) hrest
  exact ⟨last, _, [], rest', hlastpc.trans hend.symm, hlaststack.trans hout,
    .move hstore rfl hstep (.part _ hassigned (.nil last)), ⟨rfl, value, rfl, rfl, rfl⟩, hrest'⟩

/-! ## The code of a destructuring -/

theorem performs_position (index : Nat) : Performs (h := h) r (Assigned cfg r) 0 (fun _ => 1)
    (fun _ _ events out => events = [] ∧ out = [h.position index])
    (pushLiteral (.ofInt64 (Int64.ofNat index)) >>= box) := by
  have hne : ∀ x, Literal.ofInt64 (Int64.ofNat index) ≠ .double x := by
    unfold Literal.ofInt64
    split <;> nofun
  refine ((performs_pushLiteral _).andThen performs_box).mono ?_
  rintro code top events out - ⟨_, _, _, _, rfl, ⟨rfl, rfl, rfl⟩, rfl, -, -, rfl⟩
  rw [Routine.filed_eq hne]
  exact ⟨rfl, rfl⟩

theorem performs_fetch (index : Nat) : Performs (h := h) r (Assigned cfg r) 1 (fun _ => 2)
    (fun _ top events out => ∃ array e, top = [array] ∧ out = [e, array] ∧
      events = [.ran (.call .getItemQuiet) [h.position index, array] [e]]) (fetch index) := by
  have hfetch : Performs (h := h) r (Assigned cfg r) 1 _ _ _ :=
    performs_dup.andThen fun _ => ((performs_position index).frame 2).andThen
      fun _ => (performs_callVoid .getItemQuiet).frame 1
  simp only [bind_assoc] at hfetch
  refine hfetch.mono ?_
  rintro - top events out hn ⟨-, _, _, _, rfl, ⟨rfl, rfl⟩, -, _, _, _, rfl, ⟨_, rfl, rfl, rfl⟩, e, rfl, rfl, he, -⟩
  obtain ⟨array, rfl⟩ := List.length_eq_one_iff.mp hn
  obtain ⟨e, rfl⟩ := List.length_eq_one_iff.mp he
  exact ⟨array, e, rfl, rfl, rfl⟩

theorem performs_assignElement (index : Nat) (target : Expr) : Performs (h := h) r (Assigned cfg r) 1
    (fun _ => 1) (fun _ top events out => out = top ∧ ∃ array, top = [array] ∧
      h.AssignsElement index (.leaf target) array events)
    (assignElement index (lower cfg target)) := by
  refine ((performs_fetch index).andThen fun _ => ((performs_callVoid .deepCopy).frame 1).andThen fun _ =>
    (performs_assignKept target).frame 1).mono ?_
  rintro - top events out hn ⟨-, _, _, _, rfl, ⟨array, e, rfl, rfl, rfl⟩, -, _, _, _, rfl,
    ⟨copied, rfl, rfl, hcopied, -⟩, out', rfl, x, hx, rfl, rfl⟩
  obtain ⟨copied, rfl⟩ := List.length_eq_one_iff.mp hcopied
  cases hx
  exact ⟨rfl, array, rfl, e, x, rfl⟩

theorem performs_unpack {elements nulls : Emit Chunk Unit} (targets : List ListTarget)
    (helements : Performs r (Assigned cfg r) 1 (fun _ => 1) (fun _ top events out => out = top ∧
      ∃ array, top = [array] ∧ h.AssignsElements 0 targets array events) elements)
    (hnulls : Performs r (Assigned cfg r) 0 (fun _ => 0) (fun _ _ events out => out = [] ∧ events = h.nullsOf targets)
      nulls) : Performs r (Assigned cfg r) 1 (fun _ => 0) (fun _ top events out => out = [] ∧ ∃ v, top = [v] ∧
        h.TakesApart targets v events) (unpack elements nulls) := by
  refine .withLabel fun notArray => .withLabel fun done => ?_
  have hboth := performs_alternatives notArray done (helements.andThen fun _ => performs_pop)
    (performs_pop.andThen fun _ => hnulls)
  have hunpack := performs_dup.andThen fun _ => ((performs_callVoid .isArrayLike).frame 1).andThen fun _ =>
    hboth
  simp only [alternatives, bind_assoc] at hunpack
  refine hunpack.mono ?_
  rintro - top events out hn ⟨-, _, _, _, rfl, ⟨rfl, rfl⟩, -, _, _, inner, rfl, ⟨tested, rfl, rfl, htested, -⟩,
    b, below, hb, hrel⟩
  obtain ⟨v, rfl⟩ := List.length_eq_one_iff.mp hn
  obtain ⟨tested, rfl⟩ := List.length_eq_one_iff.mp htested
  cases hb
  split at hrel
  · rename_i htruth
    obtain ⟨-, elements, _, _, rfl, ⟨-, array, harray, helements⟩, rfl, rfl⟩ := hrel
    cases harray
    refine ⟨rfl, v, rfl, b, elements, by rw [List.append_nil]; rfl, ?_⟩
    rwa [if_pos htruth]
  · rename_i htruth
    obtain ⟨-, _, _, _, rfl, ⟨rfl, rfl⟩, rfl, rfl⟩ := hrel
    refine ⟨rfl, v, rfl, b, _, rfl, ?_⟩
    rw [if_neg htruth]
    rfl

mutual

theorem performs_assignNulls (cfg : Setting) : ∀ targets : List ListTarget,
    Performs r (Assigned cfg r) 0 (fun _ => 0) (fun _ _ events out => out = [] ∧ events = h.nullsOf targets)
      (assignNulls cfg targets)
  | [] => .pure fun top hn => ⟨rfl, List.length_eq_zero_iff.mp hn, rfl⟩
  | .skip :: rest => by
    rw [assignNulls, Host.nullsOf, Host.nulls, List.append_nil]
    exact performs_assignNulls cfg rest
  | .leaf target :: rest => by
    rw [assignNulls]
    refine ((performs_assignNulls cfg rest).andThen fun _ => performs_assignNull target).mono ?_
    rintro - top events out - ⟨-, _, _, _, rfl, ⟨rfl, rfl⟩, rfl, rfl⟩
    exact ⟨rfl, rfl⟩
  | .nested targets :: rest => by
    rw [assignNulls]
    refine ((performs_assignNulls cfg rest).andThen fun _ => performs_assignNulls cfg targets).mono ?_
    rintro - top events out - ⟨-, _, _, _, rfl, ⟨rfl, rfl⟩, rfl, rfl⟩
    exact ⟨rfl, rfl⟩
termination_by targets => sizeOf targets

theorem performs_assignElements (cfg : Setting) : ∀ (index : Nat) (targets : List ListTarget),
    Performs r (Assigned cfg r) 1 (fun _ => 1) (fun _ top events out => out = top ∧
      ∃ array, top = [array] ∧ h.AssignsElements index targets array events)
      (assignElements cfg index targets)
  | _, [] => .pure fun top hn => by
    obtain ⟨array, rfl⟩ := List.length_eq_one_iff.mp hn
    exact ⟨rfl, rfl, array, rfl, rfl⟩
  | index, .skip :: rest => by
    rw [assignElements]
    refine (performs_assignElements cfg (index + 1) rest).mono ?_
    rintro - top events out - ⟨rfl, array, rfl, hrest⟩
    exact ⟨rfl, array, rfl, events, [], (List.append_nil _).symm, hrest, rfl⟩
  | index, .leaf target :: rest => by
    rw [assignElements]
    refine ((performs_assignElements cfg (index + 1) rest).andThen fun _ =>
      performs_assignElement index target).mono ?_
    rintro - top events out - ⟨-, before, _, after, rfl, ⟨rfl, array, rfl, hrest⟩, rfl, _, ⟨⟩, hleaf⟩
    exact ⟨rfl, array, rfl, before, after, rfl, hrest, hleaf⟩
  | index, .nested targets :: rest => by
    rw [assignElements]
    have hunpack := performs_unpack targets (performs_assignElements cfg 0 targets)
      (performs_assignNulls cfg targets)
    refine ((performs_assignElements cfg (index + 1) rest).andThen fun _ =>
      (performs_fetch index).andThen fun _ => hunpack.frame 1).mono ?_
    rintro - top events out - ⟨-, before, _, _, rfl, ⟨rfl, array, rfl, hrest⟩, -, _, _, _, rfl,
      ⟨_, e, ⟨⟩, rfl, rfl⟩, _, rfl, rfl, _, ⟨⟩, b, inner, rfl, hinner⟩
    exact ⟨rfl, array, rfl, before, _, rfl, hrest, e, b, inner, rfl, hinner⟩
termination_by _ targets => sizeOf targets

end

/-- What is left on the stack when a value has been taken apart. -/
def kept (access : Access) (v : h.Value) : List h.Value :=
  if access = .none then [] else [v]

variable {tag : ExprTag} {targets : List ListTarget}

/-- The value is copied if it is used, and then it is taken apart. -/
theorem performs_unpackValue (cfg : Setting) (targets : List ListTarget) (access : Access) :
    Performs (h := h) r (Assigned cfg r) 1 (fun _ => if access = .none then 0 else 1)
      (fun _ top events out => ∃ v, top = [v] ∧ out = kept access v ∧ h.TakesApart targets v events) (do
        if access ≠ .none then emit .dup
        unpack (assignElements cfg 0 targets) (assignNulls cfg targets)
        return if access = .none then TypeCode.void else .object) := by
  have hunpack := performs_unpack (h := h) (r := r) targets (performs_assignElements cfg 0 targets)
    (performs_assignNulls cfg targets)
  by_cases haccess : access = .none
  · subst haccess
    exact hunpack.answer.mono fun _ top events out _ ⟨_, hout, v, htop, htakes⟩ => ⟨v, htop, hout, htakes⟩
  · have hboth := performs_dup.andThen fun _ => (hunpack.frame 1).answer (c := TypeCode.object)
    simp only [if_neg haccess, if_pos haccess]
    refine hboth.mono ?_
    rintro - top events out hn ⟨-, _, _, _, rfl, ⟨rfl, rfl⟩, -, _, rfl, rfl, v, hv, htakes⟩
    obtain ⟨v, rfl⟩ := List.length_eq_one_iff.mp hn
    cases hv
    exact ⟨v, rfl, (if_neg haccess).symm, htakes⟩

/-- The value is evaluated, and then it is taken apart. -/
theorem ends_list (hs : s.active.SlotsInOrder) :
    Ends (lower cfg (.list tag targets value') .value) s (fun _ t => ∃ table kind u,
      boxed (lower cfg value') { s with table := table } = (.ok kind, u) ∧
      Laid (StoresTo s.active.Vacant) 0 1 { s with table := table } u ∧
      Acts (h := h) r (Assigned cfg r) 1 (if tag.access = .none then 0 else 1) (fun top events out =>
        ∃ v, top = [v] ∧ out = kept tag.access v ∧ h.TakesApart targets v events) u t) anyFailure := by
  rw [lower]
  refine ends_byRule fun _ table => ?_
  refine Ends.bind (Q := fun kind u => boxed (lower cfg value') { s with table := table } = (.ok kind, u) ∧
    Laid (StoresTo s.active.Vacant) 0 1 { s with table := table } u) ?_ ?_
  · exact .intro (fun _ _ hrun =>
      ⟨hrun, ((lays_lower cfg value').boxed.one { s with table := table } hs).of_ok hrun⟩) fun _ _ _ => trivial
  rintro kind u ⟨hvalue, hlaid⟩
  refine (performs_unpackValue (h := h) (r := r) cfg targets tag.access u hlaid.order).mono fun _ t ht => ?_
  exact ⟨table, kind, u, hvalue, hlaid, ht⟩

/-- **A destructuring assigns every leaf once, the last one first.**  In every run of its code to the end the
value is evaluated first, and from then on nothing happens but what it takes to take the value apart,
whichever of the values on the way turn out to be arrays.  What a leaf is given can be told from the
positions that lead to it, and positions that are skipped are passed over.  On the stack there is one value
more, the one that has been taken apart, or none if it is not used. -/
theorem takesApart_of_list (hs : s.active.SlotsInOrder)
    (hlower : lower cfg (.list tag targets value') .value s = (.ok kind, t)) (hr : t.active.Grows r)
    (hpc : c.pc = s.active.position) (hrun : Arrives r t.active.position c trace d) :
    ∃ table kind' u v mid events, boxed (lower cfg value') { s with table := table } = (.ok kind', u) ∧
      u.active.Grows r ∧ c.Leads r mid ∧ mid.pc = u.active.position ∧ mid.stack = v :: c.stack ∧
      Chronicle r (Assigned cfg r) mid events d ∧ h.TakesApart targets v events ∧
      Host.Assigns events (ListTarget.pathsOf 0 targets) (h.Gives events v) ∧
      d.stack = kept tag.access v ++ c.stack := by
  obtain ⟨table, kind', u, hvalue, hlaid, hacts⟩ := (ends_list (h := h) (r := r) hs).of_ok hlower
  have hur := hacts.grows.trans hr
  obtain ⟨mid, hmid⟩ := (hlaid.code.grows hur).passed hpc (List.nil_append c.stack).symm rfl
    hacts.grows.position hrun
  obtain ⟨top, htop, hone⟩ := hmid.stack
  obtain ⟨-, rest, -, -, hrest⟩ := hmid.split
  obtain ⟨last, events, out, rest', hlast, hout, hevents, ⟨-, v, rfl, rfl, htakes⟩, hrest'⟩ :=
    hacts.does hr top hone hmid.pc htop (Nat.le_refl _) hrest
  obtain rfl := hrest'.eq_self hlast
  exact ⟨table, kind', u, v, mid, events, hvalue, hur, hmid.leads, hmid.pc, htop, hevents, htakes,
    Host.assigns_of_takesApart htakes, hout⟩

/-! ### Runs with lists -/

/-- A value that is null, a number or an array. -/
inductive Datum where
  | null
  | number (n : Int32)
  | array (items : List Datum)

/-- The number of a datum. -/
def Datum.number? : Datum → Option Int32
  | .number n => some n
  | _ => none

/-- Variables hold data.  What has been assigned is kept, the last assignment first. -/
def data : Host where
  Value := Datum
  World := List (String × Datum)
  literal v := match v with
    | .int i => .number i
    | .bool b => .number (if b then 1 else 0)
    | _ => .null
  box _ v := v
  truth v := match v with
    | .number n => n != 0
    | _ => false
  read name world := (world.lookup name).getD .null
  perform i args world := match i, args with
    | .storeVar name, [v] => some (⟨[], rfl⟩, (name, v) :: world)
    | .call .isArrayLike, [v] => some (⟨[match v with
        | .array _ => .number 1
        | _ => .number 0], rfl⟩, world)
    | .call .getItemQuiet, [key, v] => some (⟨[match v, key with
        | .array items, .number n => items.getD n.toInt.toNat .null
        | _, _ => .null], rfl⟩, world)
    | .call .deepCopy, [v] => some (⟨[v], rfl⟩, world)
    | i, _ => some (⟨List.replicate i.yields .null, List.length_replicate⟩, world)

/-- `$x` is `[7, 8, [5], 6]`. -/
def filled : Config data where
  pc := 0
  stack := []
  slots _ := Datum.null
  world := [("x", .array [.number 7, .number 8, .array [.number 5], .number 6])]

/-- `[$a, , [$b], [$c]] = $x` -/
def nestedTargets : Expr :=
  .list ⟨0, {}, .read⟩ [.leaf (.var ⟨1, {}, .write⟩ "a"), .skip, .nested [.leaf (.var ⟨2, {}, .write⟩ "b")],
    .nested [.leaf (.var ⟨3, {}, .write⟩ "c")]] (.var ⟨4, {}, .read⟩ "x")

/-- What is assigned when the code of an expression is run by itself. -/
def assignments? (e : Expr) (fuel : Nat) : Option (List (String × Option Int32)) :=
  match lower {} e .value alone with
  | (.ok _, t) => (Config.follow t.active t.active.position fuel filled).map fun run =>
      run.2.world.map fun (name, v) => (name, v.number?)
  | (.error _, _) => none

theorem assignments?_eq_some {e : Expr} {fuel : Nat} {stored : List (String × Option Int32)}
    (h : assignments? e fuel = some stored) :
    ∃ kind t trace d, lower {} e .value alone = (.ok kind, t) ∧
      Arrives t.active t.active.position filled trace d ∧
      d.world.map (fun (name, v) => (name, v.number?)) = stored := by
  unfold assignments? at h
  split at h
  · rename_i kind t hlower
    obtain ⟨⟨trace, d⟩, hfollow, hstored⟩ := Option.map_eq_some_iff.mp h
    exact ⟨kind, t, trace, d, hlower, Config.arrives_of_follow hfollow, hstored⟩
  · exact nomatch h

/-- The last element is no array, so its leaf is null; the leaf in front of it is given what is in the array
there, and the element in between is skipped. -/
theorem takesApart_nestedTargets :
    ∃ kind t trace d, lower {} nestedTargets .value alone = (.ok kind, t) ∧
      Arrives t.active t.active.position filled trace d ∧
      d.world.map (fun (name, v) => (name, v.number?)) =
        [("a", some 7), ("b", some 5), ("c", none), ("x", none)] ∧
      ∃ v mid events, mid.stack = [v] ∧ Chronicle t.active (Assigned {} t.active) mid events d ∧
        Host.Assigns events [([0], .var ⟨1, {}, .write⟩ "a"), ([2, 0], .var ⟨2, {}, .write⟩ "b"),
          ([3, 0], .var ⟨3, {}, .write⟩ "c")] (data.Gives events v) ∧ d.stack = [v] := by
  have hrun : assignments? nestedTargets 100 =
      some [("a", some 7), ("b", some 5), ("c", none), ("x", none)] := by decide +kernel
  obtain ⟨kind, t, trace, d, hlower, harrives, hstored⟩ := assignments?_eq_some hrun
  have hslots : alone.active.SlotsInOrder := ⟨List.nodup_nil, nofun⟩
  obtain ⟨_, _, _, v, mid, events, -, -, -, -, hmid, hevents, -, hassigns, hstack⟩ :=
    takesApart_of_list hslots hlower (.refl _) rfl harrives
  exact ⟨kind, t, trace, d, hlower, harrives, hstored, v, mid, events, hmid, hevents, hassigns, hstack⟩

end Lowering
end PhpLowering
