import PhpLowering.Proofs.Lowering.Slots

/-!
# The code of an expression is a stretch

**`lays_lower`**: whatever use is made of an expression, its code is a stretch.  What the stretch
takes and leaves depends on the use: the addressing half leaves what a location is found by, and the
other half takes it (`Use.takes`, `Use.leaves`).  How many values that are is the width of the
location.

The slots that a stretch stores to are vacant where it begins.  So nothing that is evaluated in the
meantime can change what is kept in a slot that is taken, whichever slots it declares and gives back
itself.
-/

namespace PhpLowering
namespace Lowering

open Pass (Ends)

variable {α β : Type} {s t u : State Chunk} {n m w w' : Nat} {P : Instruction → Prop}

/-- The number of values that a location is found by. -/
def width : Expr → Nat
  | .item .. => 2
  | .append .. => 1
  | _ => 0

/-- The number of values that the code for a use takes off the stack. -/
def Use.takes (width : Nat) : Use → Nat
  | .load => width
  | .store => width + 1
  | _ => 0

/-- The number of values that the code for a use leaves on the stack along with its answer. -/
def Use.leaves (width : Nat) : Use → TypeCode → Nat
  | .value => TypeCode.height
  | .prepare _ => fun _ => width
  | .store | .unset => fun _ => 0
  | .load | .loadRef | .arrayForWrite | .containerRead => fun _ => 1

/-- Whatever use is made of a code, it lays a stretch. -/
def LaysCode (w : Nat) (code : Code Chunk) : Prop :=
  ∀ use, Lays (use.takes w) (use.leaves w) (code use)

section Codes

variable {code container left right condition ifTrue ifFalse target stored : Code Chunk}
  {key : Emit Chunk TypeCode}

theorem LaysCode.value (h : LaysCode w code) : Lays 0 TypeCode.height (code .value) := h .value

theorem LaysCode.boxed (h : LaysCode w code) : LaysValue 0 (boxed code) :=
  h.value.value fun kind => lays_box kind

theorem LaysCode.converted (h : LaysCode w code) (target : TypeCode) {g : TypeCode → Nat}
    (hm : ∀ c : TypeCode, c.height = target.height → g c = target.height) :
    Lays 0 g (converted code target) :=
  h.value.andThen fun kind => lays_convert kind target hm

theorem laysCode_valueCode {value : Emit Chunk TypeCode} (h : Lays 0 TypeCode.height value)
    (kind : ExprKind) : LaysCode w (valueCode kind value) := by
  intro use
  cases use with
  | value => exact h
  | arrayForWrite | containerRead => exact h.andThen fun c => (lays_box c).one
  | prepare _ | load | store | loadRef | unset => exact .fault _

theorem ends_wrongRuleCode (rule kind : ExprKind) (access : Access) (use : Use)
    {Q : TypeCode → State Chunk → Prop} :
    Ends (wrongRuleCode rule kind access use : Emit Chunk TypeCode) s Q anyFailure := by
  unfold wrongRuleCode
  cases use <;> dsimp only <;> (try split) <;> exact .fail trivial

theorem laysCode_byRule {cfg : Setting} {kind : ExprKind} {tag : ExprTag}
    {code : Home ExprKind → Code Chunk} (h : ∀ home, LaysCode w (code home)) :
    LaysCode w (byRule cfg kind tag code) := by
  intro use
  refine (lays_onTable _).andThen fun handle => ?_
  split
  · exact h _ use
  · exact fun s _ => ends_wrongRuleCode _ _ _ _

/-! ## Locations -/

/-- Whatever is done with a location, a stretch is laid. -/
structure Place.LaysPlace (w : Nat) (p : Place Chunk) : Prop where
  prepare : ∀ half, Lays 0 (fun _ => w) (p.prepare half)
  load : LaysValue w p.load
  store : Lays (w + 1) (fun _ => 0) p.store
  loadRef : LaysValue 0 p.loadRef
  arrayForWrite : LaysValue 0 p.arrayForWrite
  unset : Lays 0 (fun _ => 0) p.unset

theorem Place.LaysPlace.laysCode {p : Place Chunk} (h : p.LaysPlace w) (kind : ExprKind) (access : Access) :
    LaysCode w (p.code kind access) := by
  intro use
  cases use with
  | value =>
    unfold Place.code Place.value
    cases access with
    | read => exact (h.prepare _).andThen fun _ => h.load.height
    | readRef | readUnknown => exact h.loadRef.height
    | none =>
      exact (h.prepare _).andThen fun _ => h.load.one.andThen fun _ => lays_pop.andThen fun _ => .pure _ rfl
    | _ => exact .fault _
  | prepare half => exact (h.prepare half).andThen fun _ => .pure _ rfl
  | load => exact h.load.one
  | store => exact h.store.andThen fun _ => .pure _ rfl
  | loadRef => exact h.loadRef.one
  | arrayForWrite => exact h.arrayForWrite.one
  | containerRead => exact (h.prepare _).andThen fun _ => h.load.one
  | unset => exact h.unset.andThen fun _ => .pure _ rfl

theorem laysPlace_variable (name : String) : (variablePlace name).LaysPlace 0 where
  prepare _ := .pure _ rfl
  load := (lays_emit (i := .loadVar name) (m := 1) rfl (Nat.zero_le _) rfl nofun nofun).value fun _ => .pure rfl
  store := lays_emit rfl (Nat.le_refl _) rfl nofun nofun
  loadRef := (lays_emit (i := .loadVarRef name) (m := 1) rfl (Nat.zero_le _) rfl nofun nofun).value
    fun _ => .pure rfl
  arrayForWrite := (lays_emit (i := .loadVarArray name) (m := 1) rfl (Nat.zero_le _) rfl nofun nofun).value
    fun _ => .pure rfl
  unset := lays_emit rfl (Nat.zero_le _) rfl nofun nofun

theorem laysPlace_item (hcontainer : LaysCode w container) (hkey : Lays 0 (fun _ => 1) key) :
    (itemPlace container key).LaysPlace 2 := by
  have hprepare : ∀ half, Lays 0 (fun _ => 2) (itemPlace.prepare container key half) := by
    intro half
    cases half with
    | write =>
      exact (hcontainer .arrayForWrite).andThen fun _ => (hkey.frame 1).andThen fun _ => .pure _ rfl
    | read =>
      exact (hcontainer .containerRead).andThen fun _ => (hkey.frame 1).andThen fun _ => .pure _ rfl
  exact
    { prepare := hprepare
      load := (lays_peek _).value fun quiet => by
        cases quiet with
        | true => exact lays_callValue .getItemQuiet rfl
        | false => exact lays_callValue .getItem rfl
      store := lays_callVoid .setItem
      loadRef := (hprepare .write).value fun _ => lays_callValue .getItemRef rfl
      arrayForWrite := (hprepare .write).value fun _ => lays_callValue .getItemForWrite rfl
      unset := (hprepare .read).andThen fun _ => lays_callVoid .unsetItem }

theorem laysPlace_append (hcontainer : LaysCode w container) : (appendPlace container).LaysPlace 1 := by
  have hprepare : Lays 0 (fun _ => 1) (appendPlace.prepareWrite container) :=
    (hcontainer .arrayForWrite).andThen fun _ => .pure _ rfl
  exact
    { prepare := fun half => by
        cases half with
        | write => exact hprepare
        | read => exact .fault _
      load := .fault _
      store := lays_callVoid .append
      loadRef := hprepare.value fun _ => lays_callValue .appendReference rfl
      arrayForWrite := hprepare.value fun _ => lays_callValue .appendArray rfl
      unset := .fault _ }

end Codes

/-! ## Chains -/

section Chains

variable {e : Expr} {code : Code Chunk} {chain : Chain} {chains : List Chain}

/-- The slot in which the innermost chain keeps an operand. -/
def State.slot? (s : State Chunk) (id : Nat) : Option Temp :=
  s.chains.head?.bind fun chain => (chain.kept.lookup id).map Prod.fst

theorem sink_keepOperand (id : Nat) (k : Temp) (kind : TypeCode) (s : State Chunk) :
    (s.keepOperand id k kind).sink = s.sink ∧ (s.keepOperand id k kind).frame = s.frame := by
  unfold State.keepOperand
  split <;> exact ⟨rfl, rfl⟩

theorem active_keepOperand (id : Nat) (k : Temp) (kind : TypeCode) (s : State Chunk) :
    (s.keepOperand id k kind).active = s.active :=
  congrArg Chunk.active (sink_keepOperand id k kind s).1

/-- The chains after an operand has been kept that was not kept before. -/
theorem chains_keepOperand {more : List (Nat × Temp × TypeCode)} {id : Nat} (k : Temp) (kind : TypeCode)
    (hs : s.chains = chain :: chains) (hnone : chain.kept.lookup id = none)
    (ht : t.chains = withKept more s.chains) :
    (t.keepOperand id k kind).chains =
      withKept (more.filter (fun entry => entry.1 ≠ id) ++ [(id, k, kind)]) s.chains := by
  have hall : chain.kept.filter (fun entry => entry.1 ≠ id) = chain.kept := by
    rw [List.lookup_eq_none_iff] at hnone
    refine List.filter_eq_self.mpr fun entry hentry => decide_eq_true fun heq => ?_
    have hne := hnone entry hentry
    simp [heq] at hne
  rw [hs] at ht ⊢
  unfold State.keepOperand
  rw [ht]
  simp only [withKept, List.filter_append, hall, List.append_assoc]

theorem slot?_keepOperand {more : List (Nat × Temp × TypeCode)} {id : Nat} (k : Temp) (kind : TypeCode)
    (hs : s.chains = chain :: chains) (hnone : chain.kept.lookup id = none)
    (ht : t.chains = withKept more s.chains) : (t.keepOperand id k kind).slot? id = some k := by
  unfold State.slot?
  rw [chains_keepOperand k kind hs hnone ht, hs]
  have hmore : (more.filter (fun entry => entry.1 ≠ id)).lookup id = none := by
    rw [List.lookup_eq_none_iff]
    intro entry hentry
    have hne := of_decide_eq_true (List.mem_filter.mp hentry).2
    simpa using fun heq => hne heq.symm
  simp only [withKept, List.head?_cons, Option.bind_some, List.lookup_append, hnone, hmore, Option.none_or]
  simp

/-- How an operand is evaluated and kept: its value is copied to a slot that is taken from then on. -/
structure KeptAt (id : Nat) (k : Temp) (p : Nat) (s t : State Chunk) : Prop where
  slot : t.slot? id = some k
  vacant : s.active.Vacant k
  taken : ¬ t.active.Vacant k
  code : Stretch t.active (StoresTo s.active.Vacant) s.active.position p 0 1
  dup : t.active.code[p]? = some .dup
  store : t.active.code[p + 1]? = some (.storeTemp k)
  position : t.active.position = p + 2

theorem ends_chainOperand_new (h : LaysCode w code) (hs : s.active.SlotsInOrder)
    (hchains : s.chains = chain :: chains) (he : ¬ e.isRepeatable = true)
    (hnone : chain.kept.lookup e.id = none) :
    Ends (chainOperand e code) s (fun _ t => Laid (StoresTo s.active.Vacant) 0 1 s t ∧
      ∃ k p, KeptAt e.id k p s t) anyFailure := by
  refine .peek_bind ?_
  rw [hchains]
  dsimp only [List.head?_cons]
  rw [if_neg he, hnone]
  refine (h.boxed.one s hs).bind fun kind t ht => ?_
  refine (ends_declareTemp ht.order).bind ?_
  rintro k u ⟨hu, hcode, -, hk, htaken⟩
  have htu := ht.trans (.of_tidy hu hcode)
  have hstores := storesTo_storeTemp (ht.vacant _ hk)
  refine (ends_saveTo hu.order ⟨nofun, nofun⟩ hstores).bind ?_
  rintro _ v ⟨hv, hdup, hstore, hposition⟩
  refine .update_bind (.pure ?_)
  have hsv := htu.trans hv
  obtain ⟨more, hmore, hentries⟩ := hsv.chains
  have hactive := active_keepOperand e.id k kind v
  obtain ⟨hsink, hframe⟩ := sink_keepOperand e.id k kind v
  have htaken' : ¬ v.active.Vacant k := fun hvacant => htaken (hv.vacant _ hvacant)
  refine ⟨⟨⟨hsink ▸ hsv.same, hframe.trans hsv.sameFrame, ?_, ?_, ?_, _,
      chains_keepOperand k kind hchains hnone hmore, ?_⟩, ?_⟩, k, u.active.position,
    slot?_keepOperand k kind hchains hnone hmore, ht.vacant _ hk, ?_, ?_, ?_, ?_, ?_⟩
  all_goals rw [hactive]
  · exact hsv.grows
  · exact hsv.order
  · exact hsv.vacant
  · intro entry hentry
    rcases List.mem_append.mp hentry with hentry | hentry
    · exact hentries entry (List.mem_filter.mp hentry).1
    · rw [List.mem_singleton.mp hentry]
      exact ⟨ht.vacant _ hk, htaken'⟩
  · exact hsv.code
  · exact htaken'
  · exact htu.code.grows hv.grows
  · exact hdup
  · exact hstore
  · exact hposition

/-- Evaluated or loaded from its slot, an operand is one value. -/
theorem lays_chainOperand (h : LaysCode w code) : Lays 0 (fun _ => 1) (chainOperand e code) := by
  intro s hs
  by_cases hnew : ∃ chain chains, s.chains = chain :: chains ∧ ¬ e.isRepeatable = true ∧
      chain.kept.lookup e.id = none
  · obtain ⟨chain, chains, hchains, he, hnone⟩ := hnew
    exact (ends_chainOperand_new h hs hchains he hnone).mono fun _ _ ht => ht.1
  · refine .peek_bind ?_
    cases hchains : s.chains with
    | nil => exact h.boxed.one s hs
    | cons chain chains =>
      dsimp only [List.head?_cons]
      split
      · exact h.boxed.one s hs
      · rename_i he
        split
        · rename_i k kind _
          exact ((lays_emit (i := .loadTemp k) rfl (Nat.zero_le _) rfl nofun nofun).andThen fun _ =>
            .pure kind rfl) s hs
        · rename_i hnone
          exact absurd ⟨chain, chains, hchains, he, hnone⟩ hnew

/-- A piece of work in a chain of its own. -/
theorem lays_inChain {x : Emit Chunk α} {g : α → Nat} (quiet : Bool) (hx : Lays n g x) :
    Lays n g (do
      beginChain quiet
      let a ← x
      Pass.update State.endChain
      return a) := by
  refine fun s hs => .update_bind ?_
  refine (hx (s.openChain quiet) hs).bind fun a t ht => ?_
  exact .update_bind (.pure ht.endChain.1)

/-- A step that may take a slot, with which it answers. -/
def LaysSaved (n m : Nat) (x : Emit Chunk (Option Temp)) : Prop :=
  ∀ s, s.active.SlotsInOrder → Ends x s (fun saved t => Laid (StoresTo s.active.Vacant) n m s t ∧
    ∀ k, saved = some k → s.active.Vacant k ∧ ¬ t.active.Vacant k) anyFailure

theorem Lays.saved {x : Emit Chunk α} {g : α → Nat} {f : α → Emit Chunk (Option Temp)}
    (hx : Lays n g x) (hf : ∀ a, LaysSaved (g a) m (f a)) : LaysSaved n m (x >>= f) := by
  refine fun s hs => (hx s hs).bind fun a t ht => ?_
  refine (hf a t ht.order).mono fun saved u hu => ?_
  exact ⟨ht.trans (hu.1.mono (storesTo_mono ht.vacant)), fun k hk => ⟨ht.vacant k (hu.2 k hk).1, (hu.2 k hk).2⟩⟩

theorem LaysSaved.frame {x : Emit Chunk (Option Temp)} (hx : LaysSaved n m x) (k : Nat) :
    LaysSaved (k + n) (k + m) x :=
  fun s hs => (hx s hs).mono fun _ _ ht => ⟨ht.1.frame k, ht.2⟩

/-- The slot is taken until it is given back. -/
theorem LaysSaved.andThen {x : Emit Chunk (Option Temp)} {f : Option Temp → Emit Chunk α}
    (hx : LaysSaved n m x) (hf : ∀ saved, Lays m (fun _ => w) (f saved)) :
    LaysSaved n w (do
      let saved ← x
      let _ ← f saved
      return saved) := by
  refine fun s hs => (hx s hs).bind fun saved t ht => ?_
  refine (hf saved t ht.1.order).bind fun _ u hu => .pure ?_
  refine ⟨ht.1.trans (hu.mono (storesTo_mono ht.1.vacant)), fun k hk => ⟨(ht.2 k hk).1, fun hv => ?_⟩⟩
  exact (ht.2 k hk).2 (hu.vacant k hv)

/-- What has been kept in a slot is loaded when the chain is closed. -/
theorem LaysSaved.inChain {x : Emit Chunk (Option Temp)} (quiet : Bool) (hx : LaysSaved 0 0 x) :
    Lays 0 TypeCode.height (do
      beginChain quiet
      let saved ← x
      Pass.update State.endChain
      loadSaved saved) := by
  refine fun s hs => .update_bind ?_
  refine (hx (s.openChain quiet) hs).bind fun saved t ht => .update_bind ?_
  obtain ⟨hend, hchains, hcount⟩ := ht.1.endChain
  cases saved with
  | none => exact .pure hend
  | some k =>
    obtain ⟨hk, htaken⟩ := ht.2 k rfl
    refine (ends_emit (.loadTemp k) _).bind ?_
    rintro _ _ rfl
    have hload := hend.trans
      (Laid.push (i := .loadTemp k) (m := 1) hend.order rfl (Nat.zero_le _) rfl ⟨nofun, nofun⟩)
    refine .update_bind (.pure ?_)
    refine hload.returnTemp hchains hk ?_
    rw [State.active_withActive]
    exact hcount ▸ Routine.lt_of_not_vacant htaken

end Chains

/-! ## Assignments and destructurings -/

section Constructs

variable {e value : Expr} {code target stored keyCode : Code Chunk}

theorem lays_valueToStore (h : LaysCode w stored) : Lays 0 (fun _ => 1) (valueToStore value stored) := by
  refine h.boxed.one.andThen fun kind => ?_
  split
  · exact lays_callVoid .deepCopy
  · exact .pure _ rfl

theorem laysSaved_saveUsed (access : Access) : LaysSaved 1 1 (saveUsed access) := by
  unfold saveUsed
  split
  · exact fun s hs => .pure ⟨.refl hs, nofun⟩
  · refine fun s hs => (ends_declareTemp hs).bind ?_
    rintro k t ⟨ht, hcode, -, hk, htaken⟩
    refine (ends_saveTo ht.order ⟨nofun, nofun⟩ (storesTo_storeTemp hk)).bind ?_
    rintro _ u ⟨hu, -⟩
    refine .pure ⟨(Laid.of_tidy ht hcode).trans hu, ?_⟩
    rintro _ ⟨⟩
    exact ⟨hk, fun hv => htaken (hu.vacant _ hv)⟩

theorem lays_assignValue (access : Access) (ht : LaysCode w target) (hv : LaysCode w' stored) :
    Lays 0 TypeCode.height (assignValue access target value stored) := by
  rw [assignValue_eq]
  refine LaysSaved.inChain false ?_
  refine (ht (.prepare .write)).saved fun _ => ?_
  refine ((lays_valueToStore hv).frame w).saved fun _ => ?_
  exact ((laysSaved_saveUsed access).frame w).andThen fun _ => ht .store

/-- A value is changed, and a copy of it is kept before or after that. -/
theorem ends_changeValue {P : Instruction → Prop} (increment post : Bool) (saved : Option Temp)
    (hs : s.active.SlotsInOrder) (hdup : P .dup) (hstore : ∀ k, saved = some k → P (.storeTemp k))
    (hop : P (.call (if increment then .increment else .decrement))) :
    Ends (changeValue increment post saved) s (fun _ t => Laid P 1 1 s t) anyFailure := by
  have hsave : ∀ s : State Chunk, s.active.SlotsInOrder →
      Ends (incDecValue.saveResult saved) s (fun _ t => Laid P 1 1 s t) anyFailure := by
    intro s hs
    cases saved with
    | none => exact .pure (.refl hs)
    | some k => exact (ends_saveTo hs hdup (hstore k rfl)).mono fun _ _ ht => ht.1
  have hchange : ∀ s : State Chunk, s.active.SlotsInOrder →
      Ends (callVoid (if increment then .increment else .decrement)) s (fun _ t => Laid P 1 1 s t)
        anyFailure := by
    intro s hs
    refine (ends_emit _ s).mono ?_
    rintro _ _ rfl
    cases increment <;> exact .push hs rfl (Nat.le_refl _) rfl hop
  unfold changeValue
  cases post with
  | true =>
    refine (hsave s hs).bind fun _ t ht => (hchange t ht.order).bind fun _ u hu => .pure ?_
    exact ht.trans hu
  | false =>
    show Ends (callVoid _ >>= fun _ => incDecValue.saveResult saved) s _ _
    exact (hchange s hs).bind fun _ t ht => (hsave t ht.order).mono fun _ u hu => ht.trans hu

/-- A slot for the value is taken if it is used. -/
theorem ends_resultSlot (used : Bool) (hs : s.active.SlotsInOrder) :
    Ends (resultSlot used) s (fun saved t => Tidy s t ∧ t.active.code = s.active.code ∧
      t.chains = s.chains ∧ ∀ k, saved = some k → s.active.Vacant k ∧ ¬ t.active.Vacant k) anyFailure := by
  unfold resultSlot
  cases used with
  | false => exact .pure ⟨.of_eq hs (.refl _) rfl (.refl _) rfl rfl rfl, rfl, rfl, nofun⟩
  | true =>
    refine (ends_declareTemp hs).bind ?_
    rintro k t ⟨ht, hcode, hchains, hk, htaken⟩
    refine .pure ⟨ht, hcode, hchains, ?_⟩
    rintro _ ⟨⟩
    exact ⟨hk, htaken⟩

theorem laysSaved_changeValue (used increment post : Bool) :
    LaysSaved 1 1 (do
      let saved ← resultSlot used
      changeValue increment post saved
      return saved) := by
  refine fun s hs => (ends_resultSlot used hs).bind ?_
  rintro saved t ⟨ht, hcode, -, hsaved⟩
  have hstore : ∀ k, saved = some k → StoresTo s.active.Vacant (.storeTemp k) :=
    fun k hk => storesTo_storeTemp (hsaved k hk).1
  refine (ends_changeValue increment post saved ht.order ⟨nofun, nofun⟩ hstore ⟨nofun, nofun⟩).bind fun _ u hu => ?_
  refine .pure ⟨(Laid.of_tidy ht hcode).trans hu, fun k hk => ⟨(hsaved k hk).1, fun hv => ?_⟩⟩
  exact (hsaved k hk).2 (hu.vacant k hv)

/-- The target is addressed for writing and then for reading. -/
theorem lays_incDecValue (cfg : Setting) (access : Access) (increment post : Bool)
    (h : LaysCode w target) : Lays 0 TypeCode.height (incDecValue cfg access increment post e target) := by
  rw [incDecValue_eq]
  refine Lays.andThen (g := fun _ => 0) ?_ fun isPlace => ?_
  · exact (lays_onTable _).andThen fun handle => .pure _ rfl
  split
  · exact .fault _
  refine Lays.andThen (g := fun _ => 0) ?_ fun used => LaysSaved.inChain false ?_
  · cases access with
    | none | read | readUnknown => exact .pure _ rfl
    | _ => exact .fault _
  refine (h (.prepare .write)).saved fun _ => ?_
  refine ((h (.prepare .read)).frame w).saved fun _ => ?_
  refine ((h .load).frame w).saved fun kind => ?_
  have hchange := ((laysSaved_changeValue used increment post).frame w).andThen fun _ => h .store
  simp only [bind_assoc, pure_bind] at hchange
  exact ((lays_boxed kind).frame w).saved fun _ => hchange

theorem lays_storePlain (h : LaysCode w stored) : Lays 1 (fun _ => 1) (storePlain value stored) :=
  lays_dup.andThen fun _ => ((lays_valueToStore h).frame 2).andThen fun _ =>
    (lays_callVoid .append).frame 1

theorem lays_storeKeyed (hk : LaysCode w keyCode) (hv : LaysCode w' stored) :
    Lays 1 (fun _ => 1) (storeKeyed keyCode value stored) :=
  lays_dup.andThen fun _ => (hk.boxed.one.frame 2).andThen fun _ =>
    ((lays_valueToStore hv).frame 3).andThen fun _ => (lays_callVoid .setItem).frame 1

theorem lays_arrayValue (access : Access) (home : Home ExprKind) {elements : Emit Chunk Unit}
    (h : Lays 1 (fun _ => 1) elements) : Lays 0 TypeCode.height (arrayValue access home elements) :=
  (lays_peek _).andThen fun keys =>
    (lays_emit (i := .newArray keys.integers keys.others) rfl (Nat.zero_le _) rfl nofun nofun).andThen fun _ =>
      h.andThen fun _ => lays_unlessDropped access .arrayHandle

theorem lays_fetch (index : Nat) : Lays 1 (fun _ => 2) (fetch index : Emit Chunk Unit) :=
  lays_dup.andThen fun _ => ((lays_pushLiteral _).one.frame 2).andThen fun kind =>
    ((lays_boxed kind).frame 2).andThen fun _ => (lays_callVoid .getItemQuiet).frame 1

/-- An element waits in a slot while its target is addressed. -/
theorem lays_assignElement (index : Nat) (h : LaysCode w target) :
    Lays 1 (fun _ => 1) (assignElement index target) := by
  refine (lays_fetch index).andThen fun _ => ((lays_callVoid .deepCopy).frame 1).andThen fun _ => ?_
  intro s hs
  refine (ends_declareTemp hs).bind ?_
  rintro k t ⟨ht, hcode, hchains, hk, htaken⟩
  refine (ends_emit (.storeTemp k) t).bind ?_
  rintro _ _ rfl
  have hstore : Laid (StoresTo s.active.Vacant) 2 1 t _ := .push ht.order rfl (Nat.le_succ _) rfl
    (storesTo_storeTemp hk)
  have hstored := (Laid.of_tidy ht hcode).trans hstore
  have hload : Lays w (fun _ => w + 1) (emit (.loadTemp k)) := lays_emit rfl (Nat.zero_le _) rfl nofun nofun
  have hwork := ((h (.prepare .write)).andThen fun _ => hload.andThen fun _ => h .store).frame 1
  have hrest : Ends ((do
      let _ ← target (.prepare .write)
      emit (.loadTemp k)
      target .store) >>= fun _ => do
        Pass.update State.endChain
        returnTemp k)
      ((t.withActive (t.active.push (.storeTemp k))).openChain false)
      (fun _ u => Laid (StoresTo s.active.Vacant) 2 1 s u) anyFailure := by
    refine (hwork (.openChain false (t.withActive _)) hstored.order).bind fun _ u hu => ?_
    refine .update_bind (.update ?_)
    obtain ⟨hend, hclosed, hcount⟩ := hu.endChain
    refine (hstored.trans (hend.mono (storesTo_mono hstored.vacant))).returnTemp (hclosed.trans hchains) hk ?_
    exact hcount ▸ Routine.lt_of_not_vacant fun hv => htaken (hstore.vacant k (hu.vacant k hv))
  simp only [bind_assoc] at hrest
  exact .update_bind hrest

theorem lays_assignNull (h : LaysCode w target) : Lays 0 (fun _ => 0) (assignNull target) := by
  have hwork := (h (.prepare .write)).andThen fun _ =>
    ((lays_pushLiteral .null).one.frame w).andThen fun _ => h .store
  have hchain := (lays_inChain false hwork).andThen fun _ => Lays.pure (g := fun _ => 0) () rfl
  simp only [bind_assoc, pure_bind] at hchain
  exact hchain

theorem lays_unpack {elements nulls : Emit Chunk Unit} (he : Lays 1 (fun _ => 1) elements)
    (hn : Lays 0 (fun _ => 0) nulls) : Lays 1 (fun _ => 0) (unpack elements nulls) := by
  refine lays_defineLabel.andThen fun notArray => lays_defineLabel.andThen fun done => ?_
  refine lays_dup.andThen fun _ => ((lays_callVoid .isArrayLike).frame 1).andThen fun _ => ?_
  have hboth := lays_alternatives notArray done (he.andThen fun _ => lays_pop)
    (lays_pop.andThen fun _ => hn)
  simp only [alternatives, bind_assoc] at hboth
  exact hboth

theorem lays_listValue (access : Access) (hv : LaysCode w code) {unpacked : Emit Chunk Unit}
    (hu : Lays 1 (fun _ => 0) unpacked) : Lays 0 TypeCode.height (listValue access code unpacked) := by
  refine hv.boxed.one.andThen fun _ => ?_
  by_cases h : access = .none
  · rw [if_neg (not_not.mpr h), if_pos h]
    exact hu.andThen fun _ => .pure _ rfl
  · rw [if_pos h, if_neg h]
    exact lays_dup.andThen fun _ => (hu.frame 1).andThen fun _ => .pure _ rfl

end Constructs

/-! ## Operators -/

section Operators

variable {e : Expr} {code left right condition ifTrue ifFalse : Code Chunk}

theorem lays_literalValue (access : Access) (v : Literal) :
    Lays 0 TypeCode.height (literalValue access v : Emit Chunk TypeCode) := by
  unfold literalValue
  split
  · exact .pure _ rfl
  · split
    · exact .fault _
    · exact (lays_pushLiteral v).height

theorem lays_constantValue (access : Access) (name : String) :
    Lays 0 TypeCode.height (constantValue access name : Emit Chunk TypeCode) :=
  (lays_emit (i := .loadConstant name) rfl (Nat.zero_le _) rfl nofun nofun).andThen fun _ =>
    lays_unlessDropped access .object

theorem lays_binaryValue (access : Access) (op : BinaryOp) (hl : LaysCode w left)
    (hr : LaysCode w' right) : Lays 0 TypeCode.height (binaryValue access op left right) := by
  have hop : op.runtimeOp.arity = 2 := by cases op <;> rfl
  refine hl.boxed.one.andThen fun _ => (hr.boxed.one.frame 1).andThen fun _ => ?_
  exact (hop ▸ lays_call op.runtimeOp).andThen fun kind => lays_unlessDropped access kind

theorem lays_callOn {op : RuntimeOp} (hop : op.arity = 1) (h : LaysCode w code) :
    Lays 0 TypeCode.height (callOn op code) :=
  h.boxed.one.andThen fun _ => hop ▸ lays_call op

theorem lays_unaryResult (op : UnaryOp) (h : LaysCode w code) :
    Lays 0 TypeCode.height (unaryResult op code) := by
  cases op with
  | plus | minus | logicNot | bitNot | clone | print => exact lays_callOn rfl h
  | intCast | doubleCast | stringCast | binaryCast | boolCast => exact h.converted _ fun _ hc => hc
  | unsetCast =>
    exact h.value.andThen fun kind => (lays_discard kind (g := fun _ => 0) rfl).andThen fun _ =>
      (lays_pushLiteral .null).height
  | silence => exact h.value

theorem lays_unaryValue (access : Access) (op : UnaryOp) (h : LaysCode w code) :
    Lays 0 TypeCode.height (unaryValue access op code) := by
  unfold unaryValue
  split
  · refine (lays_callVoid .beginSilence).andThen fun _ => h.value.andThen fun kind => ?_
    exact ((lays_callVoid .endSilence).frame kind.height).andThen fun _ => .pure _ rfl
  · exact (lays_unaryResult op h).andThen fun kind => lays_unlessDropped access kind

theorem lays_pushOperand (v : Literal) : LaysValue 0 (pushOperand v : Emit Chunk TypeCode) := by
  unfold pushOperand
  split <;> exact lays_pushLiteral _

theorem lays_concatOperand (h : LaysCode w code) : Lays 0 (fun _ => 1) (concatOperand e code) := by
  unfold concatOperand
  split
  · exact (lays_pushOperand _).one.andThen fun _ => .pure _ rfl
  · refine h.value.andThen fun kind => ?_
    split
    · exact .pure _ rfl
    · exact .pure _ rfl
    · refine (lays_box kind).one.andThen fun _ => ?_
      split
      · exact (lays_callVoid .toText).andThen fun _ => .pure _ rfl
      · exact .pure _ rfl

theorem lays_concatSingle (h : LaysCode w code) : Lays 0 TypeCode.height (concatSingle e code) := by
  unfold concatSingle
  split
  · exact (lays_pushOperand _).height
  · refine h.value.andThen fun kind => ?_
    split
    · exact .pure _ rfl
    · refine (lays_box kind).one.andThen fun _ => lays_defineLabel.andThen fun done => ?_
      refine lays_dup.andThen fun _ => ((lays_callVoid .isBytes).frame 1).andThen fun _ => ?_
      have hskip := (lays_skippable done (lays_callVoid .toText)).andThen fun _ =>
        Lays.pure (g := TypeCode.height) .object rfl
      simp only [skippable, bind_assoc] at hskip
      exact hskip

theorem lays_branchValue (used : Bool) (h : LaysCode w code) :
    Lays 0 (fun _ => if used then 1 else 0) (branchValue used code) := by
  refine h.value.andThen fun kind => ?_
  cases used with
  | true => exact (lays_box kind).one.andThen fun _ => .pure _ rfl
  | false => exact (lays_discard kind (g := fun _ => 0) rfl).andThen fun _ => .pure _ rfl

theorem height_conditionalResult (access : Access) :
    (conditionalResult access).height = if decide (access ≠ .none) then 1 else 0 := by
  unfold conditionalResult
  by_cases h : access = .none <;> simp [h] <;> rfl

theorem lays_conditionalValue (access : Access) (hc : LaysCode n condition) (hl : LaysCode w ifTrue)
    (hr : LaysCode w' ifFalse) :
    Lays 0 TypeCode.height (conditionalValue access condition ifTrue ifFalse) := by
  refine lays_defineLabel.andThen fun done => lays_defineLabel.andThen fun otherwise => ?_
  refine (hc.converted .boolean (g := fun _ => 1) fun _ _ => rfl).andThen fun _ => ?_
  have hboth := (lays_alternatives otherwise done (lays_branchValue (access ≠ .none) hl)
    (lays_branchValue (access ≠ .none) hr)).andThen fun _ =>
      Lays.pure (g := TypeCode.height) (conditionalResult access) (height_conditionalResult access).symm
  simp only [alternatives, bind_assoc] at hboth
  exact hboth

theorem lays_shortcutValue (access : Access) (hc : LaysCode w condition) (hr : LaysCode w' ifFalse) :
    Lays 0 TypeCode.height (shortcutValue access condition ifFalse) := by
  refine lays_defineLabel.andThen fun done => ?_
  have hresult := height_conditionalResult access
  have hvalue := lays_branchValue (access ≠ .none) hr
  by_cases h : access = .none
  · subst h
    refine (hc.converted .boolean (g := fun _ => 1) fun _ _ => rfl).andThen fun _ => ?_
    have hskip := (lays_skippable done hvalue).andThen fun _ =>
      Lays.pure (g := TypeCode.height) (conditionalResult .none) rfl
    simp only [skippable, bind_assoc] at hskip
    exact hskip
  · simp only [decide_eq_true h, if_true] at hresult hvalue ⊢
    rw [if_pos h]
    refine hc.boxed.one.andThen fun _ => lays_dup.andThen fun _ => ?_
    refine ((lays_callVoid .toBool).frame 1).andThen fun _ => ?_
    have hskip := (lays_skippable done (lays_pop.andThen fun _ => hvalue)).andThen fun _ =>
      Lays.pure (g := TypeCode.height) (conditionalResult access) hresult.symm
    simp only [skippable, bind_assoc] at hskip
    exact hskip

/-- Every code in a row lays a stretch. -/
def AllLay (operands : List (Expr × Code Chunk)) : Prop :=
  ∀ o ∈ operands, ∃ w, LaysCode w o.2

theorem lays_pushBoxed {operands : List (Expr × Code Chunk)} (h : AllLay operands) :
    Lays 0 (fun _ => operands.length) (pushBoxed operands) := by
  induction operands with
  | nil => exact .pure _ rfl
  | cons o rest ih =>
    obtain ⟨⟨w, ho⟩, hrest⟩ := List.forall_mem_cons.mp h
    rw [List.length_cons, Nat.add_comm]
    exact ho.boxed.one.andThen fun _ => (ih hrest).frame 1

theorem lays_pushArguments {args : List (Expr × Code Chunk)} (h : AllLay args) :
    Lays 0 (fun _ => args.length) (pushArguments args) := by
  induction args with
  | nil => exact .pure _ rfl
  | cons arg rest ih =>
    obtain ⟨⟨w, harg⟩, hrest⟩ := List.forall_mem_cons.mp h
    rw [List.length_cons, Nat.add_comm]
    refine harg.value.andThen fun kind => ?_
    split
    · exact (lays_box kind).one.andThen fun _ => (ih hrest).frame 1
    · rename_i heq
      rw [not_not.mp heq]
      exact (ih hrest).frame 1

theorem lays_concatValue (access : Access) {operands : List (Expr × Code Chunk)} (h : AllLay operands) :
    Lays 0 TypeCode.height (concatValue access operands) := by
  have hresult : Lays 0 TypeCode.height (concatResult operands) := by
    unfold concatResult
    split
    · exact (lays_pushLiteral _).height
    · obtain ⟨w, hw⟩ := h _ List.mem_cons_self
      exact lays_concatSingle hw
    · obtain ⟨w, hw⟩ := h _ List.mem_cons_self
      obtain ⟨w', hw'⟩ := h _ (List.mem_cons_of_mem _ List.mem_cons_self)
      refine (lays_concatOperand hw).andThen fun l => ((lays_concatOperand hw').frame 1).andThen fun r => ?_
      have hop : (joinOp l r).arity = 2 := by cases l <;> cases r <;> rfl
      have hcall := lays_call (joinOp l r)
      rwa [hop] at hcall
    · split
      · refine (lays_pushBoxed h).andThen fun _ => ?_
        refine (lays_emit (i := .newValueArray _) (m := 1) rfl (Nat.le_refl _) ?_ nofun nofun).andThen fun _ =>
          lays_call .concatN
        simp [Instruction.pops, Instruction.yields]
      · exact .fail _
  exact hresult.andThen fun kind => lays_unlessDropped access kind

theorem lays_callValue_function (access : Access) (name : String) {args : List (Expr × Code Chunk)}
    (h : AllLay args) : Lays 0 TypeCode.height (callValue access name args) := by
  unfold callValue
  split
  · refine (lays_pushArguments h).andThen fun _ => ?_
    refine (lays_emit (i := .callFunction name _) (m := 1) rfl (Nat.le_refl _) ?_ nofun nofun).andThen fun _ =>
      lays_unlessDropped access .object
    simp [Instruction.pops, Instruction.yields]
  · exact .fail _

end Operators

/-! ## Expressions -/

variable (cfg : Setting)

mutual

/-- **Whatever use is made of an expression, its code is a stretch.** -/
theorem lays_lower : ∀ e : Expr, LaysCode (width e) (lower cfg e)
  | .literal tag v => by
    rw [lower]
    exact laysCode_byRule fun _ => laysCode_valueCode (lays_literalValue _ _) _
  | .constant tag name => by
    rw [lower]
    exact laysCode_byRule fun _ => laysCode_valueCode (lays_constantValue _ _) _
  | .var tag name => by
    rw [lower]
    exact laysCode_byRule fun _ => (laysPlace_variable name).laysCode _ _
  | .item tag container index => by
    rw [lower]
    exact laysCode_byRule fun _ => (laysPlace_item (lays_lower container)
      (lays_chainOperand (lays_lower index))).laysCode _ _
  | .append tag container => by
    rw [lower]
    exact laysCode_byRule fun _ => (laysPlace_append (lays_lower container)).laysCode _ _
  | .array tag elements => by
    rw [lower]
    exact laysCode_byRule fun _ => laysCode_valueCode (lays_arrayValue _ _ (lays_storeElements elements)) _
  | .concat tag operands => by
    rw [lower]
    exact laysCode_byRule fun _ => laysCode_valueCode (lays_concatValue _ (allLay_lowerAll operands)) _
  | .call tag name args => by
    rw [lower]
    exact laysCode_byRule fun _ => laysCode_valueCode
      (lays_callValue_function _ _ (allLay_lowerAll args)) _
  | .binary tag op left right => by
    rw [lower]
    exact laysCode_byRule fun _ => laysCode_valueCode
      (lays_binaryValue _ _ (lays_lower left) (lays_lower right)) _
  | .unary tag op operand => by
    rw [lower]
    exact laysCode_byRule fun _ => laysCode_valueCode (lays_unaryValue _ _ (lays_lower operand)) _
  | .incDec tag increment post target => by
    rw [lower]
    exact laysCode_byRule fun _ => laysCode_valueCode (lays_incDecValue cfg _ _ _ (lays_lower target)) _
  | .conditional tag condition ifTrue ifFalse => by
    rw [lower]
    exact laysCode_byRule fun _ => laysCode_valueCode (lays_conditionalValue _ (lays_lower condition)
      (lays_lower ifTrue) (lays_lower ifFalse)) _
  | .shortcut tag condition ifFalse => by
    rw [lower]
    exact laysCode_byRule fun _ => laysCode_valueCode
      (lays_shortcutValue _ (lays_lower condition) (lays_lower ifFalse)) _
  | .list tag targets value => by
    rw [lower]
    exact laysCode_byRule fun _ => laysCode_valueCode (lays_listValue _ (lays_lower value)
      (lays_unpack (lays_assignElements 0 targets) (lays_assignNulls targets))) _
  | .assign tag target value => by
    rw [lower]
    exact laysCode_byRule fun _ => laysCode_valueCode
      (lays_assignValue _ (lays_lower target) (lays_lower value)) _
termination_by structural e => e

theorem allLay_lowerAll : ∀ es : List Expr, AllLay (lowerAll cfg es)
  | [] => nofun
  | e :: rest => List.forall_mem_cons.mpr ⟨⟨_, lays_lower e⟩, allLay_lowerAll rest⟩
termination_by structural es => es

theorem lays_storeElements : ∀ es : List ArrayElement, Lays 1 (fun _ => 1) (storeElements cfg es)
  | [] => .pure _ rfl
  | .plain _ value :: rest => by
    rw [storeElements]
    exact (lays_storePlain (lays_lower value)).andThen fun _ => lays_storeElements rest
  | .keyed _ key value :: rest => by
    rw [storeElements]
    exact (lays_storeKeyed (lays_lower key) (lays_lower value)).andThen fun _ => lays_storeElements rest
termination_by structural es => es

theorem lays_assignElements : ∀ (index : Nat) (ts : List ListTarget),
    Lays 1 (fun _ => 1) (assignElements cfg index ts)
  | _, [] => .pure _ rfl
  | index, .skip :: rest => lays_assignElements (index + 1) rest
  | index, .leaf target :: rest => by
    rw [assignElements]
    exact (lays_assignElements (index + 1) rest).andThen fun _ =>
      lays_assignElement index (lays_lower target)
  | index, .nested targets :: rest => by
    rw [assignElements]
    exact (lays_assignElements (index + 1) rest).andThen fun _ => (lays_fetch index).andThen fun _ =>
      (lays_unpack (lays_assignElements 0 targets) (lays_assignNulls targets)).frame 1
termination_by structural _ ts => ts

theorem lays_assignNulls : ∀ ts : List ListTarget, Lays 0 (fun _ => 0) (assignNulls cfg ts)
  | [] => .pure _ rfl
  | .skip :: rest => lays_assignNulls rest
  | .leaf target :: rest => by
    rw [assignNulls]
    exact (lays_assignNulls rest).andThen fun _ => lays_assignNull (lays_lower target)
  | .nested targets :: rest => by
    rw [assignNulls]
    exact (lays_assignNulls rest).andThen fun _ => lays_assignNulls targets
termination_by structural ts => ts

end

end Lowering
end PhpLowering
