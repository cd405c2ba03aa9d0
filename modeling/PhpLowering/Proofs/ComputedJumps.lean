import PhpLowering.Proofs.Code.Dispatch
import PhpLowering.Proofs.Lowering.Branching
import PhpLowering.Proofs.Lowering.Puts
import PhpLowering.Proofs.Lowering.Stretches

/-!
# Levels that are computed

The level of a `break` or `continue` may be any expression.  Its value is looked up in a table that has an
entry for every loop around the jump, and one more in front for zero, which stands for one.  This is a second
way to find the loop that a level stands for; the first one is `staticBranch`, for levels that are known.

**`dispatches_runtimeBranch`**: both ways agree.  The code of the level comes first and once.  Behind it, a
number that is the level of a loop leads to the very instruction that `staticBranch` emits for that level in
the same state.  Any other number is handed to the primitive that raises an error, and what comes behind
that, if the primitive should return, is a jump out of the innermost loop and not one of the table.
-/

namespace PhpLowering
namespace Lowering

open Config (Arrives Executes)
open Pass (Ends)

variable {kind : BranchKind} {s t u : State Chunk} {is is' : List Instruction} {nesting : Nat} {k : Temp}
  {table : List Label} {innermost : Loop} {outer : List Loop} {r : Routine} {m q : Nat}

/-! ## The code behind the level -/

/-- The instruction that takes a way out of a loop, with so many regions around it. -/
def Loop.way (nesting : Nat) (kind : BranchKind) (loop : Loop) : Instruction :=
  jumpInstruction nesting loop.exceptionLevel (loop.target kind)

/-- The code that looks a level up in a table. -/
def tableCode (kind : BranchKind) (nesting : Nat) (k : Temp) (table : List Label) (innermost : Loop)
    (outer : List Loop) : List Instruction :=
  [.dup, .storeTemp k, .switch table, .loadTemp k, .call .throwInvalidBreakLevel,
    innermost.way nesting .break] ++ (innermost :: innermost :: outer).map (Loop.way nesting kind)

theorem puts_defineLabels : ∀ (n : Nat) (s : State Chunk),
    Ends (defineLabels n) s (fun table t => Puts [] s t ∧ table.length = n) anyFailure
  | 0, s => .pure ⟨.refl s, rfl⟩
  | n + 1, s => (puts_defineLabel s).bind fun _ t ht => (puts_defineLabels n t).bind fun _ _ ⟨hu, hlength⟩ =>
      .pure ⟨ht.trans hu, congrArg (· + 1) hlength⟩

theorem puts_leaveTo (kind : BranchKind) (loop : Loop) (s : State Chunk) :
    Ends (leaveTo kind loop) s (fun _ t => Puts [loop.way s.frame.exceptionNesting kind] s t) anyFailure := by
  unfold leaveTo jump
  refine .peek_bind ?_
  rw [Loop.way, jumpInstruction]
  split
  · exact puts_emit _ s
  · exact puts_emit _ s

theorem puts_tableEntries (kind : BranchKind) : ∀ (entries : List (Label × Loop)) (s : State Chunk),
    Ends (tableEntries kind entries) s (fun _ t =>
      Puts ((entries.map Prod.snd).map (Loop.way s.frame.exceptionNesting kind)) s t ∧
        ∀ n l, (entries.map Prod.fst)[n]? = some l →
          t.active.labelPosition? l = some (s.active.position + n)) anyFailure
  | [], s => .pure ⟨.refl s, nofun⟩
  | (label, loop) :: rest, s => by
    refine (puts_mark label s).bind fun _ t₁ ⟨h₁, hlabel⟩ => ?_
    refine (puts_leaveTo kind loop t₁).bind fun _ t₂ h₂ => ?_
    refine (puts_tableEntries kind rest t₂).mono fun _ t₃ ⟨h₃, hrest⟩ => ?_
    have h₁₂ := h₁.trans h₂
    rw [h₁₂.frame] at h₃
    rw [h₁.frame] at h₁₂
    refine ⟨h₁₂.trans h₃, fun n l hl => ?_⟩
    cases n with
    | zero =>
      obtain rfl := Option.some.inj hl
      exact (h₂.grows.trans h₃.grows).labelPosition? hlabel
    | succ n =>
      have hposition := h₁₂.position
      rw [hrest n l hl, hposition, List.nil_append, List.length_singleton, Nat.add_assoc, Nat.add_comm 1]

/-- What comes behind the level of a jump. -/
def dispatchCode (kind : BranchKind) (innermost : Loop) (outer : List Loop) : Emit Chunk Unit := do
  let k ← declareTemp
  saveTo k
  let table ← defineLabels (outer.length + 2)
  emit (.switch table)
  emit (.loadTemp k)
  callVoid .throwInvalidBreakLevel
  leaveTo .break innermost
  tableEntries kind (table.zip (innermost :: innermost :: outer))
  returnTemp k

theorem runtimeBranch_eq {level : Code Chunk} (h : s.frame.loops = innermost :: outer) :
    runtimeBranch kind level s = (do
      let _ ← converted level .longInteger
      dispatchCode kind innermost outer) s := by
  simp only [runtimeBranch, dispatchCode, frame, Pass.bind_apply, Pass.peek_apply, h]

/-- A routine has the code that looks a level up, from a position on. -/
structure HasTable (kind : BranchKind) (nesting : Nat) (k : Temp) (table : List Label) (innermost : Loop)
    (outer : List Loop) (r : Routine) (m : Nat) : Prop where
  code : ∀ n i, (tableCode kind nesting k table innermost outer)[n]? = some i → r.code[m + n]? = some i
  length : table.length = outer.length + 2
  marks : ∀ n l, table[n]? = some l → r.labelPosition? l = some (m + 6 + n)

theorem ends_dispatchCode (kind : BranchKind) (innermost : Loop) (outer : List Loop) (s : State Chunk) :
    Ends (dispatchCode kind innermost outer) s (fun _ t => ∃ k table,
      Puts (tableCode kind s.frame.exceptionNesting k table innermost outer) s t ∧
        HasTable kind s.frame.exceptionNesting k table innermost outer t.active s.active.position)
      anyFailure := by
  have hsave (k : Temp) (t : State Chunk) :
      Ends (saveTo k) t (fun _ u => Puts [.dup, .storeTemp k] t u) anyFailure :=
    (puts_emit .dup t).bind fun _ u hu => (puts_emit (.storeTemp k) u).mono fun _ _ hv => hu.trans hv
  unfold dispatchCode callVoid
  refine (puts_declareTemp s).bind fun k t₁ h₁ => ?_
  refine (hsave k t₁).bind fun _ t₂ h₂ => ?_
  refine (puts_defineLabels (outer.length + 2) t₂).bind fun table t₃ ⟨h₃, hlength⟩ => ?_
  refine (puts_emit (.switch table) t₃).bind fun _ t₄ h₄ => ?_
  refine (puts_emit (.loadTemp k) t₄).bind fun _ t₅ h₅ => ?_
  refine (puts_emit (.call .throwInvalidBreakLevel) t₅).bind fun _ t₆ h₆ => ?_
  refine (puts_leaveTo .break innermost t₆).bind fun _ t₇ h₇ => ?_
  have h₁₆ := ((((h₁.trans h₂).trans h₃).trans h₄).trans h₅).trans h₆
  rw [h₁₆.frame] at h₇
  have hfront := h₁₆.trans h₇
  refine (puts_tableEntries kind _ t₇).bind fun _ t₈ ⟨h₈, hmarks⟩ => ?_
  refine (puts_returnTemp k t₈).mono fun _ t₉ h₉ => ⟨k, table, ?_⟩
  have hzip : table.length = (innermost :: innermost :: outer).length := hlength
  rw [hfront.frame, List.map_snd_zip hzip.ge] at h₈
  rw [List.map_fst_zip hzip.le] at hmarks
  have hall : Puts (tableCode kind s.frame.exceptionNesting k table innermost outer) s t₉ := by
    simpa only [tableCode, List.append_assoc, List.cons_append, List.nil_append, List.append_nil]
      using (hfront.trans h₈).trans h₉
  refine ⟨hall, fun n i hi => hall.getElem? hi, hlength, fun n l hl => ?_⟩
  rw [h₉.grows.labelPosition? (hmarks n l hl), hfront.position]
  rfl

/-! ## Levels that are looked up -/

namespace HasTable

variable {h : Host} {number : h.Value → Int} {mid d : Config h} {w : h.Value} {base : List h.Value} {loop : Loop}
  {v p : Nat}

theorem grows (ht : HasTable kind nesting k table innermost outer r m) {r' : Routine} (hr : r.Grows r') :
    HasTable kind nesting k table innermost outer r' m :=
  ⟨fun n i hi => hr.code (ht.code n i hi), ht.length, fun n l hl => hr.labelPosition? (ht.marks n l hl)⟩

/-- The number goes to the slot and to the table. -/
theorem executes (ht : HasTable kind nesting k table innermost outer r m) (hpc : mid.pc = m)
    (hstack : mid.stack = w :: base) {pc : Nat} (hentry : r.switchTarget? (m + 2) table (number w) = some pc) :
    Executes number r mid [.dup, .storeTemp k, .switch table]
      { mid with pc, stack := base, slots := fun j => if j = k then w else mid.slots j } := by
  subst hpc
  have hdup : r.code[mid.pc]? = some .dup := ht.code 0 _ rfl
  have hstore : r.code[mid.pc + 1]? = some (.storeTemp k) := ht.code 1 _ rfl
  have hswitch : r.code[mid.pc + 2]? = some (.switch table) := ht.code 2 _ rfl
  refine .cons hdup (Config.advance_dup hdup hstack) ?_
  refine .cons hstore (Config.advance_storeTemp hstore rfl) ?_
  refine .cons hswitch ?_ (.nil _)
  rw [Config.advance_switch hswitch rfl]
  exact congrArg (Option.map _) hentry

/-- The number of a loop leads to the jump out of that loop. -/
theorem known (ht : HasTable kind nesting k table innermost outer r m) (hpc : mid.pc = m)
    (hstack : mid.stack = w :: base) (hv : number w = v)
    (hloop : (innermost :: innermost :: outer)[v]? = some loop) :
    ∃ l ∈ table, ∃ d, Executes number r mid [.dup, .storeTemp k, .switch table] d ∧
      r.labelPosition? l = some d.pc ∧ r.code[d.pc]? = some (loop.way nesting kind) ∧ d.stack = base ∧
        d.world = mid.world := by
  obtain ⟨l, hl⟩ : ∃ l, table[v]? = some l := by
    have hlt : v < table.length := ht.length ▸ (List.getElem?_eq_some_iff.mp hloop).1
    exact ⟨_, List.getElem?_eq_getElem hlt⟩
  have hentry : r.switchTarget? (m + 2) table (number w) = some (m + 6 + v) := by
    rw [hv, Routine.switchTarget?_of_getElem? hl, ht.marks v l hl]
  refine ⟨l, List.mem_of_getElem? hl, _, ht.executes hpc hstack hentry, ht.marks v l hl, ?_, rfl, rfl⟩
  show r.code[m + 6 + v]? = _
  rw [Nat.add_assoc]
  refine ht.code (6 + v) _ ?_
  rw [tableCode, List.getElem?_append_right (Nat.le_add_right 6 v)]
  show ((innermost :: innermost :: outer).map _)[6 + v - 6]? = _
  rw [Nat.add_sub_cancel_left, List.getElem?_map, hloop]
  rfl

/-- Any other number goes on behind the table. -/
theorem entry_of_unknown (ht : HasTable kind nesting k table innermost outer r m)
    (hv : number w < 0 ∨ (outer.length + 1 : Int) < number w) :
    r.switchTarget? (m + 2) table (number w) = some (m + 3) := by
  have hlength := ht.length
  exact Routine.switchTarget?_of_outside (hv.imp_right fun hlt => by omega)

/-- It is taken to the primitive that raises the error. -/
theorem unknown (ht : HasTable kind nesting k table innermost outer r m) (hpc : mid.pc = m)
    (hstack : mid.stack = w :: base) (hv : number w < 0 ∨ (outer.length + 1 : Int) < number w) :
    ∃ d, Executes number r mid [.dup, .storeTemp k, .switch table, .loadTemp k] d ∧
      r.code[d.pc]? = some (.call .throwInvalidBreakLevel) ∧ d.stack = w :: base ∧ d.world = mid.world := by
  have hload : r.code[m + 3]? = some (.loadTemp k) := ht.code 3 _ rfl
  have hfront := ht.executes hpc hstack (ht.entry_of_unknown hv)
  refine ⟨_, hfront.append (.cons hload (Config.advance_loadTemp hload) (.nil _)), ht.code 4 _ rfl, ?_, rfl⟩
  exact congrArg (· :: base) (if_pos rfl)

/-- On such a run control does not come to the table, as long as it stays in the code. -/
theorem keeps_unknown (ht : HasTable kind nesting k table innermost outer r m) (hpc : mid.pc = m)
    (hstack : mid.stack = w :: base) (hv : number w < 0 ∨ (outer.length + 1 : Int) < number w)
    (hexit : ∀ pc, r.labelPosition? innermost.breakLabel = some pc → q ≤ pc)
    (hrun : Config.Keeps number r p q mid d) :
    d.pc = m ∧ d.stack = w :: base ∨ d.pc = m + 1 ∧ d.stack = w :: w :: base ∨
      d.pc = m + 2 ∧ d.stack = w :: base ∨ m + 3 ≤ d.pc ∧ d.pc < m + 6 := by
  induction hrun with
  | here => exact Or.inl ⟨hpc, hstack⟩
  | @step d d' before hstep _ hq ih =>
    rcases ih with ⟨hd, hds⟩ | ⟨hd, hds⟩ | ⟨hd, hds⟩ | ⟨hle, hlt⟩
    · have hdup : r.code[d.pc]? = some .dup := hd ▸ ht.code 0 _ rfl
      rw [Config.advance_dup hdup hds] at hstep
      obtain rfl := Option.some.inj hstep
      exact Or.inr (Or.inl ⟨congrArg (· + 1) hd, rfl⟩)
    · have hstore : r.code[d.pc]? = some (.storeTemp k) := hd ▸ ht.code 1 _ rfl
      rw [Config.advance_storeTemp hstore hds] at hstep
      obtain rfl := Option.some.inj hstep
      exact Or.inr (Or.inr (Or.inl ⟨congrArg (· + 1) hd, rfl⟩))
    · have hswitch : r.code[d.pc]? = some (.switch table) := hd ▸ ht.code 2 _ rfl
      rw [Config.advance_switch hswitch hds, hd, ht.entry_of_unknown hv] at hstep
      obtain rfl := Option.some.inj hstep
      exact Or.inr (Or.inr (Or.inr ⟨Nat.le_refl _, by show m + 3 < m + 6; omega⟩))
    · obtain hd | hd | hd : d.pc = m + 3 ∨ d.pc = m + 4 ∨ d.pc = m + 5 := by omega
      · have hload : r.code[d.pc]? = some (.loadTemp k) := hd ▸ ht.code 3 _ rfl
        have hpc' := Config.pc_of_advance hload rfl nofun hstep
        omega
      · have hraise : r.code[d.pc]? = some (.call .throwInvalidBreakLevel) := hd ▸ ht.code 4 _ rfl
        have hpc' := Config.pc_of_advance hraise rfl nofun hstep
        omega
      · -- The jump out of the innermost loop leaves the code, or is no step at all.
        have hout : r.code[d.pc]? = some (innermost.way nesting .break) := hd ▸ ht.code 5 _ rfl
        unfold Loop.way jumpInstruction at hout
        split at hout
        · rw [Config.advance_branch hout] at hstep
          obtain ⟨pc, hpc', rfl⟩ := Option.map_eq_some_iff.mp hstep
          exact absurd (hexit pc hpc') (Nat.not_le.mpr hq)
        · rw [Config.advance_leave hout] at hstep
          exact nomatch hstep

end HasTable

/-- A jump to a label of the routine is one instruction. -/
theorem leaveTo_eq {loop : Loop} (hl : (s.active.mark? (loop.target kind)).isSome) :
    leaveTo kind loop s = (.ok (), s.withActive (s.active.push (loop.way s.frame.exceptionNesting kind))) := by
  have hemit {i : Instruction} (hi : i.labels = [loop.target kind]) :
      (emit i : Emit Chunk Unit) s = (.ok (), s.withActive (s.active.push i)) :=
    toSink_ok (Routine.emit_eq (by rwa [hi, List.forall_mem_singleton]))
  unfold leaveTo jump Loop.way jumpInstruction frame
  rw [Pass.bind_apply, Pass.peek_apply]
  dsimp only
  split
  · exact hemit rfl
  · exact hemit rfl

theorem staticBranch_eq {loop : Loop} {level : Nat} (hloop : s.frame.loops[max level 1 - 1]? = some loop)
    (hl : (s.active.mark? (loop.target kind)).isSome) : staticBranch kind level s =
      (.ok (), s.withActive (s.active.push (loop.way s.frame.exceptionNesting kind))) := by
  simp only [staticBranch, frame, Pass.bind_apply, Pass.peek_apply, hloop]
  exact leaveTo_eq hl

/-- How a level that is computed is resolved, in the code that a jump in the state `s` has become.  At the
configuration `mid` the level has been evaluated to `w`, on top of a stack `base`, and `q` is the end of the
code. -/
structure Resolves (kind : BranchKind) (s : State Chunk) (k : Temp) (table : List Label) (r : Routine)
    (q : Nat) {h : Host} (number : h.Value → Int) (mid : Config h) (w : h.Value) (base : List h.Value) :
    Prop where
  /-- The level of a loop leads to the jump out of that loop, and zero stands for one. -/
  known : ∀ v : Nat, number w = v → v ≤ s.frame.loops.length →
    ∃ i d, staticBranch kind (max v 1) s = (.ok (), s.withActive (s.active.push i)) ∧
      Executes number r mid [.dup, .storeTemp k, .switch table] d ∧ r.code[d.pc]? = some i ∧
        (∃ l ∈ table, r.labelPosition? l = some d.pc) ∧ d.stack = base ∧ d.world = mid.world
  /-- Any other number is handed to the primitive that raises an error, and not looked up. -/
  unknown : number w < 0 ∨ (s.frame.loops.length : Int) < number w →
    (∃ d, Executes number r mid [.dup, .storeTemp k, .switch table, .loadTemp k] d ∧
      r.code[d.pc]? = some (.call .throwInvalidBreakLevel) ∧ d.stack = w :: base ∧ d.world = mid.world) ∧
      ∀ d, Config.Keeps number r s.active.position q mid d → ∀ l ∈ table, r.labelPosition? l ≠ some d.pc

/-- The table finds what is found without it. -/
theorem HasTable.resolves (ht : HasTable kind s.frame.exceptionNesting k table innermost outer r m)
    (hloops : s.frame.loops = innermost :: outer)
    (hlabels : ∀ loop ∈ s.frame.loops, (s.active.mark? (loop.target kind)).isSome)
    (hexit : ∀ pc, r.labelPosition? innermost.breakLabel = some pc → q ≤ pc) {h : Host}
    {number : h.Value → Int} {mid : Config h} {w : h.Value} {base : List h.Value} (hpc : mid.pc = m)
    (hstack : mid.stack = w :: base) : Resolves kind s k table r q number mid w base where
  known v hv hle := by
    rw [hloops] at hle hlabels
    obtain ⟨loop, hloop⟩ : ∃ loop, (innermost :: innermost :: outer)[v]? = some loop :=
      ⟨_, List.getElem?_eq_getElem (Nat.lt_succ_of_le hle)⟩
    have hstatic : s.frame.loops[max (max v 1) 1 - 1]? = some loop := by
      rw [hloops]
      cases v with
      | zero => exact hloop
      | succ v => simpa using hloop
    have hmem : loop ∈ innermost :: outer := hloops ▸ List.mem_of_getElem? hstatic
    obtain ⟨l, hl, d, hrun, hlabel, hd⟩ := ht.known hpc hstack hv hloop
    exact ⟨_, d, staticBranch_eq hstatic (hlabels loop hmem), hrun, hd.1, ⟨l, hl, hlabel⟩, hd.2⟩
  unknown hv := by
    rw [hloops, List.length_cons] at hv
    push_cast at hv
    refine ⟨ht.unknown hpc hstack hv, fun d hd l hl heq => ?_⟩
    obtain ⟨n, hn⟩ := List.getElem?_of_mem hl
    have hlabel : d.pc = m + 6 + n := Option.some.inj (heq.symm.trans (ht.marks n l hn))
    rcases ht.keeps_unknown hpc hstack hv hexit hd with ⟨hd, -⟩ | ⟨hd, -⟩ | ⟨hd, -⟩ | ⟨-, hd⟩ <;> omega

/-- **A level that is computed is resolved like one that is known.**  In a state of the emission whose loops
have labels of the routine, the code of a jump to a computed level consists of the code of the level, through
which control goes once, and of code that resolves the level.  This is so in every routine `r` that the
emission goes on to, if the exit of the innermost loop is marked behind the jump. -/
theorem dispatches_runtimeBranch {cfg : Setting} {e : Expr} (hslots : s.active.SlotsInOrder)
    (hlabels : ∀ loop ∈ s.frame.loops, (s.active.mark? (loop.target kind)).isSome)
    (hrun : runtimeBranch kind (lower cfg e) s = (.ok (), t)) (hr : t.active.Grows r)
    (hexit : ∀ loop ∈ s.frame.loops.head?, ∀ pc, r.labelPosition? loop.breakLabel = some pc →
      t.active.position ≤ pc) :
    ∃ code u k table, converted (lower cfg e) .longInteger s = (.ok code, u) ∧ u.active.Grows r ∧
      Stretch r (StoresTo s.active.Vacant) s.active.position u.active.position 0 1 ∧
      ∀ {h : Host} (number : h.Value → Int) (c mid : Config h) (trace : List (KeyUse h)),
        c.pc = s.active.position → Arrives r u.active.position c trace mid →
          ∃ w, mid.stack = w :: c.stack ∧
            Resolves kind s k table r t.active.position number mid w c.stack := by
  cases hloops : s.frame.loops with
  | nil =>
    simp only [runtimeBranch, frame, Pass.bind_apply, Pass.peek_apply, hloops] at hrun
    exact nomatch hrun
  | cons innermost outer =>
    rw [runtimeBranch_eq hloops] at hrun
    obtain ⟨code, u, hlevel, hdispatch⟩ := (Pass.bind_eq_ok_iff ..).mp hrun
    have hlaid : Laid (StoresTo s.active.Vacant) 0 1 s u :=
      ((lays_lower cfg e).converted .longInteger (g := fun _ => 1) (fun _ _ => rfl) s hslots).of_ok hlevel
    obtain ⟨k, table, hputs, htable⟩ := (ends_dispatchCode kind innermost outer u).of_ok hdispatch
    rw [hlaid.sameFrame] at htable
    have hstretch := hlaid.code.grows (hputs.grows.trans hr)
    refine ⟨code, u, k, table, hlevel, hputs.grows.trans hr, hstretch, fun number c mid trace hc harrives => ?_⟩
    obtain ⟨mid', hpassed⟩ := hstretch.passed hc (List.nil_append _).symm rfl (Nat.le_refl _) harrives
    obtain ⟨_, _, -, -, hrest⟩ := hpassed.split
    obtain rfl : mid = mid' := hrest.eq_self hpassed.pc
    obtain ⟨top, hstack, htop⟩ := hpassed.stack
    obtain ⟨w, rfl⟩ := List.length_eq_one_iff.mp htop
    have hexit' : ∀ pc, r.labelPosition? innermost.breakLabel = some pc → t.active.position ≤ pc :=
      hexit innermost (by rw [hloops]; rfl)
    exact ⟨w, hstack, (htable.grows hr).resolves hloops hlabels hexit' hpassed.pc hstack⟩

/-! ### A run with integers -/

/-- Values are integers, and every variable is 2. -/
def twos : Host where
  Value := Int
  World := Unit
  literal _ := (0 : Int)
  box _ v := v
  truth v := v != (0 : Int)
  read _ _ := (2 : Int)
  perform i args world := some (⟨List.replicate i.yields (args.headD (0 : Int)), List.length_replicate⟩, world)

/-- Inside of two loops and of a `try` in each of them. -/
def nestedLoops : State Chunk where
  sink := { Chunk.new "unit" none none with main := { labels := #[none, some 0, none, some 0] } }
  frame := { exceptionNesting := 2, loops := [⟨⟨0⟩, ⟨1⟩, 1⟩, ⟨⟨2⟩, ⟨3⟩, 0⟩] }

/-- `$n` -/
def computedLevel : Expr :=
  .var ⟨0, {}, .read⟩ "n"

/-- The values on the stack. -/
def integersOn (c : Config twos) : List Int :=
  c.stack

/-- The start of the code. -/
def atFront : Config twos :=
  ⟨0, [], fun _ => (0 : Int), ()⟩

/-- The state behind `continue $n;`, and a run up to where the level is on the stack. -/
def levelRun? : Option (State Chunk × State Chunk × List (KeyUse twos) × Config twos) :=
  match runtimeBranch .continue (lower {} computedLevel) nestedLoops,
    converted (lower {} computedLevel) .longInteger nestedLoops with
  | (.ok (), t), (.ok _, u) =>
    (Config.follow t.active u.active.position 5 atFront).map fun (trace, mid) => (t, u, trace, mid)
  | _, _ => none

theorem levelRun?_eq_some {t u : State Chunk} {trace : List (KeyUse twos)} {mid : Config twos}
    (h : levelRun? = some (t, u, trace, mid)) :
    runtimeBranch .continue (lower {} computedLevel) nestedLoops = (.ok (), t) ∧
      (∃ code, converted (lower {} computedLevel) .longInteger nestedLoops = (.ok code, u)) ∧
        Arrives t.active u.active.position atFront trace mid := by
  unfold levelRun? at h
  split at h
  · rename_i hrun hlevel
    obtain ⟨⟨trace', mid'⟩, hfollow, heq⟩ := Option.map_eq_some_iff.mp h
    obtain ⟨rfl, rfl, rfl, rfl⟩ := heq
    exact ⟨hrun, ⟨_, hlevel⟩, Config.arrives_of_follow hfollow⟩
  · exact nomatch h

/-- `continue $n;` with two loops around it goes on with the jump that `continue 2;` is. -/
theorem dispatches_nestedLoops :
    ∃ t u k table trace mid i d, levelRun? = some (t, u, trace, mid) ∧ integersOn mid = [2] ∧
      staticBranch .continue 2 nestedLoops = (.ok (), nestedLoops.withActive (nestedLoops.active.push i)) ∧
        Executes id t.active mid [.dup, .storeTemp k, .switch table] d ∧ t.active.code[d.pc]? = some i := by
  have hfound : levelRun?.any (fun (t, _, _, mid) =>
      (t.active.labelPosition? ⟨0⟩).isNone && integersOn mid == [2]) = true := by decide +kernel
  obtain ⟨⟨t, u, trace, mid⟩, heq, hfacts⟩ := (Option.any_eq_true ..).mp hfound
  obtain ⟨hexit, hstack⟩ := Bool.and_eq_true_iff.mp hfacts
  obtain ⟨hrun, ⟨code, hlevel⟩, harrives⟩ := levelRun?_eq_some heq
  have hslots : nestedLoops.active.SlotsInOrder := ⟨List.nodup_nil, nofun⟩
  obtain ⟨code', u', k, table, hlevel', -, -, hall⟩ := dispatches_runtimeBranch hslots (by decide) hrun
    (.refl _) (by
      rintro _ ⟨⟩ pc hpc
      rw [Option.isNone_iff_eq_none.mp hexit] at hpc
      exact nomatch hpc)
  obtain rfl : u' = u := congrArg Prod.snd (hlevel'.symm.trans hlevel)
  obtain ⟨w, hw, hresolves⟩ := hall id atFront mid trace rfl harrives
  have hstack' : integersOn mid = [2] := eq_of_beq hstack
  obtain rfl : w = (2 : Int) := (List.cons.inj (hw.symm.trans hstack')).1
  obtain ⟨i, d, hstatic, hexecutes, hcode, -⟩ := hresolves.known 2 rfl (by decide)
  exact ⟨t, u', k, table, trace, mid, i, d, heq, hstack', hstatic, hexecutes, hcode⟩

end Lowering
end PhpLowering
