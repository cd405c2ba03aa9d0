import PhpLowering.Proofs.Analysis.Wants
import PhpLowering.Proofs.Code.Dispatch
import PhpLowering.Proofs.Exits
import PhpLowering.Proofs.Lowering.Clauses

/-!
# The first clause that matches

When an exception comes to a `try`, the handler for host exceptions decides which clause is run.  What the
language asks for is `Host.select?`: the clauses are tested in order, and no further than to the first one
whose class the exception is of.

**`dispatches_of_emitted`**: in every unit that is emitted, the handler of every `try` with clauses does this.
A run through the handler executes the tests up to the clause that is found, stores the exception to the
variable of that clause if it has one, and nothing else, and it is at the body of the clause then.  Behind
each body stands a way out to the end of the region.  If no clause is found, all tests are executed and
nothing else, and the run is at the instruction that throws the exception again.
-/

namespace PhpLowering

/-! ## What clauses are for -/

namespace Host

variable (h : Host)

/-- An instruction that makes one value of another one is carried out. -/
def ran? (i : Instruction) (v : h.Value) (w : h.World) : Option (h.Value × h.World) :=
  (h.perform i [v] w).bind fun (out, w') => out.1.head?.map fun x => (x, w')

/-- A value is tested for a class. -/
def isInstance? (type : String) (v : h.Value) (w : h.World) : Option (Bool × h.World) :=
  (h.ran? (.instanceOf type) v w).map fun (x, w') => (h.truth x, w')

/-- A value is stored to a variable, if there is one. -/
def bind? (v : h.Value) (w : h.World) : Option String → Option h.World
  | some name => (h.perform (.storeVar name) [v] w).map Prod.snd
  | none => some w

/-- The place of the first clause whose class an exception is of. -/
def select? (e : h.Value) : List Catch → h.World → Option (Option Nat × h.World)
  | [], w => some (none, w)
  | clause :: rest, w => do
    let (found, w) ← h.isInstance? clause.type e w
    if found then return (some 0, w)
    else
      let (choice, w) ← select? e rest w
      return (choice.map (· + 1), w)

variable {h} {e : h.Value} {clause : Catch} {rest : List Catch} {w w' : h.World} {choice : Option Nat}

/-- The first clause is the one, or it is not and the others are tested. -/
theorem of_select?_cons (hselect : h.select? e (clause :: rest) w = some (choice, w')) :
    h.isInstance? clause.type e w = some (true, w') ∧ choice = some 0 ∨
      ∃ w₁ choice', h.isInstance? clause.type e w = some (false, w₁) ∧
        h.select? e rest w₁ = some (choice', w') ∧ choice = choice'.map (· + 1) := by
  rw [select?] at hselect
  obtain ⟨⟨found, w₁⟩, htest, hselect⟩ := Option.bind_eq_some_iff.mp hselect
  cases found with
  | true =>
    obtain ⟨rfl, rfl⟩ := Prod.mk.inj (Option.some.inj hselect)
    exact .inl ⟨htest, rfl⟩
  | false =>
    obtain ⟨⟨choice', w₂⟩, hrest, hselect⟩ := Option.bind_eq_some_iff.mp hselect
    obtain ⟨rfl, rfl⟩ := Prod.mk.inj (Option.some.inj hselect)
    exact .inr ⟨w₁, choice', htest, hrest, rfl⟩

/-- If tests leave the world alone, the first clause is found whose class passes. -/
theorem select?_eq_findIdx? {p : String → Bool} (hp : ∀ type, h.isInstance? type e w = some (p type, w)) :
    ∀ catches : List Catch, h.select? e catches w = some (catches.findIdx? fun clause => p clause.type, w)
  | [] => rfl
  | clause :: rest => by
    rw [select?, hp, List.findIdx?_cons]
    cases p clause.type
    · simp [select?_eq_findIdx? hp rest]
    · simp

end Host

namespace Lowering

open Config (Executes)

variable {cfg : Setting} {r : Routine} {k : Temp} {l : Label} {p q : Nat} {arms : List Arm} {h : Host}
  {number : h.Value → Int} {c : Config h} {w w' : h.World} {e : h.Value} {base : List h.Value}

/-! ## Runs through the clauses -/

/-- An instruction that makes one value of another one is executed. -/
theorem advance_ran {i : Instruction} {v x : h.Value} (hi : r.code[c.pc]? = some i)
    (hplain : i.isPlain = true) (hswitch : ∀ table, i ≠ .switch table) (hpops : i.pops = 1) (hyields : i.yields = 1)
    (heval : h.evaluate r c.slots i [v] c.world = (h.perform i [v] c.world).map fun out => (out.1.1, out.2))
    (hslots : h.store c.slots i [v] = c.slots) (hstack : c.stack = v :: base)
    (hran : h.ran? i v c.world = some (x, w)) :
    c.advance number r = some { c with pc := c.pc + 1, stack := x :: base, world := w } := by
  obtain ⟨⟨out, w'⟩, hperform, hhead⟩ := Option.bind_eq_some_iff.mp hran
  obtain ⟨x', hx, heq⟩ := Option.map_eq_some_iff.mp hhead
  obtain ⟨rfl, rfl⟩ := Prod.mk.inj heq
  obtain ⟨y, hy⟩ := List.length_eq_one_iff.mp (out.2.trans hyields)
  have hout : out.1 = [x'] := by
    rw [hy] at hx ⊢
    exact congrArg (fun z => [z]) (Option.some.inj hx)
  rw [Config.advance_plain hi hplain hswitch [v] hstack hpops.symm, heval, hperform, hslots]
  simp [hout]

/-- A test goes on behind the branch, or to the label. -/
theorem executes_testCode {type : String} {next : Label} {found : Bool} {pc : Nat}
    (hcode : r.HasCode c.pc (testCode k type next))
    (htest : h.isInstance? type (c.slots k) c.world = some (found, w))
    (hpc : (if found then some (c.pc + 3) else r.labelPosition? next) = some pc) :
    Executes number r c (testCode k type next) { c with pc, world := w } := by
  have hload : r.code[c.pc]? = some (.loadTemp k) := hcode 0 _ rfl
  have hinstance : r.code[c.pc + 1]? = some (.instanceOf type) := hcode 1 _ rfl
  have hbranch : r.code[c.pc + 2]? = some (.branchIfFalse next) := hcode 2 _ rfl
  obtain ⟨⟨x, w'⟩, hran, heq⟩ := Option.map_eq_some_iff.mp htest
  obtain ⟨rfl, rfl⟩ := Prod.mk.inj heq
  refine .cons hload (Config.advance_loadTemp hload) ?_
  refine .cons hinstance (advance_ran hinstance rfl nofun rfl rfl rfl rfl rfl hran) ?_
  refine .cons hbranch ?_ (.nil _)
  rw [Config.advance_branchIfFalse hbranch rfl]
  exact congrArg (Option.map _) hpc

/-- What is in the slot is stored to the variable, if there is one. -/
theorem executes_bindCode {var : Option String}
    (hcode : r.HasCode c.pc (bindCode k var))
    (hbind : h.bind? (c.slots k) c.world var = some w) :
    Executes number r c (bindCode k var) { c with pc := c.pc + (bindCode k var).length, world := w } := by
  cases var with
  | none =>
    obtain rfl := Option.some.inj hbind
    exact .nil c
  | some name =>
    have hload : r.code[c.pc]? = some (.loadTemp k) := hcode 0 _ rfl
    have hstore : r.code[c.pc + 1]? = some (.storeVar name) := hcode 1 _ rfl
    obtain ⟨⟨out, w'⟩, hperform, rfl⟩ := Option.map_eq_some_iff.mp hbind
    have hout : out.1 = [] := List.eq_nil_of_length_eq_zero out.2
    refine .cons hload (Config.advance_loadTemp hload) (.cons hstore ?_ (.nil _))
    refine (Config.advance_plain hstore rfl (by nofun) [c.slots k] rfl rfl).trans ?_
    simp [Host.evaluate, hperform, hout, Host.store, bindCode]

namespace HasArms

/-- No clause is found: all tests are executed. -/
theorem executes_tests (hcode : HasArms cfg r k l p arms q) (number : h.Value → Int) (hpc : c.pc = p) (he : c.slots k = e)
    (hselect : h.select? e (arms.map Arm.clause) c.world = some (none, w)) :
    Executes number r c (arms.flatMap (Arm.tests k)) { c with pc := q, world := w } := by
  subst he
  induction hcode generalizing c with
  | nil p =>
    obtain ⟨-, rfl⟩ := Prod.mk.inj (Option.some.inj hselect)
    subst hpc
    exact .nil c
  | @cons p q a arms hhead _ _ hnext _ ih =>
    subst hpc
    rcases Host.of_select?_cons hselect with ⟨-, hchoice⟩ | ⟨w₁, choice, htest, hrest, hchoice⟩
    · exact nomatch hchoice
    obtain rfl : choice = none := (Option.map_eq_none_iff.mp hchoice.symm)
    exact (executes_testCode hhead.left htest hnext).append (ih rfl hrest)

/-- A clause is found: the tests up to its own are executed, and then it is bound to the exception. -/
theorem executes_binds (hcode : HasArms cfg r k l p arms q) (number : h.Value → Int) (hpc : c.pc = p) (he : c.slots k = e) {i : Nat}
    (hselect : h.select? e (arms.map Arm.clause) c.world = some (some i, w)) :
    ∃ a, arms[i]? = some a ∧ ∀ w', h.bind? e w a.clause.var? = some w' →
      Executes number r c ((arms.take (i + 1)).flatMap (Arm.tests k) ++ a.binds k)
        { c with pc := a.start.active.position, world := w' } := by
  subst he
  induction hcode generalizing c i with
  | nil p => exact nomatch hselect
  | @cons p q a arms hhead hstart _ hnext _ ih =>
    subst hpc
    rcases Host.of_select?_cons hselect with ⟨htest, hchoice⟩ | ⟨w₁, choice, htest, hrest, hchoice⟩
    · obtain rfl := Option.some.inj hchoice
      refine ⟨a, rfl, fun w' hbind => ?_⟩
      have htests : Executes number r c (a.tests k) { c with pc := c.pc + 3, world := w } :=
        executes_testCode hhead.left htest rfl
      have hbinds : Executes number r { c with pc := c.pc + 3, world := w } (a.binds k)
          { c with pc := c.pc + 3 + (a.binds k).length, world := w' } :=
        executes_bindCode hhead.right hbind
      rw [List.length_append, ← Nat.add_assoc] at hstart
      have hentrance : a.start.active.position = c.pc + 3 + (a.binds k).length := hstart
      rw [hentrance]
      simpa using htests.append hbinds
    · obtain ⟨j, rfl, rfl⟩ := Option.map_eq_some_iff.mp hchoice.symm
      obtain ⟨b, hb, hrun⟩ := ih (c := { c with pc := (a.after cfg).active.position + 1, world := w₁ }) rfl hrest
      refine ⟨b, hb, fun w' hbind => ?_⟩
      have hall := (executes_testCode hhead.left htest hnext).append (hrun w' hbind)
      rwa [← List.append_assoc] at hall

end HasArms

/-! ## Handlers -/

/-- An exception has come to a handler, and `e` is what comes of wrapping it. -/
structure Caught (handler : Handler) (c : Config h) (base : List h.Value) (e : h.Value) (w : h.World) : Prop where
  pc : c.pc = handler.start
  wrapped : ∃ v, c.stack = v :: base ∧ h.ran? (.call .wrapHostException) v c.world = some (e, w)

/-- What a run through the handler of a `try` for host exceptions does. -/
structure Dispatches (cfg : Setting) (r : Routine) (catches : List Catch) (region : Region) (handler : Handler)
    (k : Temp) (l : Label) (arms : List Arm) (q : Nat) : Prop where
  found : region.handlers[1]? = some handler
  kind : handler.kind = .catching hostType
  clauses : arms.map Arm.clause = catches
  /-- The body of the first clause that matches is entered, and what is executed in front of it are the tests
  up to this clause, and the store to its variable. -/
  enters : ∀ {h : Host} (number : h.Value → Int) {c : Config h} {base : List h.Value} {e : h.Value} {w w' : h.World}
    {i : Nat}, Caught handler c base e w → h.select? e catches w = some (some i, w') →
      ∃ a, arms[i]? = some a ∧ ∀ w'', h.bind? e w' a.clause.var? = some w'' →
        Executes number r c (.call .wrapHostException :: .storeTemp k ::
            ((arms.take (i + 1)).flatMap (Arm.tests k) ++ a.binds k))
          ⟨a.start.active.position, base, fun j => if j = k then e else c.slots j, w''⟩
  /-- Behind the body of a clause control goes to the end of the region. -/
  leaves : ∀ a ∈ arms, a.Leaves cfg r l
  regionEnd : r.labelPosition? l = some region.stop
  /-- If there is no such clause, the tests are all that is executed until the exception is thrown again. -/
  passes : ∀ {h : Host} (number : h.Value → Int) {c : Config h} {base : List h.Value} {e : h.Value} {w w' : h.World},
    Caught handler c base e w → h.select? e catches w = some (none, w') →
      Executes number r c (.call .wrapHostException :: .storeTemp k :: arms.flatMap (Arm.tests k))
        ⟨q, base, fun j => if j = k then e else c.slots j, w'⟩
  rethrow : r.code[q]? = some .rethrow
  stop : q < handler.stop

/-- In front of the clauses the exception is wrapped and put into the slot. -/
theorem Caught.executes {handler : Handler} {is : List Instruction} {d : Config h} (h : Caught handler c base e w)
    (hcode : r.HasCode handler.start [.call .wrapHostException, .storeTemp k])
    (hrest : Executes number r ⟨handler.start + 2, base, fun j => if j = k then e else c.slots j, w⟩ is d) :
    Executes number r c (.call .wrapHostException :: .storeTemp k :: is) d := by
  obtain ⟨v, hstack, hwrap⟩ := h.wrapped
  rw [← h.pc] at hcode hrest
  have hcall : r.code[c.pc]? = some (.call .wrapHostException) := hcode 0 _ rfl
  have hstore : r.code[c.pc + 1]? = some (.storeTemp k) := hcode 1 _ rfl
  refine .cons hcall (advance_ran hcall rfl nofun rfl rfl rfl rfl hstack hwrap) ?_
  exact .cons hstore (Config.advance_storeTemp hstore rfl) hrest

/-- A handler that goes through the clauses finds the first one that matches. -/
theorem HasHandler.dispatches {region : Region} {handler : Handler} {catches : List Catch}
    (h : HasHandler cfg r region handler k l arms q) (hclauses : arms.map Arm.clause = catches) :
    Dispatches cfg r catches region handler k l arms q where
  found := h.found
  kind := h.kind
  clauses := hclauses
  enters number c base e w w' i hcaught hselect := by
    rw [← hclauses] at hselect
    obtain ⟨a, ha, hrun⟩ := h.clauses.executes_binds number
      (c := ⟨handler.start + 2, base, fun j => if j = k then e else c.slots j, w⟩) rfl (if_pos rfl) hselect
    exact ⟨a, ha, fun w'' hbind => hcaught.executes h.head (hrun w'' hbind)⟩
  leaves := h.clauses.leaves
  regionEnd := h.regionEnd
  passes number c base e w w' hcaught hselect := by
    rw [← hclauses] at hselect
    exact hcaught.executes h.head (h.clauses.executes_tests number rfl (if_pos rfl) hselect)
  rethrow := h.rethrow
  stop := h.stop

/-- The handler of a `try` that has been emitted. -/
theorem Visited.dispatches {s t : State Chunk} {v : Visit} {loops : List Loop} {n : Nat}
    (h : Visited cfg loops n s t v) (hcfg : cfg.registry = .standard) (hclauses : v.stmt.clauses ≠ [])
    (hgrows : t.active.Grows r) :
    ∃ region ∈ r.regions, (v.after cfg).active.regions.back? = some region ∧ ∃ handler k l arms q,
      Dispatches cfg r v.stmt.clauses region handler k l arms q := by
  obtain ⟨c, hc, -⟩ := h.ready
  have hrun := h.run
  cases hstmt : v.stmt with
  | tryCatch tag body catches cleanup =>
    rw [hstmt] at hclauses
    have hsome : (!catches.isEmpty) = true := by
      cases catches with
      | nil => exact absurd rfl hclauses
      | cons => rfl
    rw [hstmt, lowerStmt, hsome] at hrun
    obtain ⟨u, -, hu, -, hrun⟩ := hc.statement_ok hcfg hrun
    obtain ⟨w, hregion, hafter⟩ := tryCode_ok rfl hrun
    have hgrows' : (v.after cfg).active.Grows r := h.behind.grows.trans hgrows
    rw [hafter] at hgrows' ⊢
    obtain ⟨region, handler, k, l, arms, q, hback, harms, hhandler⟩ :=
      hasHandler_regionCode hcfg hu.enterException hregion hgrows'
    refine ⟨region, ?_, hback, handler, k, l, arms, q, hhandler.dispatches harms⟩
    rw [Array.back?_eq_getElem?] at hback
    exact Array.mem_of_getElem? (hgrows'.regions hback)
  | _ =>
    rw [hstmt] at hclauses
    exact absurd rfl hclauses

end Lowering

namespace Compiler

open Lowering (RoutineVisit Dispatches)

variable {c : Compiler} {unit : SourceUnit} {analyzed : AnalyzedUnit} {diagnostics : Array Diagnostic}

/-- The statements of every routine of a unit are what analysis has left. -/
theorem descends_of_emits {sink : Chunk} {j : RoutineVisit} (hc : c.registry = .standard)
    (h : c.analyze unit = (.ok analyzed, diagnostics))
    (hj : RoutineVisit.Emits c.loweringSetting (c.mainVisit analyzed diagnostics sink) j) :
    ∀ y ∈ Stmt.ownOf j.body, Analysis.Descends (c.unitSetting unit) j.returnsRef y := by
  have hdescend := descends_of_analyze hc h
  obtain rfl | ⟨head, hmem, hbyRef⟩ := hj.function_mem.2
  · exact hdescend.own
  · rw [hbyRef]
    exact hdescend.functions _ hmem

/-- **Every `try` of a unit that is emitted finds the first clause that matches.**  What is tested are the
classes that the names in the clauses stand for. -/
theorem dispatches_of_emitted (hc : c.registry = .standard) (name : String) (filePath : Option String)
    (tempLimit : Option Nat) (h : (c.compile unit (Chunk.new name filePath tempLimit)).isEmitted = true) :
    ∃ analyzed diagnostics, c.analyze unit = (.ok analyzed, diagnostics) ∧
      ∀ j, RoutineVisit.Emits c.loweringSetting
          (c.mainVisit analyzed diagnostics (Chunk.new name filePath tempLimit)) j →
        j.routine c.loweringSetting ∈ (c.compile unit (Chunk.new name filePath tempLimit)).sink.routines ∧
          (j.visits c.loweringSetting).map Lowering.Visit.stmt = Stmt.ownOf j.body ∧
            ∀ v ∈ j.visits c.loweringSetting, v.stmt.clauses ≠ [] →
              (∀ clause ∈ v.stmt.clauses, clause.type = Analysis.className (c.unitSetting unit) clause.name) ∧
                ∃ region ∈ (j.routine c.loweringSetting).regions,
                  (v.after c.loweringSetting).active.regions.back? = some region ∧ ∃ handler k l arms q,
                    Dispatches c.loweringSetting (j.routine c.loweringSetting) v.stmt.clauses region handler k l
                      arms q := by
  obtain ⟨analyzed, diagnostics, hanalyze, -, heq⟩ := emit_of_isEmitted h
  have hcfg : c.loweringSetting.registry = .standard := hc
  refine ⟨analyzed, diagnostics, hanalyze, fun j hj => ?_⟩
  rw [heq] at h ⊢
  have hwithin := (within_mainVisit hc h).of_emits hcfg hj
  obtain ⟨t, hown, hvisits, hgrows, -⟩ := hwithin.body hcfg
  refine ⟨hwithin.routine, hown, fun v hv hclauses => ⟨fun clause hclause => ?_, ?_⟩⟩
  · have hmem : v.stmt ∈ Stmt.ownOf j.body := hown ▸ List.mem_map_of_mem hv
    rcases clause with ⟨span, type, var, body, resolved⟩
    rw [(descends_of_emits hc hanalyze hj v.stmt hmem).clauses hclause]
    rfl
  · exact (hvisits v hv).dispatches hcfg hclauses hgrows

/-! ### A run to the second clause -/

/-- `try { echo "t"; } catch (A $a) { echo "a"; } catch (B $b) { echo "b"; }` -/
def twoClauses : SourceUnit :=
  { name := "unit", nextId := 7, span := {}
    statements := [
      .tryCatch ⟨0, {}⟩ [.echo ⟨1, {}⟩ [.literal ⟨2, {}, .none⟩ (.string "t")]] [
        .clause {} "A" (some "a") [.echo ⟨3, {}⟩ [.literal ⟨4, {}, .none⟩ (.string "a")]] none,
        .clause {} "B" (some "b") [.echo ⟨5, {}⟩ [.literal ⟨6, {}, .none⟩ (.string "b")]] none] none] }

/-- Values are the names of classes, and the empty one is false.  The world lists the stores to variables. -/
def classes : Host where
  Value := String
  World := List (String × String)
  literal _ := ""
  box _ v := v
  truth v := v != ""
  read name world := (world.lookup name).getD ""
  perform i args world := match i, args with
    | .storeVar name, [v] => some (⟨[], rfl⟩, (name, v) :: world)
    | .instanceOf type, [v] => some (⟨[if v == type then v else ""], rfl⟩, world)
    | i, args => some (⟨List.replicate i.yields (args.headD ""), List.length_replicate⟩, world)

theorem isInstance?_classes (type v : String) (hv : v ≠ "") (w : classes.World) :
    classes.isInstance? type v w = some (v == type, w) := by
  by_cases htype : v = type
  · subst htype
    have htruth : (v != "") = true := bne_iff_ne.mpr hv
    simp [Host.isInstance?, Host.ran?, classes, htruth]
  · have hne : (v == type) = false := beq_eq_false_iff_ne.mpr htype
    simp [Host.isInstance?, Host.ran?, classes, hne]

/-- An exception of the class `B`, in front of a handler. -/
def ofClassB (start : Nat) : Config classes :=
  ⟨start, ["B"], fun _ => "", []⟩

/-- In the second clause, with the exception in a slot and in a variable. -/
def inSecondClause (pc : Nat) (k : Temp) : Config classes :=
  ⟨pc, [], fun j => if j = k then "B" else "", [("b", "B")]⟩

/-- An exception of the class `B` comes to the second clause. -/
theorem dispatches_twoClauses :
    (({} : Compiler).compile twoClauses (Chunk.new "unit" none none)).isEmitted = true ∧
      ∃ analyzed diagnostics, ({} : Compiler).analyze twoClauses = (.ok analyzed, diagnostics) ∧
        ∃ r ∈ (({} : Compiler).compile twoClauses (Chunk.new "unit" none none)).sink.routines,
          ∃ region ∈ r.regions, ∃ catches handler k l a b q,
            Dispatches ({} : Compiler).loweringSetting r catches region handler k l [a, b] q ∧
              Config.Executes (fun _ => 0) r (ofClassB handler.start)
                (.call .wrapHostException :: .storeTemp k :: (a.tests k ++ b.tests k ++ b.binds k))
                (inSecondClause b.start.active.position k) := by
  have h : (({} : Compiler).compile twoClauses (Chunk.new "unit" none none)).isEmitted = true := by
    decide +kernel
  have hfound : (({} : Compiler).analyze twoClauses).1.toOption.any (fun analyzed =>
      ((({} : Compiler).mainVisit analyzed (({} : Compiler).analyze twoClauses).2 (Chunk.new "unit" none none)).visits
          ({} : Compiler).loweringSetting).any fun v =>
        v.stmt.clauses.map Catch.type == ["A", "B"] && v.stmt.clauses.map Catch.var? == [some "a", some "b"]) =
          true := by
    decide +kernel
  obtain ⟨analyzed, diagnostics, hanalyze, hall⟩ := dispatches_of_emitted rfl "unit" none none h
  obtain ⟨hroutine, -, hdispatches⟩ := hall _ .main
  simp only [hanalyze, Except.toOption, Option.any_some, List.any_eq_true, Bool.and_eq_true, beq_iff_eq] at hfound
  obtain ⟨v, hv, htypes, hvars⟩ := hfound
  obtain ⟨x, y, hclauses⟩ : ∃ x y, v.stmt.clauses = [x, y] :=
    List.length_eq_two.mp (by simpa using congrArg List.length htypes)
  obtain ⟨-, region, hregion, -, handler, k, l, arms, q, hdispatch⟩ :=
    hdispatches v hv (by rw [hclauses]; exact List.cons_ne_nil _ _)
  rw [hclauses] at htypes hvars hdispatch
  obtain ⟨hx, hy⟩ : x.type = "A" ∧ y.type = "B" := by simpa using htypes
  obtain ⟨a, b, rfl⟩ : ∃ a b, arms = [a, b] :=
    List.length_eq_two.mp (by simpa using congrArg List.length hdispatch.clauses)
  obtain ⟨rfl, rfl⟩ : a.clause = x ∧ b.clause = y := by simpa using hdispatch.clauses
  refine ⟨h, analyzed, diagnostics, hanalyze, _, hroutine, region, hregion, _, handler, k, l, a, b, q, hdispatch, ?_⟩
  have hselect : classes.select? "B" [a.clause, b.clause] [] = some (some 1, []) := by
    rw [Host.select?_eq_findIdx? fun type => isInstance?_classes type "B" (by decide) []]
    simp only [List.findIdx?_cons, hx, hy]
    rfl
  have hcaught : Lowering.Caught handler (ofClassB handler.start) [] "B" [] := ⟨rfl, "B", rfl, rfl⟩
  obtain ⟨_, ⟨⟩, hrun⟩ := hdispatch.enters (fun _ => 0) hcaught hselect
  obtain ⟨-, hvar⟩ : a.clause.var? = some "a" ∧ b.clause.var? = some "b" := by simpa using hvars
  have hrun := hrun [("b", "B")] (by rw [hvar]; rfl)
  rwa [List.take_of_length_le (Nat.le_refl 2), List.flatMap_cons, List.flatMap_singleton] at hrun

end Compiler
end PhpLowering
