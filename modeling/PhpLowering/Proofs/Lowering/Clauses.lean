import PhpLowering.Proofs.Lowering.Puts
import PhpLowering.Proofs.Lowering.Tries
import PhpLowering.Proofs.Tree.Paths

/-!
# The code of the clauses of a `try`

The handler for host exceptions of a region wraps the exception, puts it into a slot and goes through the
clauses.  Each of them is a test of the slot, a branch behind the clause if the test fails, a store to the
variable of the clause if it has one, the body, and a way out to the end of the region.  Behind the last
clause the exception is thrown again.

`HasArms` says that this is the code between two positions of a routine, whatever the bodies are, and
`HasHandler` that it is the code of the handler of a region.  **`hasHandler_regionCode`**: the region that
is recorded for a `try` has such a handler.
-/

namespace PhpLowering
namespace Catch

/-- The class of a clause as it is written. -/
def name : Catch → String
  | .clause _ type _ _ _ => type

/-- The class that the exception is tested for. -/
def type : Catch → String
  | .clause _ type _ _ resolved => resolved.getD type

/-- The variable of a clause. -/
def var? : Catch → Option String
  | .clause _ _ var _ _ => var

end Catch

namespace Lowering

open Pass (Ends)

variable {cfg : Setting} {r : Routine} {k : Temp} {l : Label} {c : Scene} {s t : State Chunk} {p q : Nat}
  {catches : List Catch} {o : OpenRegion} {outer : List OpenRegion}

/-- A clause as it is emitted. -/
structure Arm where
  clause : Catch
  /-- The state in which the emission of the body starts. -/
  start : State Chunk
  /-- The label behind the clause. -/
  next : Label

/-- The test of a slot for a class. -/
def testCode (k : Temp) (type : String) (next : Label) : List Instruction :=
  [.loadTemp k, .instanceOf type, .branchIfFalse next]

/-- The code that stores what is in a slot to a variable, if there is one. -/
def bindCode (k : Temp) (var : Option String) : List Instruction :=
  match var with
  | some name => [.loadTemp k, .storeVar name]
  | none => []

namespace Arm

/-- The state behind the body. -/
def after (cfg : Setting) (a : Arm) : State Chunk :=
  (lowerStmts cfg a.clause.handler a.start).2

/-- The code that tests the exception. -/
def tests (k : Temp) (a : Arm) : List Instruction :=
  testCode k a.clause.type a.next

/-- The code in front of the body. -/
def binds (k : Temp) (a : Arm) : List Instruction :=
  bindCode k a.clause.var?

/-- The body is emitted, and behind it stands a way out to a label. -/
structure Leaves (cfg : Setting) (r : Routine) (l : Label) (a : Arm) : Prop where
  run : lowerStmts cfg a.clause.handler a.start = (.ok (), a.after cfg)
  grows : (a.after cfg).active.Grows r
  leave : r.code[(a.after cfg).active.position]? = some (.leave l)

end Arm

/-- The code of clauses, between two positions. -/
inductive HasArms (cfg : Setting) (r : Routine) (k : Temp) (l : Label) : Nat → List Arm → Nat → Prop
  | nil (p : Nat) : HasArms cfg r k l p [] p
  | cons {p q : Nat} {a : Arm} {arms : List Arm}
      (head : r.HasCode p (a.tests k ++ a.binds k))
      (start : a.start.active.position = p + (a.tests k ++ a.binds k).length) (leaves : a.Leaves cfg r l)
      (next : r.labelPosition? a.next = some ((a.after cfg).active.position + 1))
      (rest : HasArms cfg r k l ((a.after cfg).active.position + 1) arms q) : HasArms cfg r k l p (a :: arms) q

theorem HasArms.leaves {arms : List Arm} (h : HasArms cfg r k l p arms q) : ∀ a ∈ arms, a.Leaves cfg r l := by
  induction h with
  | nil => exact List.forall_mem_nil _
  | cons _ _ hleaves _ _ ih => exact List.forall_mem_cons.mpr ⟨hleaves, ih⟩

/-! ## Emission of the clauses -/

theorem puts_clauseHead (k : Temp) (type : String) (var : Option String) (s : State Chunk) :
    Ends (clauseHead k type var) s (fun next t => Puts (testCode k type next ++ bindCode k var) s t)
      anyFailure := by
  refine (puts_defineLabel s).bind fun next s₁ h₁ => ?_
  refine (puts_emit (.loadTemp k) s₁).bind fun _ s₂ h₂ => ?_
  refine (puts_emit (.instanceOf type) s₂).bind fun _ s₃ h₃ => ?_
  refine (puts_emit (.branchIfFalse next) s₃).bind fun _ s₄ h₄ => ?_
  have htest : Puts (testCode k type next) s s₄ := ((h₁.trans h₂).trans h₃).trans h₄
  cases var with
  | none => exact .pure (htest.trans (.refl s₄))
  | some name =>
    refine (puts_emit (.loadTemp k) s₄).bind fun _ s₅ h₅ => ?_
    refine (puts_emit (.storeVar name) s₅).bind fun _ s₆ h₆ => ?_
    exact .pure (htest.trans (h₅.trans h₆))

/-- What a clause is emitted as. -/
theorem clauseCode_ok {type : String} {var resolved : Option String} {body : List Stmt} (span : Span)
    (hcfg : cfg.registry = .standard) (hs : Ready anyFailure c [] s)
    (hrun : clauseCode k l (resolved.getD type) var (lowerStmts cfg body) s = (.ok (), t)) (hgrows : t.active.Grows r) :
    ∃ a : Arm, a.clause = .clause span type var body resolved ∧
      r.HasCode s.active.position (a.tests k ++ a.binds k) ∧
      a.start.active.position = s.active.position + (a.tests k ++ a.binds k).length ∧ a.Leaves cfg r l ∧
      t.active.position = (a.after cfg).active.position + 1 ∧
      r.labelPosition? a.next = some ((a.after cfg).active.position + 1) := by
  obtain ⟨next, u, hhead, hrun⟩ := bind_ok hrun
  obtain ⟨_, v, hbody, hrun⟩ := bind_ok hrun
  obtain ⟨_, w, hleave, hmark⟩ := bind_ok hrun
  have hu := (hs.since.clauseHead k (resolved.getD type) var).of_ok hhead
  obtain ⟨-, hlead⟩ := (records_lowerStmts tolerates_anyFailure hcfg body).leads hu hbody
  have hputs := (puts_clauseHead k (resolved.getD type) var s).of_ok hhead
  have hw := (puts_emit (.leave l) v).of_ok hleave
  obtain ⟨ht, hnext⟩ := (puts_mark next w).of_ok hmark
  have hposition : w.active.position = v.active.position + 1 := hw.position
  have hbehind : v.active.Grows r := (hw.grows.trans ht.grows).trans hgrows
  obtain rfl : v = (lowerStmts cfg body u).2 := congrArg Prod.snd hbody.symm
  rw [hposition] at hnext
  exact ⟨⟨.clause span type var body resolved, u, next⟩, rfl, hputs.hasCode (hlead.grows.trans hbehind),
    hputs.position, ⟨hbody, hbehind, hw.hasCode (ht.grows.trans hgrows) 0 _ rfl⟩, ht.position.trans hposition,
    hgrows.labelPosition? hnext⟩

/-- What clauses are emitted as. -/
theorem hasArms_lowerClauses (hcfg : cfg.registry = .standard) : ∀ {catches : List Catch} {c : Scene} {s t : State Chunk},
    (l, []) ∈ c.typed → Ready anyFailure c [] s → lowerClauses cfg catches l k s = (.ok (), t) →
      t.active.Grows r → ∃ arms : List Arm, arms.map Arm.clause = catches ∧
        HasArms cfg r k l s.active.position arms t.active.position
  | [], c, s, t, hend, hs, hrun, hgrows => by
    obtain rfl : s = t := congrArg Prod.snd hrun
    exact ⟨[], rfl, .nil _⟩
  | .clause span type var body resolved :: rest, c, s, t, hend, hs, hrun, hgrows => by
    obtain ⟨_, u, hclause, hrest⟩ := bind_ok hrun
    have hsingle : lowerClauses cfg [.clause span type var body resolved] l k s = (.ok (), u) :=
      (Pass.bind_eq_ok_iff ..).mpr ⟨(), u, hclause, rfl⟩
    obtain ⟨hu, -⟩ := (records_lowerClauses tolerates_anyFailure hcfg _).leads hend hs hsingle
    obtain ⟨d, hd, hu⟩ : ∃ d : Scene, (l, []) ∈ d.typed ∧ Ready anyFailure d [] u :=
      ⟨(c.since s).record _ _, hend, hu⟩
    obtain ⟨-, hlead⟩ := (records_lowerClauses tolerates_anyFailure hcfg rest).leads hd hu hrest
    obtain ⟨a, ha, hhead, hstart, hleaves, hposition, hnext⟩ :=
      clauseCode_ok span hcfg hs hclause (hlead.grows.trans hgrows)
    obtain ⟨arms, harms, hrest⟩ := hasArms_lowerClauses hcfg hd hu hrest hgrows
    rw [hposition] at hrest
    exact ⟨a :: arms, by rw [List.map_cons, ha, harms], .cons hhead hstart hleaves hnext hrest⟩

/-! ## The handler -/

/-- A region in whose handler for host exceptions the code is, behind another handler. -/
def handling (tryStart tryStop : Nat) (first : Handler) (start : Nat) (l : Label) : OpenRegion :=
  ⟨tryStart, some tryStop, [first], .handler (.catching hostType), start, l⟩

/-- The handler of a region goes through these clauses, behind which the exception is thrown again. -/
structure HasHandler (cfg : Setting) (r : Routine) (region : Region) (handler : Handler) (k : Temp) (l : Label)
    (arms : List Arm) (q : Nat) : Prop where
  found : region.handlers[1]? = some handler
  kind : handler.kind = .catching hostType
  head : r.HasCode handler.start [.call .wrapHostException, .storeTemp k]
  clauses : HasArms cfg r k l (handler.start + 2) arms q
  rethrow : r.code[q]? = some .rethrow
  stop : q < handler.stop
  regionEnd : r.labelPosition? l = some region.stop

theorem Ready.opened {S : List Slot} (hs : Ready anyFailure c S s) : s.active.openRegions = c.opened := by
  obtain ⟨-, m, hm⟩ := hs
  exact hm.opened

/-- A handler begins behind a way out of the block before it. -/
theorem ends_beginHandler (hopened : s.active.openRegions = o :: outer) (kind : HandlerKind) :
    Ends (toSink (Chunk.onActive (Routine.beginHandler kind))) s (fun _ t => s.active.Grows t.active ∧
      t.active.position = s.active.position + 1 ∧ t.active.openRegions =
        (o.close (s.active.position + 1)).enter kind (s.active.position + 1) :: outer) anyFailure := by
  refine ends_toSink (.intro (fun _ r hrun => ?_) fun _ _ _ => trivial)
  have hgrows := Routine.grows_beginHandler kind s.active
  rw [hrun] at hgrows
  obtain rfl := Routine.beginHandler_ok hopened hrun
  rw [State.active_withActive]
  exact ⟨hgrows, Routine.position_push _, rfl⟩

theorem ends_endRegion (hopened : s.active.openRegions = o :: outer) :
    Ends (toSink (Chunk.onActive Routine.endRegion)) s (fun _ t => s.active.Grows t.active ∧
      s.active.Ended o outer t.active) anyFailure := by
  refine ends_toSink (.intro (fun _ r hrun => ?_) fun _ _ _ => trivial)
  have hgrows := Routine.grows_endRegion s.active
  rw [hrun] at hgrows
  rw [State.active_withActive]
  exact ⟨hgrows, Routine.endRegion_ok hopened hrun⟩

/-- In front of the clauses the exception is wrapped and put into a slot. -/
theorem handlersHead_ok (hopened : s.active.openRegions = .begin p l :: outer)
    (hrun : handlersHead s = (.ok k, t)) :
    ∃ tryStop first start, t.active.openRegions = handling p tryStop first start l :: outer ∧
      t.active.position = start + 2 ∧ t.active.HasCode start [.call .wrapHostException, .storeTemp k] := by
  obtain ⟨_, s₁, hbegin₁, hrun⟩ := bind_ok hrun
  obtain ⟨_, s₂, hrethrow, hrun⟩ := bind_ok hrun
  obtain ⟨_, s₃, hbegin₃, hrun⟩ := bind_ok hrun
  obtain ⟨_, s₄, hwrap, hrun⟩ := bind_ok hrun
  obtain ⟨k', s₅, hdeclare, hrun⟩ := bind_ok hrun
  obtain ⟨_, s₆, hstore, hrun⟩ := bind_ok hrun
  obtain ⟨⟨⟩, rfl⟩ := Prod.mk.inj hrun
  obtain ⟨-, -, hopened₁⟩ := (ends_beginHandler hopened _).of_ok hbegin₁
  have h₂ := (puts_emit .rethrow s₁).of_ok hrethrow
  obtain ⟨-, hposition₃, hopened₃⟩ := (ends_beginHandler (h₂.opened.trans hopened₁) _).of_ok hbegin₃
  have h₄ := (puts_emit (.call .wrapHostException) s₃).of_ok hwrap
  have h₅ := (puts_declareTemp s₄).of_ok hdeclare
  have h₆ := (puts_emit (.storeTemp k) s₅).of_ok hstore
  have hcode : Puts [.call .wrapHostException, .storeTemp k] s₃ s₆ := (h₄.trans h₅).trans h₆
  refine ⟨s.active.position + 1, ⟨.catching uncatchableType, s.active.position + 1, s₃.active.position⟩,
    s₃.active.position, hcode.opened.trans (hopened₃.trans ?_), hcode.position, hcode.hasCode (.refl _)⟩
  rw [hposition₃]
  rfl

/-- Behind the handler there may be a cleanup, and the handler is complete then. -/
theorem cleanupCode_ok {tryStart tryStop start : Nat} {first : Handler} {cleanup : Option (List Stmt)}
    (hcfg : cfg.registry = .standard)
    (hs : Ready anyFailure (c.inRegion (handling tryStart tryStop first start l)) [] s)
    (hrun : cleanupCode true (lowerOptional cfg cleanup) s = (.ok (), t)) :
    s.active.Grows t.active ∧ ∃ o, t.active.openRegions = o :: c.opened ∧ o.endLabel = l ∧
      ∀ p, s.active.position ≤ p → ∃ stop, s.active.position ≤ stop ∧
        (o.close p).handlers.reverse[1]? = some ⟨.catching hostType, start, stop⟩ := by
  cases cleanup with
  | none =>
    obtain rfl : s = t := congrArg Prod.snd hrun
    exact ⟨.refl _, _, hs.opened, rfl, fun p hp => ⟨p, hp, rfl⟩⟩
  | some body =>
    obtain ⟨_, u, hbegin, hbody⟩ := bind_ok hrun
    obtain ⟨hgrows, -, hopened⟩ := (ends_beginHandler hs.opened .cleanup).of_ok hbegin
    obtain ⟨o, hend, -, -, hu, -⟩ := (hs.beginHandler .cleanup (by rw [handling]; nofun)).of_ok hbegin
    obtain ⟨ht, hlead⟩ := (records_lowerStmts tolerates_anyFailure hcfg body).leads hu hbody
    have ho : o = _ := (List.cons.inj (hu.opened.symm.trans hopened)).1
    refine ⟨hgrows.trans hlead.grows, o, ht.opened, hend, fun p hp => ⟨s.active.position + 1, by omega, ?_⟩⟩
    rw [ho]
    rfl

/-- **The region of a `try` with clauses** has a handler that goes through them. -/
theorem hasHandler_regionCode {body : List Stmt} {cleanup : Option (List Stmt)} (hcfg : cfg.registry = .standard)
    (hs : Ready anyFailure c [] s)
    (hrun : regionCode (lowerStmts cfg body) true (lowerClauses cfg catches) (lowerOptional cfg cleanup) s =
      (.ok (), t)) (hgrows : t.active.Grows r) :
    ∃ region handler k l, ∃ arms : List Arm, ∃ q, t.active.regions.back? = some region ∧ arms.map Arm.clause = catches ∧
      HasHandler cfg r region handler k l arms q := by
  obtain ⟨l, s₁, hbegin, hrun⟩ := bind_ok hrun
  obtain ⟨_, s₂, hbody, hrun⟩ := bind_ok hrun
  obtain ⟨_, s₃, hhandlers, hrun⟩ := bind_ok hrun
  obtain ⟨_, s₄, hcleanup, hend⟩ := bind_ok hrun
  obtain ⟨k, u, hhead, hhandlers⟩ := bind_ok hhandlers
  obtain ⟨_, v, hclauses, hhandlers⟩ := bind_ok hhandlers
  obtain ⟨_, w, hrethrow, hreturn⟩ := bind_ok hhandlers
  obtain ⟨hs₁, -⟩ := hs.beginTry.of_ok hbegin
  obtain ⟨hs₂, -⟩ := (records_lowerStmts tolerates_anyFailure hcfg body).leads hs₁ hbody
  obtain ⟨d, hs₂⟩ : ∃ d : Scene, Ready anyFailure (d.inRegion (.begin s.active.position l)) [] s₂ :=
    ⟨(c.since s₁).record _ _, hs₂⟩
  -- The handler grows from here on, in the region that `handling` describes.
  obtain ⟨o, hlabel, -, -, hu⟩ := (hs₂.handlersHead tolerates_anyFailure rfl).of_ok hhead
  obtain ⟨tryStop, first, start, hopened, hposition, hwrap⟩ := handlersHead_ok hs₂.opened hhead
  obtain rfl : o = _ := (List.cons.inj (hu.opened.symm.trans hopened)).1
  have hmem : (l, []) ∈ (d.inRegion (handling s.active.position tryStop first start l)).typed :=
    List.mem_cons_self
  obtain ⟨hv, hlead⟩ := (records_lowerClauses tolerates_anyFailure hcfg catches).leads hmem hu hclauses
  have hw := (puts_emit .rethrow v).of_ok hrethrow
  have h₃ := (puts_returnTemp k w).of_ok hreturn
  obtain ⟨e, hs₃⟩ : ∃ e : Scene,
      Ready anyFailure (e.inRegion (handling s.active.position tryStop first start l)) [] s₃ :=
    ⟨((d.since u).record _ _), ((hv.rethrow []).of_ok hrethrow |>.returnTemp k).of_ok hreturn⟩
  obtain ⟨hgrows₄, o, hopened₄, hlabel₄, hhandler⟩ := cleanupCode_ok hcfg hs₃ hcleanup
  obtain ⟨hgrowsEnd, hended⟩ := (ends_endRegion hopened₄).of_ok hend
  have hbehind : s₄.active.Grows r := hgrowsEnd.trans hgrows
  have hrest : w.active.Grows r := (h₃.grows.trans hgrows₄).trans hbehind
  have hclausesEnd : v.active.Grows r := hw.grows.trans hrest
  obtain ⟨arms, harms, hcode⟩ := hasArms_lowerClauses hcfg hmem hu hclauses hclausesEnd
  rw [hposition] at hcode
  have hq : s₃.active.position = v.active.position + 1 := h₃.position.trans hw.position
  have hle : s₃.active.position ≤ s₄.active.position + 1 := Nat.le_succ_of_le hgrows₄.position
  obtain ⟨stop, hstop, hfound⟩ := hhandler (s₄.active.position + 1) hle
  have hlt : v.active.position < stop := Nat.lt_of_lt_of_le (hq ▸ Nat.lt_succ_self _) hstop
  refine ⟨(o.close (s₄.active.position + 1)).complete (s₄.active.position + 1), ⟨.catching hostType, start, stop⟩,
    k, l, arms, v.active.position, ?_, harms, hfound, rfl, hwrap.grows (hlead.grows.trans hclausesEnd), hcode,
    hw.hasCode hrest 0 _ rfl, hlt, hgrows.labelPosition? (hlabel₄ ▸ hended.endLabel)⟩
  rw [hended.regions]
  exact Array.back?_push

end Lowering
end PhpLowering
