import PhpLowering.Proofs.Lowering.Layout

/-!
# Ways out of statements

The jumps out of loops and routines branch to labels that lead out of the statement at hand, if they
branch at all: a jump out of a region is a `leave`, which is no branch.  The label to return to and the
targets of `goto` statements are made where they are first needed and stay with the frame.

Behind the jumps stand the statements without parts.
-/

namespace PhpLowering
namespace Lowering

open Pass (Ends)

variable {cfg : Setting} {G : Prop} {tries tries' : List Stmt} {fs fs' : List (FunctionHead × List Stmt)}
  {s t u : State Chunk} {l : Label} {ls : List Label} {k : Temp} {x : Emit Chunk Unit} {w : Nat}
  {level : Code Chunk}

/-- A branch if there are so many regions around, and a way out of regions otherwise. -/
theorem Orderly.jump (hs : Orderly s) (cfg : Setting) (G : Prop) (ls : List Label) (l : Label) (level : Nat)
    (h : s.frame.exceptionNesting = level → l ∈ ls ∨ s.frame.Leads G l) :
    Ends (Lowering.jump l level) s (fun _ t => Covers cfg G ls [] [] s t ∧ t.frame = s.frame)
      anyFailure := by
  refine ends_frame ?_
  split
  · rename_i hlevel
    refine (hs.emit cfg G ls (.branch l) fun x hx => ?_).mono fun _ _ ht => ⟨ht.1, ht.2.1⟩
    rw [List.mem_singleton.mp hx]
    exact h hlevel
  · exact hs.plain cfg G ls (.leave l) rfl

theorem Orderly.leaveTo (hs : Orderly s) (cfg : Setting) (G : Prop) (ls : List Label) (kind : BranchKind)
    {loop : Loop} (hloop : loop ∈ s.frame.loops) :
    Ends (Lowering.leaveTo kind loop) s (fun _ t => Covers cfg G ls [] [] s t ∧ t.frame = s.frame)
      anyFailure :=
  hs.jump cfg G ls _ _ fun hlevel => Or.inr (Or.inl ⟨loop, hloop, hlevel.symm, kind, rfl⟩)

theorem writes_staticBranch (kind : BranchKind) (n : Nat) :
    Writes cfg G [] [] (staticBranch kind n) := by
  intro s hs
  refine ends_frame ?_
  dsimp only
  split
  · rename_i loop hloop
    exact (hs.leaveTo cfg G [] kind (List.mem_of_getElem? hloop)).mono fun _ _ ht => ht.1
  · exact .fail trivial

/-! ## Tables of ways out -/

theorem Orderly.defineLabels (hs : Orderly s) (cfg : Setting) (G : Prop) (n : Nat) :
    Ends (Lowering.defineLabels n) s (fun labels t => labels.length = n ∧ Covers cfg G [] [] [] s t)
      anyFailure := by
  induction n generalizing s with
  | zero => exact .pure ⟨rfl, .refl hs⟩
  | succ n ih =>
    refine (hs.define cfg G []).bind ?_
    rintro l t ⟨ht, -⟩
    refine (ih ht.orderly).bind ?_
    rintro labels u ⟨hlength, hu⟩
    exact .pure ⟨congrArg Nat.succ hlength, ht.andThen hu⟩

/-- The labels of the entries are marked one after the other. -/
theorem Covers.tableEntries (kind : BranchKind) {entries : List (Label × Loop)}
    (hloops : ∀ p ∈ entries, p.2 ∈ t.frame.loops)
    (h : Covers cfg G (entries.map Prod.fst) tries fs s t) :
    Ends (Lowering.tableEntries kind entries) t (fun _ u => Covers cfg G [] tries fs s u ∧
      Kept cfg [] t u) anyFailure := by
  induction entries generalizing t with
  | nil => exact .pure ⟨h, (Wrote.refl (A := fun _ => False) h.orderly).toKept⟩
  | cons p rest ih =>
    obtain ⟨hloop, hrest⟩ := List.forall_mem_cons.mp hloops
    refine (Covers.mark h).bind ?_
    rintro _ u ⟨hu, hframe, htu⟩
    rw [← hframe] at hloop hrest
    refine (hu.orderly.leaveTo cfg G [] kind hloop).bind ?_
    rintro _ v ⟨hv, hframe'⟩
    rw [← hframe'] at hrest
    refine (ih hrest (hu.andThen hv.weaken)).mono ?_
    rintro _ w ⟨hw, hvw⟩
    exact ⟨hw, (htu.andThen hv).toKept.trans hvw⟩

/-- A level is copied to a slot before it is looked up. -/
theorem Orderly.saveTo (hs : Orderly s) (cfg : Setting) (G : Prop) (k : Temp) :
    Ends (Lowering.saveTo k) s (fun _ t => Covers cfg G [] [] [] s t) anyFailure := by
  refine (hs.plain cfg G [] .dup rfl).bind ?_
  rintro _ t ⟨ht, -⟩
  exact (ht.orderly.plain cfg G [] (.storeTemp k) rfl).mono fun _ _ hu => ht.andThen hu.1

theorem writes_runtimeBranch (kind : BranchKind) (hlevel : LaysCode w level) :
    Writes cfg G [] [] (runtimeBranch kind level) := by
  intro s hs
  refine ends_frame ?_
  cases hloops : s.frame.loops with
  | nil => exact .fail trivial
  | cons innermost outer =>
    refine (hs.lays cfg G [] (hlevel.converted .longInteger (g := fun _ => 1) fun _ _ => rfl)).bind ?_
    rintro _ s₁ ⟨h₁, -⟩
    refine (h₁.orderly.declareTemp cfg G []).bind ?_
    rintro k s₂ ⟨h₂, -, hk, htaken⟩
    have hslot : s.active.Vacant k := h₁.vacant k hk
    refine (h₂.orderly.saveTo cfg G k).bind fun _ s₃ h₃ => ?_
    refine (h₃.orderly.defineLabels cfg G (outer.length + 2)).bind ?_
    rintro table s₄ ⟨hlength, h₄⟩
    -- The labels of the table are outside until all of them have been marked.
    refine (h₄.orderly.emit cfg G table (.switch table) fun _ hl => Or.inl hl).bind ?_
    rintro _ s₅ ⟨h₅, -⟩
    refine (h₅.orderly.plain cfg G [] (.loadTemp k) rfl).bind ?_
    rintro _ s₆ ⟨h₆, -⟩
    refine (h₆.orderly.plain cfg G [] (.call .throwInvalidBreakLevel) rfl).bind ?_
    rintro _ s₇ ⟨h₇, -⟩
    have hfront := (((((h₁.andThen h₂).andThen h₃).andThen h₄).weaken.andThen h₅).andThen h₆.weaken).andThen
      h₇.weaken
    have hmem : innermost ∈ s₇.frame.loops := by
      rw [hfront.loops, hloops]
      exact List.mem_cons_self
    refine (h₇.orderly.leaveTo cfg G [] .break hmem).bind ?_
    rintro _ s₈ ⟨h₈, -⟩
    have hentries : (table.zip (innermost :: innermost :: outer)).map Prod.fst = table :=
      List.map_fst_zip (Nat.le_of_eq hlength)
    have hall := hfront.andThen h₈.weaken
    have hzip : ∀ p ∈ table.zip (innermost :: innermost :: outer), p.2 ∈ s₈.frame.loops := by
      intro p hp
      rw [hall.loops, hloops]
      have hp := (List.of_mem_zip hp).2
      simp only [List.mem_cons] at hp ⊢
      tauto
    have htable : Covers cfg G ((table.zip (innermost :: innermost :: outer)).map Prod.fst) [] [] s s₈ := by
      rwa [hentries]
    refine (htable.tableEntries kind hzip).bind ?_
    rintro _ s₉ ⟨h₉, hkept⟩
    refine .update (Wrote.returnTemp h₉ hslot fun hvacant => htaken ?_)
    exact h₃.vacant k (h₄.vacant k (h₅.vacant k (h₆.vacant k (h₇.vacant k (h₈.vacant k
      (hkept.vacant k hvacant))))))

theorem writes_loopJump (kind : BranchKind) (level : Option Expr) :
    Writes cfg G [] [] (loopJump cfg kind level) := by
  unfold loopJump
  cases level with
  | none => exact writes_staticBranch kind 1
  | some e =>
    dsimp only
    split
    · exact writes_staticBranch kind _
    · exact writes_runtimeBranch kind (lays_lower cfg e)

/-! ## Returning -/

/-- A label of the frame is made where it is needed. -/
theorem Covers.withFrame {g : Frame} (h : Covers cfg G ls tries fs s t) (hloops : g.loops = t.frame.loops)
    (hnesting : g.exceptionNesting = t.frame.exceptionNesting)
    (hepilogue : ∀ l, t.frame.epilogue = some l → g.epilogue = some l)
    (hreturns : g.returnTemp = none → g.epilogue = none) :
    Covers cfg G ls tries fs s { t with frame := g } := by
  have hwide : Wrote cfg (fun l => l ∈ ls ∨ g.Leads G l) tries fs s t := by
    refine Wrote.mono h fun l hl => hl.imp_right fun hl => ?_
    unfold Frame.Leads at hl ⊢
    rw [hloops, hnesting]
    exact hl.imp_right fun hl => ⟨hl.1, hl.2.imp_left (hepilogue l)⟩
  have horderly : Orderly { t with frame := g } := by
    refine ⟨h.orderly.slots, ?_, hreturns⟩
    show ∀ loop ∈ g.loops, loop.exceptionLevel ≤ g.exceptionNesting
    rw [hloops, hnesting]
    exact h.orderly.levels
  exact Wrote.reframe (f := s.frame) hwide horderly (hloops.trans h.loops) (hnesting.trans h.nesting)
    fun l hl => hepilogue l (h.epilogue l hl)

theorem Orderly.returnSlot (hs : Orderly s) (cfg : Setting) (G : Prop) :
    Ends Lowering.returnSlot s (fun k t => Covers cfg G [] [] [] s t ∧ t.frame.returnTemp = some k)
      anyFailure := by
  refine ends_frame ?_
  split
  · rename_i k hk
    exact .pure ⟨.refl hs, hk⟩
  · refine (hs.declareTemp cfg G []).bind ?_
    rintro k t ⟨ht, -⟩
    exact .update_bind (.pure ⟨ht.withFrame rfl rfl (fun _ hl => hl) nofun, rfl⟩)

theorem Orderly.epilogue (hs : Orderly s) (cfg : Setting) (G : Prop) (hk : s.frame.returnTemp = some k) :
    Ends Lowering.epilogue s (fun l t => Covers cfg G [] [] [] s t ∧ t.frame.epilogue = some l) anyFailure := by
  refine ends_frame ?_
  split
  · rename_i l hl
    exact .pure ⟨.refl hs, hl⟩
  · rename_i hnone
    refine (hs.define cfg G []).bind ?_
    rintro l t ⟨ht, hframe, -⟩
    refine .update_bind (.pure ⟨ht.withFrame rfl rfl (fun x hx => ?_) fun hnot => ?_, rfl⟩)
    · rw [hframe, hnone] at hx
      cases hx
    · rw [hframe, hk] at hnot
      cases hnot

theorem writes_returnJump : Writes cfg G [] [] returnJump := by
  intro s hs
  refine (hs.returnSlot cfg G).bind ?_
  rintro k s₁ ⟨h₁, hk⟩
  refine (h₁.orderly.epilogue cfg G hk).bind ?_
  rintro l s₂ ⟨h₂, hl⟩
  refine (h₂.orderly.plain cfg G [] (.storeTemp k) rfl).bind ?_
  rintro _ s₃ ⟨h₃, -⟩
  have hto := (h₁.andThen h₂).andThen h₃
  refine (h₃.orderly.jump cfg G [] l 0 fun hzero => Or.inr (Or.inr ⟨hzero, Or.inl ?_⟩)).mono ?_
  · exact h₃.epilogue l hl
  · exact fun _ _ h₄ => hto.andThen h₄.1

theorem lays_returnValue (expr : Option Expr) : Lays 0 (fun _ => 1) (returnValue cfg expr) := by
  refine (lays_peek _).andThen fun f => ?_
  cases expr with
  | none =>
    cases f.returnsRef with
    | true => exact lays_callVoid .newReferenceEmpty
    | false => exact (lays_pushLiteral .null).one.andThen fun _ => .pure _ rfl
  | some e =>
    refine (lays_lower cfg e).value.andThen fun kind => ?_
    have hbox : Lays kind.height (fun _ => 1) (do let _ ← box kind : Emit Chunk Unit) :=
      (lays_box kind).one.andThen fun _ => .pure _ rfl
    cases f.returnsRef with
    | true =>
      simp only [if_true]
      split
      · exact (lays_box kind).one.andThen fun _ => lays_callVoid .newReference
      · rename_i href
        rw [not_not.mp href]
        exact .pure _ rfl
    | false =>
      simp only [Bool.false_eq_true, if_false]
      split
      · rename_i href
        rw [href]
        exact lays_callVoid .dereference
      · split
        · rename_i harray
          rw [harray]
          exact lays_dup.andThen fun _ => (lays_callVoid .markInplaceCopyOnReturn).frame 1
        · exact hbox

theorem writes_jumpCode (kind : JumpKind) (expr : Option Expr) :
    Writes cfg G [] [] (jumpCode cfg kind expr) := by
  cases kind with
  | «break» => exact writes_loopJump .break expr
  | «continue» => exact writes_loopJump .continue expr
  | «return» => exact (lays_returnValue expr).writes.seq writes_returnJump

/-! ## Targets of `goto` statements -/

theorem Orderly.routineLabel (hs : Orderly s) (cfg : Setting) (G : Prop) (name : String) :
    Ends (Lowering.routineLabel name) s (fun _ t => Covers cfg G [] [] [] s t) anyFailure := by
  refine ends_frame ?_
  split
  · exact .pure (.refl hs)
  · refine (hs.define cfg G []).bind ?_
    rintro l t ⟨ht, -⟩
    exact .update_bind (.pure (ht.withFrame rfl rfl (fun _ hl => hl) ht.orderly.returns))

theorem writes_goto (name : String) (hG : G) :
    Writes cfg G [] [] (do jump (← routineLabel name) 0) := by
  intro s hs
  refine (hs.routineLabel cfg G name).bind fun l t ht => ?_
  refine (ht.orderly.jump cfg G [] l 0 fun hzero => Or.inr (Or.inr ⟨hzero, Or.inr hG⟩)).mono ?_
  exact fun _ _ hu => ht.andThen hu.1

theorem writes_labelCode (name : String) (home : Home StmtKind) :
    Writes cfg G [] [] (labelCode name home) := by
  intro s hs
  refine .peek_bind ?_
  split
  · refine (hs.routineLabel cfg G name).bind fun l t ht => ?_
    exact (ht.orderly.mark cfg G [] l).mono fun _ _ hu => ht.andThen hu.1
  · exact .pure (.refl hs)

/-! ## Statements without parts -/

theorem lays_echoAll (es : List Expr) : Lays 0 (fun _ => 0) (echoAll cfg es) := by
  induction es with
  | nil => exact .pure _ rfl
  | cons e rest ih =>
    rw [echoAll]
    exact (lays_lower cfg e).boxed.one.andThen fun _ => (lays_callVoid .echo).andThen fun _ => ih

theorem lays_unsetAll (es : List Expr) : Lays 0 (fun _ => 0) (unsetAll cfg es) := by
  induction es with
  | nil => exact .pure _ rfl
  | cons e rest ih =>
    intro s hs
    refine .update_bind (Ends.bind (Q := fun _ t => Laid (StoresTo s.active.Vacant) 0 0 s t) ?_ ?_)
    · exact .ensuring ((lays_lower cfg e .unset (s.openChain true) hs).mono fun _ _ ht => ht.endChain.1)
    · intro _ t ht
      exact (ih t ht.order).mono fun _ _ hu => ht.trans (hu.mono (storesTo_mono ht.vacant))

theorem lays_discarded (e : Expr) :
    Lays 0 (fun _ => 0) (do let _ ← discard (← lower cfg e .value) : Emit Chunk Unit) :=
  (lays_lower cfg e).value.andThen fun kind => (lays_discard kind (g := fun _ => 0) rfl).andThen fun _ =>
    .pure _ rfl

theorem lays_defineConstant (name : String) (e : Expr) :
    Lays 0 (fun _ => 0) (do let _ ← boxed (lower cfg e); emit (.defineConstant name) : Emit Chunk Unit) :=
  (lays_lower cfg e).boxed.one.andThen fun _ => lays_emit rfl (Nat.le_refl _) rfl nofun nofun

theorem writes_throw (e : Expr) :
    Writes cfg G [] [] (do let _ ← boxed (lower cfg e); emit .throw : Emit Chunk Unit) := by
  intro s hs
  refine (hs.lays cfg G [] (lays_lower cfg e).boxed.one).bind ?_
  rintro _ t ⟨ht, -⟩
  exact (ht.orderly.plain cfg G [] .throw rfl).mono fun _ _ hu => ht.andThen hu.1

/-! ## Clauses -/

theorem Orderly.clauseHead (hs : Orderly s) (cfg : Setting) (G : Prop) (exception : Temp) (type : String)
    (var : Option String) :
    Ends (Lowering.clauseHead exception type var) s (fun next t => Covers cfg G [next] [] [] s t)
      anyFailure := by
  refine (hs.define cfg G []).bind ?_
  rintro next s₁ ⟨h₁, -⟩
  refine (h₁.orderly.plain cfg G [] (.loadTemp exception) rfl).bind ?_
  rintro _ s₂ ⟨h₂, -⟩
  refine (h₂.orderly.plain cfg G [] (.instanceOf type) rfl).bind ?_
  rintro _ s₃ ⟨h₃, -⟩
  refine (h₃.orderly.emit cfg G [next] (.branchIfFalse next) fun _ hl => Or.inl hl).bind ?_
  rintro _ s₄ ⟨h₄, -⟩
  have htest := ((h₁.andThen h₂).andThen h₃).weaken.andThen h₄
  cases var with
  | none => exact .pure htest
  | some name =>
    refine (h₄.orderly.plain cfg G [] (.loadTemp exception) rfl).bind ?_
    rintro _ s₅ ⟨h₅, -⟩
    refine (h₅.orderly.plain cfg G [] (.storeVar name) rfl).bind ?_
    rintro _ s₆ ⟨h₆, -⟩
    exact .pure ((htest.andThen h₅.weaken).andThen h₆.weaken)

theorem writes_clauseCode (exception : Temp) (regionEnd : Label) (type : String) (var : Option String)
    (hx : Writes cfg G tries fs x) :
    Writes cfg G tries fs (clauseCode exception regionEnd type var x) := by
  intro s hs
  refine (hs.clauseHead cfg G exception type var).bind fun next t ht => ?_
  refine (hx t ht.orderly).bind fun _ u hu => ?_
  refine (hu.orderly.plain cfg G [] (.leave regionEnd) rfl).bind ?_
  rintro _ v ⟨hv, -⟩
  have hbody := ht.trans hu.weaken
  exact (hbody.andThen hv.weaken).mark.mono fun _ _ hw => hw.1

end Lowering
end PhpLowering
