import PhpLowering.Proofs.Tree.Routine
import PhpLowering.Proofs.Tree.Value
import PhpLowering.Text.Ascii
import PhpLowering.Tree.Walk

/-!
# The paths through a unit

`Runs known functions entry body trace out` says that the statements `body` can be run so that those
in `trace` are executed, in this order, and that the run ends with `out`.  It begins at the first
statement, or at a label in or within the statements.  One of the ends is to have come to a
statement, so that a path to a statement is a run too.

A condition that has no value ahead of time may go either way, and a statement that calls a function
runs its body first.  An exception may come up in any statement and be handled by any clause around
it, and a `break` or `continue` may leave more loops than one.  So there is a run for everything that
a program does, and for some things that it does not.

**`Runs.executed`**: if a statement stands everywhere behind a declaration, in the same list of
statements or within one, and no label is in between, then every path to it has executed the
declaration.
-/

namespace PhpLowering

/-- The statements of a clause. -/
def Catch.handler : Catch → List Stmt
  | .clause _ _ _ body _ => body

namespace Stmt

/-- The expressions of a statement, without those of the statements in it. -/
def exprs : Stmt → List Expr
  | .expression _ e | .throw _ e | .constDecl _ _ e | .branch _ e _ _ | .loop _ e _ => [e]
  | .echo _ es | .unset _ es => es
  | .jump _ _ e => e.toList
  | .block .. | .goto .. | .label .. | .tryCatch .. | .function .. | .empty .. => []

/-- The lists of statements in a statement, as far as they belong to its routine. -/
def parts : Stmt → List (List Stmt)
  | .block _ body | .loop _ _ body => [body]
  | .branch _ _ thenBody elseBody => thenBody :: elseBody.toList
  | .tryCatch _ body catches cleanup => body :: (catches.map Catch.handler ++ cleanup.toList)
  | .expression .. | .echo .. | .jump .. | .goto .. | .label .. | .throw .. | .unset ..
  | .constDecl .. | .function .. | .empty .. => []

/-- Whether a statement is executed in one step, after which the next one follows. -/
def isStep : Stmt → Bool
  | .expression .. | .echo .. | .label .. | .unset .. | .constDecl .. | .function .. | .empty .. => true
  | .block .. | .branch .. | .loop .. | .jump .. | .goto .. | .tryCatch .. | .throw .. => false

theorem mem_ownOfOptional {z : Stmt} {part : Option (List Stmt)} :
    z ∈ ownOfOptional part ↔ ∃ body ∈ part.toList, z ∈ ownOf body := by
  cases part <;> simp [ownOfOptional]

theorem mem_ownOfCatches {z : Stmt} {catches : List Catch} :
    z ∈ ownOfCatches catches ↔ ∃ body ∈ catches.map Catch.handler, z ∈ ownOf body := by
  induction catches with
  | nil => simp [ownOfCatches]
  | cons clause rest ih =>
    obtain ⟨span, type, var, body, resolved⟩ := clause
    simp [ownOfCatches, ih, Catch.handler]

/-- What belongs to the routine of a statement is the statement and what is in its parts. -/
theorem mem_own {x z : Stmt} : z ∈ own x ↔ z = x ∨ ∃ part ∈ x.parts, z ∈ ownOf part := by
  cases x <;> simp [own, parts, mem_ownOfOptional, mem_ownOfCatches, or_and_right, exists_or]

theorem handler_mem_parts {tag : StmtTag} {body : List Stmt} {catches : List Catch}
    {cleanup : Option (List Stmt)} {clause : Catch} (h : clause ∈ catches) :
    clause.handler ∈ (Stmt.tryCatch tag body catches cleanup).parts :=
  List.mem_cons_of_mem _ (List.mem_append_left _ (List.mem_map_of_mem h))

theorem mem_ownOf {body : List Stmt} {z : Stmt} : z ∈ ownOf body ↔ ∃ x ∈ body, z ∈ own x := by
  induction body with
  | nil => simp [ownOf]
  | cons x rest ih => simp [ownOf, ih]

theorem mem_ownOf_singleton {x z : Stmt} : z ∈ ownOf [x] ↔ z ∈ own x := by
  simp [mem_ownOf]

end Stmt

/-- How a run of statements ends, or where it has come to. -/
inductive Exit where
  /-- All is done. -/
  | done
  /-- A loop or the routine is being left. -/
  | jump (kind : JumpKind)
  /-- An exception has come up. -/
  | thrown
  /-- The run goes on at a label. -/
  | goto (label : String)
  /-- The run has come to a statement. -/
  | arrived (x : Stmt)

namespace Exit

/-- What is run behind a `try` that ends in some way. -/
def cleanup (out : Exit) (cleanup : Option (List Stmt)) : List Stmt :=
  match out with
  | .arrived _ => []
  | _ => cleanup.getD []

/-- How a `try` ends that is followed by its cleanup. -/
def after : Exit → Exit → Exit
  | .arrived x, _ => .arrived x
  | out, .done => out
  | _, out' => out'

theorem eq_or_eq_of_after {out out' : Exit} {y : Stmt} (h : out.after out' = .arrived y) :
    out = .arrived y ∨ out' = .arrived y := by
  cases out <;> cases out' <;> simp_all [after]

end Exit

section

variable (known : String → Option Literal) (functions : List (FunctionHead × List Stmt))

/-- Whether a condition can turn out this way. -/
def Expr.MayBe (condition : Expr) (b : Bool) : Prop :=
  ∀ v, condition.eval? known = some v → v.toBool = b

/-- A statement calls a function with this body. -/
def Stmt.Calls (x : Stmt) (body : List Stmt) : Prop :=
  ∃ head e tag name args, (head, body) ∈ functions ∧ e ∈ x.exprs ∧ .call tag name args ∈ e.subexprs ∧
    Text.foldCase head.name = Text.foldCase (Text.globalName name)

/-- The runs of statements. -/
inductive Runs : Option String → List Stmt → List Stmt → Exit → Prop where
  | nil : Runs none [] [] .done
  | seq {entry x rest tr tr' out} (hx : Runs entry [x] tr .done) (hrest : Runs none rest tr' out) :
    Runs entry (x :: rest) (tr ++ tr') out
  | stop {entry x rest tr out} (hx : Runs entry [x] tr out) (hout : out ≠ .done) :
    Runs entry (x :: rest) tr out
  | skip {l x rest tr out} (hrest : Runs (some l) rest tr out) : Runs (some l) (x :: rest) tr out
  | goto {entry body tr l tr' out} (hgoto : Runs entry body tr (.goto l))
    (hon : Runs (some l) body tr' out) : Runs entry body (tr ++ tr') out
  | arrive (x) : Runs none [x] [] (.arrived x)
  | throw (x) : Runs none [x] [] .thrown
  | step {x} (hx : x.isStep = true) : Runs none [x] [x] .done
  | callStops {x body tr y} (hcalls : x.Calls functions body) (hbody : Runs none body tr (.arrived y)) :
    Runs none [x] tr (.arrived y)
  | callReturns {x body tr out tr' out'} (hcalls : x.Calls functions body)
    (hbody : Runs none body tr out) (hreturns : ∀ y, out ≠ .arrived y) (hx : Runs none [x] tr' out') :
    Runs none [x] (tr ++ tr') out'
  | jumpOut (tag kind e) : Runs none [.jump tag kind e] [.jump tag kind e] (.jump kind)
  | gotoOut (tag l) : Runs none [.goto tag l] [.goto tag l] (.goto l)
  | label (tag l) : Runs (some l) [.label tag l] [.label tag l] .done
  | block {entry tag body tr out} (hbody : Runs entry body tr out) : Runs entry [.block tag body] tr out
  | thenPart {entry tag condition thenBody elseBody tr out}
    (hcondition : entry = none → condition.MayBe known true) (hbody : Runs entry thenBody tr out) :
    Runs entry [.branch tag condition thenBody elseBody] tr out
  | elsePart {entry tag condition thenBody elseBody tr out}
    (hcondition : entry = none → condition.MayBe known false) (hbody : Runs entry elseBody tr out) :
    Runs entry [.branch tag condition thenBody (some elseBody)] tr out
  | noElse {tag condition thenBody} (hcondition : condition.MayBe known false) :
    Runs none [.branch tag condition thenBody none] [] .done
  | loopDone {tag condition body} (hcondition : condition.MayBe known false) :
    Runs none [.loop tag condition body] [] .done
  | loopAgain {entry tag condition body tr out tr' out'}
    (hcondition : entry = none → condition.MayBe known true) (hbody : Runs entry body tr out)
    (hout : out = .done ∨ out = .jump .continue) (hagain : Runs none [.loop tag condition body] tr' out') :
    Runs entry [.loop tag condition body] (tr ++ tr') out'
  | loopLeft {entry tag condition body tr}
    (hcondition : entry = none → condition.MayBe known true) (hbody : Runs entry body tr (.jump .break)) :
    Runs entry [.loop tag condition body] tr .done
  | loopOut {entry tag condition body tr out}
    (hcondition : entry = none → condition.MayBe known true) (hbody : Runs entry body tr out)
    (hout : out ≠ .done) : Runs entry [.loop tag condition body] tr out
  | tryBody {entry tag body catches cleanup tr out tr' out'} (hbody : Runs entry body tr out)
    (hcleanup : Runs none (out.cleanup cleanup) tr' out') :
    Runs entry [.tryCatch tag body catches cleanup] (tr ++ tr') (out.after out')
  | tryCaught {entry tag body catches cleanup clause tr tr' out tr'' out'}
    (hbody : Runs entry body tr .thrown) (hclause : clause ∈ catches)
    (hhandler : Runs none clause.handler tr' out) (hcleanup : Runs none (out.cleanup cleanup) tr'' out') :
    Runs entry [.tryCatch tag body catches cleanup] (tr ++ (tr' ++ tr'')) (out.after out')
  | intoClause {l tag body catches cleanup clause tr out tr' out'} (hclause : clause ∈ catches)
    (hhandler : Runs (some l) clause.handler tr out) (hcleanup : Runs none (out.cleanup cleanup) tr' out') :
    Runs (some l) [.tryCatch tag body catches cleanup] (tr ++ tr') (out.after out')
  | intoCleanup {l tag body catches cleanup tr out} (hcleanup : Runs (some l) cleanup tr out) :
    Runs (some l) [.tryCatch tag body catches (some cleanup)] tr out

end

namespace Runs

variable {known : String → Option Literal} {functions : List (FunctionHead × List Stmt)}
  {entry : Option String} {body tr : List Stmt} {out : Exit} {l : String}

theorem label_of_part {x : Stmt} {part : List Stmt} (hpart : part ∈ x.parts)
    (h : ∃ z ∈ Stmt.ownOf part, z.label? = some l) : ∃ z ∈ Stmt.ownOf [x], z.label? = some l := by
  obtain ⟨z, hz, hlabel⟩ := h
  exact ⟨z, Stmt.mem_ownOf_singleton.mpr (Stmt.mem_own.mpr (Or.inr ⟨part, hpart, hz⟩)), hlabel⟩

/-- A run that begins at a label begins in statements that have it. -/
theorem begins (h : Runs known functions entry body tr out) (hentry : entry = some l) :
    ∃ z ∈ Stmt.ownOf body, z.label? = some l := by
  induction h with
  | nil | arrive | throw | step | callStops | callReturns | jumpOut | gotoOut | noElse | loopDone =>
    exact nomatch hentry
  | seq _ _ ihx _ | stop _ _ ihx =>
    obtain ⟨z, hz, hlabel⟩ := ihx hentry
    exact ⟨z, List.mem_append_left _ (Stmt.mem_ownOf_singleton.mp hz), hlabel⟩
  | skip _ ih =>
    obtain ⟨z, hz, hlabel⟩ := ih hentry
    exact ⟨z, List.mem_append_right _ hz, hlabel⟩
  | goto _ _ ih _ => exact ih hentry
  | label tag l' => exact ⟨_, List.mem_cons_self, hentry⟩
  | block _ ih => exact label_of_part (by simp [Stmt.parts]) (ih hentry)
  | thenPart _ _ ih | loopLeft _ _ ih => exact label_of_part (by simp [Stmt.parts]) (ih hentry)
  | elsePart _ _ ih => exact label_of_part (by simp [Stmt.parts]) (ih hentry)
  | loopAgain _ _ _ _ ih _ => exact label_of_part (by simp [Stmt.parts]) (ih hentry)
  | loopOut _ _ _ ih => exact label_of_part (by simp [Stmt.parts]) (ih hentry)
  | tryBody _ _ ih _ => exact label_of_part (by simp [Stmt.parts]) (ih hentry)
  | tryCaught _ _ _ _ ih _ _ => exact label_of_part (by simp [Stmt.parts]) (ih hentry)
  | intoClause hclause _ _ ih _ =>
    exact label_of_part (Stmt.handler_mem_parts hclause) (ih hentry)
  | intoCleanup _ ih => exact label_of_part (by simp [Stmt.parts]) (ih hentry)

/-- A declaration that a run gets past has been executed. -/
theorem executed_of_done {tag : StmtTag} {name : String} {value : Expr}
    (h : Runs known functions entry [.constDecl tag name value] tr .done) :
    .constDecl tag name value ∈ tr := by
  generalize hbody : [Stmt.constDecl tag name value] = body at h
  generalize hout : Exit.done = out at h
  induction h with
  | step => exact hbody ▸ List.mem_cons_self
  | seq _ _ ihx _ =>
    cases hbody
    exact List.mem_append_left _ (ihx rfl rfl)
  | stop _ hnot => exact absurd hout.symm hnot
  | skip hrest =>
    cases hbody
    obtain ⟨z, hz, -⟩ := hrest.begins rfl
    exact nomatch hz
  | goto _ hon =>
    subst hbody
    obtain ⟨z, hz, hlabel⟩ := hon.begins rfl
    rw [List.mem_singleton.mp hz] at hlabel
    exact nomatch hlabel
  | callReturns _ _ _ _ _ ih => exact List.mem_append_right _ (ih hbody hout)
  | arrive | throw | callStops => exact nomatch hout
  | _ => exact nomatch hbody

end Runs

/-! ## Statements behind a declaration -/

/-- A statement stands in front of all labels of statements, and nowhere else. -/
def InFront (y : Stmt) (body : List Stmt) : Prop :=
  ∃ front rest, body = front ++ rest ∧ (∀ z ∈ Stmt.ownOf front, z.label? = none) ∧ y ∉ Stmt.ownOf rest

/-- Wherever a statement `y` stands in statements, it stands behind `d` in a list of them, or within
one that does, and there is no label in between. -/
inductive Behind (d y : Stmt) : List Stmt → Prop where
  | absent {body} (h : y ∉ Stmt.ownOf body) : Behind d y body
  | found {rest} (hd : d ≠ y) (h : InFront y rest) : Behind d y (d :: rest)
  | cons {x rest} (hx : x ≠ y) (hparts : ∀ part ∈ x.parts, Behind d y part) (hrest : Behind d y rest) :
    Behind d y (x :: rest)

/-- Statements cannot be entered so that `y` is come to and `d` is not. -/
def Covered (d y : Stmt) (entry : Option String) (body : List Stmt) : Prop :=
  Behind d y body ∨ entry ≠ none ∧ InFront y body

section

variable {known : String → Option Literal} {functions : List (FunctionHead × List Stmt)}
  {entry : Option String} {body tr : List Stmt} {out : Exit} {d x y : Stmt} {inner rest : List Stmt}

theorem Behind.part (h : Behind d y [x]) (hd : d.parts = []) (hpart : inner ∈ x.parts) : Behind d y inner := by
  cases h with
  | absent h =>
    refine .absent fun hy => h (Stmt.mem_ownOf_singleton.mpr (Stmt.mem_own.mpr (Or.inr ⟨inner, hpart, hy⟩)))
  | found =>
    rw [hd] at hpart
    exact nomatch hpart
  | cons _ hparts _ => exact hparts inner hpart

theorem behind_nil : Behind d y [] :=
  .absent nofun

/-- What is run behind a `try` is one of its parts, or nothing. -/
theorem Behind.cleanup {tag : StmtTag} {body : List Stmt} {catches : List Catch} {cleanup : Option (List Stmt)}
    (h : Behind d y [.tryCatch tag body catches cleanup]) (hd : d.parts = []) (out : Exit) :
    Behind d y (out.cleanup cleanup) := by
  unfold Exit.cleanup
  split
  · exact behind_nil
  · cases cleanup with
    | none => exact behind_nil
    | some part => exact h.part hd (by simp [Stmt.parts])

/-- A single statement that is entered, from the beginning or at a label, is behind the declaration. -/
theorem Covered.single (h : Covered d y entry [x])
    (hbegins : ∀ l, entry = some l → ∃ z ∈ Stmt.ownOf [x], z.label? = some l) : Behind d y [x] := by
  rcases h with h | ⟨hentry, front, rest, hsplit, hlabels, hrest⟩
  · exact h
  · obtain ⟨l, hl⟩ := Option.ne_none_iff_exists'.mp hentry
    obtain ⟨z, hz, hlabel⟩ := hbegins l hl
    cases front with
    | nil => exact .absent (hsplit ▸ hrest)
    | cons x' front =>
      have hempty : front ++ rest = [] := (List.cons.inj hsplit).2.symm
      rw [hsplit, List.cons_append, hempty] at hz
      rw [(List.append_eq_nil_iff.mp hempty).1] at hlabels
      rw [hlabels z hz] at hlabel
      exact nomatch hlabel

/-- The first of several statements. -/
theorem Covered.head (h : Covered d y entry (x :: rest)) (hd : d.parts = []) :
    Covered d y entry [x] := by
  rcases h with h | ⟨hentry, front, rest', hsplit, hlabels, hrest⟩
  · cases h with
    | absent h => exact Or.inl (.absent fun hy => h (List.mem_append_left _ (Stmt.mem_ownOf_singleton.mp hy)))
    | found hne _ =>
      refine Or.inl (.cons hne (fun part hpart => ?_) behind_nil)
      rw [hd] at hpart
      exact nomatch hpart
    | cons hx hparts _ => exact Or.inl (.cons hx hparts behind_nil)
  · refine Or.inr ⟨hentry, ?_⟩
    cases front with
    | nil =>
      refine ⟨[], [x], rfl, fun _ hz => absurd hz List.not_mem_nil, fun hy => hrest ?_⟩
      rw [← List.nil_append rest', ← hsplit]
      exact List.mem_append_left _ (Stmt.mem_ownOf_singleton.mp hy)
    | cons x' front =>
      cases hsplit
      exact ⟨[x], [], rfl, fun z hz => hlabels z (List.mem_append_left _ (Stmt.mem_ownOf_singleton.mp hz)), nofun⟩

/-- The statements behind one that has been run to its end. -/
theorem Covered.tail (h : Covered d y entry (x :: rest)) (hx : Runs known functions entry [x] tr .done) :
    x = d ∨ Behind d y rest := by
  rcases h with h | ⟨hentry, front, rest', hsplit, hlabels, hrest⟩
  · cases h with
    | absent h => exact Or.inr (.absent fun hy => h (List.mem_append_right _ hy))
    | found => exact Or.inl rfl
    | cons _ _ hrest => exact Or.inr hrest
  · obtain ⟨l, rfl⟩ := Option.ne_none_iff_exists'.mp hentry
    obtain ⟨z, hz, hlabel⟩ := hx.begins rfl
    cases front with
    | nil =>
      refine Or.inr (.absent fun hy => hrest ?_)
      rw [← List.nil_append rest', ← hsplit]
      exact List.mem_append_right _ hy
    | cons x' front =>
      cases hsplit
      rw [hlabels z (List.mem_append_left _ (Stmt.mem_ownOf_singleton.mp hz))] at hlabel
      exact nomatch hlabel

/-- The statements behind one that is skipped on the way to a label. -/
theorem Covered.skip {l : String} (h : Covered d y (some l) (x :: rest)) : Covered d y (some l) rest := by
  rcases h with h | ⟨hentry, front, rest', hsplit, hlabels, hrest⟩
  · cases h with
    | absent h => exact Or.inl (.absent fun hy => h (List.mem_append_right _ hy))
    | found _ h => exact Or.inr ⟨nofun, h⟩
    | cons _ _ hrest => exact Or.inl hrest
  · cases front with
    | nil =>
      refine Or.inl (.absent fun hy => hrest ?_)
      rw [← List.nil_append rest', ← hsplit]
      exact List.mem_append_right _ hy
    | cons x' front =>
      cases hsplit
      exact Or.inr ⟨hentry, front, rest', rfl, fun z hz => hlabels z (List.mem_append_right _ hz), hrest⟩

/-- A statement that is run through one of its parts is behind the declaration. -/
theorem Covered.enter (h : Covered d y entry [x]) (hpart : inner ∈ x.parts)
    (hinner : Runs known functions entry inner tr out) : Behind d y [x] :=
  h.single fun _ hl => Runs.label_of_part hpart (hinner.begins hl)

/-- **Every path to a statement that stands behind a declaration has executed the declaration.** -/
theorem Runs.executed {tag : StmtTag} {name : String} {value : Expr} (hd : d = .constDecl tag name value)
    (hfunctions : ∀ f ∈ functions, Behind d y f.2)
    (h : Runs known functions entry body tr out) (hout : out = .arrived y) (hcovered : Covered d y entry body) :
    d ∈ tr := by
  have hparts : d.parts = [] := by rw [hd]; rfl
  -- The run may come to `y` in any of its steps; each is covered because the whole is.
  induction h with
  | nil | throw | step | jumpOut | gotoOut | label | noElse | loopDone | loopLeft => exact nomatch hout
  | arrive x =>
    have hbehind := hcovered.single nofun
    cases hout
    cases hbehind with
    | absent h => exact (h (Stmt.mem_ownOf_singleton.mpr (Stmt.mem_own.mpr (Or.inl rfl)))).elim
    | found hne _ => exact (hne rfl).elim
    | cons hx _ _ => exact (hx rfl).elim
  | seq hx _ _ ih =>
    rcases hcovered.tail hx with rfl | hrest
    · subst hd
      exact List.mem_append_left _ (executed_of_done hx)
    · exact List.mem_append_right _ (ih hout (Or.inl hrest))
  | stop _ _ ih => exact ih hout (hcovered.head hparts)
  | skip _ ih => exact ih hout hcovered.skip
  | goto _ _ _ ih =>
    refine List.mem_append_right _ (ih hout ?_)
    exact hcovered.imp_right fun h => ⟨nofun, h.2⟩
  | callStops hcalls _ ih =>
    obtain ⟨head, -, -, -, -, hmem, -⟩ := hcalls
    exact ih hout (Or.inl (hfunctions _ hmem))
  | callReturns _ _ _ _ _ ih => exact List.mem_append_right _ (ih hout hcovered)
  | block hbody ih | thenPart _ hbody ih | elsePart _ hbody ih | loopOut _ hbody _ ih =>
    have hpart := hcovered.enter (by simp [Stmt.parts]) hbody
    exact ih hout (Or.inl (hpart.part hparts (by simp [Stmt.parts])))
  | loopAgain _ hbody _ _ _ ih =>
    have hloop := hcovered.enter (by simp [Stmt.parts]) hbody
    exact List.mem_append_right _ (ih hout (Or.inl hloop))
  | tryBody hbody _ ihbody ihcleanup =>
    have htry := hcovered.enter (by simp [Stmt.parts]) hbody
    rcases Exit.eq_or_eq_of_after hout with hout | hout
    · exact List.mem_append_left _ (ihbody hout (Or.inl (htry.part hparts (by simp [Stmt.parts]))))
    · exact List.mem_append_right _ (ihcleanup hout (Or.inl (htry.cleanup hparts _)))
  | tryCaught hbody hclause _ _ _ ihhandler ihcleanup =>
    have htry := hcovered.enter (by simp [Stmt.parts]) hbody
    refine List.mem_append_right _ ?_
    rcases Exit.eq_or_eq_of_after hout with hout | hout
    · exact List.mem_append_left _ (ihhandler hout (Or.inl (htry.part hparts (Stmt.handler_mem_parts hclause))))
    · exact List.mem_append_right _ (ihcleanup hout (Or.inl (htry.cleanup hparts _)))
  | intoClause hclause hhandler _ ihhandler ihcleanup =>
    have htry := hcovered.enter (Stmt.handler_mem_parts hclause) hhandler
    rcases Exit.eq_or_eq_of_after hout with hout | hout
    · exact List.mem_append_left _ (ihhandler hout (Or.inl (htry.part hparts (Stmt.handler_mem_parts hclause))))
    · exact List.mem_append_right _ (ihcleanup hout (Or.inl (htry.cleanup hparts _)))
  | intoCleanup hcleanup ih =>
    have hpart := hcovered.enter (by simp [Stmt.parts]) hcleanup
    exact ih hout (Or.inl (hpart.part hparts (by simp [Stmt.parts])))

end

/-! ## The executions of statements

`x.Executes may out` says that the statement `x` can be executed from its beginning so that it ends
with `out`, and `Stmt.ExecutesAll` says the same of statements in order.  What a condition comes to is
given from outside: `may e b` says that the condition `e` can turn out as `b`.

All else is left open.  An exception can come up in every statement, and any clause around it may
handle it, or none.  A `break` or `continue` goes to the loop around it or leaves that one too.  The
cleanup of a `try` is executed however the rest has ended; it passes that on if it is done, and takes
its place otherwise.  A jump and a `throw` are never done.

Only a loop goes back, so these are all executions of a routine without `goto`.
-/

namespace Stmt

mutual

/-- The executions of a statement. -/
inductive Executes (may : Expr → Bool → Prop) : Stmt → Exit → Prop where
  | throws (x) : Executes may x .thrown
  | step {x} (hx : x.isStep = true) : Executes may x .done
  | jump (tag kind e) : Executes may (.jump tag kind e) (.jump kind)
  | goto (tag l) : Executes may (.goto tag l) (.goto l)
  | block {tag body out} (hbody : ExecutesAll may body out) : Executes may (.block tag body) out
  | thenPart {tag condition thenBody elseBody out} (hcondition : may condition true)
    (hbody : ExecutesAll may thenBody out) : Executes may (.branch tag condition thenBody elseBody) out
  | elsePart {tag condition thenBody elseBody out} (hcondition : may condition false)
    (hbody : ExecutesAll may elseBody out) : Executes may (.branch tag condition thenBody (some elseBody)) out
  | noElse {tag condition thenBody} (hcondition : may condition false) :
    Executes may (.branch tag condition thenBody none) .done
  | loopDone {tag condition body} (hcondition : may condition false) :
    Executes may (.loop tag condition body) .done
  | loopAgain {tag condition body out out'} (hcondition : may condition true)
    (hbody : ExecutesAll may body out) (hout : out = .done ∨ out = .jump .continue)
    (hagain : Executes may (.loop tag condition body) out') : Executes may (.loop tag condition body) out'
  | loopLeft {tag condition body} (hcondition : may condition true)
    (hbody : ExecutesAll may body (.jump .break)) : Executes may (.loop tag condition body) .done
  | loopOut {tag condition body out} (hcondition : may condition true) (hbody : ExecutesAll may body out)
    (hout : out ≠ .done) : Executes may (.loop tag condition body) out
  | uncaught {tag body catches cleanup out out'} (hbody : ExecutesAll may body out)
    (hcleanup : ExecutesAll may (cleanup.getD []) out') :
    Executes may (.tryCatch tag body catches cleanup) (out.after out')
  | caught {tag body catches cleanup clause out out'} (hbody : ExecutesAll may body .thrown)
    (hclause : clause ∈ catches) (hhandler : ExecutesAll may clause.handler out)
    (hcleanup : ExecutesAll may (cleanup.getD []) out') :
    Executes may (.tryCatch tag body catches cleanup) (out.after out')

/-- The executions of statements in order. -/
inductive ExecutesAll (may : Expr → Bool → Prop) : List Stmt → Exit → Prop where
  | nil : ExecutesAll may [] .done
  | seq {x rest out} (hx : Executes may x .done) (hrest : ExecutesAll may rest out) :
    ExecutesAll may (x :: rest) out
  | stop {x rest out} (hx : Executes may x out) (hout : out ≠ .done) : ExecutesAll may (x :: rest) out

end

/-- The condition under which a list of statements in a branch or loop is executed. -/
inductive Guards : Stmt → Expr → Bool → List Stmt → Prop where
  | thenPart (tag condition thenBody elseBody) :
    Guards (.branch tag condition thenBody elseBody) condition true thenBody
  | elsePart (tag condition thenBody elseBody) :
    Guards (.branch tag condition thenBody (some elseBody)) condition false elseBody
  | loop (tag condition body) : Guards (.loop tag condition body) condition true body

variable {may : Expr → Bool → Prop} {rest : List Stmt} {x : Stmt}

theorem executesAll_cons_done (h : ExecutesAll may (x :: rest) .done) :
    x.Executes may .done ∧ ExecutesAll may rest .done := by
  cases h with
  | seq hx hrest => exact ⟨hx, hrest⟩
  | stop _ hout => exact (hout rfl).elim

/-- A `try` is only done if its cleanup is. -/
theorem executesAll_cleanup_of_done {tag : StmtTag} {body : List Stmt} {catches : List Catch}
    {cleanup : Option (List Stmt)} (h : (Stmt.tryCatch tag body catches cleanup).Executes may .done) :
    ExecutesAll may (cleanup.getD []) .done := by
  have hafter {out out' : Exit} (heq : out.after out' = .done) : out' = .done := by
    cases out <;> cases out' <;> first | rfl | exact nomatch heq
  have hends : ∀ out, (Stmt.tryCatch tag body catches cleanup).Executes may out → out = .done →
      ExecutesAll may (cleanup.getD []) .done := by
    intro out h hout
    cases h with
    | throws => exact nomatch hout
    | step hx => exact nomatch hx
    | uncaught _ hcleanup | caught _ _ _ hcleanup =>
      rw [hafter hout] at hcleanup
      exact hcleanup
  exact hends .done h rfl

end Stmt
end PhpLowering
