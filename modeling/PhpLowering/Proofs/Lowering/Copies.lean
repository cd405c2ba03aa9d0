import PhpLowering.Proofs.Lowering.Parallel
import PhpLowering.Proofs.Tree.Paths

/-!
# The emission of a copy

Statements are emitted beside a copy of them.  Where the rules remember the same of the nodes on both sides
(`Sides.Agrees`), the copy goes on beside the original to the end, whatever the functions that are left out of
the copy contain.

**`follows_lowerStmts`** is by induction on the statements, with one lemma for each construct.  What stands
between the parts of a construct is put together in the same way on both sides, so it takes no thought.
-/

namespace PhpLowering
namespace Lowering

open Routine (Twins)

/-! ## What has to be remembered -/

/-- On both sides the same is remembered of the statements of a routine: the number of keys of its array
literals, and which of its labels a `goto` goes to. -/
structure Sides.Agrees (p : Sides) (own : List Stmt) : Prop where
  keys : ∀ {y : Stmt} {e : Expr} {tag : ExprTag} {elements : List ArrayElement}, y ∈ own → e ∈ y.exprs →
    .array tag elements ∈ e.subexprs →
      p.memory'.keyCount (.node (p.copying.node tag.id)) = p.memory.keyCount (.node tag.id)
  labels : ∀ {tag : StmtTag} {name : String}, .label tag name ∈ own →
    p.memory'.labelReferenced (.node (p.copying.node tag.id)) = p.memory.labelReferenced (.node tag.id)

/-- The same is remembered of the routine at hand and of the functions that are copied. -/
structure Sides.AgreesOn (p : Sides) (own : List Stmt) (fs : List (FunctionHead × List Stmt)) : Prop
    extends p.Agrees own where
  bodies : p.copying.bodies = true → ∀ f ∈ fs, p.Agrees (Stmt.ownOf f.2)

variable {S : Routine → Routine → Prop} {p : Sides} {cfg : Setting} {y : Stmt} {e : Expr}
  {own own' : List Stmt} {fs fs' : List (FunctionHead × List Stmt)}

theorem Sides.AgreesOn.mono (h : p.AgreesOn own fs) (hown : own' ⊆ own) (hfs : fs' ⊆ fs) : p.AgreesOn own' fs' where
  keys hy := h.keys (hown hy)
  labels hy := h.labels (hown hy)
  bodies hp f hf := h.bodies hp f (hfs hf)

theorem Sides.AgreesOn.tail (h : p.AgreesOn (y :: own) fs) : p.AgreesOn own fs :=
  h.mono (List.subset_cons_self _ _) fun _ hf => hf

theorem agreesOn_append : p.AgreesOn (own ++ own') (fs ++ fs') → p.AgreesOn own fs ∧ p.AgreesOn own' fs' :=
  fun h => ⟨h.mono (List.subset_append_left _ _) (List.subset_append_left _ _),
    h.mono (List.subset_append_right _ _) (List.subset_append_right _ _)⟩

theorem agreesOn_left (own : List Stmt) (fs : List (FunctionHead × List Stmt)) : p.left.AgreesOn own fs :=
  ⟨⟨fun _ _ _ => rfl, fun _ => rfl⟩, fun _ _ _ => ⟨fun _ _ _ => rfl, fun _ => rfl⟩⟩

/-- The code of an expression of a statement is put together in the same way as that of its copy. -/
theorem Sides.Agrees.alike (hcfg : cfg.registry = .standard) (h : p.Agrees own) (hy : y ∈ own) (he : e ∈ y.exprs) :
    Alike Chunk p.allowance cfg e (e.copy p.copying) := by
  have hpermits : p.allowance.Permits p.copying cfg.registry e.subexprs := by
    refine ⟨hcfg, fun _ => trivial, fun _ => rfl, fun {tag elements entry} hmem hentry => ?_⟩
    rw [hcfg] at hentry
    cases hentry
    exact h.keys hy he hmem
  exact ⟨hpermits.matches, paired_lower cfg p.copying e hpermits⟩

theorem Sides.Agrees.allAlike (hcfg : cfg.registry = .standard) (h : p.Agrees own) (hy : y ∈ own) {es : List Expr}
    (hes : ∀ e ∈ es, e ∈ y.exprs) :
    List.Forall₂ (Alike Chunk p.allowance cfg) es (Expr.copyAll p.copying es) := by
  induction es with
  | nil => exact .nil
  | cons e rest ih =>
    obtain ⟨he, hrest⟩ := List.forall_mem_cons.mp hes
    exact .cons (h.alike hcfg hy he) (ih hrest)

/-! ## Constructs -/

section Constructs

variable {α β : Type} {gs hs : List FunctionHead} {x y : Emit Chunk α} {body body' : Emit Chunk Unit}
  {condition condition' : Expr} {part part' : Option (Emit Chunk Unit)}

/-- Something without functions comes first. -/
theorem Follows.before {f g : α → Emit Chunk β} (hx : Follows S p [] x y) (hf : ∀ a, Follows S p gs (f a) (g a)) :
    Follows S p gs (x >>= f) (y >>= g) :=
  hx.bind hf

/-- Something without functions comes last. -/
theorem Follows.after {f g : α → Emit Chunk β} (hx : Follows S p gs x y) (hf : ∀ a, Follows S p [] (f a) (g a)) :
    Follows S p gs (x >>= f) (y >>= g) := by
  have h := hx.bind hf
  rwa [List.append_nil] at h

/-- A part that may be missing is missing on both sides or follows its copy. -/
inductive FollowsOptional (S : Routine → Routine → Prop) (p : Sides) : List FunctionHead →
    Option (Emit Chunk Unit) → Option (Emit Chunk Unit) → Prop where
  | none : FollowsOptional S p [] none none
  | some {gs : List FunctionHead} {x y : Emit Chunk Unit} (h : Follows S p gs x y) :
      FollowsOptional S p gs (some x) (some y)

variable [Twins S]

/-- What is put together in the same way comes first. -/
theorem Follows.behind {f g : α → Emit Chunk β} (hx : Paired p.allowance x y)
    (hf : ∀ a, Follows S p gs (f a) (g a)) : Follows S p gs (x >>= f) (y >>= g) :=
  hx.follows.before hf

/-- What is put together in the same way comes last. -/
theorem Follows.followed {f g : α → Emit Chunk β} (hx : Follows S p gs x y)
    (hf : ∀ a, Paired p.allowance (f a) (g a)) : Follows S p gs (x >>= f) (y >>= g) :=
  hx.after fun a => (hf a).follows

theorem follows_statement (hcfg : cfg.registry = .standard) {kind : StmtKind} {tag : StmtTag}
    {code code' : Home StmtKind → Emit Chunk Unit} {id : Nat}
    (h : Follows S p gs (code (RuleTable.stmtHome kind tag.id)) (code' (RuleTable.stmtHome kind id))) :
    Follows S p gs (statement cfg kind tag code) (statement cfg kind { tag with id } code') := by
  have hrule : Follows S p gs (byStmtRule cfg kind tag code) (byStmtRule cfg kind { tag with id } code') := by
    unfold byStmtRule
    rw [hcfg]
    refine follows_onTable (fun t ht => RuleTable.exists_stmt ht kind tag.id)
      (fun t ht => RuleTable.exists_stmt ht kind id) ?_
    dsimp only
    rw [if_pos rfl, if_pos rfl]
    exact h
  have hreporting := hrule.reporting tag.span
  unfold statement
  dsimp only
  split
  · exact (follows_sequencePoint tag.span).before fun _ => hreporting
  · exact hreporting

theorem follows_branchCode (hcondition : Alike Chunk p.allowance cfg condition condition')
    (hbody : Follows S p gs body body') (hpart : FollowsOptional S p hs part part') :
    Follows S p (gs ++ hs) (branchCode cfg condition body part) (branchCode cfg condition' body' part') := by
  unfold branchCode
  refine .behind (paired_branchHead hcondition) fun otherwise => hbody.bind fun _ => ?_
  cases hpart with
  | none => exact (Paired.mark otherwise).follows
  | some h => exact .behind (paired_elseHead otherwise) fun done => h.followed fun _ => .mark done

theorem follows_loopCode (hcondition : Alike Chunk p.allowance cfg condition condition')
    (hbody : Follows S p gs body body') :
    Follows S p gs (loopCode cfg condition body) (loopCode cfg condition' body') := by
  unfold loopCode
  exact .behind (paired_loopHead hcondition) fun loop => (hbody.thenFrame _).followed fun _ => inferInstance

theorem follows_clauseCode (exception : Temp) (regionEnd : Label) (type : String) (var : Option String)
    (hbody : Follows S p gs body body') :
    Follows S p gs (clauseCode exception regionEnd type var body) (clauseCode exception regionEnd type var body') := by
  unfold clauseCode
  exact .behind (paired_clauseHead exception type var) fun next => hbody.followed fun _ => inferInstance

theorem follows_handlersCode {clauses clauses' : Temp → Emit Chunk Unit}
    (h : ∀ exception, Follows S p gs (clauses exception) (clauses' exception)) :
    Follows S p gs (handlersCode clauses) (handlersCode clauses') := by
  unfold handlersCode
  exact .behind paired_handlersHead fun exception => (h exception).followed fun _ => inferInstance

theorem follows_cleanupCode (hasClauses : Bool) (hpart : FollowsOptional S p gs part part') :
    Follows S p gs (cleanupCode hasClauses part) (cleanupCode hasClauses part') := by
  unfold cleanupCode
  cases hpart with
  | none =>
    dsimp only
    split
    · exact .pure ()
    · exact Paired.beginFinally.follows
  | some h => exact .behind .beginFinally fun _ => h

theorem follows_regionCode {hasClauses : Bool} {clauses clauses' : Label → Temp → Emit Chunk Unit}
    {ks : List FunctionHead} (hbody : Follows S p gs body body')
    (hclauses : ∀ l t, Follows S p hs (clauses l t) (clauses' l t)) (hnone : hasClauses = false → hs = [])
    (hpart : FollowsOptional S p ks part part') :
    Follows S p (gs ++ (hs ++ ks)) (regionCode body hasClauses clauses part)
      (regionCode body' hasClauses clauses' part') := by
  have hcleanup := (follows_cleanupCode hasClauses hpart).followed fun _ => Paired.endRegion
  unfold regionCode
  refine .behind .beginTry fun regionEnd => hbody.bind fun _ => ?_
  cases hasClauses with
  | true => exact (follows_handlersCode (hclauses regionEnd)).bind fun _ => hcleanup
  | false =>
    rw [hnone rfl]
    exact hcleanup

theorem follows_tryCode {hasClauses : Bool} {clauses clauses' : Label → Temp → Emit Chunk Unit}
    {ks : List FunctionHead} (hbody : Follows S p gs body body')
    (hclauses : ∀ l t, Follows S p hs (clauses l t) (clauses' l t)) (hnone : hasClauses = false → hs = [])
    (hpart : FollowsOptional S p ks part part') :
    Follows S p (gs ++ (hs ++ ks)) (tryCode cfg body hasClauses clauses part)
      (tryCode cfg body' hasClauses clauses' part') := by
  have hregion := follows_regionCode hbody hclauses hnone hpart
  have hisNone : part'.isNone = part.isNone := by cases hpart <;> rfl
  unfold tryCode
  rw [hisNone]
  split
  · -- Nothing but the body is there.
    rename_i helided
    simp only [Bool.and_eq_true, Bool.not_eq_true'] at helided
    obtain ⟨⟨hclause, hmissing⟩, -⟩ := helided
    cases hpart with
    | none =>
      rw [hnone hclause, List.append_nil, List.append_nil]
      exact hbody
    | some => exact nomatch hmissing
  · exact .behind (.updateFrame _) fun _ => hregion.thenFrame _

end Constructs

/-! ## Statements -/

/-- The heads of functions. -/
abbrev heads (fs : List (FunctionHead × List Stmt)) : List FunctionHead :=
  fs.map Prod.fst

mutual

/-- **A statement is emitted beside its copy.** -/
theorem follows_lowerStmt [Twins S] (hcfg : cfg.registry = .standard) : ∀ (x : Stmt) (p : Sides), p.rest = true →
    p.AgreesOn x.own x.functions → Follows S p (heads x.functions) (lowerStmt cfg x) (lowerStmt cfg (x.copy p.copying))
  | .expression tag e, p, _, h => by
    have he := (h.alike hcfg (List.mem_singleton.mpr rfl) (List.mem_singleton.mpr rfl)).code
    rw [Stmt.copy, lowerStmt, lowerStmt]
    exact follows_statement hcfg (Paired.follows inferInstance)
  | .echo tag es, p, _, h => by
    rw [Stmt.copy, lowerStmt, lowerStmt]
    exact follows_statement hcfg
      (paired_echoAll (h.allAlike hcfg (List.mem_singleton.mpr rfl) fun _ he => he)).follows
  | .block tag body, p, hp, h => by
    rw [Stmt.copy, lowerStmt, lowerStmt]
    exact follows_statement hcfg (follows_lowerStmts hcfg body p hp h.tail)
  | .branch tag condition thenBody elseBody, p, hp, h => by
    have hcondition := h.alike hcfg List.mem_cons_self (List.mem_singleton.mpr rfl)
    obtain ⟨hthen, helse⟩ := agreesOn_append h.tail
    rw [Stmt.copy, lowerStmt, lowerStmt, Stmt.functions, heads, List.map_append]
    exact follows_statement hcfg (follows_branchCode hcondition (follows_lowerStmts hcfg thenBody p hp hthen)
      (follows_lowerOptional hcfg elseBody p hp helse))
  | .loop tag condition body, p, hp, h => by
    have hcondition := h.alike hcfg List.mem_cons_self (List.mem_singleton.mpr rfl)
    rw [Stmt.copy, lowerStmt, lowerStmt]
    exact follows_statement hcfg (follows_loopCode hcondition (follows_lowerStmts hcfg body p hp h.tail))
  | .jump tag kind expr, p, _, h => by
    have hexpr : Option.Rel (Alike Chunk p.allowance cfg) expr (expr.map (Expr.copy p.copying)) := by
      cases expr with
      | none => exact .none
      | some e => exact .some (h.alike hcfg (List.mem_singleton.mpr rfl) (List.mem_singleton.mpr rfl))
    rw [Stmt.copy, lowerStmt, lowerStmt]
    exact follows_statement hcfg (paired_jumpCode kind hexpr).follows
  | .goto tag name, p, _, h => by
    rw [Stmt.copy, lowerStmt, lowerStmt]
    exact follows_statement hcfg (Paired.follows inferInstance)
  | .label tag name, p, _, h => by
    rw [Stmt.copy, lowerStmt, lowerStmt]
    exact follows_statement hcfg (paired_labelCode name (h.labels (List.mem_singleton.mpr rfl))).follows
  | .tryCatch tag body catches cleanup, p, hp, h => by
    obtain ⟨hbody, hrest⟩ := agreesOn_append h.tail
    obtain ⟨hcatches, hcleanup⟩ := agreesOn_append hrest
    have hnone : (!catches.isEmpty) = false → heads (Stmt.functionsOfCatches catches) = [] := by
      cases catches with
      | nil => exact fun _ => rfl
      | cons => exact nofun
    rw [Stmt.copy, lowerStmt, lowerStmt, Stmt.isEmpty_copyCatches, Stmt.functions, heads, List.map_append,
      List.map_append]
    exact follows_statement hcfg (follows_tryCode (follows_lowerStmts hcfg body p hp hbody)
      (follows_lowerClauses hcfg catches p hp hcatches) hnone (follows_lowerOptional hcfg cleanup p hp hcleanup))
  | .throw tag e, p, _, h => by
    have he := (h.alike hcfg (List.mem_singleton.mpr rfl) (List.mem_singleton.mpr rfl)).code
    rw [Stmt.copy, lowerStmt, lowerStmt]
    exact follows_statement hcfg (Paired.follows inferInstance)
  | .unset tag targets, p, _, h => by
    rw [Stmt.copy, lowerStmt, lowerStmt]
    exact follows_statement hcfg
      (paired_unsetAll (h.allAlike hcfg (List.mem_singleton.mpr rfl) fun _ he => he)).follows
  | .constDecl tag name value, p, _, h => by
    have he := (h.alike hcfg (List.mem_singleton.mpr rfl) (List.mem_singleton.mpr rfl)).code
    rw [Stmt.copy, lowerStmt, lowerStmt]
    exact follows_statement hcfg (Paired.follows inferInstance)
  | .function tag head body dead, p, hp, h => by
    rw [Stmt.copy, lowerStmt, lowerStmt, Stmt.functions, heads, List.map_append]
    refine follows_statement hcfg ?_
    cases hbodies : p.copying.bodies with
    | true =>
      have hbody : p.AgreesOn (Stmt.ownOf body) (Stmt.functionsOf body) :=
        ⟨h.bodies hbodies (head, body) (by simp [Stmt.functions]),
          fun hp f hf => h.bodies hp f (by simp [Stmt.functions, hf])⟩
      exact (follows_lowerStmts hcfg body p hp hbody).function head
    | false => exact .emptied hbodies hp (follows_lowerStmts hcfg body p.left hp (agreesOn_left _ _)) head
  | .empty tag kind, p, _, h => by
    rw [Stmt.copy, lowerStmt, lowerStmt]
    exact follows_statement hcfg (.pure ())
termination_by structural x => x

/-- **Statements are emitted beside their copies.** -/
theorem follows_lowerStmts [Twins S] (hcfg : cfg.registry = .standard) : ∀ (xs : List Stmt) (p : Sides), p.rest = true →
    p.AgreesOn (Stmt.ownOf xs) (Stmt.functionsOf xs) →
      Follows S p (heads (Stmt.functionsOf xs)) (lowerStmts cfg xs) (lowerStmts cfg (Stmt.copyOf p.copying xs))
  | [], p, _, _ => by
    rw [Stmt.copyOf, lowerStmts]
    exact .pure ()
  | x :: rest, p, hp, h => by
    obtain ⟨hx, hrest⟩ := agreesOn_append h
    rw [Stmt.copyOf, lowerStmts, lowerStmts, Stmt.functionsOf, heads, List.map_append]
    exact (follows_lowerStmt hcfg x p hp hx).bind fun _ => follows_lowerStmts hcfg rest p hp hrest
termination_by structural xs => xs

theorem follows_lowerOptional [Twins S] (hcfg : cfg.registry = .standard) : ∀ (part : Option (List Stmt)) (p : Sides),
    p.rest = true → p.AgreesOn (Stmt.ownOfOptional part) (Stmt.functionsOfOptional part) →
      FollowsOptional S p (heads (Stmt.functionsOfOptional part)) (lowerOptional cfg part)
        (lowerOptional cfg (Stmt.copyOptional p.copying part))
  | none, _, _, _ => .none
  | some body, p, hp, h => .some (follows_lowerStmts hcfg body p hp h)
termination_by structural part => part

theorem follows_lowerClauses [Twins S] (hcfg : cfg.registry = .standard) : ∀ (catches : List Catch) (p : Sides),
    p.rest = true → p.AgreesOn (Stmt.ownOfCatches catches) (Stmt.functionsOfCatches catches) →
      ∀ regionEnd exception, Follows S p (heads (Stmt.functionsOfCatches catches))
        (lowerClauses cfg catches regionEnd exception)
        (lowerClauses cfg (Stmt.copyCatches p.copying catches) regionEnd exception)
  | [], p, _, _, _, _ => by
    rw [Stmt.copyCatches, lowerClauses]
    exact .pure ()
  | .clause span type var body resolved :: rest, p, hp, h, regionEnd, exception => by
    obtain ⟨hbody, hrest⟩ := agreesOn_append h
    rw [Stmt.copyCatches, lowerClauses, lowerClauses, Stmt.functionsOfCatches, heads, List.map_append]
    exact (follows_clauseCode exception regionEnd _ var (follows_lowerStmts hcfg body p hp hbody)).bind
      fun _ => follows_lowerClauses hcfg rest p hp hrest regionEnd exception
termination_by structural catches => catches

end

end Lowering
end PhpLowering
