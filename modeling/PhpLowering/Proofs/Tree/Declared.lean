import Mathlib.Data.List.Find
import Mathlib.Data.List.Induction
import PhpLowering.Declarations
import PhpLowering.Proofs.Tree.Routine

/-!
# The functions that a tree declares

The heads of the functions in a tree stand among its nodes, an outer function before those in it; they are
the heads of the functions that are completed in the emission, in another order (`perm_heads_nodesOf`).

The declarations are collected one after another, in that order (`collect_eq_foldl`).  So what every declaration
preserves holds of what is collected (`invariant_collect`), and every function is found under its folded name.  If all
names are different and none is known from outside, all functions are collected, and nothing is reported (`collect_eq`).
-/

namespace PhpLowering
namespace Node

/-- The head of a function declaration. -/
def head? : Node → Option FunctionHead
  | .stmt (.function _ head _ _) => some head
  | _ => none

/-- The heads of the functions declared among nodes. -/
def heads (nodes : List Node) : List FunctionHead :=
  nodes.filterMap head?

@[simp] theorem heads_nil : heads [] = [] := rfl

@[simp] theorem heads_append (xs ys : List Node) : heads (xs ++ ys) = heads xs ++ heads ys :=
  List.filterMap_append

theorem heads_cons (n : Node) (xs : List Node) : heads (n :: xs) = n.head?.toList ++ heads xs := by
  unfold heads
  cases h : n.head? with
  | none => rw [List.filterMap_cons_none h]; rfl
  | some head => rw [List.filterMap_cons_some h]; rfl

/-- Nothing is declared in an expression. -/
@[simp] theorem heads_nodes (e : Expr) : heads e.nodes = [] :=
  List.filterMap_eq_nil_iff.mpr fun _ hn => by
    obtain ⟨e', -, rfl⟩ := List.mem_map.mp hn
    rfl

@[simp] theorem heads_flatMap_nodes (es : List Expr) : heads (es.flatMap Expr.nodes) = [] := by
  induction es with
  | nil => rfl
  | cons e rest ih => rw [List.flatMap_cons, heads_append, heads_nodes, ih]; rfl

end Node

/-- A declaration of a function. -/
structure Declaration where
  head : FunctionHead
  span : Span
  /-- It takes effect only if the code around it runs. -/
  conditional : Bool

namespace Stmt

open Node (heads)

mutual

theorem perm_heads_nodes : ∀ x : Stmt, (x.functions.map Prod.fst).Perm (heads x.nodes)
  | .function tag head body dead => by
    rw [functions, nodes, List.map_append, Node.heads_cons]
    exact (List.perm_append_singleton _ _).trans ((perm_heads_nodesOf body).cons head)
  | .block _ body => perm_heads_nodesOf body
  | .loop _ _ body => by
    simpa [functions, nodes, Node.heads_cons, Node.head?] using perm_heads_nodesOf body
  | .branch _ _ thenBody elseBody => by
    simpa [functions, nodes, Node.heads_cons, Node.head?] using
      (perm_heads_nodesOf thenBody).append (perm_heads_nodesOfOptional elseBody)
  | .tryCatch _ body catches cleanup => by
    simpa [functions, nodes, Node.heads_cons, Node.head?] using
      (perm_heads_nodesOf body).append ((perm_heads_nodesOfCatches catches).append (perm_heads_nodesOfOptional cleanup))
  | .expression .. | .echo .. | .jump .. | .throw .. | .unset .. | .constDecl .. | .goto .. | .label .. | .empty .. => by
    simp [functions, nodes, Node.heads_cons, Node.head?]
termination_by structural x => x

/-- The functions in a tree are those that are declared among its nodes. -/
theorem perm_heads_nodesOf : ∀ xs : List Stmt, ((functionsOf xs).map Prod.fst).Perm (heads (nodesOf xs))
  | [] => .refl _
  | x :: rest => by
    rw [functionsOf, nodesOf, List.map_append, Node.heads_append]
    exact (perm_heads_nodes x).append (perm_heads_nodesOf rest)
termination_by structural xs => xs

theorem perm_heads_nodesOfOptional : ∀ part : Option (List Stmt),
    ((functionsOfOptional part).map Prod.fst).Perm (heads (nodesOfOptional part))
  | none => .refl _
  | some body => perm_heads_nodesOf body
termination_by structural part => part

theorem perm_heads_nodesOfCatches : ∀ catches : List Catch,
    ((functionsOfCatches catches).map Prod.fst).Perm (heads (nodesOfCatches catches))
  | [] => .refl _
  | .clause _ _ _ body _ :: rest => by
    rw [functionsOfCatches, nodesOfCatches, List.map_append, Node.heads_append]
    exact (perm_heads_nodesOf body).append (perm_heads_nodesOfCatches rest)
termination_by structural catches => catches

end

mutual

/-- The declarations in a statement, an outer one before those in it. -/
def declarations (conditional : Bool) : Stmt → List Declaration
  | .block _ body => declarationsOf conditional body
  | .branch _ _ thenBody elseBody => declarationsOf true thenBody ++ declarationsOfOptional true elseBody
  | .loop _ _ body => declarationsOf true body
  | .tryCatch _ body catches cleanup =>
    declarationsOf true body ++ declarationsOfCatches catches ++ declarationsOfOptional true cleanup
  | .function tag head body _ => ⟨head, tag.span, conditional⟩ :: declarationsOf true body
  | .expression .. | .echo .. | .jump .. | .goto .. | .label .. | .throw .. | .unset .. | .constDecl ..
  | .empty .. => []
termination_by structural x => x

/-- The declarations in statements.  One that stands in a branch, a loop, a `try` or a function only may run. -/
def declarationsOf (conditional : Bool) : List Stmt → List Declaration
  | [] => []
  | x :: rest => x.declarations conditional ++ declarationsOf conditional rest
termination_by structural xs => xs

/-- The declarations in a part that may be missing. -/
def declarationsOfOptional (conditional : Bool) : Option (List Stmt) → List Declaration
  | none => []
  | some body => declarationsOf conditional body
termination_by structural part => part

/-- The declarations in the clauses of a `try`. -/
def declarationsOfCatches : List Catch → List Declaration
  | [] => []
  | .clause _ _ _ body _ :: rest => declarationsOf true body ++ declarationsOfCatches rest
termination_by structural catches => catches

end

mutual

theorem heads_declarations (conditional : Bool) : ∀ x : Stmt,
    (x.declarations conditional).map Declaration.head = heads x.nodes
  | .function tag head body dead => by
    rw [declarations, nodes, Node.heads_cons, List.map_cons, heads_declarationsOf true body]
    rfl
  | .block _ body => heads_declarationsOf conditional body
  | .loop _ _ body => by
    simpa [declarations, nodes, Node.heads_cons, Node.head?] using heads_declarationsOf true body
  | .branch _ _ thenBody elseBody => by
    simp [declarations, nodes, Node.heads_cons, Node.head?, heads_declarationsOf true thenBody,
      heads_declarationsOfOptional true elseBody]
  | .tryCatch _ body catches cleanup => by
    simp [declarations, nodes, Node.heads_cons, Node.head?, heads_declarationsOf true body,
      heads_declarationsOfCatches catches, heads_declarationsOfOptional true cleanup]
  | .expression .. | .echo .. | .jump .. | .throw .. | .unset .. | .constDecl .. | .goto .. | .label .. | .empty .. => by
    simp [declarations, nodes, Node.heads_cons, Node.head?]
termination_by structural x => x

/-- The functions that are declared are those whose declarations stand among the nodes. -/
theorem heads_declarationsOf (conditional : Bool) : ∀ xs : List Stmt,
    (declarationsOf conditional xs).map Declaration.head = heads (nodesOf xs)
  | [] => rfl
  | x :: rest => by
    rw [declarationsOf, nodesOf, List.map_append, Node.heads_append, heads_declarations conditional x,
      heads_declarationsOf conditional rest]
termination_by structural xs => xs

theorem heads_declarationsOfOptional (conditional : Bool) : ∀ part : Option (List Stmt),
    (declarationsOfOptional conditional part).map Declaration.head = heads (nodesOfOptional part)
  | none => rfl
  | some body => heads_declarationsOf conditional body
termination_by structural part => part

theorem heads_declarationsOfCatches : ∀ catches : List Catch,
    (declarationsOfCatches catches).map Declaration.head = heads (nodesOfCatches catches)
  | [] => rfl
  | .clause _ _ _ body _ :: rest => by
    rw [declarationsOfCatches, nodesOfCatches, List.map_append, Node.heads_append, heads_declarationsOf true body,
      heads_declarationsOfCatches rest]
termination_by structural catches => catches

end

/-- The order of statements is the order of their nodes. -/
theorem perm_nodesOf {xs ys : List Stmt} (h : xs.Perm ys) : (nodesOf xs).Perm (nodesOf ys) := by
  induction h with
  | nil => exact .refl _
  | cons x _ ih => exact ih.append_left x.nodes
  | swap x y rest =>
    simp only [nodesOf, ← List.append_assoc]
    exact List.perm_append_comm.append_right _
  | trans _ _ ih ih' => exact ih.trans ih'

theorem perm_functionsOf {xs ys : List Stmt} (h : xs.Perm ys) : (functionsOf xs).Perm (functionsOf ys) := by
  induction h with
  | nil => exact .refl _
  | cons x _ ih => exact ih.append_left x.functions
  | swap x y rest =>
    simp only [functionsOf, ← List.append_assoc]
    exact List.perm_append_comm.append_right _
  | trans _ _ ih ih' => exact ih.trans ih'

end Stmt

namespace Declarations

/-- The name under which a function is found. -/
def key (head : FunctionHead) : String :=
  Text.foldCase head.name

/-- The names under which functions are found are different, and not known from outside. -/
structure Distinct (symbols : Symbols) (heads : List FunctionHead) : Prop where
  nodup : (heads.map key).Nodup
  unknown : ∀ head ∈ heads, symbols.function? head.name = none

/-- The functions that have been found so far, and nothing has been reported. -/
structure Found.Lists (heads : List FunctionHead) (found : Found) : Prop where
  functions : found.functions = heads.map fun head => (key head, signatureOf head)
  unconditional : found.unconditional ⊆ heads.map key
  diagnostics : found.diagnostics = []

variable {symbols : Symbols} {done rest heads heads' : List FunctionHead} {head : FunctionHead} {found : Found}

theorem Distinct.left (h : Distinct symbols (heads ++ heads')) : Distinct symbols heads where
  nodup := (List.nodup_append.mp (List.map_append ▸ h.nodup)).1
  unknown head hhead := h.unknown head (List.mem_append_left _ hhead)

theorem Distinct.perm (h : Distinct symbols heads) (hperm : heads.Perm heads') : Distinct symbols heads' where
  nodup := (hperm.map key).nodup_iff.mp h.nodup
  unknown head hhead := h.unknown head (hperm.mem_iff.mpr hhead)

/-- A function with a new name is added. -/
theorem addFunction_eq (hunknown : symbols.function? head.name = none)
    (hmissing : found.functions.lookup (key head) = none) :
    addFunction symbols head found = { found with functions := found.functions ++ [(key head, signatureOf head)] } := by
  unfold addFunction
  dsimp only
  rw [hunknown, show found.functions.lookup (Text.foldCase head.name) = none from hmissing]
  rfl

theorem lists_declare (conditional : Bool) (span : Span) (h : found.Lists done)
    (hdistinct : Distinct symbols (done ++ [head])) :
    (declare symbols conditional head span found).Lists (done ++ [head]) := by
  have hunknown : symbols.function? head.name = none := hdistinct.unknown head (by simp)
  have hnew : key head ∉ done.map key := by
    have hnodup := hdistinct.nodup
    rw [List.map_append] at hnodup
    exact fun hmem => (List.nodup_append.mp hnodup).2.2 _ hmem _ List.mem_cons_self rfl
  have hmissing : found.functions.lookup (key head) = none := by
    rw [h.functions, List.lookup_eq_none_iff]
    intro entry hentry
    obtain ⟨other, hother, rfl⟩ := List.mem_map.mp hentry
    exact bne_iff_ne.mpr fun heq => hnew (heq ▸ List.mem_map_of_mem hother)
  have hcontains : found.unconditional.contains (Text.foldCase head.name) = false := by
    rw [List.contains_eq_mem, decide_eq_false_iff_not]
    exact fun hmem => hnew (h.unconditional hmem)
  have hsubset : found.unconditional ⊆ (done ++ [head]).map key :=
    List.Subset.trans h.unconditional (List.map_subset key (List.subset_append_left _ _))
  unfold declare
  cases conditional with
  | true =>
    rw [if_pos rfl, addFunction_eq hunknown hmissing]
    exact ⟨by simp [h.functions], hsubset, h.diagnostics⟩
  | false =>
    rw [if_neg nofun, hunknown, hcontains, if_neg nofun, addFunction_eq hunknown]
    · exact ⟨by simp [h.functions], List.cons_subset.mpr ⟨by simp [key], hsubset⟩, h.diagnostics⟩
    · exact hmissing

/-! ## One declaration after another -/

/-- Takes declarations into account in order. -/
def declareAll (symbols : Symbols) (declarations : List Declaration) (found : Found) : Found :=
  declarations.foldl (fun found d => declare symbols d.conditional d.head d.span found) found

theorem declareAll_append (ds ds' : List Declaration) (found : Found) :
    declareAll symbols (ds ++ ds') found = declareAll symbols ds' (declareAll symbols ds found) :=
  List.foldl_append

section Trees

open Stmt (declarations declarationsOf declarationsOfOptional declarationsOfCatches)

mutual

theorem ofStmt_eq : ∀ (conditional : Bool) (x : Stmt) (found : Found),
    ofStmt symbols conditional x found = declareAll symbols (x.declarations conditional) found
  | conditional, .block _ body, found => ofStmts_eq conditional body found
  | _, .branch _ _ thenBody elseBody, found => by
    rw [ofStmt, declarations, declareAll_append, ofStmts_eq true thenBody, ofOptional_eq true elseBody]
  | _, .loop _ _ body, found => ofStmts_eq true body found
  | _, .tryCatch _ body catches cleanup, found => by
    rw [ofStmt, declarations, declareAll_append, declareAll_append, ofStmts_eq true body, ofCatches_eq catches,
      ofOptional_eq true cleanup]
  | conditional, .function tag head body _, found => ofStmts_eq true body _
  | _, .expression .., _ | _, .echo .., _ | _, .jump .., _ | _, .goto .., _ | _, .label .., _ | _, .throw .., _
  | _, .unset .., _ | _, .constDecl .., _ | _, .empty .., _ => rfl
termination_by structural _ x => x

theorem ofStmts_eq : ∀ (conditional : Bool) (xs : List Stmt) (found : Found),
    ofStmts symbols conditional xs found = declareAll symbols (declarationsOf conditional xs) found
  | _, [], _ => rfl
  | conditional, x :: rest, found => by
    rw [ofStmts, declarationsOf, declareAll_append, ofStmt_eq conditional x, ofStmts_eq conditional rest]
termination_by structural _ xs => xs

theorem ofOptional_eq : ∀ (conditional : Bool) (part : Option (List Stmt)) (found : Found),
    ofOptional symbols conditional part found = declareAll symbols (declarationsOfOptional conditional part) found
  | _, none, _ => rfl
  | conditional, some body, found => ofStmts_eq conditional body found
termination_by structural _ part => part

theorem ofCatches_eq : ∀ (catches : List Catch) (found : Found),
    ofCatches symbols catches found = declareAll symbols (declarationsOfCatches catches) found
  | [], _ => rfl
  | .clause _ _ _ body _ :: rest, found => by
    rw [ofCatches, declarationsOfCatches, declareAll_append, ofStmts_eq true body, ofCatches_eq rest]
termination_by structural catches => catches

end

/-- **The declarations of a unit are collected one after another.** -/
theorem collect_eq_foldl (statements : List Stmt) :
    collect symbols statements = declareAll symbols (declarationsOf false statements) {} :=
  ofStmts_eq false statements {}

end Trees

/-- **What every declaration preserves holds of what is collected.** -/
theorem invariant_collect {P : Found → Prop}
    (h : ∀ conditional head span found, P found → P (declare symbols conditional head span found))
    (hempty : P {}) (statements : List Stmt) : P (collect symbols statements) := by
  rw [collect_eq_foldl]
  exact List.foldlRecOn _ _ hempty fun found hfound d _ => h d.conditional d.head d.span found hfound

/-- Every function has been entered under its folded name. -/
def Found.Keyed (found : Found) : Prop :=
  ∀ entry ∈ found.functions, entry.1 = Text.foldCase entry.2.name

theorem keyed_addFunction (head : FunctionHead) (h : found.Keyed) : (addFunction symbols head found).Keyed := by
  unfold addFunction
  dsimp only
  split
  · exact List.forall_mem_append.mpr ⟨h, List.forall_mem_singleton.mpr rfl⟩
  · exact h

theorem keyed_declare (conditional : Bool) (head : FunctionHead) (span : Span) (found : Found) (h : found.Keyed) :
    (declare symbols conditional head span found).Keyed := by
  unfold declare
  dsimp only
  split
  · exact keyed_addFunction head h
  · split
    · exact h
    · exact keyed_addFunction head h

theorem keyed_collect (statements : List Stmt) : (collect symbols statements).Keyed :=
  invariant_collect keyed_declare nofun statements

/-! ## Names that are different -/

theorem lists_declareAll (ds : List Declaration) (h : Distinct symbols (ds.map Declaration.head)) :
    (declareAll symbols ds {}).Lists (ds.map Declaration.head) := by
  induction ds using List.reverseRecOn with
  | nil => exact ⟨rfl, List.nil_subset _, rfl⟩
  | append_singleton ds d ih =>
    rw [List.map_append] at h ⊢
    rw [declareAll_append]
    exact lists_declare d.conditional d.span (ih h.left) h

/-- **If the names of all functions are different, all functions are collected**, and nothing is reported. -/
theorem collect_eq {statements : List Stmt} (h : Distinct symbols (Node.heads (Stmt.nodesOf statements))) :
    (collect symbols statements).functions =
        (Node.heads (Stmt.nodesOf statements)).map (fun head => (key head, signatureOf head)) ∧
      (collect symbols statements).diagnostics = [] := by
  rw [← Stmt.heads_declarationsOf false] at h ⊢
  have hlists := lists_declareAll _ h
  rw [← collect_eq_foldl] at hlists
  exact ⟨hlists.functions, hlists.diagnostics⟩

/-- An entry is found wherever it stands in a list, if its key stands there only once. -/
theorem lookup_eq_of_perm {entries entries' : List (String × Signature)} (h : entries.Perm entries')
    (hnodup : (entries.map Prod.fst).Nodup) (name : String) : entries'.lookup name = entries.lookup name := by
  induction h with
  | nil => rfl
  | cons entry _ ih => rw [List.lookup_cons, List.lookup_cons, ih (List.nodup_cons.mp hnodup).2]
  | swap a b rest =>
    have hne : b.1 ≠ a.1 := fun heq => (List.nodup_cons.mp hnodup).1 (heq ▸ List.mem_cons_self)
    rw [List.lookup_cons, List.lookup_cons, List.lookup_cons, List.lookup_cons]
    by_cases ha : name = a.1
    · by_cases hb : name = b.1
      · exact absurd (hb.symm.trans ha) hne
      · rw [beq_false_of_ne hb]
    · rw [beq_false_of_ne ha]
  | trans hperm _ ih ih' => rw [ih' ((hperm.map _).nodup_iff.mp hnodup), ih hnodup]

end Declarations
end PhpLowering
