import PhpLowering.Rule.Memory
import PhpLowering.Tree.Walk

/-!
# The statements of one routine

A function declaration is a statement, but what is in its body belongs to another routine:
its jumps, labels and loops have nothing to do with those around it.  `Stmt.own` lists what
belongs to the routine of a statement itself, and `Stmt.functions` the functions that are
declared in it, a nested function before the one it is nested in.
-/

namespace PhpLowering
namespace Stmt

mutual

/-- A statement and the statements in it that belong to the same routine. -/
def own : Stmt → List Stmt
  | s@(.block _ body) => s :: ownOf body
  | s@(.branch _ _ thenBody elseBody) => s :: (ownOf thenBody ++ ownOfOptional elseBody)
  | s@(.loop _ _ body) => s :: ownOf body
  | s@(.tryCatch _ body catches cleanup) =>
    s :: (ownOf body ++ (ownOfCatches catches ++ ownOfOptional cleanup))
  | s@(.expression ..) | s@(.echo ..) | s@(.jump ..) | s@(.goto ..) | s@(.label ..) | s@(.throw ..)
  | s@(.unset ..) | s@(.constDecl ..) | s@(.function ..) | s@(.empty ..) => [s]
termination_by structural s => s

/-- Statements and what belongs to their routine. -/
def ownOf : List Stmt → List Stmt
  | [] => []
  | s :: rest => own s ++ ownOf rest
termination_by structural s => s

/-- What belongs to the routine in a part that may be missing. -/
def ownOfOptional : Option (List Stmt) → List Stmt
  | none => []
  | some body => ownOf body
termination_by structural s => s

/-- What belongs to the routine in the clauses of a `try`. -/
def ownOfCatches : List Catch → List Stmt
  | [] => []
  | .clause _ _ _ body _ :: rest => ownOf body ++ ownOfCatches rest
termination_by structural s => s

end

mutual

/-- The functions declared in a statement, in the order in which their bodies end. -/
def functions : Stmt → List (FunctionHead × List Stmt)
  | .function _ head body _ => functionsOf body ++ [(head, body)]
  | .block _ body | .loop _ _ body => functionsOf body
  | .branch _ _ thenBody elseBody => functionsOf thenBody ++ functionsOfOptional elseBody
  | .tryCatch _ body catches cleanup =>
    functionsOf body ++ (functionsOfCatches catches ++ functionsOfOptional cleanup)
  | .expression .. | .echo .. | .jump .. | .goto .. | .label .. | .throw .. | .unset ..
  | .constDecl .. | .empty .. => []
termination_by structural s => s

/-- The functions declared in a list of statements. -/
def functionsOf : List Stmt → List (FunctionHead × List Stmt)
  | [] => []
  | s :: rest => functions s ++ functionsOf rest
termination_by structural s => s

/-- The functions declared in a part that may be missing. -/
def functionsOfOptional : Option (List Stmt) → List (FunctionHead × List Stmt)
  | none => []
  | some body => functionsOf body
termination_by structural s => s

/-- The functions declared in the clauses of a `try`. -/
def functionsOfCatches : List Catch → List (FunctionHead × List Stmt)
  | [] => []
  | .clause _ _ _ body _ :: rest => functionsOf body ++ functionsOfCatches rest
termination_by structural s => s

end

theorem ownOf_append (xs ys : List Stmt) : ownOf (xs ++ ys) = ownOf xs ++ ownOf ys := by
  induction xs with
  | nil => rfl
  | cons x rest ih => rw [List.cons_append, ownOf, ownOf, ih, List.append_assoc]

theorem functionsOf_append (xs ys : List Stmt) : functionsOf (xs ++ ys) = functionsOf xs ++ functionsOf ys := by
  induction xs with
  | nil => rfl
  | cons x rest ih => rw [List.cons_append, functionsOf, functionsOf, ih, List.append_assoc]

/-- The name that a `goto` goes to. -/
def goto? : Stmt → Option String
  | .goto _ name => some name
  | _ => none

/-- The name that a label statement defines. -/
def label? : Stmt → Option String
  | .label _ name => some name
  | _ => none

/-- The name of a label statement that gets a mark in the code: some `goto` goes to it. -/
def mark? (memory : RuleMemory) : Stmt → Option String
  | .label tag name => if memory.labelReferenced (.node tag.id) then some name else none
  | _ => none

/-- A mark is the mark of a label. -/
theorem label?_of_mark? {memory : RuleMemory} {s : Stmt} {name : String}
    (h : s.mark? memory = some name) : s.label? = some name := by
  cases s with
  | label tag n =>
    simp only [mark?] at h
    split at h
    · exact h
    · exact nomatch h
  | _ => exact nomatch h

/-- The marks are some of the labels. -/
theorem filterMap_mark?_sublist (memory : RuleMemory) (own : List Stmt) :
    (own.filterMap (mark? memory)).Sublist (own.filterMap label?) := by
  induction own with
  | nil => exact List.Sublist.refl _
  | cons s rest ih =>
    cases hmark : s.mark? memory with
    | some name =>
      rw [List.filterMap_cons_some hmark, List.filterMap_cons_some (label?_of_mark? hmark)]
      exact ih.cons_cons name
    | none =>
      rw [List.filterMap_cons_none hmark]
      cases hlabel : s.label? with
      | some name =>
        rw [List.filterMap_cons_some hlabel]
        exact ih.cons name
      | none =>
        rw [List.filterMap_cons_none hlabel]
        exact ih

mutual

/-- What is in a function is in the statement that it is declared in. -/
theorem nodes_of_functions : ∀ {x : Stmt} {p : FunctionHead × List Stmt} {n : Node}, p ∈ x.functions →
    n ∈ nodesOf p.2 → n ∈ x.nodes
  | .function _ head body _, p, n, h, hn => by
    rw [functions, List.mem_append, List.mem_singleton] at h
    rcases h with h | rfl
    · simp [nodes, nodesOf_of_functionsOf h hn]
    · simp [nodes, hn]
  | .block _ body, p, n, h, hn => by
    rw [functions] at h
    simp [nodes, nodesOf_of_functionsOf h hn]
  | .branch _ _ thenBody elseBody, p, n, h, hn => by
    rw [functions, List.mem_append] at h
    rcases h with h | h
    · simp [nodes, nodesOf_of_functionsOf h hn]
    · simp [nodes, nodesOfOptional_of_functionsOf h hn]
  | .loop _ _ body, p, n, h, hn => by
    rw [functions] at h
    simp [nodes, nodesOf_of_functionsOf h hn]
  | .tryCatch _ body catches cleanup, p, n, h, hn => by
    rw [functions, List.mem_append, List.mem_append] at h
    rcases h with h | h | h
    · simp [nodes, nodesOf_of_functionsOf h hn]
    · simp [nodes, nodesOfCatches_of_functionsOf h hn]
    · simp [nodes, nodesOfOptional_of_functionsOf h hn]
  | .expression .., _, _, h, _ | .echo .., _, _, h, _ | .jump .., _, _, h, _ | .goto .., _, _, h, _
  | .label .., _, _, h, _ | .throw .., _, _, h, _ | .unset .., _, _, h, _ | .constDecl .., _, _, h, _
  | .empty .., _, _, h, _ => nomatch h
termination_by structural x => x

theorem nodesOf_of_functionsOf : ∀ {xs : List Stmt} {p : FunctionHead × List Stmt} {n : Node},
    p ∈ functionsOf xs → n ∈ nodesOf p.2 → n ∈ nodesOf xs
  | x :: rest, p, n, h, hn => by
    rw [functionsOf, List.mem_append] at h
    rw [nodesOf, List.mem_append]
    exact h.imp (nodes_of_functions · hn) (nodesOf_of_functionsOf · hn)
  | [], _, _, h, _ => nomatch h
termination_by structural xs => xs

theorem nodesOfOptional_of_functionsOf : ∀ {part : Option (List Stmt)} {p : FunctionHead × List Stmt}
    {n : Node}, p ∈ functionsOfOptional part → n ∈ nodesOf p.2 → n ∈ nodesOfOptional part
  | some _, _, _, h, hn => nodesOf_of_functionsOf h hn
  | none, _, _, h, _ => nomatch h
termination_by structural part => part

theorem nodesOfCatches_of_functionsOf : ∀ {catches : List Catch} {p : FunctionHead × List Stmt}
    {n : Node}, p ∈ functionsOfCatches catches → n ∈ nodesOf p.2 → n ∈ nodesOfCatches catches
  | .clause _ _ _ body _ :: rest, p, n, h, hn => by
    rw [functionsOfCatches, List.mem_append] at h
    rw [nodesOfCatches, List.mem_append]
    exact h.imp (nodesOf_of_functionsOf · hn) (nodesOfCatches_of_functionsOf · hn)
  | [], _, _, h, _ => nomatch h
termination_by structural catches => catches

end

end Stmt

/-- Whether a node is a `goto`. -/
def Node.isGoto : Node → Bool
  | .stmt (.goto ..) => true
  | _ => false

end PhpLowering
