import PhpLowering.Analysis.Evaluation
import PhpLowering.Literal.Arithmetic

/-!
# Concatenations in runs

Concatenation is associative, so a nested concatenation is one list of operands
(`flatten`), and neighbouring operands whose values are known can be joined ahead of time
(`runs`).  Values that contribute no text are dropped; if that leaves nothing at all, the
result is the empty string.
-/

namespace PhpLowering
namespace Concat

mutual

/-- What an expression contributes to a concatenation: the operands of a nested one, or itself. -/
def leaves : Expr → List Expr
  | .concat _ operands => flatten operands
  | e => [e]
termination_by structural e => e

/-- The operands that a concatenation consists of when the nested ones are opened up. -/
def flatten : List Expr → List Expr
  | [] => []
  | e :: rest => leaves e ++ flatten rest
termination_by structural es => es

end

/-- A run of neighbouring operands. -/
inductive Run where
  /-- Operands whose values are known, joined to one. -/
  | value (value : Literal) (span : Span)
  /-- Operands that are left to run time. -/
  | residual (nodes : List Expr)
  deriving Inhabited

/-- The value of a run whose operands are known. -/
def Run.value? : Run → Option Literal
  | .value v _ => some v
  | .residual _ => none

/-- Every operand as a run of its own. -/
def single : Evaluation → Run
  | .value v node => .value v node.span
  | .residual node => .residual [node]

/-- Puts an operand in front of the runs of the operands behind it. -/
def push (e : Evaluation) (runs : List Run) : List Run :=
  match e with
  | .value v node =>
    if v.isEmptyText then runs
    else
      match runs with
      | .value joined span :: rest => .value (v.concat joined) (node.span.merge span) :: rest
      | runs => .value (v.concat (.string "")) node.span :: runs
  | .residual node =>
    match runs with
    | .residual nodes :: rest => .residual (node :: nodes) :: rest
    | runs => .residual [node] :: runs

/-- The span that covers all operands. -/
def wholeSpan : List Evaluation → Span
  | [] => {}
  | e :: rest => rest.foldl (fun s e => s.merge e.node.span) e.node.span

/-- The runs of a list of operands.  Without folding every operand stays by itself. -/
def runs (operands : List Evaluation) (fold : Bool) : List Run :=
  if fold then
    match operands.foldr push [] with
    | [] => [.value (.string "") (wholeSpan operands)]
    | runs => runs
  else operands.map single

/-- The operands that stand for the runs; known ones become literals with fresh numbers. -/
def operands : List Run → Nat → List Expr × Nat
  | [], nextId => ([], nextId)
  | .value v span :: rest, nextId =>
    let (es, next) := operands rest (nextId + 1)
    (.literal { id := nodeId nextId, span, access := .read } v :: es, next)
  | .residual nodes :: rest, nextId =>
    let (es, next) := operands rest nextId
    (nodes ++ es, next)

end Concat
end PhpLowering
