import PhpLowering.Fault
import PhpLowering.Pass
import PhpLowering.Rule.Registry
import Std.Data.HashMap

/-!
# Which rule a node has got

When an entry is not shared, a node is attached to its rule the first time somebody asks.
From then on its number stands for a node of that kind: a node of another kind with the
same number is refused.  The table remembers what is attached, so that both halves of the
lowering see the same rule with the same memory.

The answer to a look-up is a `Handle`: the rule together with the home of its memory.  Two
handles are equal exactly when they share everything.
-/

namespace PhpLowering

/-- Where a rule keeps its memory. -/
inductive Home (κ : Type) where
  /-- The rule has no memory, so it is the same everywhere. -/
  | nowhere
  /-- With the entry for a kind. -/
  | entry (kind : κ)
  /-- With one node. -/
  | node (id : Nat)
  deriving DecidableEq, Repr, Hashable, Inhabited

deriving instance Hashable for ExprKind, StmtKind

/-- A rule and the home of its memory. -/
structure Handle (κ : Type) where
  rule : κ
  home : Home κ
  deriving DecidableEq, Repr, Inhabited

/-- What is attached so far: the kind that each number stands for. -/
structure RuleTable where
  exprs : Std.HashMap Nat ExprKind := {}
  stmts : Std.HashMap Nat StmtKind := {}
  deriving Inhabited

namespace RuleTable

/-- The number of nodes that are attached. -/
def attached (t : RuleTable) : Nat :=
  t.exprs.size + t.stmts.size

/-- The kind that a number stands for after a node of a kind asked for its rule. -/
def attach {κ : Type} (seen : Std.HashMap Nat κ) (id : Nat) (kind : κ) : κ × Std.HashMap Nat κ :=
  match seen[id]? with
  | some attached => (attached, seen)
  | none => (kind, seen.insert id kind)

/-- The home of a rule's memory. -/
def homeOf {κ : Type} (hasMemory shared : Bool) (kind : κ) (id : Nat) : Home κ :=
  if hasMemory then (if shared then .entry kind else .node id) else .nowhere

/-- The rule that an entry gives to a node.  `kinds` tells how messages name a kind. -/
def lookup {κ : Type} [DecidableEq κ] (kinds : κ → NodeKind) (hasMemory : κ → Bool)
    (entry : Option (RuleEntry κ)) (kind : κ) (id : Nat) :
    Pass Fault (Std.HashMap Nat κ) (Handle κ) := fun seen =>
  match entry with
  | none => (.error (.unregisteredKind (kinds kind)), seen)
  | some entry =>
    let handle := ⟨entry.rule, homeOf (hasMemory entry.rule) entry.shared kind id⟩
    if entry.shared then (.ok handle, seen)
    else
      let (attached, seen) := attach seen id kind
      if attached = kind then (.ok handle, seen)
      else (.error (.wrongRule (kinds attached) (kinds kind)), seen)

/-- The rule for an expression. -/
def expr (registry : Registry) (kind : ExprKind) (id : Nat) : Pass Fault RuleTable (Handle ExprKind) :=
  fun t =>
    let (r, exprs) := lookup .expr ExprKind.hasMemory (registry.expr kind) kind id t.exprs
    (r, { t with exprs })

/-- The rule for a statement. -/
def stmt (registry : Registry) (kind : StmtKind) (id : Nat) : Pass Fault RuleTable (Handle StmtKind) :=
  fun t =>
    let (r, stmts) := lookup .stmt StmtKind.hasMemory (registry.stmt kind) kind id t.stmts
    (r, { t with stmts })

end RuleTable
end PhpLowering
