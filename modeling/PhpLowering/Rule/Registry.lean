import PhpLowering.Tree.Kind

/-!
# Which rule handles which kind

A registry says for every kind of node which rule handles it.  Rules are named by the kind
they are made for, so the standard registry is the identity; other registries leave kinds
out or hand them to a rule for another kind, which then refuses the node.

Most rules keep nothing between two nodes.  Two of them do: the rule for array literals
counts the keys it sees, and the rule for labels remembers which label it stands for.  An
entry is either shared, with one memory for all its nodes, or it gives every node a memory
of its own.
-/

namespace PhpLowering

/-- How a kind of node is handled. -/
structure RuleEntry (κ : Type) where
  rule : κ
  /-- Whether all nodes of the kind share one memory. -/
  shared : Bool
  deriving DecidableEq, Repr, Inhabited

/-- The rules for all kinds of nodes. -/
structure Registry where
  expr : ExprKind → Option (RuleEntry ExprKind)
  stmt : StmtKind → Option (RuleEntry StmtKind)

/-- Changes to the standard registry, by the names of kinds. -/
structure Registry.Changes where
  /-- The kinds that get no rule. -/
  dropped : List String := []
  /-- The kinds that get the rule for another kind. -/
  rules : List (String × String) := []
  /-- The kinds for which it is said whether their nodes share one memory. -/
  shared : List (String × Bool) := []
  deriving Inhabited

/-- The entry that changes give to a kind. -/
def Registry.Changes.entry {κ : Type} (c : Changes) (all : List κ) (name : κ → String)
    (hasMemory : κ → Bool) (kind : κ) : Option (RuleEntry κ) :=
  if c.dropped.contains (name kind) then none
  else
    let wanted := (c.rules.lookup (name kind)).getD (name kind)
    (all.find? (name · == wanted)).map fun rule =>
      ⟨rule, (c.shared.lookup (name kind)).getD (!hasMemory rule)⟩

/-- Whether a rule keeps something between two nodes. -/
def ExprKind.hasMemory (rule : ExprKind) : Bool :=
  rule == .array

/-- Whether a rule keeps something between two nodes. -/
def StmtKind.hasMemory (rule : StmtKind) : Bool :=
  rule == .label

/-- Whether the rule for a kind of expression can handle it as a storage location. -/
def ExprKind.isPlaceRule (rule : ExprKind) : Bool :=
  rule == .variable || rule == .item

namespace Registry

/-- Every kind has the rule made for it, and the rules with a memory have one for each node. -/
def standard : Registry where
  expr kind := some ⟨kind, !kind.hasMemory⟩
  stmt kind := some ⟨kind, !kind.hasMemory⟩

/-- No kind has a rule. -/
def empty : Registry where
  expr _ := none
  stmt _ := none

/-- The registry with changes: what they do not mention is as in the standard one.  Unless the
changes say otherwise, whether an entry is shared depends on its rule, not on its kind. -/
def changed (c : Changes) : Registry where
  expr := c.entry ExprKind.all ExprKind.name ExprKind.hasMemory
  stmt := c.entry StmtKind.all StmtKind.name StmtKind.hasMemory

/-- No changes leave the standard registry as it is. -/
theorem changed_none : changed {} = standard := by
  have hexpr : (changed {}).expr = standard.expr := by
    funext kind
    cases kind <;> decide
  have hstmt : (changed {}).stmt = standard.stmt := by
    funext kind
    cases kind <;> decide
  calc
    changed {} = ⟨(changed {}).expr, (changed {}).stmt⟩ := rfl
    _ = ⟨standard.expr, standard.stmt⟩ := by rw [hexpr, hstmt]
    _ = standard := rfl

/-- Whether a kind has a rule that all its nodes share; none if it has no rule. -/
def isShared? (r : Registry) : NodeKind → Option Bool
  | .expr kind => (r.expr kind).map RuleEntry.shared
  | .stmt kind => (r.stmt kind).map RuleEntry.shared

/-- Whether a kind has a rule. -/
def isRegistered (r : Registry) (kind : NodeKind) : Bool :=
  (r.isShared? kind).isSome

end Registry
end PhpLowering
