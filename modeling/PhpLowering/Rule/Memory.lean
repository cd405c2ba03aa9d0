import PhpLowering.Rule.Table

/-!
# What rules remember

The analysis writes and the emission reads: how many keys of an array literal are integers,
so that the array can be made large enough at once, and whether any `goto` goes to a label,
since a label that nobody goes to needs no mark.

Whether a label is gone to is known only at the end of its routine.  So a label's rule does
not remember the answer but a cell, and the cell is set when a `goto` is met, before or
after the label.
-/

namespace PhpLowering

/-- The keys of an array literal by kind. -/
structure KeyCount where
  integers : Nat := 0
  others : Nat := 0
  deriving DecidableEq, Repr, Inhabited

/-- What rules remember. -/
structure RuleMemory where
  keys : Std.HashMap (Home ExprKind) KeyCount := {}
  /-- The cell of each label rule. -/
  labels : Std.HashMap (Home StmtKind) Nat := {}
  /-- For every cell, whether a `goto` goes to its label. -/
  referenced : Array Bool := #[]
  deriving Inhabited

namespace RuleMemory

/-- The keys counted so far. -/
def keyCount (m : RuleMemory) (home : Home ExprKind) : KeyCount :=
  m.keys.getD home {}

/-- Counts one more key. -/
def countKey (m : RuleMemory) (home : Home ExprKind) (isInteger : Bool) : RuleMemory :=
  let n := m.keyCount home
  let n := if isInteger then { n with integers := n.integers + 1 } else { n with others := n.others + 1 }
  { m with keys := m.keys.insert home n }

/-- A fresh cell that no `goto` refers to yet. -/
def newCell (m : RuleMemory) : Nat × RuleMemory :=
  (m.referenced.size, { m with referenced := m.referenced.push false })

/-- Records that a `goto` refers to a cell. -/
def markReferenced (m : RuleMemory) (cell : Nat) : RuleMemory :=
  { m with referenced := m.referenced.setIfInBounds cell true }

/-- Whether a `goto` refers to a cell. -/
def isReferenced (m : RuleMemory) (cell : Nat) : Bool :=
  m.referenced.getD cell false

/-- Gives a label rule its cell; a rule that has one keeps it. -/
def setLabel (m : RuleMemory) (home : Home StmtKind) (cell : Nat) : RuleMemory :=
  { m with labels := m.labels.insertIfNew home cell }

/-- Whether a `goto` refers to the label that a rule stands for. -/
def labelReferenced (m : RuleMemory) (home : Home StmtKind) : Bool :=
  match m.labels[home]? with
  | some cell => m.isReferenced cell
  | none => false

end RuleMemory
end PhpLowering
