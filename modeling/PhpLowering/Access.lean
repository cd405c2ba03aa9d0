/-!
# How an expression is used

Every expression is analysed for the use that its parent makes of it.  The access is
recorded in the node and decides what code it gets: a value, a reference, an address to
store to, or nothing at all.
-/

namespace PhpLowering

/-- The use that a parent makes of an expression. -/
inductive Access where
  /-- The value is dropped. -/
  | none
  | read
  | write
  /-- Increment, decrement, and containers of what is written. -/
  | readAndWrite
  /-- A reference to the location is needed. -/
  | readRef
  | writeRef
  /-- An argument of a call whose signature is not known. -/
  | readUnknown
  | writeAndReadRef
  | writeAndReadUnknown
  | readAndWriteAndReadRef
  | readAndWriteAndReadUnknown
  deriving DecidableEq, Repr, Inhabited

namespace Access

/-- The name of an access in messages. -/
def name : Access → String
  | .none => "None"
  | .read => "Read"
  | .write => "Write"
  | .readAndWrite => "ReadAndWrite"
  | .readRef => "ReadRef"
  | .writeRef => "WriteRef"
  | .readUnknown => "ReadUnknown"
  | .writeAndReadRef => "WriteAndReadRef"
  | .writeAndReadUnknown => "WriteAndReadUnknown"
  | .readAndWriteAndReadRef => "ReadAndWriteAndReadRef"
  | .readAndWriteAndReadUnknown => "ReadAndWriteAndReadUnknown"

/-- Every access. -/
def all : List Access :=
  [.none, .read, .write, .readAndWrite, .readRef, .writeRef, .readUnknown, .writeAndReadRef,
   .writeAndReadUnknown, .readAndWriteAndReadRef, .readAndWriteAndReadUnknown]

/-- The access of an operand whose parent says nothing else. -/
def ordinary : Access := .read

/-- Whether the value is looked at. -/
def isRead : Access → Bool
  | .none | .write | .writeRef => false
  | _ => true

/-- Whether the location is written; only storage locations may be used so. -/
def isWrite : Access → Bool
  | .write | .readAndWrite | .writeRef | .writeAndReadRef | .writeAndReadUnknown
  | .readAndWriteAndReadRef | .readAndWriteAndReadUnknown => true
  | _ => false

/-- Whether a reference to the location is taken. -/
def isReadRef : Access → Bool
  | .readRef | .writeAndReadRef | .readAndWriteAndReadRef => true
  | _ => false

/-- Whether the callee decides between value and reference. -/
def isUnknown : Access → Bool
  | .readUnknown | .writeAndReadUnknown | .readAndWriteAndReadUnknown => true
  | _ => false

/-- The access that an item imposes on its container: what is written through the item, or bound to
a reference, changes the container too. -/
def ofContainer (a : Access) : Access :=
  if a.isWrite || a.isReadRef then .readAndWrite
  else if a = .none then .none
  else .read

end Access
end PhpLowering
