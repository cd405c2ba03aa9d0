import PhpLowering.Code.RuntimeOp

/-!
# Instructions

The target of the lowering is a stack machine.  Branches name labels, which are numbers
local to a routine; a label gets its position in the code when it is marked.
-/

namespace PhpLowering

/-- A branch target of a routine. -/
structure Label where
  index : Nat
  deriving DecidableEq, Repr, Inhabited

/-- A temporary slot of a routine. -/
structure Temp where
  index : Nat
  deriving DecidableEq, Repr, Inhabited

/-- An instruction of the stack machine. -/
inductive Instruction where
  | nop
  /-- Pushes an entry of the constant pool. -/
  | const (index : Nat)
  | pop
  | dup
  | loadTemp (temp : Temp)
  /-- Pops a value into a slot. -/
  | storeTemp (temp : Temp)
  | loadVar (name : String)
  /-- Turns a variable into a reference and pushes the cell. -/
  | loadVarRef (name : String)
  /-- Pushes the array of a variable; one that holds none gets a fresh one. -/
  | loadVarArray (name : String)
  /-- Pops a value into a variable. -/
  | storeVar (name : String)
  | unsetVar (name : String)
  | loadConstant (name : String)
  /-- Pops the value of a new constant. -/
  | defineConstant (name : String)
  /-- Boxes the primitive on top of the stack. -/
  | box (code : TypeCode)
  | call (op : RuntimeOp)
  | callFunction (name : String) (argCount : Nat)
  | newArray (integerKeys otherKeys : Nat)
  /-- Pops so many values into a value array. -/
  | newValueArray (count : Nat)
  | branch (target : Label)
  | branchIfTrue (target : Label)
  | branchIfFalse (target : Label)
  /-- A branch out of exception regions, which runs their cleanup blocks. -/
  | leave (target : Label)
  /-- Pops a number and branches to the label at that position, or goes on. -/
  | switch (targets : List Label)
  | ret
  | instanceOf (type : String)
  | throw
  | rethrow
  | endFinally
  deriving DecidableEq, Repr, Inhabited

namespace Label

/-- The name of a label in listings. -/
def text (l : Label) : String := s!"L{l.index}"

end Label

namespace Temp

/-- The name of a slot in listings. -/
def text (t : Temp) : String := s!"t{t.index}"

end Temp

namespace Instruction

/-- The label that a branch goes to; a `switch` has a table instead of one target. -/
def target? : Instruction → Option Label
  | .branch l | .branchIfTrue l | .branchIfFalse l | .leave l => some l
  | _ => none

/-- Every label that an instruction mentions. -/
def labels : Instruction → List Label
  | .branch l | .branchIfTrue l | .branchIfFalse l | .leave l => [l]
  | .switch ls => ls
  | _ => []

/-- An instruction as a listing shows it. -/
def text : Instruction → String
  | .nop => "nop"
  | .const index => s!"const #{index}"
  | .pop => "pop"
  | .dup => "dup"
  | .loadTemp t => s!"load_temp {t.text}"
  | .storeTemp t => s!"store_temp {t.text}"
  | .loadVar name => s!"load_var ${name}"
  | .loadVarRef name => s!"load_var_ref ${name}"
  | .loadVarArray name => s!"load_var_array ${name}"
  | .storeVar name => s!"store_var ${name}"
  | .unsetVar name => s!"unset_var ${name}"
  | .loadConstant name => s!"load_constant {name}"
  | .defineConstant name => s!"define_constant {name}"
  | .box code => s!"box {code.text}"
  | .call op => s!"call {op.name}"
  | .callFunction name count => s!"call_function {name}/{count}"
  | .newArray integerKeys otherKeys => s!"new_array int={integerKeys} str={otherKeys}"
  | .newValueArray count => s!"new_value_array {count}"
  | .branch l => s!"br {l.text}"
  | .branchIfTrue l => s!"br_true {l.text}"
  | .branchIfFalse l => s!"br_false {l.text}"
  | .leave l => s!"leave {l.text}"
  | .switch ls => "switch [" ++ ", ".intercalate (ls.map Label.text) ++ "]"
  | .ret => "ret"
  | .instanceOf type => s!"instance_of {type}"
  | .throw => "throw"
  | .rethrow => "rethrow"
  | .endFinally => "end_finally"

end Instruction
end PhpLowering
