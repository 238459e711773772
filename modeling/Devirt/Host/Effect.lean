/-
# What a host instruction does to the types on the stack

`HostInstr.effect` runs one instruction on the abstract stack, under a depth
limit and with the locals declared so far. Loading a local gives its declared
type; a load of an undeclared local is a violation. Every other failure is an
underflow or an overflow of the stack.

Key definitions: `FieldRef.stackType`, `MethodRef.resultType?`,
`HostInstr.effect`.
-/
import Devirt.Host.Instr
import Devirt.Host.Stack

namespace Devirt

/-- The stack type of a field's value. -/
def FieldRef.stackType (f : FieldRef) : StackType :=
  (StackType.ofElement? f.type.element).getD .object

/-- The stack type of a method's result, if it has one. -/
def MethodRef.resultType? (m : MethodRef) : Option StackType :=
  m.returns.bind fun t => StackType.ofElement? t.element

namespace HostInstr

/-- The stack after one instruction. -/
def effect (limit : Nat) (locals : Array Local) (i : HostInstr) (s : EvalStack) :
    Except Cause EvalStack :=
  match i with
  | .nop => .ok s
  | .loadNull => s.push limit .object
  | .loadInt32 _ => s.push limit .int32
  | .loadInt64 _ => s.push limit .int64
  | .loadLocal i =>
    match locals[i.val]? with
    | some l => s.push limit l.type
    | none => .error (.violation (.undeclaredLocal i))
  | .storeLocal _ | .pop => s.drop 1
  | .dup => do s.push limit (← s.peek 0)
  | .arith _ => s.combine limit StackType.binaryResult
  | .shift _ => s.combine limit fun lhs _ => lhs
  | .unary _ => do s.replace limit 1 (← s.peek 0)
  | .convert conv => s.replace limit 1 conv.target
  | .compare _ => s.replace limit 2 .int32
  | .box _ | .castClass _ => s.replace limit 1 .object
  | .invoke .construct m => s.replace limit m.params.length .object
  | .invoke _ m =>
    match m.resultType? with
    | some t => s.replace limit m.stackArguments t
    | none => s.drop m.stackArguments
  | .loadField f => s.replace limit 1 f.stackType
  | .loadStatic f => s.push limit f.stackType
  | .storeField _ => s.drop 2
  | .storeStatic _ => s.drop 1

end HostInstr

end Devirt
