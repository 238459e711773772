/-
# Faults of lowering

Lowering one instruction can fail for few reasons. A cause says what went
wrong; a fault charges it to the code of an instruction. The wording is in
`Fault.message` alone, so the rest of the library deals in causes.

Key definitions: `Violation`, `Cause`, `Fault`, `Fault.message`.
-/
import Devirt.Host.Local
import Devirt.Vm.Instr

namespace Devirt

/-- How an instruction breaks the contract of the rule that lowers it. -/
inductive Violation where
  /-- The rule does not serve this code. -/
  | foreignCode (code : CodeRef) (rule : String)
  /-- The operand has another shape than those wanted. -/
  | operandShape (found : OperandShape) (wanted : List OperandShape)
  /-- A local is read that was never allocated. -/
  | undeclaredLocal (i : LocalIndex)
  /-- A narrow read of a register that holds a float. -/
  | floatRegister (r : Register)
  /-- Two values that cannot be compared, by an opcode of fixed width or not. -/
  | incomparable (lhs rhs : StackType) (sized : Bool)
  /-- Boxing to `void`. -/
  | voidType (t : TypeRef)
  /-- A dispatch that needs a receiver, to a method without one. -/
  | noReceiver (how : Dispatch) (m : MethodRef)
  /-- A field access through something that is no reference. -/
  | badReceiver (t : StackType)
  deriving DecidableEq, Repr

namespace Violation

/-- The offending datum as the message quotes it. -/
def operand : Violation → String
  | .foreignCode code _ => code.mnemonic
  | .operandShape found _ => found.name
  | .undeclaredLocal i => i.text
  | .floatRegister r => r.name
  | .incomparable lhs rhs _ => lhs.name ++ " and " ++ rhs.name
  | .voidType t => t.text
  | .noReceiver _ m => m.text
  | .badReceiver t => t.name

/-- What the rule wanted in its place. -/
def expected : Violation → String
  | .foreignCode (.opcode _) rule => "one of the codes handled by the " ++ rule ++ " translator"
  | .foreignCode (.intrinsic _) rule => "one of the vcalls handled by the " ++ rule ++ " translator"
  | .operandShape _ wanted => " or ".intercalate (wanted.map OperandShape.wanted)
  | .undeclaredLocal _ => "a local allocated by this context"
  | .floatRegister _ => "a register holding an integral value"
  | .incomparable _ _ true => "two numeric operands"
  | .incomparable _ _ false => "two references or two numeric operands"
  | .voidType _ => "a non-void type"
  | .noReceiver .construct _ => "an instance constructor for newobj"
  | .noReceiver how _ => "an instance method for " ++ how.mnemonic
  | .badReceiver _ => "an object reference or pointer as receiver"

end Violation

/-- Why an instruction cannot be lowered. -/
inductive Cause where
  /-- No rule is registered for the code. -/
  | unsupported
  | violation (v : Violation)
  | underflow (needed available : Nat)
  | overflow (limit : Nat)
  | tooManyLocals (limit : Nat)
  deriving DecidableEq, Repr

/-- A cause charged to a code. -/
structure Fault where
  code : CodeRef
  cause : Cause
  deriving DecidableEq, Repr

namespace Fault

/-- Whether the table of rules is to blame and not the decoded code. -/
def isUnsupported (f : Fault) : Bool := f.cause = .unsupported

def message (f : Fault) : String :=
  let code := f.code.text
  match f.cause with
  | .unsupported => s!"recompilation of {code} is not supported"
  | .violation v =>
    "contract violation in " ++ code ++ ": got operand '" ++ v.operand
      ++ "', expected " ++ v.expected
  | .underflow needed available =>
    s!"stack underflow in {code}: needs {needed} value(s) but only {available} available"
  | .overflow limit => s!"stack overflow in {code}: abstract depth exceeds {limit}"
  | .tooManyLocals limit => s!"too many locals in {code}: a method can hold at most {limit}"

end Fault

end Devirt
