/-
# Host instructions

The slice of the host's stack code that lowering produces, with its listing
and its arity: how many values an instruction takes from the stack and how
many it leaves. The arity ignores types; what happens to them is in
`Host.Effect`.

Key definitions: `HostInstr`, `HostInstr.text`, `Arity`, `HostInstr.arity`.
-/
import Devirt.Host.Local
import Devirt.Metadata

namespace Devirt

/-- Binary operations whose result type is that of `StackType.binaryResult`. -/
inductive ArithOp where
  | add | sub | mul | div | rem | and | or | xor
  deriving DecidableEq, Repr, Inhabited

namespace ArithOp

def mnemonic : ArithOp → String
  | .add => "add"
  | .sub => "sub"
  | .mul => "mul"
  | .div => "div"
  | .rem => "rem"
  | .and => "and"
  | .or => "or"
  | .xor => "xor"

end ArithOp

/-- Shifts; the result has the type of the shifted operand. -/
inductive ShiftOp where
  | shl | shr | shrUnsigned
  deriving DecidableEq, Repr, Inhabited

namespace ShiftOp

def mnemonic : ShiftOp → String
  | .shl => "shl"
  | .shr => "shr"
  | .shrUnsigned => "shr.un"

end ShiftOp

inductive UnaryOp where
  | not | neg
  deriving DecidableEq, Repr, Inhabited

namespace UnaryOp

def mnemonic : UnaryOp → String
  | .not => "not"
  | .neg => "neg"

end UnaryOp

inductive Conversion where
  | u1 | u2 | i4 | u4 | i8 | u8 | r4 | r8 | native
  deriving DecidableEq, Repr, Inhabited

namespace Conversion

def mnemonic : Conversion → String
  | .u1 => "conv.u1"
  | .u2 => "conv.u2"
  | .i4 => "conv.i4"
  | .u4 => "conv.u4"
  | .i8 => "conv.i8"
  | .u8 => "conv.u8"
  | .r4 => "conv.r4"
  | .r8 => "conv.r8"
  | .native => "conv.i"

/-- The stack type a conversion leaves. -/
def target : Conversion → StackType
  | .u1 | .u2 | .i4 | .u4 => .int32
  | .i8 | .u8 => .int64
  | .r4 | .r8 => .float
  | .native => .nativeInt

end Conversion

/-- Comparisons, which leave the 32-bit integer 0 or 1. -/
inductive CompareOp where
  | eq | gt | gtUnsigned | lt | ltUnsigned
  deriving DecidableEq, Repr, Inhabited

namespace CompareOp

def mnemonic : CompareOp → String
  | .eq => "ceq"
  | .gt => "cgt"
  | .gtUnsigned => "cgt.un"
  | .lt => "clt"
  | .ltUnsigned => "clt.un"

end CompareOp

inductive HostInstr where
  | nop
  | loadNull
  | loadInt32 (value : Int32)
  | loadInt64 (value : Int64)
  | loadLocal (i : LocalIndex)
  | storeLocal (i : LocalIndex)
  | dup
  | pop
  | arith (op : ArithOp)
  | shift (op : ShiftOp)
  | unary (op : UnaryOp)
  | convert (conv : Conversion)
  | compare (op : CompareOp)
  | box (t : TypeRef)
  | castClass (t : TypeRef)
  | invoke (how : Dispatch) (m : MethodRef)
  | loadField (f : FieldRef)
  | loadStatic (f : FieldRef)
  | storeField (f : FieldRef)
  | storeStatic (f : FieldRef)
  deriving DecidableEq, Repr, Inhabited

/-- The number of values taken from the stack and left on it. -/
structure Arity where
  pops : Nat
  pushes : Nat
  deriving DecidableEq, Repr, Inhabited

namespace HostInstr

def mnemonic : HostInstr → String
  | .nop => "nop"
  | .loadNull => "ldnull"
  | .loadInt32 _ => "ldc.i4"
  | .loadInt64 _ => "ldc.i8"
  | .loadLocal _ => "ldloc"
  | .storeLocal _ => "stloc"
  | .dup => "dup"
  | .pop => "pop"
  | .arith op => op.mnemonic
  | .shift op => op.mnemonic
  | .unary op => op.mnemonic
  | .convert conv => conv.mnemonic
  | .compare op => op.mnemonic
  | .box _ => "box"
  | .castClass _ => "castclass"
  | .invoke how _ => how.mnemonic
  | .loadField _ => "ldfld"
  | .loadStatic _ => "ldsfld"
  | .storeField _ => "stfld"
  | .storeStatic _ => "stsfld"

/-- The operand in a listing, if the instruction has one. -/
def operandText? : HostInstr → Option String
  | .loadInt32 v => some (toString v.toInt)
  | .loadInt64 v => some (toString v.toInt)
  | .loadLocal i | .storeLocal i => some i.text
  | .box t | .castClass t => some t.text
  | .invoke _ m => some m.text
  | .loadField f | .loadStatic f | .storeField f | .storeStatic f => some f.text
  | _ => none

def text (i : HostInstr) : String :=
  match i.operandText? with
  | some arg => i.mnemonic ++ " " ++ arg
  | none => i.mnemonic

/-- The stack arity of an instruction. The receiver of a constructor call is
made by the call itself, so it is not among the values taken. -/
def arity : HostInstr → Arity
  | .nop => ⟨0, 0⟩
  | .loadNull | .loadInt32 _ | .loadInt64 _ | .loadLocal _ | .loadStatic _ => ⟨0, 1⟩
  | .storeLocal _ | .pop | .storeStatic _ => ⟨1, 0⟩
  | .dup => ⟨1, 2⟩
  | .arith _ | .shift _ | .compare _ => ⟨2, 1⟩
  | .unary _ | .convert _ | .box _ | .castClass _ | .loadField _ => ⟨1, 1⟩
  | .invoke .construct m => ⟨m.params.length, 1⟩
  | .invoke _ m => ⟨m.stackArguments, (!m.isVoid).toNat⟩
  | .storeField _ => ⟨2, 0⟩

end HostInstr

end Devirt
