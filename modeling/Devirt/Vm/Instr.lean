/-
# Decoded instructions

What the decoder hands over: an instruction sits at a byte offset and is
either a plain opcode or an intrinsic, each with at most one operand. The
code of an instruction (`CodeRef`) is what lowering rules are registered for
and what a fault is charged to.

Key definitions: `Operand`, `IntrinsicOperand`, `Operation`, `Instr`,
`CodeRef`, `OperandShape`, `Instr.text`.
-/
import Devirt.Metadata
import Devirt.Text
import Devirt.Vm.Intrinsic
import Devirt.Vm.Opcode
import Devirt.Vm.Register

namespace Devirt

/-! ### Codes -/

/-- A code that a lowering rule can be registered for. -/
inductive CodeRef where
  | opcode (code : Opcode)
  | intrinsic (call : Intrinsic)
  deriving DecidableEq, Repr, Inhabited

namespace CodeRef

/-- Every code: the opcodes, then the intrinsics, in the order of declaration. -/
def all : List CodeRef := Opcode.all.map .opcode ++ Intrinsic.all.map .intrinsic

theorem mem_all (c : CodeRef) : c ∈ all := by
  cases c with
  | opcode code => simpa [all] using Opcode.mem_all code
  | intrinsic call => simpa [all] using Intrinsic.mem_all call

def mnemonic : CodeRef → String
  | .opcode code => code.mnemonic
  | .intrinsic call => call.mnemonic

def text : CodeRef → String
  | .opcode code => "opcode " ++ code.mnemonic
  | .intrinsic call => "vcall " ++ call.mnemonic

def isOpcode : CodeRef → Bool
  | .opcode _ => true
  | .intrinsic _ => false

end CodeRef

/-! ### Operands -/

/-- The operand of a plain opcode. -/
inductive Operand where
  | none
  | dword (value : UInt32)
  | qword (value : UInt64)
  | register (r : Register)
  deriving DecidableEq, Repr, Inhabited

/-- The operand of an intrinsic. -/
inductive IntrinsicOperand where
  | none
  | type (t : TypeRef)
  | field (f : FieldRef)
  | method (how : Dispatch) (m : MethodRef)
  deriving DecidableEq, Repr, Inhabited

/-- What kind of operand an instruction carries. -/
inductive OperandShape where
  | none | dword | qword | register | type | field | method
  deriving DecidableEq, Repr, Inhabited

namespace OperandShape

def name : OperandShape → String
  | .none => "none"
  | .dword => "dword immediate"
  | .qword => "qword immediate"
  | .register => "register"
  | .type => "type reference"
  | .field => "field reference"
  | .method => "method reference"

/-- The shape as a requirement: no operand, or one of the shape. -/
def wanted : OperandShape → String
  | .none => "no operand"
  | s => "a " ++ s.name

end OperandShape

namespace Operand

def shape : Operand → OperandShape
  | .none => .none
  | .dword _ => .dword
  | .qword _ => .qword
  | .register _ => .register

/-- Immediates are written at their full width, registers by name. -/
def text : Operand → String
  | .none => ""
  | .dword v => "0x" ++ Text.lowerHex 8 v.toNat
  | .qword v => "0x" ++ Text.lowerHex 16 v.toNat
  | .register r => r.name

end Operand

namespace IntrinsicOperand

def shape : IntrinsicOperand → OperandShape
  | .none => .none
  | .type _ => .type
  | .field _ => .field
  | .method _ _ => .method

def text : IntrinsicOperand → String
  | .none => ""
  | .type t => t.text
  | .field f => f.text
  | .method how m => how.text ++ " " ++ m.text

end IntrinsicOperand

/-! ### Instructions -/

/-- A plain opcode or an intrinsic, with its operand. -/
inductive Operation where
  | plain (code : Opcode) (arg : Operand)
  | intrinsic (call : Intrinsic) (arg : IntrinsicOperand)
  deriving DecidableEq, Repr, Inhabited

namespace Operation

def code : Operation → CodeRef
  | .plain code _ => .opcode code
  | .intrinsic call _ => .intrinsic call

def shape : Operation → OperandShape
  | .plain _ arg => arg.shape
  | .intrinsic _ arg => arg.shape

def operandText : Operation → String
  | .plain _ arg => arg.text
  | .intrinsic _ arg => arg.text

/-- The mnemonic as listings show it, intrinsics behind the opcode that
reaches them. -/
def mnemonic : Operation → String
  | .plain code _ => code.mnemonic
  | .intrinsic call _ => Opcode.vcall.mnemonic ++ " " ++ call.mnemonic

end Operation

/-- A decoded instruction at its byte offset in the method body. -/
structure Instr where
  offset : UInt64
  operation : Operation
  deriving DecidableEq, Repr, Inhabited

/-- An offset as listings label it. -/
def offsetLabel (offset : UInt64) : String := "IL_" ++ Text.upperHex 4 offset.toNat

namespace Instr

def code (i : Instr) : CodeRef := i.operation.code

/-- The listing of an instruction: label, mnemonic, and the operand if there
is one. -/
def text (i : Instr) : String :=
  let head := offsetLabel i.offset ++ ": " ++ i.operation.mnemonic
  match i.operation.shape with
  | .none => head
  | _ => head ++ " " ++ i.operation.operandText

end Instr

end Devirt
