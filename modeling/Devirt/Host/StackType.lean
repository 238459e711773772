/-
# Types on the host evaluation stack

The host tells six types of stack values apart. A width, an element kind and
a pair of operands each determine one, and a local that backs a register
belongs to one of three storage classes, which never share a slot.

Key definitions: `StackType`, `StackType.ofWidth`, `StackType.ofElement?`,
`StackType.binaryResult`, `StorageClass`.
Key theorems: `StackType.binaryResult_comm`, `StorageClass.of_slotType`.
-/
import Devirt.Metadata
import Devirt.Vm.Width

namespace Devirt

inductive StackType where
  | int32 | int64 | nativeInt | float | object | pointer
  deriving DecidableEq, Repr, Inhabited

namespace StackType

def all : List StackType := [.int32, .int64, .nativeInt, .float, .object, .pointer]

def name : StackType → String
  | .int32 => "int32"
  | .int64 => "int64"
  | .nativeInt => "native int"
  | .float => "F"
  | .object => "O"
  | .pointer => "&"

/-- The stack type of this name. -/
def ofName? (s : String) : Option StackType := all.find? fun t => t.name == s

/-- The type of a value of this width once it is on the stack. -/
def ofWidth : Width → StackType
  | .byte | .word | .dword => .int32
  | .qword => .int64
  | .real32 | .real64 => .float
  | .object => .object
  | .pointer => .nativeInt

/-- The type of a value of this element kind once it is on the stack; `void`
has none, and structures are tracked like references. -/
def ofElement? : ElementKind → Option StackType
  | .void => none
  | .boolean | .char | .i1 | .u1 | .i2 | .u2 | .i4 | .u4 => some .int32
  | .i8 | .u8 => some .int64
  | .r4 | .r8 => some .float
  | .i | .u => some .nativeInt
  | .string | .object | .classType | .valueType => some .object

def isIntegral : StackType → Bool
  | .int32 | .int64 | .nativeInt => true
  | _ => false

/-- The type of a binary operation: a float if any operand is one, else the
wider of two integers, pointers counting as native integers. -/
def binaryResult : StackType → StackType → StackType
  | .float, _ | _, .float => .float
  | .int64, _ | _, .int64 => .int64
  | .nativeInt, _ | _, .nativeInt | .pointer, _ | _, .pointer => .nativeInt
  | .int32, .int32 => .int32
  | .object, _ | _, .object => .object

theorem binaryResult_comm (a b : StackType) : binaryResult a b = binaryResult b a := by
  cases a <;> cases b <;> rfl

end StackType

/-- The class of values a local of a register is kept for. -/
inductive StorageClass where
  | integral | float | object
  deriving DecidableEq, Repr, Inhabited

namespace StorageClass

/-- The class that a value of this type is stored in. -/
def of : StackType → StorageClass
  | .object => .object
  | .float => .float
  | .int32 | .int64 | .nativeInt | .pointer => .integral

/-- The type of the locals of a class: integers keep all 64 bits of the
register. -/
def slotType : StorageClass → StackType
  | .integral => .int64
  | .float => .float
  | .object => .object

@[simp] theorem of_slotType (c : StorageClass) : of c.slotType = c := by
  cases c <;> rfl

end StorageClass

end Devirt
