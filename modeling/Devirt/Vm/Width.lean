/-
# Operand widths

The width, or class of values, that an opcode works on.

Key definitions: `Width`.
-/

namespace Devirt

inductive Width where
  | byte | word | dword | qword
  | object | pointer
  | real32 | real64
  deriving DecidableEq, Repr, Inhabited

namespace Width

def all : List Width :=
  [.byte, .word, .dword, .qword, .object, .pointer, .real32, .real64]

def name : Width → String
  | .byte => "byte"
  | .word => "word"
  | .dword => "dword"
  | .qword => "qword"
  | .object => "object"
  | .pointer => "ptr"
  | .real32 => "r32"
  | .real64 => "r64"

/-- The width of this name. -/
def ofName? (s : String) : Option Width := all.find? fun w => w.name == s

def isIntegral : Width → Bool
  | .byte | .word | .dword | .qword => true
  | _ => false

def isFloating : Width → Bool
  | .real32 | .real64 => true
  | _ => false

end Width
end Devirt
