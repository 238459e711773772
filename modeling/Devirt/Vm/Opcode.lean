/-
# Opcodes of the virtual machine

The set is closed. Each opcode has one row of the table `Opcode.spec`: its
mnemonic, the family of operations it belongs to and the width it works on,
if any. An opcode whose mnemonic starts with two underscores never occurs in
encoded code: pattern recovery puts it in place of a longer sequence (a chain
of NORs read as one exclusive or).

Key definitions: `Opcode`, `Opcode.Spec`, `Opcode.spec`, `Opcode.all`.
-/
import Devirt.Vm.Width

namespace Devirt

/-- The family of operations an opcode belongs to. -/
inductive Family where
  | nop | load | store | push | pop | extend | call | ret | nor | compare | branch
  | add | sub | mul | div | rem | shr | shl | or | and | xor | not
  | convert | intrinsic | exception
  deriving DecidableEq, Repr, Inhabited

namespace Family

def name : Family → String
  | .nop => "Nop"
  | .load => "Load"
  | .store => "Store"
  | .push => "Push"
  | .pop => "Pop"
  | .extend => "Extend"
  | .call => "Call"
  | .ret => "Return"
  | .nor => "Nor"
  | .compare => "Compare"
  | .branch => "Branch"
  | .add => "Add"
  | .sub => "Sub"
  | .mul => "Mul"
  | .div => "Div"
  | .rem => "Rem"
  | .shr => "Shr"
  | .shl => "Shl"
  | .or => "Or"
  | .and => "And"
  | .xor => "Xor"
  | .not => "Not"
  | .convert => "Convert"
  | .intrinsic => "VCall"
  | .exception => "Exception"

end Family

inductive Opcode where
  | nop
  | lindPtr | lindObject | lindByte | lindWord | lindDword | lindQword
  | sindPtr | sindObject | sindByte | sindWord | sindDword | sindQword
  | pop
  | pushrObject | pushrByte | pushrWord | pushrDword | pushrQword | pushiDword | pushiQword
  | sxByte | sxWord | sxDword
  | call | ret
  | norDword | norQword
  | cmp | cmpDword | cmpQword | cmpR32 | cmpR64
  | jz | jnz | jmp | swt
  | addDword | addQword | addR32 | addR64
  | subR32 | subR64
  | mulDword | mulQword | mulR32 | mulR64
  | divDword | divQword | divR32 | divR64
  | remDword | remQword | remR32 | remR64
  | shrDword | shrQword | shlDword | shlQword
  | fconvR32R64 | fconvR64R32 | fconvR32 | fconvR64 | iconvPtr | iconvR64
  | vcall
  | tryBegin | leave
  | subDword | orDword | andDword | xorDword | notDword
  deriving DecidableEq, Repr, Inhabited

namespace Opcode

/-- Every opcode, in the order of declaration. -/
def all : List Opcode :=
  [.nop,
   .lindPtr, .lindObject, .lindByte, .lindWord, .lindDword, .lindQword,
   .sindPtr, .sindObject, .sindByte, .sindWord, .sindDword, .sindQword,
   .pop,
   .pushrObject, .pushrByte, .pushrWord, .pushrDword, .pushrQword, .pushiDword, .pushiQword,
   .sxByte, .sxWord, .sxDword,
   .call, .ret,
   .norDword, .norQword,
   .cmp, .cmpDword, .cmpQword, .cmpR32, .cmpR64,
   .jz, .jnz, .jmp, .swt,
   .addDword, .addQword, .addR32, .addR64,
   .subR32, .subR64,
   .mulDword, .mulQword, .mulR32, .mulR64,
   .divDword, .divQword, .divR32, .divR64,
   .remDword, .remQword, .remR32, .remR64,
   .shrDword, .shrQword, .shlDword, .shlQword,
   .fconvR32R64, .fconvR64R32, .fconvR32, .fconvR64, .iconvPtr, .iconvR64,
   .vcall,
   .tryBegin, .leave,
   .subDword, .orDword, .andDword, .xorDword, .notDword]

theorem mem_all (c : Opcode) : c ∈ all := by
  cases c <;> decide

/-- One row of the table of opcodes. -/
structure Spec where
  mnemonic : String
  family : Family
  width : Option Width

/-- The table of opcodes. -/
def spec : Opcode → Spec
  | .nop => ⟨"NOP", .nop, none⟩
  | .lindPtr => ⟨"LIND_PTR", .load, some .pointer⟩
  | .lindObject => ⟨"LIND_OBJECT", .load, some .object⟩
  | .lindByte => ⟨"LIND_BYTE", .load, some .byte⟩
  | .lindWord => ⟨"LIND_WORD", .load, some .word⟩
  | .lindDword => ⟨"LIND_DWORD", .load, some .dword⟩
  | .lindQword => ⟨"LIND_QWORD", .load, some .qword⟩
  | .sindPtr => ⟨"SIND_PTR", .store, some .pointer⟩
  | .sindObject => ⟨"SIND_OBJECT", .store, some .object⟩
  | .sindByte => ⟨"SIND_BYTE", .store, some .byte⟩
  | .sindWord => ⟨"SIND_WORD", .store, some .word⟩
  | .sindDword => ⟨"SIND_DWORD", .store, some .dword⟩
  | .sindQword => ⟨"SIND_QWORD", .store, some .qword⟩
  | .pop => ⟨"POP", .pop, none⟩
  | .pushrObject => ⟨"PUSHR_OBJECT", .push, some .object⟩
  | .pushrByte => ⟨"PUSHR_BYTE", .push, some .byte⟩
  | .pushrWord => ⟨"PUSHR_WORD", .push, some .word⟩
  | .pushrDword => ⟨"PUSHR_DWORD", .push, some .dword⟩
  | .pushrQword => ⟨"PUSHR_QWORD", .push, some .qword⟩
  | .pushiDword => ⟨"PUSHI_DWORD", .push, some .dword⟩
  | .pushiQword => ⟨"PUSHI_QWORD", .push, some .qword⟩
  | .sxByte => ⟨"SX_BYTE", .extend, some .byte⟩
  | .sxWord => ⟨"SX_WORD", .extend, some .word⟩
  | .sxDword => ⟨"SX_DWORD", .extend, some .dword⟩
  | .call => ⟨"CALL", .call, none⟩
  | .ret => ⟨"RET", .ret, none⟩
  | .norDword => ⟨"NOR_DWORD", .nor, some .dword⟩
  | .norQword => ⟨"NOR_QWORD", .nor, some .qword⟩
  | .cmp => ⟨"CMP", .compare, none⟩
  | .cmpDword => ⟨"CMP_DWORD", .compare, some .dword⟩
  | .cmpQword => ⟨"CMP_QWORD", .compare, some .qword⟩
  | .cmpR32 => ⟨"CMP_R32", .compare, some .real32⟩
  | .cmpR64 => ⟨"CMP_R64", .compare, some .real64⟩
  | .jz => ⟨"JZ", .branch, none⟩
  | .jnz => ⟨"JNZ", .branch, none⟩
  | .jmp => ⟨"JMP", .branch, none⟩
  | .swt => ⟨"SWT", .branch, none⟩
  | .addDword => ⟨"ADD_DWORD", .add, some .dword⟩
  | .addQword => ⟨"ADD_QWORD", .add, some .qword⟩
  | .addR32 => ⟨"ADD_R32", .add, some .real32⟩
  | .addR64 => ⟨"ADD_R64", .add, some .real64⟩
  | .subR32 => ⟨"SUB_R32", .sub, some .real32⟩
  | .subR64 => ⟨"SUB_R64", .sub, some .real64⟩
  | .mulDword => ⟨"MUL_DWORD", .mul, some .dword⟩
  | .mulQword => ⟨"MUL_QWORD", .mul, some .qword⟩
  | .mulR32 => ⟨"MUL_R32", .mul, some .real32⟩
  | .mulR64 => ⟨"MUL_R64", .mul, some .real64⟩
  | .divDword => ⟨"DIV_DWORD", .div, some .dword⟩
  | .divQword => ⟨"DIV_QWORD", .div, some .qword⟩
  | .divR32 => ⟨"DIV_R32", .div, some .real32⟩
  | .divR64 => ⟨"DIV_R64", .div, some .real64⟩
  | .remDword => ⟨"REM_DWORD", .rem, some .dword⟩
  | .remQword => ⟨"REM_QWORD", .rem, some .qword⟩
  | .remR32 => ⟨"REM_R32", .rem, some .real32⟩
  | .remR64 => ⟨"REM_R64", .rem, some .real64⟩
  | .shrDword => ⟨"SHR_DWORD", .shr, some .dword⟩
  | .shrQword => ⟨"SHR_QWORD", .shr, some .qword⟩
  | .shlDword => ⟨"SHL_DWORD", .shl, some .dword⟩
  | .shlQword => ⟨"SHL_QWORD", .shl, some .qword⟩
  | .fconvR32R64 => ⟨"FCONV_R32_R64", .convert, some .real64⟩
  | .fconvR64R32 => ⟨"FCONV_R64_R32", .convert, some .real32⟩
  | .fconvR32 => ⟨"FCONV_R32", .convert, some .real32⟩
  | .fconvR64 => ⟨"FCONV_R64", .convert, some .real64⟩
  | .iconvPtr => ⟨"ICONV_PTR", .convert, some .pointer⟩
  | .iconvR64 => ⟨"ICONV_R64", .convert, some .qword⟩
  | .vcall => ⟨"VCALL", .intrinsic, none⟩
  | .tryBegin => ⟨"TRY", .exception, none⟩
  | .leave => ⟨"LEAVE", .exception, none⟩
  | .subDword => ⟨"__SUB_DWORD", .sub, some .dword⟩
  | .orDword => ⟨"__OR_DWORD", .or, some .dword⟩
  | .andDword => ⟨"__AND_DWORD", .and, some .dword⟩
  | .xorDword => ⟨"__XOR_DWORD", .xor, some .dword⟩
  | .notDword => ⟨"__NOT_DWORD", .not, some .dword⟩

def mnemonic (c : Opcode) : String := c.spec.mnemonic

def family (c : Opcode) : Family := c.spec.family

/-- The width the opcode works on, if it has one. -/
def width (c : Opcode) : Option Width := c.spec.width

/-- Whether only pattern recovery produces this opcode. -/
def isPseudo (c : Opcode) : Bool := c.mnemonic.startsWith "__"

/-- The place of the opcode in the order of declaration. -/
def index (c : Opcode) : Nat := all.idxOf c

/-- The opcode of this mnemonic. -/
def ofMnemonic? (s : String) : Option Opcode := all.find? fun c => c.mnemonic == s

end Opcode
end Devirt
