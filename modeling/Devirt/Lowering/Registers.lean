/-
# Pushes and pops

A register is 64 bits wide and backed by locals. Storing an integer widens it
to the whole register; reading fewer bits truncates and zero-extends. A float
is stored and read back as it is: a read of 32 or 64 bits returns the float,
and a narrower one is refused, for it would convert the value. Immediates
become constants.

Key definitions: `PushForm`, `Opcode.pushForm?`, `Lowering.push`,
`Lowering.pop`.
-/
import Devirt.Frame

namespace Devirt

/-- What an opcode pushes: an immediate of its size, or a register read. -/
inductive PushForm where
  | dword
  | qword
  | register (w : Width)
  deriving DecidableEq, Repr

/-- The form of a push, for the opcodes that push. -/
def Opcode.pushForm? : Opcode → Option PushForm
  | .pushiDword => some .dword
  | .pushiQword => some .qword
  | .pushrByte => some (.register .byte)
  | .pushrWord => some (.register .word)
  | .pushrDword => some (.register .dword)
  | .pushrQword => some (.register .qword)
  | .pushrObject => some (.register .object)
  | _ => none

/-- The conversion that narrows a register to fewer than its 64 bits. -/
def Width.narrowing? : Width → Option Conversion
  | .byte => some .u1
  | .word => some .u2
  | .dword => some .u4
  | _ => none

namespace Lowering

open Devirt.Frame

/-- Pushes `r` as a value of width `w`. -/
def pushRegister (code : CodeRef) (w : Width) (r : Register) : Lower Unit := do
  if w ≠ .object ∧ (← get).holdsFloat r then
    if w = .dword ∨ w = .qword then
      emit code (.loadLocal (← registerLocal r .float))
    else
      throw (.violation (.floatRegister r))
  else
    emit code (.loadLocal (← registerLocal r (.ofWidth w)))
    match w.narrowing? with
    | some conv => emit code (.convert conv)
    | none => pure ()

def push (code : CodeRef) (form : PushForm) (arg : Operand) : Lower Unit :=
  match form, arg with
  | .dword, .dword v => emit code (.loadInt32 v.toInt32)
  | .qword, .qword v => emit code (.loadInt64 v.toInt64)
  | .register w, .register r => pushRegister code w r
  | .dword, arg => throw (.violation (.operandShape arg.shape [.dword]))
  | .qword, arg => throw (.violation (.operandShape arg.shape [.qword]))
  | .register _, arg => throw (.violation (.operandShape arg.shape [.register]))

/-- Stores the top of the stack into `r`, an integer narrower than the
register zero-extended. -/
def popRegister (code : CodeRef) (r : Register) : Lower Unit := do
  let top ← peek 0
  let home ← storeRegister r top
  if StorageClass.of top = .integral ∧ top ≠ .int64 then
    emit code (.convert .u8)
  emit code (.storeLocal home)

def pop (code : CodeRef) (arg : Operand) : Lower Unit :=
  match arg with
  | .none => emit code .pop
  | .register r => popRegister code r
  | arg => throw (.violation (.operandShape arg.shape [.none, .register]))

end Lowering

end Devirt
