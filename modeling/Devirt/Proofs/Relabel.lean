/-
# Registers by other names

A map of registers is applied to what names them: to the operands of decoded
instructions and to the faults that quote a register. Everything else about an
instruction or a fault stays as it is, its code above all.

Key definitions: `Operation.relabel`, `Instr.relabel`, `Violation.relabel`,
`Cause.relabel`, `Fault.relabel`.
-/
import Devirt.Fault

namespace Devirt

/-! ### Instructions -/

/-- The operand with `ρ` applied to its register. -/
def Operand.relabel (ρ : Register → Register) : Operand → Operand
  | .register r => .register (ρ r)
  | arg => arg

def Operation.relabel (ρ : Register → Register) : Operation → Operation
  | .plain code arg => .plain code (arg.relabel ρ)
  | .intrinsic call arg => .intrinsic call arg

def Instr.relabel (ρ : Register → Register) (i : Instr) : Instr :=
  { i with operation := i.operation.relabel ρ }

variable {ρ : Register → Register}

@[simp] theorem Operand.relabel_id (arg : Operand) : arg.relabel id = arg := by
  cases arg <;> rfl

@[simp] theorem Operation.relabel_id (op : Operation) : op.relabel id = op := by
  cases op with
  | plain code arg => rw [relabel, Operand.relabel_id]
  | intrinsic call arg => rfl

@[simp] theorem Operation.code_relabel (op : Operation) : (op.relabel ρ).code = op.code := by
  cases op <;> rfl

@[simp] theorem Instr.code_relabel (i : Instr) : (i.relabel ρ).code = i.code :=
  Operation.code_relabel i.operation

/-! ### Faults -/

/-- The violation with `ρ` applied to the register that it quotes. -/
def Violation.relabel (ρ : Register → Register) : Violation → Violation
  | .floatRegister r => .floatRegister (ρ r)
  | v => v

def Cause.relabel (ρ : Register → Register) : Cause → Cause
  | .violation v => .violation (v.relabel ρ)
  | c => c

def Fault.relabel (ρ : Register → Register) (fault : Fault) : Fault :=
  { fault with cause := fault.cause.relabel ρ }

@[simp] theorem Violation.relabel_id (v : Violation) : v.relabel id = v := by
  cases v <;> rfl

end Devirt
