/-
# Host locals

A local is addressed by an index below `maxLocals` and remembers why it
exists: it backs a register, or it is a scratch slot of a lowering rule.

Key definitions: `LocalIndex`, `LocalOrigin`, `Local`.
-/
import Devirt.Host.StackType
import Devirt.Vm.Register

namespace Devirt

/-- The number of locals that an index of sixteen bits can address. -/
def maxLocals : Nat := 65536

abbrev LocalIndex := Fin maxLocals

/-- The name of a local in listings. -/
def LocalIndex.text (i : LocalIndex) : String := "V_" ++ toString i.val

/-- Why a local exists. -/
inductive LocalOrigin where
  | register (r : Register)
  | scratch (slot : UInt8)
  deriving DecidableEq, Repr, Inhabited

def LocalOrigin.text : LocalOrigin → String
  | .register r => r.name
  | .scratch slot => "tmp " ++ toString slot.toNat

structure Local where
  index : LocalIndex
  type : StackType
  origin : LocalOrigin
  deriving DecidableEq, Repr

end Devirt
