/-
# Comparisons

A comparison leaves the sign of the difference of its operands as a 32-bit
integer: -1, 0 or 1. The operands go to scratch locals and the result is
"greater" minus "less". Both are the ordered comparisons, so floats that are
unordered compare equal. Two references compare to 0 if they are the same and
to 1 otherwise, which only the opcode without a width allows.

Key definitions: `Lowering.signOfDifference`, `Lowering.compare`.
-/
import Devirt.Frame

namespace Devirt
namespace Lowering

open Devirt.Frame

/-- The sign of the difference of two numbers, by way of the locals `lhs` and
`rhs`. -/
def signOfDifference (lhs rhs : LocalIndex) : List HostInstr :=
  [.storeLocal rhs, .storeLocal lhs,
    .loadLocal lhs, .loadLocal rhs, .compare .gt,
    .loadLocal lhs, .loadLocal rhs, .compare .lt,
    .arith .sub]

/-- Whether two references differ. -/
def referencesDiffer : List HostInstr :=
  [.compare .eq, .loadInt32 1, .arith .xor]

/-- Compares two numbers as values of type `t`. -/
def compareNumbers (code : CodeRef) (t : StackType) : Lower Unit := do
  let lhs ← scratchLocal t 0
  let rhs ← scratchLocal t 1
  emitAll code (signOfDifference lhs rhs)

def compare (code : CodeRef) (width : Option Width) : Lower Unit := do
  require 2
  let rhs ← peek 0
  let lhs ← peek 1
  match width, lhs == .object, rhs == .object with
  | none, true, true => emitAll code referencesDiffer
  | none, false, false => compareNumbers code (.binaryResult lhs rhs)
  | some w, false, false => compareNumbers code (.ofWidth w)
  | width, _, _ => throw (.violation (.incomparable lhs rhs width.isSome))

end Lowering
end Devirt
