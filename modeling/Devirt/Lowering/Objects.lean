/-
# Boxing, calls and fields

Intrinsics that reach the host's objects. A value type is boxed and a
reference only cast. A call takes its arguments from the stack; dispatch on a
receiver and construction need a method that has one. A field is accessed
through its receiver, a reference or pointer below the stored value, or
without one if it is static.

Key definitions: `Lowering.box`, `Lowering.call`, `Lowering.loadField`,
`Lowering.storeField`.
-/
import Devirt.Frame

namespace Devirt
namespace Lowering

open Devirt.Frame

def box (code : CodeRef) (arg : IntrinsicOperand) : Lower Unit :=
  match arg with
  | .type t =>
    if t.isVoid then throw (.violation (.voidType t))
    else if t.isValueType then emit code (.box t)
    else emit code (.castClass t)
  | arg => throw (.violation (.operandShape arg.shape [.type]))

def call (code : CodeRef) (arg : IntrinsicOperand) : Lower Unit :=
  match arg with
  | .method how m =>
    if how ≠ .direct ∧ ¬ m.hasThis then
      throw (.violation (.noReceiver how m))
    else do
      require (HostInstr.invoke how m).arity.pops
      emit code (.invoke how m)
  | arg => throw (.violation (.operandShape arg.shape [.method]))

/-- Fails unless a field can be reached through the value `n` places below
the top. -/
def requireReceiver (n : Nat) : Lower Unit := do
  match ← peek n with
  | .object | .pointer | .nativeInt => pure ()
  | t => throw (.violation (.badReceiver t))

def loadField (code : CodeRef) (arg : IntrinsicOperand) : Lower Unit :=
  match arg with
  | .field f =>
    if f.isStatic then
      emit code (.loadStatic f)
    else do
      requireReceiver 0
      emit code (.loadField f)
  | arg => throw (.violation (.operandShape arg.shape [.field]))

def storeField (code : CodeRef) (arg : IntrinsicOperand) : Lower Unit :=
  match arg with
  | .field f =>
    if f.isStatic then
      emit code (.storeStatic f)
    else do
      requireReceiver 1
      emit code (.storeField f)
  | arg => throw (.violation (.operandShape arg.shape [.field]))

end Lowering
end Devirt
