/-
# Chains: a fixed host sequence for a family of opcodes

A chain lowers every opcode it serves to one sequence of host instructions
that takes its operands from the stack and leaves one result. The shape of a
sequence is found from the arities alone: what it consumes from below its own
values, and what it leaves behind. Only a sequence that is not empty and
leaves one value makes a chain, and the chain keeps the proof of it.

Key definitions: `Shape`, `Shape.ofSequence`, `Chain`, `Chain.ofSequence?`,
`ChainError`, `Lowering.chain`.
-/
import Devirt.Frame

namespace Devirt

/-- What a sequence takes from the stack it starts on and what it leaves of
its own. -/
structure Shape where
  consumed : Nat
  left : Nat
  deriving DecidableEq, Repr

namespace Shape

/-- The shape after one more instruction: it uses up what the sequence has
left so far before it reaches further down. -/
def step (s : Shape) (a : Arity) : Shape :=
  ⟨s.consumed + (a.pops - s.left), s.left - a.pops + a.pushes⟩

/-- The shape of a sequence. -/
def ofSequence (is : List HostInstr) : Shape :=
  is.foldl (fun s i => s.step i.arity) ⟨0, 0⟩

end Shape

structure Chain where
  name : String
  sequence : List HostInstr
  codes : List Opcode
  /-- The values the sequence takes off the stack. -/
  operandCount : Nat
  shape_eq : Shape.ofSequence sequence = ⟨operandCount, 1⟩
  deriving DecidableEq, Repr

/-- Why a sequence makes no chain. -/
inductive ChainError where
  | empty (name : String)
  | leaves (name : String) (count : Nat)
  deriving DecidableEq, Repr

def ChainError.message : ChainError → String
  | .empty name => s!"translator '{name}' has an empty host sequence"
  | .leaves name count =>
    s!"translator '{name}' host sequence leaves {count} values, expected exactly one"

namespace Chain

/-- The chain of a sequence that is not empty and leaves one value. -/
def ofSequence? (name : String) (sequence : List HostInstr) (codes : List Opcode) :
    Except ChainError Chain :=
  if sequence.isEmpty then
    .error (.empty name)
  else
    match h : Shape.ofSequence sequence with
    | ⟨operandCount, 1⟩ => .ok { name, sequence, codes, operandCount, shape_eq := h }
    | ⟨_, count⟩ => .error (.leaves name count)

/-- The chain of a single instruction. -/
def ofInstr? (name : String) (i : HostInstr) (codes : List Opcode) : Except ChainError Chain :=
  ofSequence? name [i] codes

end Chain

/-- Emits the sequence of a chain once its operands are known to be there. -/
def Lowering.chain (code : CodeRef) (c : Chain) : Lower Unit := do
  Frame.require c.operandCount
  Frame.emitAll code c.sequence

end Devirt
