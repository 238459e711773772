/-
# The abstract evaluation stack

Lowering runs the emitted host code on types alone. The stack is the list of
types, top first, with its depth kept beside it and the greatest depth it
ever had. A push past the limit and a read below the bottom are refused with
the numbers that a fault reports, and a refused operation changes nothing.

Key definitions: `EvalStack`, `EvalStack.push`, `EvalStack.pop`,
`EvalStack.peek`, `EvalStack.drop`, `EvalStack.replace`, `EvalStack.combine`.
-/
import Devirt.Fault

namespace Devirt

structure EvalStack where
  /-- The types on the stack, top first. -/
  types : List StackType := []
  depth : Nat := types.length
  /-- The greatest depth so far. -/
  peak : Nat := depth
  depth_eq : depth = types.length := by rfl
  deriving DecidableEq, Repr

namespace EvalStack

def empty : EvalStack := {}

/-- The types on the stack, bottom first. -/
def bottomUp (s : EvalStack) : List StackType := s.types.reverse

/-- The type `n` places below the top. -/
def peek (n : Nat) (s : EvalStack) : Except Cause StackType :=
  match s.types[n]? with
  | some t => .ok t
  | none => .error (.underflow (n + 1) s.depth)

def push (limit : Nat) (t : StackType) (s : EvalStack) : Except Cause EvalStack :=
  if s.depth < limit then
    .ok {
      types := t :: s.types
      depth := s.depth + 1
      peak := max s.peak (s.depth + 1)
      depth_eq := by simp [s.depth_eq] }
  else
    .error (.overflow limit)

/-- The stack without its top `n` values. -/
def drop (n : Nat) (s : EvalStack) : Except Cause EvalStack :=
  if n ≤ s.depth then
    .ok {
      types := s.types.drop n
      depth := s.depth - n
      peak := s.peak
      depth_eq := by simp [s.depth_eq] }
  else
    .error (.underflow n s.depth)

/-- The top `n` values, deepest first, and the stack without them. -/
def pop (n : Nat) (s : EvalStack) : Except Cause (List StackType × EvalStack) := do
  let rest ← s.drop n
  return ((s.types.take n).reverse, rest)

/-- Takes `n` values and leaves one of type `t`. -/
def replace (limit n : Nat) (t : StackType) (s : EvalStack) : Except Cause EvalStack := do
  let rest ← s.drop n
  rest.push limit t

/-- Takes two values and leaves one whose type `f` finds from theirs, the
deeper one first. -/
def combine (limit : Nat) (f : StackType → StackType → StackType) (s : EvalStack) :
    Except Cause EvalStack :=
  match s.types with
  | rhs :: lhs :: _ => s.replace limit 2 (f lhs rhs)
  | _ => .error (.underflow 2 s.depth)

end EvalStack

end Devirt
