/-
# The frame of a method under recompilation

A frame holds what lowering one method has produced so far: the abstract
stack, the table of locals, the host instructions not yet handed out and the
log. Every emitted instruction has its effect on the stack at once, so the
stack always is that of the host code produced so far.

The table of locals is its own index. A register has at most one local for
each storage class, found by origin and type; scratch locals are found the
same way where the options let them be shared, and are new each time
otherwise.

A primitive that fails leaves the frame as it was. `emitAll` stops at the
first instruction that fails and keeps those before it.

Key definitions: `Frame`, `Lower`, `Lower.chargedTo`, `Frame.push`, `Frame.pop`, `Frame.peek`,
`Frame.registerLocal`, `Frame.storeRegister`, `Frame.scratchLocal`,
`Frame.emit`, `Frame.emitAll`, `Frame.takeEmitted`, `Frame.takeNewLocals`.
-/
import Devirt.Event
import Devirt.Host.Effect
import Devirt.Options

namespace Devirt

structure Frame where
  options : Options
  stack : EvalStack := .empty
  locals : Array Local := #[]
  /-- The number of locals that `takeNewLocals` has handed out. -/
  reported : Nat := 0
  /-- The registers that were last stored with a float. -/
  floats : List Register := []
  /-- The emitted instructions that `takeEmitted` has yet to hand out. -/
  pending : Array HostInstr := #[]
  log : Array Event := #[]
  deriving DecidableEq, Repr

/-- A step of lowering: it changes the frame and may fail, and a failure keeps
the changes made before it. -/
abbrev Lower := EStateM Cause Frame

/-- The step with its failures charged to `code`. -/
def Lower.chargedTo {α : Type} (x : Lower α) (code : CodeRef) : EStateM Fault Frame α :=
  x.adaptExcept (Fault.mk code)

namespace Frame

/-- The frame of a method before its first instruction. -/
def start (options : Options) : Frame := { options }

/-! ### The stack -/

def limit (f : Frame) : Nat := f.options.maxStackDepth

def push (t : StackType) : Lower Unit := fun f =>
  match f.stack.push f.limit t with
  | .ok s => .ok () { f with stack := s }
  | .error c => .error c f

/-- Takes the top `n` values and returns their types, deepest first. -/
def pop (n : Nat) : Lower (List StackType) := fun f =>
  match f.stack.pop n with
  | .ok (ts, s) => .ok ts { f with stack := s }
  | .error c => .error c f

/-- The type `n` places below the top. -/
def peek (n : Nat) : Lower StackType := fun f =>
  match f.stack.peek n with
  | .ok t => .ok t f
  | .error c => .error c f

/-- Fails unless `n` values are on the stack. -/
def require (n : Nat) : Lower Unit := fun f =>
  if n ≤ f.stack.depth then .ok () f else .error (.underflow n f.stack.depth) f

/-! ### Locals -/

def localType? (f : Frame) (i : LocalIndex) : Option StackType :=
  f.locals[i.val]?.map Local.type

/-- The local of this origin and type, if there is one. -/
def findLocal? (f : Frame) (origin : LocalOrigin) (t : StackType) : Option LocalIndex :=
  (f.locals.find? fun l => l.origin = origin && l.type = t).map Local.index

/-- A new local at the end of the table. -/
def allocate (origin : LocalOrigin) (t : StackType) : Lower LocalIndex := fun f =>
  if h : f.locals.size < maxLocals then
    let i : LocalIndex := ⟨f.locals.size, h⟩
    .ok i { f with locals := f.locals.push ⟨i, t, origin⟩ }
  else
    .error (.tooManyLocals maxLocals) f

/-- The local of this origin and type, allocated on first use. -/
def localFor (origin : LocalOrigin) (t : StackType) : Lower LocalIndex := fun f =>
  match f.findLocal? origin t with
  | some i => .ok i f
  | none => allocate origin t f

/-- The local that backs `r` for values of type `t`. -/
def registerLocal (r : Register) (t : StackType) : Lower LocalIndex :=
  localFor (.register r) (StorageClass.of t).slotType

/-- Remembers that `r` now holds a value of type `t`. -/
def markStored (r : Register) (t : StackType) : Lower Unit := fun f =>
  let others := f.floats.filter (· ≠ r)
  .ok () { f with floats := if t = .float then r :: others else others }

/-- The local that a value of type `t` stored into `r` goes to. -/
def storeRegister (r : Register) (t : StackType) : Lower LocalIndex := do
  let i ← registerLocal r t
  markStored r t
  return i

/-- Whether the last value stored into `r` was a float. -/
def holdsFloat (f : Frame) (r : Register) : Bool := f.floats.contains r

/-- A scratch local of type `t`; different slots never share one. -/
def scratchLocal (t : StackType) (slot : UInt8) : Lower LocalIndex := fun f =>
  if f.options.reuseTemporaries then
    localFor (.scratch slot) t f
  else
    allocate (.scratch slot) t f

/-- The locals allocated since they were last asked for. -/
def newLocals (f : Frame) : Array Local := f.locals.extract f.reported f.locals.size

/-- Hands out the new locals. -/
def takeNewLocals : Lower (Array Local) := fun f =>
  .ok f.newLocals { f with reported := f.locals.size }

/-! ### Emission -/

/-- Appends an instruction to the pending ones and applies its effect; `code`
is the one that the log charges it to. -/
def emit (code : CodeRef) (i : HostInstr) : Lower Unit := fun f =>
  match i.effect f.limit f.locals f.stack with
  | .ok s =>
    .ok () { f with
      stack := s
      pending := f.pending.push i
      log := if f.options.traceEmission then f.log.push (.emitted code i s.depth) else f.log }
  | .error c => .error c f

def emitAll (code : CodeRef) : List HostInstr → Lower Unit
  | [] => pure ()
  | i :: is => do
    emit code i
    emitAll code is

/-- Hands out everything emitted since the last time. -/
def takeEmitted : Lower (Array HostInstr) := fun f =>
  .ok f.pending { f with pending := #[] }

end Frame

end Devirt
