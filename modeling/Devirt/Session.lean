/-
# Sessions: a frame driven by single actions

Besides a whole body, a frame can be driven by one action after another. An
action that fails answers with its fault and the session goes on with
whatever the action had done before it failed. The primitives charge their
failures to a code that the caller names, lowering to the code of its own
instruction.

Key definitions: `Action`, `Answer`, `Action.run`, `Action.next`.
-/
import Devirt.Registry

namespace Devirt

inductive Action where
  | push (t : StackType)
  | pop (n : Nat)
  | peek (n : Nat)
  | registerLocal (r : Register) (t : StackType)
  | storeRegister (r : Register) (t : StackType)
  | scratchLocal (t : StackType) (slot : UInt8)
  | takeNewLocals
  | emit (i : HostInstr)
  | emitAll (is : List HostInstr)
  | takeEmitted
  /-- Lowering by the rule that the registry has for the instruction. -/
  | lower (i : Instr)
  /-- Lowering by a rule of the caller's. -/
  | lowerBy (rule : Rule) (i : Instr)
  deriving DecidableEq, Repr

inductive Answer where
  | done
  | type (t : StackType)
  | types (ts : List StackType)
  | index (i : LocalIndex)
  | locals (ls : Array Local)
  | code (is : Array HostInstr)
  deriving DecidableEq, Repr

namespace Action

/-- Runs an action on a frame. -/
def run (reg : Registry) (code : CodeRef) : Action → EStateM Fault Frame Answer
  | .push t => ((fun _ => .done) <$> Frame.push t).chargedTo code
  | .pop n => (.types <$> Frame.pop n).chargedTo code
  | .peek n => (.type <$> Frame.peek n).chargedTo code
  | .registerLocal r t => (.index <$> Frame.registerLocal r t).chargedTo code
  | .storeRegister r t => (.index <$> Frame.storeRegister r t).chargedTo code
  | .scratchLocal t slot => (.index <$> Frame.scratchLocal t slot).chargedTo code
  | .takeNewLocals => (.locals <$> Frame.takeNewLocals).chargedTo code
  | .emit i => ((fun _ => .done) <$> Frame.emit code i).chargedTo code
  | .emitAll is => ((fun _ => .done) <$> Frame.emitAll code is).chargedTo code
  | .takeEmitted => (.code <$> Frame.takeEmitted).chargedTo code
  | .lower i => .code <$> reg.lower i
  | .lowerBy rule i => .code <$> rule.lower i

/-- The frame after an action, whether it failed or not. -/
def next (reg : Registry) (code : CodeRef) (a : Action) (f : Frame) : Frame :=
  match a.run reg code f with
  | .ok _ f => f
  | .error _ f => f

end Action

end Devirt
