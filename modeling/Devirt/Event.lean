/-
# The event log

Building a registry and recompiling a method report what they do as events.
An event is data; its level, message and fields are read off it, and every
field is text.

Key definitions: `Event`, `Event.level`, `Event.message`, `Event.fields`.
-/
import Devirt.Fault
import Devirt.Host.Instr

namespace Devirt

inductive Event where
  /-- A host instruction was emitted for `code`; `depth` counts the stack after it. -/
  | emitted (code : CodeRef) (instr : HostInstr) (depth : Nat)
  /-- A registration displaced the rule registered for `code` before. -/
  | replaced (code : CodeRef) (previous replacement : String)
  | registryBuilt (opcodes intrinsics : Nat)
  | aborted (index : Nat) (offset : UInt64) (fault : Fault)
  | recompiled (decoded emitted locals maxStack : Nat)
  deriving DecidableEq, Repr

inductive Level where
  | trace | debug | warn
  deriving DecidableEq, Repr

def Level.name : Level → String
  | .trace => "TRACE"
  | .debug => "DEBUG"
  | .warn => "WARN"

namespace Event

def level : Event → Level
  | .emitted .. => .trace
  | .aborted .. => .warn
  | _ => .debug

def message : Event → String
  | .emitted .. => "emit"
  | .replaced (.opcode _) _ _ => "opcode translator replaced"
  | .replaced (.intrinsic _) _ _ => "vcall translator replaced"
  | .registryBuilt .. => "translator registry built"
  | .aborted .. => "aborting method recompilation"
  | .recompiled .. => "method recompiled"

/-- The fields of an event, by name. -/
def fields : Event → List (String × String)
  | .emitted code instr depth =>
    [("code", code.text), ("insn", instr.text), ("depth", toString depth)]
  | .replaced code previous replacement =>
    [(if code.isOpcode then "code" else "call", code.mnemonic),
      ("previous", previous), ("replacement", replacement)]
  | .registryBuilt opcodes intrinsics =>
    [("opcodes", toString opcodes), ("vcalls", toString intrinsics)]
  | .aborted index offset fault =>
    [("index", toString index), ("offset", toString offset.toNat), ("error", fault.message)]
  | .recompiled decoded produced locals maxStack =>
    [("decoded", toString decoded), ("emitted", toString produced),
      ("locals", toString locals), ("max_stack", toString maxStack)]

end Event

end Devirt
