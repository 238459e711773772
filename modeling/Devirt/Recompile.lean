/-
# Recompiling a method body

A body is lowered instruction by instruction on one frame. Each instruction's
host code is appended to the method and a mapping records where it went. The
first failure aborts the method and is reported with its position.

Key definitions: `Mapping`, `Assembly`, `Method`, `RecompileError`,
`Registry.assemble`, `Registry.recompile`.
-/
import Devirt.DefaultTable

namespace Devirt

/-- Where the host code of one decoded instruction is. -/
structure Mapping where
  offset : UInt64
  start : Nat
  length : Nat
  deriving DecidableEq, Repr

/-- The host code of the instructions lowered so far. -/
structure Assembly where
  instructions : Array HostInstr := #[]
  mappings : Array Mapping := #[]
  deriving DecidableEq, Repr

namespace Assembly

/-- The assembly with the code of one more decoded instruction. -/
def append (a : Assembly) (offset : UInt64) (code : Array HostInstr) : Assembly :=
  let mappings := a.mappings.push ⟨offset, a.instructions.size, code.size⟩
  { instructions := a.instructions ++ code, mappings }

end Assembly

/-- A recompiled method body. -/
structure Method where
  instructions : Array HostInstr
  locals : Array Local
  maxStack : Nat
  mappings : Array Mapping
  deriving DecidableEq, Repr

/-- A fault at its position in the body. -/
structure RecompileError where
  index : Nat
  offset : UInt64
  fault : Fault
  deriving DecidableEq, Repr

def RecompileError.message (e : RecompileError) : String :=
  "failed to recompile instruction #" ++ toString e.index ++ " at " ++ offsetLabel e.offset
    ++ ": " ++ e.fault.message

/-- What came of a recompilation and what was logged during it. -/
structure Outcome where
  result : Except RecompileError Method
  log : Array Event

namespace Registry

/-- Lowers a body behind what is already assembled. -/
def assemble (reg : Registry) : List Instr → Assembly → Frame →
    Except RecompileError Assembly × Frame
  | [], a, f => (.ok a, f)
  | i :: rest, a, f =>
    match reg.lower i f with
    | .ok code f => reg.assemble rest (a.append i.offset code) f
    | .error fault f => (.error ⟨a.mappings.size, i.offset, fault⟩, f)

/-- Recompiles a method body. -/
def recompile (reg : Registry) (options : Options) (body : List Instr) : Outcome :=
  match reg.assemble body {} (.start options) with
  | (.ok a, f) =>
    { result := .ok {
        instructions := a.instructions
        locals := f.newLocals
        maxStack := f.stack.peak
        mappings := a.mappings }
      log := f.log.push
        (.recompiled body.length a.instructions.size f.locals.size f.stack.peak) }
  | (.error e, f) =>
    { result := .error e
      log := f.log.push (.aborted e.index e.offset e.fault) }

/-- Recompiles bodies that do not depend on each other. -/
def recompileAll (reg : Registry) (options : Options) (bodies : List (List Instr)) :
    List Outcome :=
  bodies.map (reg.recompile options)

end Registry

end Devirt
