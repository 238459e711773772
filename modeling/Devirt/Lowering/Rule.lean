/-
# Lowering rules

A rule turns instructions of the codes it serves into host code. Seven rules
are fixed; a chain is one more for each host sequence. A rule refuses a code
that it does not serve before it looks at anything else. When it succeeds, it
hands out what it emitted.

Key definitions: `Rule`, `Rule.codes`, `Rule.supports`, `Rule.emit`,
`Rule.lower`.
-/
import Devirt.Lowering.Chain
import Devirt.Lowering.Compare
import Devirt.Lowering.Objects
import Devirt.Lowering.Registers

namespace Devirt

inductive Rule where
  | push
  | pop
  | compare
  | chain (c : Chain)
  | box
  | call
  | loadField
  | storeField
  deriving DecidableEq, Repr

namespace Rule

def name : Rule → String
  | .push => "push"
  | .pop => "pop"
  | .compare => "cmp"
  | .chain c => c.name
  | .box => "box"
  | .call => "ecall"
  | .loadField => "ldfld"
  | .storeField => "stfld"

/-- The class of strategies a rule belongs to. -/
def kind : Rule → String
  | .push => "push"
  | .pop => "pop"
  | .compare => "compare"
  | .chain _ => "simple-arithmetic"
  | .box => "box"
  | .call => "external-call"
  | .loadField => "field-load"
  | .storeField => "field-store"

/-- The codes a rule serves, in the rule's own order. -/
def codes : Rule → List CodeRef
  | .push =>
    [.pushrByte, .pushrWord, .pushrDword, .pushrQword, .pushrObject, .pushiDword,
      .pushiQword].map .opcode
  | .pop => [.opcode .pop]
  | .compare => [.cmp, .cmpDword, .cmpQword, .cmpR32, .cmpR64].map .opcode
  | .chain c => c.codes.map .opcode
  | .box => [.intrinsic .box]
  | .call => [.intrinsic .ecall]
  | .loadField => [.intrinsic .ldfld]
  | .storeField => [.intrinsic .stfld]

def supports (r : Rule) (code : CodeRef) : Bool := r.codes.contains code

/-- The refusal of a code that the rule does not serve. -/
def refuse (r : Rule) (code : CodeRef) : Lower Unit :=
  throw (.violation (.foreignCode code r.name))

/-- The host code of an operation, left pending. -/
def emit (r : Rule) (op : Operation) : Lower Unit :=
  let code := op.code
  if r.supports code then
    match r, op with
    | .push, .plain c arg =>
      match c.pushForm? with
      | some form => Lowering.push code form arg
      | none => r.refuse code
    | .pop, .plain _ arg => Lowering.pop code arg
    | .compare, .plain c _ => Lowering.compare code c.width
    | .chain c, .plain _ _ => Lowering.chain code c
    | .box, .intrinsic _ arg => Lowering.box code arg
    | .call, .intrinsic _ arg => Lowering.call code arg
    | .loadField, .intrinsic _ arg => Lowering.loadField code arg
    | .storeField, .intrinsic _ arg => Lowering.storeField code arg
    | _, _ => r.refuse code
  else
    r.refuse code

/-- Lowers an operation and hands out everything pending. -/
def lowerOperation (r : Rule) (op : Operation) : Lower (Array HostInstr) := do
  r.emit op
  Frame.takeEmitted

/-- Lowers an instruction; a failure is charged to its code. -/
def lower (r : Rule) (i : Instr) : EStateM Fault Frame (Array HostInstr) :=
  (r.lowerOperation i.operation).chargedTo i.code

end Rule

end Devirt
