/-
# The default table of rules

What the library can lower on its own: pushes, pops, addition, comparisons,
NOR, the operations that pattern recovery puts back together, and the
intrinsics for boxing, calls and fields.

Key definitions: `Chain.add`, `Chain.nor`, `defaultRules`,
`Builder.registerDefaults`, `Registry.default`.
-/
import Devirt.Registry

namespace Devirt

namespace Chain

def add : Chain where
  name := "add"
  sequence := [.arith .add]
  codes := [.addDword, .addQword, .addR32, .addR64]
  operandCount := 2
  shape_eq := rfl

/-- NOR is OR followed by a complement. -/
def nor : Chain where
  name := "nor"
  sequence := [.arith .or, .unary .not]
  codes := [.norDword, .norQword]
  operandCount := 2
  shape_eq := rfl

/-- A recovered binary operation. -/
def recovered (name : String) (op : ArithOp) (code : Opcode) : Chain where
  name := name
  sequence := [.arith op]
  codes := [code]
  operandCount := 2
  shape_eq := rfl

def not : Chain where
  name := "not"
  sequence := [.unary .not]
  codes := [.notDword]
  operandCount := 1
  shape_eq := rfl

end Chain

/-- The rules of the default table, in the order in which they are
registered, each for all codes it serves. -/
def defaultRules : List Rule :=
  [.push, .pop, .chain .add, .compare, .chain .nor,
    .chain (.recovered "sub" .sub .subDword),
    .chain (.recovered "or" .or .orDword),
    .chain (.recovered "and" .and .andDword),
    .chain (.recovered "xor" .xor .xorDword),
    .chain .not,
    .box, .call, .loadField, .storeField]

namespace Builder

/-- Installs each rule and registers it for all codes it serves. -/
def registerAll : List Rule → Build Unit
  | [] => pure ()
  | rule :: rest => do
    let r ← install rule
    register r rule.codes
    registerAll rest

def registerDefaults : Build Unit := registerAll defaultRules

/-- A builder filled with the default table. -/
def default : Builder :=
  match registerDefaults {} with
  | .ok _ b => b
  | .error _ b => b

end Builder

namespace Registry

/-- The registry of the default table. -/
def default : Registry := Builder.default.build.1

end Registry

end Devirt
