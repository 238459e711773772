/-
# The members of a set of options

A document gives options by name or, where its format allows, by position. A
member takes a value of its own kind only: the depth an integer of 64 bits,
the flags a boolean. Names that are no member are ignored, a member given
twice is refused, and a member not given keeps its default.

Key definitions: `Options.Member`, `Options.Setting`, `Options.assign?`,
`Options.ofNamed?`, `Options.ofPositional?`.
-/
import Devirt.Options

namespace Devirt
namespace Options

inductive Member where
  | maxStackDepth | traceEmission | reuseTemporaries
  deriving DecidableEq, Repr

namespace Member

/-- The members in their order. -/
def all : List Member := [.maxStackDepth, .traceEmission, .reuseTemporaries]

def name : Member → String
  | .maxStackDepth => "max_stack_depth"
  | .traceEmission => "trace_emission"
  | .reuseTemporaries => "reuse_temporaries"

/-- The member of this name. -/
def ofName? (s : String) : Option Member := all.find? fun m => m.name == s

end Member

/-- A value in a document, as far as options tell values apart. -/
inductive Setting where
  | integer (n : Int)
  | boolean (b : Bool)
  | other
  deriving DecidableEq, Repr

/-- The options with one member set. -/
def assign? (o : Options) (m : Member) (v : Setting) : Option Options :=
  match m, v with
  | .maxStackDepth, .integer n =>
    if 0 ≤ n ∧ n.toNat < UInt64.size then some { o with maxStackDepth := n.toNat } else none
  | .traceEmission, .boolean b => some { o with traceEmission := b }
  | .reuseTemporaries, .boolean b => some { o with reuseTemporaries := b }
  | _, _ => none

/-- The options that named settings give; the members in `free` may still be
set. -/
def assignNamed? (free : List Member) (o : Options) : List (String × Setting) → Option Options
  | [] => some o
  | (name, v) :: rest =>
    match Member.ofName? name with
    | none => assignNamed? free o rest
    | some m => do
      guard (free.contains m)
      assignNamed? (free.erase m) (← o.assign? m v) rest

def ofNamed? (settings : List (String × Setting)) : Option Options :=
  assignNamed? Member.all {} settings

/-- The options that settings give to the members in order. -/
def assignPositional? (free : List Member) (o : Options) : List Setting → Option Options
  | [] => some o
  | v :: rest =>
    match free with
    | m :: free => do assignPositional? free (← o.assign? m v) rest
    | [] => none

def ofPositional? (settings : List Setting) : Option Options :=
  assignPositional? Member.all {} settings

end Options
end Devirt
