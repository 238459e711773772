/-
# Options from documents

Options are read from JSON, where an object names its members and an array
gives them in order, or from TOML, where the top table names them. A document
that is malformed or sets a member to a value of the wrong kind gives no
options.

Key definitions: `Options.Format`, `Options.ofDocument`, `Options.FormatError`.
-/
import Devirt.Json.Value
import Devirt.Options.Member
import Devirt.Toml.Document

namespace Devirt
namespace Options

/-- What options see in a JSON value; of numbers, only those without sign,
fraction and exponent are integers. -/
def Setting.ofJson : Json.Value → Setting
  | .natural n => .integer n
  | .boolean b => .boolean b
  | _ => .other

/-- What options see in an item of a TOML table. -/
def Setting.ofToml : Toml.Item → Setting
  | .scalar (.integer n) => .integer n
  | .scalar (.boolean b) => .boolean b
  | _ => .other

def ofJson? (s : String) : Option Options := do
  match ← Json.parse? s with
  | .array vs => ofPositional? (vs.map Setting.ofJson)
  | .object ms =>
    ofNamed? (← ms.mapM fun (key, v) => do return (← Json.decodeText? key, Setting.ofJson v))
  | _ => none

def ofToml? (s : String) : Option Options := do
  ofNamed? ((← Toml.parse? s).items.map fun (key, v) => (key, Setting.ofToml v))

inductive Format where
  | json | toml
  deriving DecidableEq, Repr

/-- A document in this format gives no options. -/
structure FormatError where
  format : Format
  deriving DecidableEq, Repr

def FormatError.message (e : FormatError) : String :=
  match e.format with
  | .json => "invalid recompiler options (json)"
  | .toml => "invalid recompiler options (toml)"

/-- The options of a document. -/
def ofDocument (format : Format) (s : String) : Except FormatError Options :=
  let found := match format with
    | .json => ofJson? s
    | .toml => ofToml? s
  match found with
  | some o => .ok o
  | none => .error ⟨format⟩

end Options
end Devirt
