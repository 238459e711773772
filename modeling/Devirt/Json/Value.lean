/-
# JSON values

A value is read by a machine that takes one token at a time and keeps the
arrays and objects it is inside of on a stack, so that no depth of nesting is
too much. The members of an object stay in order and may repeat.

Key definitions: `Json.Value`, `Json.Reader`, `Json.Value.ofTokens?`,
`Json.parse?`.
-/
import Devirt.Json.Token

namespace Devirt
namespace Json

inductive Value where
  | null
  | boolean (b : Bool)
  | natural (n : Nat)
  | number
  | text (parts : List TextPart)
  | array (vs : List Value)
  | object (ms : List (List TextPart × Value))

/-- The members of an object, the last one first. -/
abbrev Members := List (List TextPart × Value)

/-- An array or object that is being read, up to the value that comes next. -/
inductive Open where
  | array (done : List Value)
  | object (done : Members) (key : List TextPart)

/-- What the machine waits for, inside of `outer`. -/
inductive Reader where
  | value (outer : List Open)
  /-- The first value of an array, or its end. -/
  | first (outer : List Open)
  /-- A key, or the end of the object if `mayClose`. -/
  | key (outer : List Open) (done : Members) (mayClose : Bool)
  | colon (outer : List Open) (done : Members) (key : List TextPart)
  /-- What follows the value that was just read. -/
  | after (outer : List Open) (v : Value)

namespace Reader

/-- The first token of a value. -/
def start (outer : List Open) : Token → Option Reader
  | .null => some (.after outer .null)
  | .boolean b => some (.after outer (.boolean b))
  | .natural n => some (.after outer (.natural n))
  | .number => some (.after outer .number)
  | .text parts => some (.after outer (.text parts))
  | .punctuation '[' => some (.first outer)
  | .punctuation '\x7b' => some (.key outer [] true)
  | .punctuation _ => none

def step : Reader → Token → Option Reader
  | .value outer, t => start outer t
  | .first outer, .punctuation ']' => some (.after outer (.array []))
  | .first outer, t => start (.array [] :: outer) t
  | .key outer done _, .text k => some (.colon outer done k)
  | .key outer done true, .punctuation '\x7d' => some (.after outer (.object done.reverse))
  | .colon outer done k, .punctuation ':' => some (.value (.object done k :: outer))
  | .after (.array done :: outer) v, .punctuation ',' => some (.value (.array (v :: done) :: outer))
  | .after (.array done :: outer) v, .punctuation ']' =>
    some (.after outer (.array (v :: done).reverse))
  | .after (.object done k :: outer) v, .punctuation ',' =>
    some (.key outer ((k, v) :: done) false)
  | .after (.object done k :: outer) v, .punctuation '\x7d' =>
    some (.after outer (.object ((k, v) :: done).reverse))
  | _, _ => none

end Reader

/-- The value that tokens spell, with nothing left over. -/
def Value.ofTokens? (ts : List Token) : Option Value := do
  match ← ts.foldlM Reader.step (.value []) with
  | .after [] v => some v
  | _ => none

/-- The value of a text. -/
def parse? (s : String) : Option Value := do Value.ofTokens? (← tokens? s)

end Json
end Devirt
