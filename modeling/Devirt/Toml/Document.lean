/-
# Reading TOML documents

A machine takes the tokens of a document one at a time. At the start of a
line it waits for a header or a key. A value is read with the arrays and
inline tables around it on a stack, at the bottom of which is the key of its
line; the height of the stack is limited, and so is the number of keys in a
path. Lines break freely inside an array, and inside an inline table
everywhere but within a path. The tables are built while the tokens are read,
and the first rule that is broken ends the reading.

Key definitions: `Toml.Path`, `Toml.Context`, `Toml.Phase`, `Toml.Reader`,
`Toml.Reader.step`, `Toml.parse?`.
-/
import Devirt.Toml.Table

namespace Devirt
namespace Toml

/-- The most arrays and inline tables that a value may be inside of. -/
def maxNesting : Nat := 80

/-- The most keys that dots may join. -/
def maxKeys : Nat := 80

/-- A key with the keys that its dots lead through. -/
structure Path where
  before : List String
  last : String

/-- The path of these keys, which have the last one first. -/
def Path.ofReversed? : List String → Option Path
  | last :: before => some ⟨before.reverse, last⟩
  | [] => none

/-- What a value is a part of. -/
inductive Context where
  | line (path : Path)
  /-- An array, with its values so far, the last one first. -/
  | array (done : List Item)
  /-- An inline table, at the key whose value is read. -/
  | table (done : Table) (path : Path)

/-- Where a key stands. -/
inductive KeyPlace where
  | line
  | inline (outer : List Context) (done : Table)
  | header
  | elementHeader

/-- What the machine waits for. Keys and characters have the last one first. -/
inductive Phase where
  | lineStart
  | lineEnd
  /-- Behind the bracket that opens a header. -/
  | headerStart
  /-- Behind the first of the two brackets that close a header. -/
  | headerEnd (keys : List String)
  | key (place : KeyPlace) (keys : List String)
  | afterKey (place : KeyPlace) (keys : List String)
  /-- A key of an inline table, or the end of the table. -/
  | member (outer : List Context) (done : Table)
  /-- The equals sign of an inline table, behind a path and a line break. -/
  | equals (outer : List Context) (done : Table) (path : Path)
  /-- A value, or the end of the array that it would be in. -/
  | value (outer : List Context)
  /-- In an unquoted value. -/
  | run (outer : List Context) (cs : List Char)
  /-- Behind a date and a space, where a time may follow. -/
  | afterDate (outer : List Context) (cs : List Char)
  /-- Behind a value in an array or inline table. -/
  | after (outer : List Context) (v : Item)

structure Reader where
  phase : Phase := .lineStart
  root : Table := ⟨.header, []⟩
  /-- The keys of the header that is open. -/
  header : List String := []

namespace Reader

def enter (r : Reader) (p : Phase) : Reader := { r with phase := p }

/-- The key that a token spells. -/
def keyOf? : Token → Option String
  | .text false s => some s
  | .word cs => if cs.any (fun c => c = '+' || c = ':') then none else some (String.ofList cs)
  | _ => none

/-! ### Values -/

/-- A value has been read. -/
def complete (r : Reader) (outer : List Context) (v : Item) : Option Reader :=
  match outer with
  | [.line path] => do
    let root ← r.root.descend? false (Table.assign? path.before path.last v) r.header
    return { r with root, phase := .lineEnd }
  | _ => some (r.enter (.after outer v))

/-- The unquoted value `cs` has been read. -/
def completeRun (r : Reader) (outer : List Context) (cs : List Char) : Option Reader := do
  r.complete outer (.scalar (← Scalar.ofRun? cs.reverse))

/-- Whether another array or inline table may open inside of these. -/
def mayNest (outer : List Context) : Bool := outer.length ≤ maxNesting

def stepValue (r : Reader) (outer : List Context) (t : Token) : Option Reader :=
  match t, outer with
  | .blank _, _ => some r
  | .newline, .array _ :: _ => some r
  | .newline, .table _ _ :: _ => some r
  | .punctuation ']', .array done :: outer => r.complete outer (.array done.reverse)
  | .text _ s, outer => r.complete outer (.scalar (.text s))
  | .word cs, outer => some (r.enter (.run outer cs.reverse))
  | .punctuation '[', outer =>
    if mayNest outer then some (r.enter (.value (.array [] :: outer))) else none
  | .punctuation '\x7b', outer =>
    if mayNest outer then some (r.enter (.member outer ⟨.inline, []⟩)) else none
  | _, _ => none

/-- A token behind a value: the end of its line, or what goes on in the array
or inline table around it. -/
def stepAfter (r : Reader) (t : Token) : Option Reader :=
  match r.phase, t with
  | .lineEnd, .blank _ => some r
  | .lineEnd, .newline => some (r.enter .lineStart)
  | .after _ _, .blank _ => some r
  | .after _ _, .newline => some r
  | .after (.array done :: outer) v, .punctuation ',' =>
    some (r.enter (.value (.array (v :: done) :: outer)))
  | .after (.array done :: outer) v, .punctuation ']' =>
    r.complete outer (.array (v :: done).reverse)
  | .after (.table done path :: outer) v, .punctuation ',' => do
    return r.enter (.member outer (← done.assign? path.before path.last v))
  | .after (.table done path :: outer) v, .punctuation '\x7d' => do
    r.complete outer (← done.assign? path.before path.last v).item
  | _, _ => none

/-! ### Keys and headers -/

def stepKey (r : Reader) (place : KeyPlace) (keys : List String) (t : Token) : Option Reader :=
  match t with
  | .blank _ => some (r.enter (.key place keys))
  | t => do
    guard (keys.length < maxKeys)
    return r.enter (.afterKey place ((← keyOf? t) :: keys))

/-- The header of a table has been read. -/
def openTable (r : Reader) (keys : List String) : Option Reader := do
  let path ← Path.ofReversed? keys
  return ⟨.lineEnd, ← r.root.openTable? path.before path.last, keys.reverse⟩

/-- The header of a table in an array has been read. -/
def openElement (r : Reader) (keys : List String) : Option Reader := do
  let path ← Path.ofReversed? keys
  return ⟨.lineEnd, ← r.root.openElement? path.before path.last, keys.reverse⟩

def stepAfterKey (r : Reader) (place : KeyPlace) (keys : List String) (t : Token) :
    Option Reader :=
  match t, place with
  | .blank _, _ => some r
  | .punctuation '.', place => some (r.enter (.key place keys))
  | .punctuation '=', .line => do
    return r.enter (.value [.line (← Path.ofReversed? keys)])
  | .punctuation '=', .inline outer done => do
    return r.enter (.value (.table done (← Path.ofReversed? keys) :: outer))
  | .newline, .inline outer done => do
    return r.enter (.equals outer done (← Path.ofReversed? keys))
  | .punctuation ']', .header => r.openTable keys
  | .punctuation ']', .elementHeader => some (r.enter (.headerEnd keys))
  | _, _ => none

/-! ### The machine -/

def step (r : Reader) (t : Token) : Option Reader :=
  match r.phase with
  | .lineStart =>
    match t with
    | .blank _ | .newline => some r
    | .punctuation '[' => some (r.enter .headerStart)
    | t => r.stepKey .line [] t
  | .headerStart =>
    match t with
    | .punctuation '[' => some (r.enter (.key .elementHeader []))
    | t => r.stepKey .header [] t
  | .headerEnd keys => if t = .punctuation ']' then r.openElement keys else none
  | .key place keys => r.stepKey place keys t
  | .afterKey place keys => r.stepAfterKey place keys t
  | .member outer done =>
    match t with
    | .blank _ | .newline => some r
    | .punctuation '\x7d' => r.complete outer done.item
    | t => r.stepKey (.inline outer done) [] t
  | .equals outer done path =>
    match t with
    | .blank _ | .newline => some r
    | .punctuation '=' => some (r.enter (.value (.table done path :: outer)))
    | _ => none
  | .value outer => r.stepValue outer t
  | .run outer cs =>
    match t with
    | .word more => some (r.enter (.run outer (more.reverse ++ cs)))
    | .punctuation '.' => some (r.enter (.run outer ('.' :: cs)))
    | t =>
      if t = .blank ' ' ∧ isDate cs.reverse then some (r.enter (.afterDate outer cs))
      else do (← r.completeRun outer cs).stepAfter t
  | .afterDate outer cs =>
    match t with
    | .word more => some (r.enter (.run outer (more.reverse ++ ' ' :: cs)))
    | t => do (← r.completeRun outer cs).stepAfter t
  | .lineEnd | .after _ _ => r.stepAfter t

end Reader

/-- The table of a document, whose last line needs no line break. -/
def parse? (s : String) : Option Table := do
  let r ← ((← tokens? s) ++ [Token.newline]).foldlM Reader.step {}
  match r.phase with
  | .lineStart => some r.root
  | _ => none

end Toml
end Devirt
