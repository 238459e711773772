/-
# Tables of TOML

A document builds tables as it goes: a header opens a table, a key with dots
makes tables on its way, and so does the path of a header. How a table came
to be decides who may add to it. A table with a header is complete under it,
and dotted keys do not reach into it from elsewhere; an inline table is
closed; a table that only the path of a header implied may still get a header
of its own; and a path through an array of tables leads into its last table.

Key definitions: `Toml.Item`, `Toml.Table`, `Toml.Table.descend?`,
`Toml.Table.assign?`, `Toml.Table.openTable?`, `Toml.Table.openElement?`.
-/
import Devirt.Toml.Scalar

namespace Devirt
namespace Toml

/-- How a table came to be. -/
inductive Origin where
  | header
  | implied
  | dotted
  | inline
  deriving DecidableEq, Repr

inductive Item where
  | scalar (s : Scalar)
  | array (vs : List Item)
  | table (origin : Origin) (items : List (String × Item))
  /-- An array of tables, the last table first. -/
  | tables (ts : List (List (String × Item)))

structure Table where
  origin : Origin
  items : List (String × Item) := []

namespace Table

def item (t : Table) : Item := .table t.origin t.items

def find? (t : Table) (key : String) : Option Item := t.items.lookup key

/-- The items with `key` going to `v`, in place if it is there already. -/
def setIn (key : String) (v : Item) : List (String × Item) → List (String × Item)
  | [] => [(key, v)]
  | (k, w) :: rest => if k = key then (k, v) :: rest else (k, w) :: setIn key v rest

def set (t : Table) (key : String) (v : Item) : Table :=
  { t with items := setIn key v t.items }

/-- Whether a path may go on into the table: dotted keys only enter tables
that paths made. -/
def isOpenTo (dotted : Bool) : Origin → Bool
  | .inline => false
  | .header => !dotted
  | .implied | .dotted => true

/-- Changes the table at the end of a path, which makes the tables that are
missing on its way. -/
def descend? (dotted : Bool) (change : Table → Option Table) :
    List String → Table → Option Table
  | [], t => change t
  | key :: path, t =>
    match t.find? key with
    | none => do
      let child ← descend? dotted change path ⟨if dotted then .dotted else .implied, []⟩
      return t.set key child.item
    | some (.table origin items) => do
      guard (isOpenTo dotted origin)
      let child ← descend? dotted change path ⟨origin, items⟩
      return t.set key child.item
    | some (.tables (last :: before)) => do
      let child ← descend? dotted change path ⟨.header, last⟩
      return t.set key (.tables (child.items :: before))
    | some _ => none

/-- Adds a key that is not there yet; a dotted key ends in a table that dots
made, a plain one in one they did not. -/
def add? (plain : Bool) (key : String) (v : Item) (t : Table) : Option Table := do
  guard ((t.origin != .dotted) = plain ∧ (t.find? key).isNone)
  return t.set key v

/-- Gives a key, dotted or not, its value. -/
def assign? (path : List String) (key : String) (v : Item) (t : Table) : Option Table :=
  t.descend? true (add? path.isEmpty key v) path

/-- Opens a table for the items under its header. -/
def openTable? (path : List String) (key : String) (t : Table) : Option Table :=
  t.descend? false
    (fun parent =>
      match parent.find? key with
      | none => some (parent.set key (.table .header []))
      | some (.table .implied items) => some (parent.set key (.table .header items))
      | some _ => none)
    path

/-- Opens the next table of an array of tables. -/
def openElement? (path : List String) (key : String) (t : Table) : Option Table :=
  t.descend? false
    (fun parent =>
      match parent.find? key with
      | none => some (parent.set key (.tables [[]]))
      | some (.tables ts) => some (parent.set key (.tables ([] :: ts)))
      | some _ => none)
    path

end Table

end Toml
end Devirt
