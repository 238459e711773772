/-
# Types, fields and methods of the host

A decoded instruction names host entities by reference. A type is its full
name and the element kind of its signature; a field and a method add their
owner, their name and their signature. What a call takes from the stack
counts the receiver of an instance method.

Key definitions: `TypeRef`, `FieldRef`, `MethodRef`, `MethodRef.stackArguments`,
`MethodRef.isVoid`.
-/

namespace Devirt

/-- The element kind of a signature, as far as the evaluation stack can tell. -/
inductive ElementKind where
  | void | boolean | char
  | i1 | u1 | i2 | u2 | i4 | u4 | i8 | u8
  | r4 | r8
  | i | u
  | string | object | classType | valueType
  deriving DecidableEq, Repr, Inhabited

namespace ElementKind

/-- Whether values of this kind live inline and not behind a reference. -/
def isValueType : ElementKind → Bool
  | .void | .string | .object | .classType => false
  | _ => true

end ElementKind

/-- A type by its full name. -/
structure TypeRef where
  name : String
  element : ElementKind
  deriving DecidableEq, Repr, Inhabited

namespace TypeRef

def text (t : TypeRef) : String := t.name

def isValueType (t : TypeRef) : Bool := t.element.isValueType

def isVoid (t : TypeRef) : Bool := t.element = .void

end TypeRef

structure FieldRef where
  owner : TypeRef
  name : String
  type : TypeRef
  isStatic : Bool
  deriving DecidableEq, Repr, Inhabited

namespace FieldRef

def text (f : FieldRef) : String :=
  f.type.text ++ " " ++ f.owner.text ++ "::" ++ f.name

end FieldRef

/-- A method with its signature; a method that returns nothing has no return
type or one of kind `void`. -/
structure MethodRef where
  owner : TypeRef
  name : String
  params : List TypeRef
  returns : Option TypeRef
  hasThis : Bool
  deriving DecidableEq, Repr, Inhabited

namespace MethodRef

def text (m : MethodRef) : String :=
  (match m.returns with
    | some t => t.text
    | none => "void")
  ++ " " ++ m.owner.text ++ "::" ++ m.name
  ++ "(" ++ ", ".intercalate (m.params.map TypeRef.text) ++ ")"

/-- The values a call takes from the stack, the receiver included. -/
def stackArguments (m : MethodRef) : Nat := m.params.length + m.hasThis.toNat

def isVoid (m : MethodRef) : Bool := m.returns.all TypeRef.isVoid

end MethodRef

/-- How a call reaches its target on the host. -/
inductive Dispatch where
  | direct | virtual | construct
  deriving DecidableEq, Repr, Inhabited

namespace Dispatch

/-- The word for the dispatch in a listing of decoded code. -/
def text : Dispatch → String
  | .direct => "Call"
  | .virtual => "CallVirt"
  | .construct => "NewObj"

/-- The host mnemonic of the dispatch. -/
def mnemonic : Dispatch → String
  | .direct => "call"
  | .virtual => "callvirt"
  | .construct => "newobj"

end Dispatch

end Devirt
