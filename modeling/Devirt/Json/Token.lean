/-
# Tokens of JSON

The lexer reads one character at a time. A string keeps its `\u` escapes as
code units, because whether they pair up matters only to a reader that wants
the text (`decodeText?`). Numbers and words are runs of characters that are
neither blank nor punctuation, and are classified when they end.

Key definitions: `Json.TextPart`, `Json.decodeText?`, `Json.Token`,
`Json.isNumber`, `Json.tokens?`.
-/

namespace Devirt
namespace Json

/-! ### Strings -/

/-- One element of a string: a character, or the code unit of a `\u` escape. -/
inductive TextPart where
  | char (c : Char)
  | unit (u : UInt16)
  deriving DecidableEq, Repr

def isHighSurrogate (u : UInt16) : Bool := 0xD800 ≤ u && u < 0xDC00

def isLowSurrogate (u : UInt16) : Bool := 0xDC00 ≤ u && u < 0xE000

/-- The character that two surrogates encode. -/
def surrogatePair (high low : UInt16) : Char :=
  Char.ofNat (0x10000 + (high.toNat - 0xD800) * 0x400 + (low.toNat - 0xDC00))

/-- The characters of a string behind a high surrogate that awaits its
partner, if there is one; a surrogate without partner is no text. -/
def decodeFrom? : Option UInt16 → List TextPart → Option (List Char)
  | none, [] => some []
  | none, .char c :: rest => (decodeFrom? none rest).map (c :: ·)
  | none, .unit u :: rest =>
    if isHighSurrogate u then decodeFrom? (some u) rest
    else if isLowSurrogate u then none
    else (decodeFrom? none rest).map (Char.ofNat u.toNat :: ·)
  | some high, .unit u :: rest =>
    if isLowSurrogate u then (decodeFrom? none rest).map (surrogatePair high u :: ·) else none
  | some _, _ => none

/-- The text of a string. -/
def decodeText? (parts : List TextPart) : Option String :=
  (decodeFrom? none parts).map String.ofList

/-! ### Numbers -/

/-- The digits at the front of a text dropped, if there is at least one. -/
def dropDigits? : List Char → Option (List Char)
  | c :: rest => if c.isDigit then some (rest.dropWhile Char.isDigit) else none
  | [] => none

/-- The integer part at the front dropped: a zero, or digits that do not
start with one. -/
def dropInteger? : List Char → Option (List Char)
  | '0' :: rest => some rest
  | cs => dropDigits? cs

/-- A fraction at the front dropped, if one starts there. -/
def dropFraction? : List Char → Option (List Char)
  | '.' :: rest => dropDigits? rest
  | cs => some cs

/-- An exponent at the front dropped, if one starts there. -/
def dropExponent? : List Char → Option (List Char)
  | [] => some []
  | c :: rest =>
    if c = 'e' ∨ c = 'E' then
      match rest with
      | '+' :: digits | '-' :: digits => dropDigits? digits
      | digits => dropDigits? digits
    else some (c :: rest)

/-- Whether a text is a number. -/
def isNumber (cs : List Char) : Bool :=
  let unsigned := match cs with
    | '-' :: rest => rest
    | cs => cs
  let rest := do dropExponent? (← dropFraction? (← dropInteger? unsigned))
  rest == some []

/-- The value of a text of decimal digits. -/
def naturalValue (cs : List Char) : Nat :=
  cs.foldl (fun n c => 10 * n + (c.toNat - '0'.toNat)) 0

/-! ### The lexer -/

inductive Token where
  | punctuation (c : Char)
  | text (parts : List TextPart)
  | null
  | boolean (b : Bool)
  /-- A number without sign, fraction and exponent. -/
  | natural (n : Nat)
  /-- Any other number. -/
  | number
  deriving DecidableEq, Repr

/-- The token that a run of characters spells. -/
def Token.ofRun? (cs : List Char) : Option Token :=
  if cs = "true".toList then some (.boolean true)
  else if cs = "false".toList then some (.boolean false)
  else if cs = "null".toList then some .null
  else if isNumber cs then
    some (if cs.all Char.isDigit then .natural (naturalValue cs) else .number)
  else none

def isBlank (c : Char) : Bool := c = ' ' || c = '\n' || c = '\t' || c = '\r'

def isPunctuation (c : Char) : Bool := "\x7b\x7d[]:,".toList.contains c

/-- Where the lexer is; strings and runs have their last element first. -/
inductive LexMode where
  | between
  | run (cs : List Char)
  | text (parts : List TextPart)
  | escape (parts : List TextPart)
  /-- In a `\u` escape with more than `left` digits to come. -/
  | unicode (parts : List TextPart) (left : Nat) (value : Nat)
  deriving DecidableEq, Repr

structure Lexer where
  mode : LexMode := .between
  /-- The tokens so far, the last one first. -/
  tokens : List Token := []
  deriving DecidableEq, Repr

/-- The character that a one-letter escape stands for. -/
def escaped? : Char → Option Char
  | '"' => some '"'
  | '\\' => some '\\'
  | '/' => some '/'
  | 'b' => some '\x08'
  | 'f' => some '\x0c'
  | 'n' => some '\n'
  | 'r' => some '\r'
  | 't' => some '\t'
  | _ => none

def hexDigit? (c : Char) : Option Nat :=
  if c.isDigit then some (c.toNat - '0'.toNat)
  else if 'a' ≤ c ∧ c ≤ 'f' then some (c.toNat - 'a'.toNat + 10)
  else if 'A' ≤ c ∧ c ≤ 'F' then some (c.toNat - 'A'.toNat + 10)
  else none

namespace Lexer

def emit (l : Lexer) (t : Token) : Lexer := ⟨.between, t :: l.tokens⟩

/-- A character outside of any token. -/
def start (l : Lexer) (c : Char) : Lexer :=
  if isBlank c then ⟨.between, l.tokens⟩
  else if isPunctuation c then l.emit (.punctuation c)
  else if c = '"' then ⟨.text [], l.tokens⟩
  else ⟨.run [c], l.tokens⟩

def step (l : Lexer) (c : Char) : Option Lexer :=
  match l.mode with
  | .between => some (l.start c)
  | .run cs =>
    if isBlank c || isPunctuation c || c = '"' then do
      return (l.emit (← Token.ofRun? cs.reverse)).start c
    else
      some ⟨.run (c :: cs), l.tokens⟩
  | .text parts =>
    if c = '"' then some (l.emit (.text parts.reverse))
    else if c = '\\' then some ⟨.escape parts, l.tokens⟩
    else if c.toNat < 0x20 then none
    else some ⟨.text (.char c :: parts), l.tokens⟩
  | .escape parts =>
    if c = 'u' then some ⟨.unicode parts 3 0, l.tokens⟩
    else do return ⟨.text (.char (← escaped? c) :: parts), l.tokens⟩
  | .unicode parts left value => do
    let value := 16 * value + (← hexDigit? c)
    match left with
    | 0 => return ⟨.text (.unit value.toUInt16 :: parts), l.tokens⟩
    | left + 1 => return ⟨.unicode parts left value, l.tokens⟩

/-- The tokens once the text has ended. -/
def finish (l : Lexer) : Option (List Token) :=
  match l.mode with
  | .between => some l.tokens.reverse
  | .run cs => do return ((← Token.ofRun? cs.reverse) :: l.tokens).reverse
  | _ => none

end Lexer

/-- The tokens of a text. -/
def tokens? (s : String) : Option (List Token) := do
  (← s.toList.foldlM Lexer.step {}).finish

end Json
end Devirt
