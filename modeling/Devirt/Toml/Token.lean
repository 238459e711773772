/-
# Tokens of TOML

The lexer reads one character at a time. Blanks and punctuation are tokens
each by themselves, since some places allow no blanks; a line break is a
token, a comment is none. Words are runs of the characters that bare keys,
numbers, dates and times are made of. Strings are decoded as they are read.
Line breaks are made uniform first, where a carriage return has to precede a
line feed.

Key definitions: `Toml.Token`, `Toml.uniformLines?`, `Toml.tokens?`.
-/

namespace Devirt
namespace Toml

/-- How a string is delimited; a double quote lets escapes stand for
characters. -/
structure Quote where
  delimiter : Char
  multiline : Bool
  deriving DecidableEq, Repr

def Quote.hasEscapes (q : Quote) : Bool := q.delimiter = '"'

inductive Token where
  | newline
  /-- A space or tab. -/
  | blank (c : Char)
  | punctuation (c : Char)
  | word (cs : List Char)
  | text (multiline : Bool) (s : String)
  deriving DecidableEq, Repr

/-- The text with line feeds for all line breaks. -/
def uniformLines? : List Char → Option (List Char)
  | [] => some []
  | '\r' :: '\n' :: rest => (uniformLines? rest).map ('\n' :: ·)
  | c :: rest => if c = '\r' then none else (uniformLines? rest).map (c :: ·)

/-! ### Characters -/

def isBlank (c : Char) : Bool := c = ' ' || c = '\t'

def isPunctuation (c : Char) : Bool := ".=,[]\x7b\x7d".toList.contains c

def isWordChar (c : Char) : Bool := c.isAlphanum || "_-+:".toList.contains c

/-- The control characters that neither a comment nor a string may hold. -/
def isForbidden (c : Char) : Bool := (c.toNat < 0x20 && c != '\t') || c.toNat = 0x7F

/-- The character that a one-letter escape stands for. -/
def escaped? : Char → Option Char
  | 'b' => some '\x08'
  | 't' => some '\t'
  | 'n' => some '\n'
  | 'f' => some '\x0c'
  | 'r' => some '\r'
  | 'e' => some '\x1b'
  | '"' => some '"'
  | '\\' => some '\\'
  | _ => none

/-- The number of hexadecimal digits that an escape by code point takes. -/
def codePointDigits? : Char → Option Nat
  | 'x' => some 2
  | 'u' => some 4
  | 'U' => some 8
  | _ => none

/-- The value of a digit in a base up to sixteen. -/
def digit? (base : Nat) (c : Char) : Option Nat :=
  let value :=
    if c.isDigit then c.toNat - '0'.toNat
    else if 'a' ≤ c ∧ c ≤ 'f' then c.toNat - 'a'.toNat + 10
    else if 'A' ≤ c ∧ c ≤ 'F' then c.toNat - 'A'.toNat + 10
    else base
  if value < base then some value else none

/-! ### The lexer -/

/-- Where the lexer is; strings and words have their last character first. -/
inductive LexMode where
  | between
  | word (cs : List Char)
  | comment
  /-- Behind `count` opening delimiters. -/
  | opening (delimiter : Char) (count : Nat)
  | text (q : Quote) (cs : List Char)
  /-- Behind `count` delimiters inside a string over several lines. -/
  | closing (q : Quote) (cs : List Char) (count : Nat)
  | escape (q : Quote) (cs : List Char)
  /-- In an escape by code point, with `left` digits to come. -/
  | codePoint (q : Quote) (cs : List Char) (left : Nat) (value : Nat)
  /-- Behind a backslash and blanks, before the line break that they escape. -/
  | lineEnd (q : Quote) (cs : List Char)
  /-- Skipping the blanks and line breaks behind an escaped line break. -/
  | skipping (q : Quote) (cs : List Char)
  deriving DecidableEq, Repr

structure Lexer where
  mode : LexMode := .between
  /-- The tokens so far, the last one first. -/
  tokens : List Token := []
  deriving DecidableEq, Repr

namespace Lexer

def enter (l : Lexer) (m : LexMode) : Lexer := ⟨m, l.tokens⟩

def emit (l : Lexer) (t : Token) : Lexer := ⟨.between, t :: l.tokens⟩

def emitText (l : Lexer) (q : Quote) (cs : List Char) : Lexer :=
  l.emit (.text q.multiline (String.ofList cs.reverse))

/-- A character outside of any token. -/
def start (l : Lexer) (c : Char) : Option Lexer :=
  if c = '\n' then some (l.emit .newline)
  else if isBlank c then some (l.emit (.blank c))
  else if isPunctuation c then some (l.emit (.punctuation c))
  else if c = '#' then some (l.enter .comment)
  else if c = '"' || c = '\'' then some (l.enter (.opening c 1))
  else if isWordChar c then some (l.enter (.word [c]))
  else none

/-- A character inside a string. -/
def inText (l : Lexer) (q : Quote) (cs : List Char) (c : Char) : Option Lexer :=
  if c = q.delimiter then
    some (if q.multiline then l.enter (.closing q cs 1) else l.emitText q cs)
  else if c = '\\' && q.hasEscapes then some (l.enter (.escape q cs))
  else if c = '\n' && q.multiline then some (l.enter (.text q ('\n' :: cs)))
  else if isForbidden c then none
  else some (l.enter (.text q (c :: cs)))

/-- The character behind a backslash. -/
def inEscape (l : Lexer) (q : Quote) (cs : List Char) (c : Char) : Option Lexer :=
  if q.multiline && c = '\n' then some (l.enter (.skipping q cs))
  else if q.multiline && isBlank c then some (l.enter (.lineEnd q cs))
  else
    match codePointDigits? c with
    | some left => some (l.enter (.codePoint q cs left 0))
    | none => do return l.enter (.text q ((← escaped? c) :: cs))

/-- A digit of an escape by code point. -/
def inCodePoint (l : Lexer) (q : Quote) (cs : List Char) (left value : Nat) (c : Char) :
    Option Lexer := do
  let value := 16 * value + (← digit? 16 c)
  if left ≤ 1 then
    guard (value.isValidChar : Prop)
    return l.enter (.text q (Char.ofNat value :: cs))
  else
    return l.enter (.codePoint q cs (left - 1) value)

/-- A character behind `count` delimiters of a string over several lines,
which three of them close; up to two before those belong to the string. -/
def inClosing (l : Lexer) (q : Quote) (cs : List Char) (count : Nat) (c : Char) :
    Option Lexer :=
  if c = q.delimiter then
    if count < 5 then some (l.enter (.closing q cs (count + 1))) else none
  else if count < 3 then
    l.inText q (List.replicate count q.delimiter ++ cs) c
  else
    (l.emitText q (List.replicate (count - 3) q.delimiter ++ cs)).start c

def step (l : Lexer) (c : Char) : Option Lexer :=
  match l.mode with
  | .between => l.start c
  | .word cs =>
    if isWordChar c then some (l.enter (.word (c :: cs)))
    else (l.emit (.word cs.reverse)).start c
  | .comment =>
    if c = '\n' then (l.enter .between).start c
    else if isForbidden c then none
    else some l
  | .opening d count =>
    if c = d && count < 3 then some (l.enter (.opening d (count + 1)))
    else
      match count with
      | 1 => l.inText ⟨d, false⟩ [] c
      | 2 => (l.emitText ⟨d, false⟩ []).start c
      | _ => if c = '\n' then some (l.enter (.text ⟨d, true⟩ [])) else l.inText ⟨d, true⟩ [] c
  | .text q cs => l.inText q cs c
  | .closing q cs count => l.inClosing q cs count c
  | .escape q cs => l.inEscape q cs c
  | .codePoint q cs left value => l.inCodePoint q cs left value c
  | .lineEnd q cs =>
    if c = '\n' then some (l.enter (.skipping q cs))
    else if isBlank c then some l
    else none
  | .skipping q cs => if c = '\n' || isBlank c then some l else l.inText q cs c

/-- The tokens once the text has ended. -/
def finish (l : Lexer) : Option (List Token) :=
  match l.mode with
  | .between | .comment => some l.tokens.reverse
  | .word cs => some (l.emit (.word cs.reverse)).tokens.reverse
  | .opening d 2 => some (l.emitText ⟨d, false⟩ []).tokens.reverse
  | .closing q cs count =>
    if count < 3 then none
    else some (l.emitText q (List.replicate (count - 3) q.delimiter ++ cs)).tokens.reverse
  | _ => none

end Lexer

/-- The characters of a document behind the byte order mark, if it has one. -/
def content (s : String) : List Char :=
  match s.toList with
  | '\ufeff' :: rest => rest
  | cs => cs

/-- The tokens of a document. -/
def tokens? (s : String) : Option (List Token) := do
  (← (← uniformLines? (content s)).foldlM Lexer.step {}).finish

end Toml
end Devirt
