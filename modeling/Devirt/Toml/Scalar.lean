/-
# Unquoted values of TOML

A run of characters is a boolean, an integer, a float, or a date, time or
both. Underscores may stand between two digits. An integer has to fit 128
bits; a float may not round to infinity, unless it is spelled so.

Key definitions: `Toml.Scalar`, `Toml.integer?`, `Toml.isFloat`,
`Toml.isDateTime`, `Toml.Scalar.ofRun?`.
-/
import Devirt.Toml.Token

namespace Devirt
namespace Toml

inductive Scalar where
  | boolean (b : Bool)
  | integer (n : Int)
  | float
  | dateTime
  | text (s : String)
  deriving DecidableEq, Repr

/-! ### Digits -/

/-- Reads digits onto `value`; underscores stand between digits only. -/
def digitsFrom? (base value : Nat) (afterDigit : Bool) : List Char → Option Nat
  | [] => if afterDigit then some value else none
  | c :: rest =>
    if c = '_' && afterDigit then digitsFrom? base value false rest
    else
      match digit? base c with
      | some d => digitsFrom? base (base * value + d) true rest
      | none => none

/-- The number that digits in a base spell. -/
def digits? (base : Nat) (cs : List Char) : Option Nat := digitsFrom? base 0 false cs

/-- A sign at the front: whether it is a minus, and the rest. -/
def splitSign : List Char → Bool × List Char
  | '-' :: rest => (true, rest)
  | '+' :: rest => (false, rest)
  | cs => (false, cs)

/-- A decimal number without a leading zero. -/
def decimal? : List Char → Option Nat
  | ['0'] => some 0
  | '0' :: _ => none
  | cs => digits? 10 cs

/-! ### Integers -/

/-- An integer, in decimal with an optional sign or in another base without. -/
def integer? : List Char → Option Int
  | '0' :: 'x' :: rest => (digits? 16 rest).map Int.ofNat
  | '0' :: 'o' :: rest => (digits? 8 rest).map Int.ofNat
  | '0' :: 'b' :: rest => (digits? 2 rest).map Int.ofNat
  | cs =>
    let (negative, rest) := splitSign cs
    (decimal? rest).map fun n => if negative then -(n : Int) else (n : Int)

/-- Whether an integer fits 128 bits, as a signed or an unsigned one. -/
def fitsInteger : Int → Bool
  | .ofNat n => n < 1 <<< 128
  | .negSucc n => n < 1 <<< 127

/-! ### Floats -/

/-- Whether `m * 10 ^ e` rounds to a finite double. Only numbers of about 310
digits need the comparison with the midpoint above the greatest one. -/
def isFinite (m : Nat) (e : Int) : Bool :=
  let magnitude := (Nat.toDigits 10 m).length + e
  let bound := (1 <<< 1024) - (1 <<< 970)
  if m = 0 ∨ magnitude < 300 then true
  else if magnitude > 320 then false
  else m * Nat.pow 10 e.toNat < bound * Nat.pow 10 (-e).toNat

/-- A text cut before the first character that `p` accepts, which is dropped;
nothing if there is none. -/
def cutAt? (p : Char → Bool) : List Char → Option (List Char × List Char)
  | [] => none
  | c :: rest =>
    if p c then some ([], rest)
    else (cutAt? p rest).map fun (before, after) => (c :: before, after)

/-- The exponent of a float: digits with an optional sign. -/
def exponent? (cs : List Char) : Option Int :=
  let (negative, rest) := splitSign cs
  (digits? 10 rest).map fun n => if negative then -(n : Int) else (n : Int)

/-- Whether an unsigned text is a finite float: an integer part with a
fraction, an exponent or both. -/
def isFiniteFloat (cs : List Char) : Bool :=
  let (mantissa, exponentPart) := match cutAt? (fun c => c = 'e' || c = 'E') cs with
    | some (mantissa, digits) => (mantissa, some digits)
    | none => (cs, none)
  let (whole, fractionPart) := match cutAt? (· = '.') mantissa with
    | some (whole, digits) => (whole, some digits)
    | none => (mantissa, none)
  let finite : Option Bool := do
    guard (exponentPart.isSome || fractionPart.isSome)
    let m ← decimal? whole
    let fraction := fractionPart.getD []
    let f ← if fractionPart.isSome then digits? 10 fraction else some 0
    let e ← match exponentPart with
      | some digits => exponent? digits
      | none => some 0
    let places := (fraction.filter Char.isDigit).length
    return isFinite (m * Nat.pow 10 places + f) (e - Int.ofNat places)
  finite == some true

def isFloat (cs : List Char) : Bool :=
  let (_, rest) := splitSign cs
  rest == "inf".toList || rest == "nan".toList || isFiniteFloat rest

/-! ### Dates and times -/

/-- The number that two digits spell, below a bound. -/
def twoDigits? (bound : Nat) (a b : Char) : Option Nat := do
  let n := 10 * (← digit? 10 a) + (← digit? 10 b)
  if n < bound then some n else none

def isLeapYear (year : Nat) : Bool :=
  year % 4 = 0 && (year % 100 ≠ 0 || year % 400 = 0)

def daysInMonth (year month : Nat) : Nat :=
  match month with
  | 2 => if isLeapYear year then 29 else 28
  | 4 | 6 | 9 | 11 => 30
  | _ => 31

/-- A date at the front dropped. -/
def dropDate? : List Char → Option (List Char)
  | y1 :: y2 :: y3 :: y4 :: '-' :: m1 :: m2 :: '-' :: d1 :: d2 :: rest => do
    let year := 100 * (← twoDigits? 100 y1 y2) + (← twoDigits? 100 y3 y4)
    let month ← twoDigits? 13 m1 m2
    let day ← twoDigits? 32 d1 d2
    guard (0 < month ∧ 0 < day ∧ day ≤ daysInMonth year month)
    return rest
  | _ => none

/-- A fraction of a second at the front dropped, if one starts there. -/
def dropSecondFraction? : List Char → Option (List Char)
  | '.' :: c :: rest => if c.isDigit then some (rest.dropWhile Char.isDigit) else none
  | '.' :: [] => none
  | cs => some cs

/-- A time at the front dropped; its seconds may be missing. -/
def dropTime? : List Char → Option (List Char)
  | h1 :: h2 :: ':' :: m1 :: m2 :: rest => do
    let _ ← twoDigits? 24 h1 h2
    let _ ← twoDigits? 60 m1 m2
    match rest with
    | ':' :: s1 :: s2 :: rest =>
      let _ ← twoDigits? 61 s1 s2
      dropSecondFraction? rest
    | rest => return rest
  | _ => none

/-- Whether a text is an offset from universal time, or empty. -/
def isOffset : List Char → Bool
  | [] => true
  | [c] => c = 'Z' || c = 'z'
  | [s, h1, h2, ':', m1, m2] =>
    (s = '+' || s = '-') && (twoDigits? 24 h1 h2).isSome && (twoDigits? 60 m1 m2).isSome
  | _ => false

/-- Whether a text is a date, a time, or a date and a time of day, which may
then carry an offset. -/
def isDateTime (cs : List Char) : Bool :=
  match dropDate? cs with
  | some [] => true
  | some (c :: rest) =>
    (c = 'T' || c = 't' || c = ' ') && (dropTime? rest).any isOffset
  | none => dropTime? cs == some []

/-- Whether a text is a date alone, so that a time may follow. -/
def isDate (cs : List Char) : Bool := dropDate? cs == some []

/-- The value that a run of characters spells. -/
def Scalar.ofRun? (cs : List Char) : Option Scalar :=
  if cs = "true".toList then some (.boolean true)
  else if cs = "false".toList then some (.boolean false)
  else
    match integer? cs with
    | some n => if fitsInteger n then some (.integer n) else none
    | none => if isFloat cs then some .float else if isDateTime cs then some .dateTime else none

end Toml
end Devirt
