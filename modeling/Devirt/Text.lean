/-
# Numbers in fixed-width hexadecimal

Listings show offsets in upper case with at least four digits and immediates
in lower case at their full width. Both are the digits of the number behind
as many zeros as the width asks for; a number that is wider keeps its digits.

Key definitions: `Text.hexDigits`, `Text.upperHex`, `Text.lowerHex`.
-/

namespace Devirt
namespace Text

/-- The hexadecimal digits of `n`, behind zeros up to `width` of them. -/
def hexDigits (width n : Nat) : List Char :=
  (Nat.toDigits 16 n).leftpad width '0'

/-- `n` in lower-case hexadecimal. -/
def lowerHex (width n : Nat) : String := String.ofList (hexDigits width n)

/-- `n` in upper-case hexadecimal. -/
def upperHex (width n : Nat) : String := String.ofList ((hexDigits width n).map Char.toUpper)

theorem le_length_hexDigits (width n : Nat) : width ≤ (hexDigits width n).length := by
  simp [hexDigits, List.leftpad]
  omega

end Text
end Devirt
