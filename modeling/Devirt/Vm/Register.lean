/-
# Registers of the virtual machine

Sixteen registers of 64 bits: eight general ones, the base, stack and
instruction pointers, the flags, and two pairs the machine keeps for itself.

Key definitions: `Register`, `Register.all`.
-/

namespace Devirt

inductive Register where
  | r0 | r1 | r2 | r3 | r4 | r5 | r6 | r7
  | bp | sp | ip | fl
  | k1 | k2 | m1 | m2
  deriving DecidableEq, Repr, Inhabited

namespace Register

def all : List Register :=
  [.r0, .r1, .r2, .r3, .r4, .r5, .r6, .r7, .bp, .sp, .ip, .fl, .k1, .k2, .m1, .m2]

theorem mem_all (r : Register) : r ∈ all := by
  cases r <;> decide

def name : Register → String
  | .r0 => "R0"
  | .r1 => "R1"
  | .r2 => "R2"
  | .r3 => "R3"
  | .r4 => "R4"
  | .r5 => "R5"
  | .r6 => "R6"
  | .r7 => "R7"
  | .bp => "BP"
  | .sp => "SP"
  | .ip => "IP"
  | .fl => "FL"
  | .k1 => "K1"
  | .k2 => "K2"
  | .m1 => "M1"
  | .m2 => "M2"

/-- The register of this name. -/
def ofName? (s : String) : Option Register := all.find? fun r => r.name == s

end Register
end Devirt
