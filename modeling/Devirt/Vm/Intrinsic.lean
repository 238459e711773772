/-
# Intrinsics of the virtual machine

The operations a decoded `VCALL` can name. The set is closed.

Key definitions: `Intrinsic`, `Intrinsic.mnemonic`, `Intrinsic.all`.
-/

namespace Devirt

inductive Intrinsic where
  | exit | breakpoint | ecall | cast | ckFinite | ckOverflow | rangeChk | initObj | ldfld
  | ldftn | token | throwObj | sizeOf | stfld | box | unbox | localloc
  deriving DecidableEq, Repr, Inhabited

namespace Intrinsic

/-- Every intrinsic, in the order of declaration. -/
def all : List Intrinsic :=
  [.exit, .breakpoint, .ecall, .cast, .ckFinite, .ckOverflow, .rangeChk, .initObj, .ldfld,
   .ldftn, .token, .throwObj, .sizeOf, .stfld, .box, .unbox, .localloc]

theorem mem_all (c : Intrinsic) : c ∈ all := by
  cases c <;> decide

def mnemonic : Intrinsic → String
  | .exit => "EXIT"
  | .breakpoint => "BREAK"
  | .ecall => "ECALL"
  | .cast => "CAST"
  | .ckFinite => "CKFINITE"
  | .ckOverflow => "CKOVERFLOW"
  | .rangeChk => "RANGECHK"
  | .initObj => "INITOBJ"
  | .ldfld => "LDFLD"
  | .ldftn => "LDFTN"
  | .token => "TOKEN"
  | .throwObj => "THROW"
  | .sizeOf => "SIZEOF"
  | .stfld => "STFLD"
  | .box => "BOX"
  | .unbox => "UNBOX"
  | .localloc => "LOCALLOC"

/-- The place of the intrinsic in the order of declaration. -/
def index (c : Intrinsic) : Nat := all.idxOf c

/-- The intrinsic of this mnemonic. -/
def ofMnemonic? (s : String) : Option Intrinsic := all.find? fun c => c.mnemonic == s

end Intrinsic
end Devirt
