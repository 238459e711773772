/-
# The integer fragment of both machines

Both machines compute on words of 32 and 64 bits. The host converts, adds and
compares them modulo the width and signed (`Word.hostOps`). The virtual
machine has sixteen registers of 64 bits and a stack of words; a step is
undefined where the widths of its operands are not those of its opcode
(`VmState.step`).

The two are defined apart from each other: a comparison is the sign of a
difference of integers on the one side, and is put together from "greater"
and "less" on the other (`Word.sub_compareBits`).

Key definitions: `Word`, `Word.hostOps`, `VmState`, `VmState.step`,
`VmState.run`.
Key theorems: `Word.hostOps_typed`, `Word.sub_compareBits`.
-/
import Devirt.Proofs.Machine

namespace Devirt

/-- A value of the integer fragment. -/
inductive Word where
  | dword (v : BitVec 32)
  | qword (v : BitVec 64)
  deriving DecidableEq, Repr

namespace Word

def type : Word → StackType
  | .dword _ => .int32
  | .qword _ => .int64

/-- The word, zero-extended to 64 bits. -/
def zeroExtend : Word → BitVec 64
  | .dword v => v.setWidth 64
  | .qword v => v

/-- The lowest `n` bits of 64, zero-extended to 32. -/
def low (n : Nat) (v : BitVec 64) : BitVec 32 := (v.setWidth n).setWidth 32

/-! ### The host -/

/-- The operations that agree on all widths. -/
def arithBits {w : Nat} : ArithOp → BitVec w → BitVec w → Option (BitVec w)
  | .add, a, b => some (a + b)
  | .sub, a, b => some (a - b)
  | .and, a, b => some (a &&& b)
  | .or, a, b => some (a ||| b)
  | .xor, a, b => some (a ^^^ b)
  | .mul, _, _ | .div, _, _ | .rem, _, _ => none

/-- Signed comparisons. -/
def compareBits {w : Nat} : CompareOp → BitVec w → BitVec w → Option Bool
  | .gt, a, b => some (decide (b.toInt < a.toInt))
  | .lt, a, b => some (decide (a.toInt < b.toInt))
  | .eq, _, _ | .gtUnsigned, _, _ | .ltUnsigned, _, _ => none

def arith (op : ArithOp) : Word → Word → Option Word
  | .dword a, .dword b => (arithBits op a b).map .dword
  | .qword a, .qword b => (arithBits op a b).map .qword
  | _, _ => none

def unary (op : UnaryOp) (x : Word) : Option Word :=
  match op, x with
  | .not, .dword v => some (.dword (~~~v))
  | .not, .qword v => some (.qword (~~~v))
  | .neg, _ => none

def convert (conv : Conversion) (x : Word) : Option Word :=
  match conv with
  | .u1 => some (.dword (low 8 x.zeroExtend))
  | .u2 => some (.dword (low 16 x.zeroExtend))
  | .u4 => some (.dword (low 32 x.zeroExtend))
  | .u8 => some (.qword x.zeroExtend)
  | .i4 | .i8 | .r4 | .r8 | .native => none

/-- A truth value as the host leaves it. -/
def ofBool (b : Bool) : Word := .dword (if b then 1 else 0)

def compare (op : CompareOp) : Word → Word → Option Word
  | .dword a, .dword b => (compareBits op a b).map ofBool
  | .qword a, .qword b => (compareBits op a b).map ofBool
  | _, _ => none

/-- The host's integers. -/
def hostOps : HostOps Word where
  typeOf := type
  int32 := .dword
  int64 := .qword
  arith := arith
  unary := unary
  convert := convert
  compare := compare

theorem hostOps_typed : hostOps.Typed where
  int32 _ := rfl
  int64 _ := rfl
  arith op lhs rhs v h := by
    rcases lhs with a | a <;> rcases rhs with b | b
    · obtain ⟨w, -, rfl⟩ := Option.map_eq_some_iff.mp h
      rfl
    · cases h
    · cases h
    · obtain ⟨w, -, rfl⟩ := Option.map_eq_some_iff.mp h
      rfl
  unary op x v h := by
    cases op with
    | not => rcases x with a | a <;> cases h <;> rfl
    | neg => cases h
  convert conv x v h := by
    cases conv <;> cases h <;> rfl
  compare op lhs rhs v h := by
    rcases lhs with a | a <;> rcases rhs with b | b
    · obtain ⟨w, -, rfl⟩ := Option.map_eq_some_iff.mp h
      rfl
    · cases h
    · cases h
    · obtain ⟨w, -, rfl⟩ := Option.map_eq_some_iff.mp h
      rfl

end Word

/-! ### The virtual machine -/

/-- The sign of the difference of two signed integers, as 32 bits. -/
def signBits {w : Nat} (a b : BitVec w) : BitVec 32 := BitVec.ofInt 32 (a.toInt - b.toInt).sign

structure VmState where
  registers : Register → BitVec 64
  /-- The words on the stack, top first. -/
  stack : List Word

namespace VmState

def push (v : Word) (s : VmState) : VmState := { s with stack := v :: s.stack }

def drop (s : VmState) : Option VmState :=
  match s.stack with
  | _ :: rest => some { s with stack := rest }
  | [] => none

/-- Stores the top into a register, zero-extended. -/
def store (r : Register) (s : VmState) : Option VmState :=
  match s.stack with
  | v :: rest => some ⟨Function.update s.registers r v.zeroExtend, rest⟩
  | [] => none

/-- An operation on two operands of 32 bits, the deeper one first. -/
def dwords (k : BitVec 32 → BitVec 32 → Word) (s : VmState) : Option VmState :=
  match s.stack with
  | .dword b :: .dword a :: rest => some { s with stack := k a b :: rest }
  | _ => none

/-- An operation on two operands of 64 bits, the deeper one first. -/
def qwords (k : BitVec 64 → BitVec 64 → Word) (s : VmState) : Option VmState :=
  match s.stack with
  | .qword b :: .qword a :: rest => some { s with stack := k a b :: rest }
  | _ => none

def complement (s : VmState) : Option VmState :=
  match s.stack with
  | .dword a :: rest => some { s with stack := .dword (~~~a) :: rest }
  | _ => none

/-- One operation of the fragment. -/
def step (s : VmState) : Operation → Option VmState
  | .plain .pushiDword (.dword v) => some (s.push (.dword v.toBitVec))
  | .plain .pushiQword (.qword v) => some (s.push (.qword v.toBitVec))
  | .plain .pushrByte (.register r) => some (s.push (.dword (Word.low 8 (s.registers r))))
  | .plain .pushrWord (.register r) => some (s.push (.dword (Word.low 16 (s.registers r))))
  | .plain .pushrDword (.register r) => some (s.push (.dword (Word.low 32 (s.registers r))))
  | .plain .pushrQword (.register r) => some (s.push (.qword (s.registers r)))
  | .plain .pop .none => s.drop
  | .plain .pop (.register r) => s.store r
  | .plain .addDword _ => s.dwords fun a b => .dword (a + b)
  | .plain .addQword _ => s.qwords fun a b => .qword (a + b)
  | .plain .norDword _ => s.dwords fun a b => .dword (~~~(a ||| b))
  | .plain .norQword _ => s.qwords fun a b => .qword (~~~(a ||| b))
  | .plain .subDword _ => s.dwords fun a b => .dword (a - b)
  | .plain .orDword _ => s.dwords fun a b => .dword (a ||| b)
  | .plain .andDword _ => s.dwords fun a b => .dword (a &&& b)
  | .plain .xorDword _ => s.dwords fun a b => .dword (a ^^^ b)
  | .plain .notDword _ => s.complement
  | .plain .cmpDword _ => s.dwords fun a b => .dword (signBits a b)
  | .plain .cmpQword _ => s.qwords fun a b => .dword (signBits a b)
  | .plain .cmp _ =>
    (s.dwords fun a b => .dword (signBits a b)).or (s.qwords fun a b => .dword (signBits a b))
  | _ => none

theorem dwords_eq_some {k : BitVec 32 → BitVec 32 → Word} {s s' : VmState}
    (h : s.dwords k = some s') : ∃ a b rest, s.stack = .dword b :: .dword a :: rest ∧
      s' = { s with stack := k a b :: rest } := by
  unfold dwords at h
  split at h
  · rename_i b a rest hs
    cases h
    exact ⟨a, b, rest, hs, rfl⟩
  · cases h

theorem qwords_eq_some {k : BitVec 64 → BitVec 64 → Word} {s s' : VmState}
    (h : s.qwords k = some s') : ∃ a b rest, s.stack = .qword b :: .qword a :: rest ∧
      s' = { s with stack := k a b :: rest } := by
  unfold qwords at h
  split at h
  · rename_i b a rest hs
    cases h
    exact ⟨a, b, rest, hs, rfl⟩
  · cases h

def run : List Instr → VmState → Option VmState
  | [], s => some s
  | i :: rest, s => (s.step i.operation).bind (run rest)

end VmState

/-! ### The sign of a difference -/

namespace Word

theorem sub_ofBool (m n : Int) :
    (if decide (n < m) = true then (1 : BitVec 32) else 0) - (if decide (m < n) = true then 1 else 0) =
      BitVec.ofInt 32 (m - n).sign := by
  rcases Int.lt_trichotomy m n with h | h | h
  · have hn : ¬ n < m := by omega
    rw [Int.sign_eq_neg_one_of_neg (by omega)]
    simp only [h, hn, decide_true, decide_false, if_true, Bool.false_eq_true, if_false]
    decide
  · subst h
    simp
  · have hn : ¬ m < n := by omega
    rw [Int.sign_eq_one_of_pos (by omega)]
    simp only [h, hn, decide_true, decide_false, if_true, Bool.false_eq_true, if_false]
    decide

/-- On words of one width, "greater" minus "less" is the sign of the
difference. -/
theorem sub_compareBits {w : Nat} (a b : BitVec w) :
    (((compareBits .gt a b).map ofBool).bind fun x =>
      ((compareBits .lt a b).map ofBool).bind fun y => arith .sub x y) =
      some (.dword (signBits a b)) := by
  simp only [compareBits, Option.map_some, Option.bind_some, ofBool, arith, arithBits, signBits,
    sub_ofBool]

end Word

end Devirt
