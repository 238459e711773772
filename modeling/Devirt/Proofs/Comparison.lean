/-
# What a comparison computes

A comparison of two numbers leaves 1, -1 or 0 as the lower operand is greater,
less or neither, and a comparison of two references leaves whether they differ
(`compare_computes`). It is assumed of the host that its comparisons of numbers
are those of a strict relation, that it compares references by identity, and
that it computes modulo 2^32 (`HostOps.Ordered`); floats need not be ordered.

The operands go through two scratch locals and are loaded twice from there. They
are two locals, whatever locals there are already and whether scratch locals are
shared or not, and no other local is touched.

Key definitions: `HostOps.Ordered`, `verdict`, `Computes`.
Key theorems: `run_signOfDifference_scratch`, `run_referencesDiffer`,
`compare_computes`.
-/
import Devirt.Proofs.Integers
import Devirt.Proofs.Operands
import Devirt.Proofs.Reachable

namespace Devirt

open Devirt.Frame Lower HostInstr HostState

/-! ### The host -/

/-- The host compares numbers of one type by a strict relation, references by
identity, and computes on 32-bit integers modulo 2^32. -/
structure HostOps.Ordered {V : Type} [DecidableEq V] (ops : HostOps V) (less : V → V → Bool) :
    Prop where
  /-- No number is both less and greater than another one. -/
  asymm : ∀ a b, (ops.typeOf a).IsNumber → ops.typeOf b = ops.typeOf a → less a b = true →
    less b a = false
  greater : ∀ a b, (ops.typeOf a).IsNumber → ops.typeOf b = ops.typeOf a →
    ops.compare .gt a b = some (ops.int32 (if less b a then 1 else 0))
  less : ∀ a b, (ops.typeOf a).IsNumber → ops.typeOf b = ops.typeOf a →
    ops.compare .lt a b = some (ops.int32 (if less a b then 1 else 0))
  same : ∀ a b, ops.typeOf a = .object → ops.typeOf b = .object →
    ops.compare .eq a b = some (ops.int32 (if a = b then 1 else 0))
  sub : ∀ x y, ops.arith .sub (ops.int32 x) (ops.int32 y) = some (ops.int32 (x - y))
  xor : ∀ x y, ops.arith .xor (ops.int32 x) (ops.int32 y) = some (ops.int32 (x ^^^ y))

/-- 1 if `a` is greater, -1 if it is less, 0 if it is neither. -/
def verdict {V : Type} (less : V → V → Bool) (a b : V) : BitVec 32 :=
  if less b a then 1 else if less a b then -1 else 0

section Values

variable {V : Type} [DecidableEq V] {ops : HostOps V} {less : V → V → Bool}
  {types : LocalIndex → Option StackType} {a b : V} (hops : ops.Ordered less)

include hops

section Numbers

variable (hnumber : (ops.typeOf a).IsNumber) (hsame : ops.typeOf b = ops.typeOf a)

include hnumber hsame

/-- Exchanging the operands negates the verdict. -/
theorem verdict_swap : verdict less b a = -verdict less a b := by
  unfold verdict
  cases hab : less a b with
  | true =>
    rw [hops.asymm a b hnumber hsame hab]
    decide
  | false => cases less b a <;> decide

/-- "Greater" minus "less" is the verdict. -/
theorem sub_eq_verdict :
    (if less b a then 1 else 0 : BitVec 32) - (if less a b then 1 else 0) = verdict less a b := by
  unfold verdict
  cases hab : less a b with
  | true =>
    rw [hops.asymm a b hnumber hsame hab]
    decide
  | false => cases less b a <;> decide

/-- Two numbers of the type of two different locals are stored there and leave
their verdict. -/
theorem run_signOfDifference_ordered {lhs rhs : LocalIndex} (hne : lhs ≠ rhs)
    (hl : types lhs = some (ops.typeOf a)) (hr : types rhs = some (ops.typeOf b)) (rest : List V)
    (σ : LocalIndex → V) :
    run ops types (Lowering.signOfDifference lhs rhs) ⟨b :: a :: rest, σ⟩ =
      some ⟨ops.int32 (verdict less a b) :: rest,
        Function.update (Function.update σ rhs b) lhs a⟩ := by
  rw [run_signOfDifference hne hl hr, hops.greater a b hnumber hsame, Option.bind_some,
    hops.less a b hnumber hsame, Option.bind_some, hops.sub, sub_eq_verdict hops hnumber hsame,
    Option.map_some]

/-- Where the two locals are scratch for the operands, no other local changes.
The table may have grown by the time the code is run. -/
theorem run_signOfDifference_scratch {ks ls : Array Local} {lhs rhs : LocalIndex}
    (hl : IsScratch ks 0 (ops.typeOf a) lhs) (hr : IsScratch ks 1 (ops.typeOf b) rhs)
    (hls : Extends ks ls) (rest : List V) (σ : LocalIndex → V) :
    ∃ σ', run ops (declared ls) (Lowering.signOfDifference lhs rhs) ⟨b :: a :: rest, σ⟩ =
        some ⟨ops.int32 (verdict less a b) :: rest, σ'⟩ ∧
      ∀ j, j ≠ lhs → j ≠ rhs → σ' j = σ j := by
  have hne : lhs ≠ rhs := by
    rintro rfl
    exact absurd (hl.slot_unique hr) (by decide)
  have hrun := run_signOfDifference_ordered hops hnumber hsame hne (hl.mono hls).declared
    (hr.mono hls).declared rest σ
  refine ⟨_, hrun, fun j hjl hjr => ?_⟩
  rw [Function.update_of_ne hjl, Function.update_of_ne hjr]

end Numbers

/-- Two references leave whether they differ. -/
theorem run_referencesDiffer (ha : ops.typeOf a = .object) (hb : ops.typeOf b = .object)
    (rest : List V) (σ : LocalIndex → V) :
    run ops types Lowering.referencesDiffer ⟨b :: a :: rest, σ⟩ =
      some ⟨ops.int32 (if a = b then 0 else 1) :: rest, σ⟩ := by
  have hflip : (if a = b then 1 else 0 : BitVec 32) ^^^ (1 : Int32).toBitVec =
      if a = b then 0 else 1 := by
    split <;> decide
  simp only [Lowering.referencesDiffer, run, exec, onTwo, HostState.push, hops.same a b ha hb,
    Option.map_some, Option.bind_some, hops.xor, hflip]

end Values

/-! ### The types -/

theorem replay_signOfDifference {types : LocalIndex → Option StackType} {lhs rhs : LocalIndex}
    {t u v : StackType} {rest : List StackType} (hl : types lhs = some t) (hr : types rhs = some t) :
    replay types (Lowering.signOfDifference lhs rhs) (u :: v :: rest) = some (.int32 :: rest) := by
  simp [Lowering.signOfDifference, replay, retype, takeMany, takeTwo, StackType.binaryResult, hl, hr]

/-! ### Comparisons -/

/-- What the code of a comparison computes from the values on the stack, and
leaves on the abstract one. -/
structure Computes {V : Type} [DecidableEq V] (ops : HostOps V) (less : V → V → Bool) (i : Instr)
    (f : Frame) (code : List HostInstr) (g : Frame) : Prop where
  /-- The types of the two operands give way to that of the verdict. -/
  types : ∃ lhs rhs rest, f.stack.types = rhs :: lhs :: rest ∧ g.stack.types = .int32 :: rest
  /-- Two numbers of the type that they are compared at, `a` below `b`, give way
  to their verdict. No local changes but two scratch locals of that type. -/
  numbers : ∀ t, f.typing.scratch? i.operation = some t →
    ∃ lhs rhs, IsScratch g.locals 0 t lhs ∧ IsScratch g.locals 1 t rhs ∧
      ∀ a b, ops.typeOf a = t → ops.typeOf b = t →
        verdict less b a = -verdict less a b ∧
        ∀ ls, Extends g.locals ls → ∀ rest σ, ∃ σ',
          run ops (declared ls) code ⟨b :: a :: rest, σ⟩ =
            some ⟨ops.int32 (verdict less a b) :: rest, σ'⟩ ∧
          ∀ j, j ≠ lhs → j ≠ rhs → σ' j = σ j
  /-- Otherwise both operands are references, and no local changes. -/
  references : f.typing.scratch? i.operation = none →
    i.code = .opcode .cmp ∧ f.stack.types.take 2 = [.object, .object] ∧
      ∀ a b, ops.typeOf a = .object → ops.typeOf b = .object → ∀ types rest σ,
        run ops types code ⟨b :: a :: rest, σ⟩ =
          some ⟨ops.int32 (if a = b then 0 else 1) :: rest, σ⟩

/-- Wherever it stands, a comparison that goes through with nothing pending
computes what it should. -/
theorem compare_computes {V : Type} [DecidableEq V] (ops : HostOps V) (less : V → V → Bool)
    (o : Options) (f g : Frame) (i : Instr) (code : Array HostInstr) (hops : ops.Ordered less)
    (hf : f.Reachable o) (hp : f.pending = #[]) (h : Rule.compare.lower i f = .ok code g) :
    Computes ops less i f code.toList g := by
  obtain ⟨hrenders, htypes⟩ := Rule.lower_renders hf.sound hf.room hp h
  generalize hop : i.operation = op at hrenders
  generalize code.toList = is at hrenders htypes
  cases hrenders with
  | numbers ht hl hr =>
    rename_i c arg t lhs rhs
    obtain ⟨u, v, rest, hs⟩ := Typing.operands_of_scratch? ht
    have hstack : f.stack.types = u :: v :: rest := hs
    refine ⟨⟨v, u, rest, hstack, ?_⟩, ?_, ?_⟩
    · rw [hstack, replay_signOfDifference hl.declared hr.declared] at htypes
      exact (Option.some.inj htypes).symm
    · intro t' ht'
      obtain rfl : t = t' := by
        rw [hop, ht] at ht'
        exact Option.some.inj ht'
      refine ⟨lhs, rhs, hl, hr, fun a b ha hb => ?_⟩
      have hnumber : (ops.typeOf a).IsNumber := ha ▸ Typing.isNumber_of_scratch? ht
      have hsame : ops.typeOf b = ops.typeOf a := hb.trans ha.symm
      refine ⟨verdict_swap hops hnumber hsame, fun ls hls rest σ => ?_⟩
      exact run_signOfDifference_scratch hops hnumber hsame (ha ▸ hl) (hb ▸ hr) hls rest σ
    · intro hnone
      rw [hop, ht] at hnone
      cases hnone
  | references hs =>
    rename_i arg rest
    have hstack : f.stack.types = .object :: .object :: rest := hs
    refine ⟨⟨_, _, rest, hstack, ?_⟩, ?_, ?_⟩
    · rw [hstack] at htypes
      exact (Option.some.inj htypes).symm
    · intro t ht
      rw [hop] at ht
      simp [Typing.scratch?, Typing.numbers?, hs] at ht
    · intro _
      refine ⟨by rw [Instr.code, hop]; rfl, by rw [hstack]; rfl, fun a b ha hb types rest σ => ?_⟩
      exact run_referencesDiffer hops ha hb rest σ

/-! ### A host with floats and references -/

/-- A word, a float or a reference. -/
inductive Datum where
  | word (w : Word)
  /-- A float is a number or, if there is none, unordered. -/
  | float (x : Option Int)
  | reference (n : Nat)
  deriving DecidableEq, Repr

namespace Datum

def type : Datum → StackType
  | .word w => w.type
  | .float _ => .float
  | .reference _ => .object

def less : Datum → Datum → Bool
  | .word (.dword a), .word (.dword b) => decide (a.toInt < b.toInt)
  | .word (.qword a), .word (.qword b) => decide (a.toInt < b.toInt)
  | .float (some a), .float (some b) => decide (a < b)
  | _, _ => false

def compare (op : CompareOp) (a b : Datum) : Option Datum :=
  match op with
  | .gt => if b.type = a.type ∧ a.type ≠ .object then some (.word (.ofBool (less b a))) else none
  | .lt => if b.type = a.type ∧ a.type ≠ .object then some (.word (.ofBool (less a b))) else none
  | .eq => if a.type = .object ∧ b.type = .object then some (.word (.ofBool (a = b))) else none
  | .gtUnsigned | .ltUnsigned => none

def arith (op : ArithOp) : Datum → Datum → Option Datum
  | .word a, .word b => (Word.arith op a b).map .word
  | _, _ => none

/-- What comparisons use of the host. -/
def hostOps : HostOps Datum where
  typeOf := type
  int32 v := .word (.dword v)
  int64 v := .word (.qword v)
  arith := arith
  unary _ _ := none
  convert _ _ := none
  compare := compare

theorem hostOps_ordered : hostOps.Ordered less where
  asymm a b _ _ h := by
    unfold less at h ⊢
    split at h
    · simp only [decide_eq_true_eq, decide_eq_false_iff_not] at h ⊢
      omega
    · simp only [decide_eq_true_eq, decide_eq_false_iff_not] at h ⊢
      omega
    · simp only [decide_eq_true_eq, decide_eq_false_iff_not] at h ⊢
      omega
    · cases h
  greater a b hnumber hsame := if_pos ⟨hsame, hnumber.1⟩
  less a b hnumber hsame := if_pos ⟨hsame, hnumber.1⟩
  same a b ha hb := by
    have heq : compare .eq a b = some (.word (.ofBool (a = b))) := if_pos ⟨ha, hb⟩
    show compare .eq a b = some (.word (.dword (if a = b then 1 else 0)))
    rw [heq, Word.ofBool]
    simp only [decide_eq_true_eq]
  sub _ _ := rfl
  xor _ _ := rfl

end Datum

/-- A float is compared with an unordered one and with a greater one, above a
reference. -/
theorem compare_computes_floats :
    let code := CodeRef.opcode .nop
    let f := (Frame.start {}).after ⟨{}⟩
      [(code, .push .object), (code, .push .float), (code, .push .float)]
    let i : Instr := ⟨0, .plain .cmpR64 .none⟩
    f.Reachable {} ∧ f.pending = #[] ∧ ∃ is g, Rule.compare.lower i f = .ok is g ∧
      Computes Datum.hostOps Datum.less i f is.toList g ∧ ∀ σ,
        (∃ σ', run Datum.hostOps (declared g.locals) is.toList
            ⟨[.float none, .float (some 2), .reference 7], σ⟩ =
          some ⟨[.word (.dword 0), .reference 7], σ'⟩) ∧
        ∃ σ', run Datum.hostOps (declared g.locals) is.toList
            ⟨[.float (some 3), .float (some 2), .reference 7], σ⟩ =
          some ⟨[.word (.dword (-1)), .reference 7], σ'⟩ := by
  intro code f i
  have hreach : f.Reachable {} := reachable_after _ _ _
  have hpending : f.pending = #[] := by decide +kernel
  have hscratch : f.typing.scratch? i.operation = some .float := by decide +kernel
  have hrun : (outcome? (Rule.compare.lower i) f).map (·.1.size) = some 9 := by decide +kernel
  clear_value f
  obtain ⟨is, g, h, -⟩ := exists_outcome hrun
  have hcomputes := compare_computes Datum.hostOps Datum.less {} f g i is Datum.hostOps_ordered
    hreach hpending h
  refine ⟨hreach, hpending, is, g, h, hcomputes, fun σ => ?_⟩
  obtain ⟨lhs, rhs, -, -, hnumbers⟩ := hcomputes.numbers .float hscratch
  obtain ⟨σ', hunordered, -⟩ :=
    (hnumbers (.float (some 2)) (.float none) rfl rfl).2 g.locals (.refl _) [.reference 7] σ
  obtain ⟨σ'', hless, -⟩ :=
    (hnumbers (.float (some 2)) (.float (some 3)) rfl rfl).2 g.locals (.refl _) [.reference 7] σ
  exact ⟨⟨σ', hunordered⟩, σ'', hless⟩

end Devirt
