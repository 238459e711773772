/-
# What lowering can fail for

A step of lowering fails for one of few reasons: the stack refuses an
instruction, an operand or a value is not what is wanted, or a local is wanted
and the table is full (`Blame`). Whether a rule serves the code is settled
before its first step, so a rule that does never fails for the code itself
(`Rule.emit_blames`).

Key definitions: `Cause.isStackRefusal`, `Blame`, `Lower.Blames`.
Key theorems: `stackRefusal_of_effect`, `Rule.emit_blames`.
-/
import Devirt.Proofs.Emission

namespace Devirt

open Devirt.Frame Lower HostInstr

/-! ### Refusals of the stack -/

/-- The stack refuses an instruction for want of values or of room, or because
it loads a local that nobody declared. -/
def Cause.isStackRefusal : Cause → Bool
  | .underflow .. | .overflow _ | .violation (.undeclaredLocal _) => true
  | _ => false

section Refusals

variable {limit n : Nat} {t : StackType} {s : EvalStack} {c : Cause}

theorem stackRefusal_of_push (h : s.push limit t = .error c) : c.isStackRefusal = true := by
  rw [overflow_of_push h]
  rfl

theorem stackRefusal_of_drop (h : s.drop n = .error c) : c.isStackRefusal = true := by
  unfold EvalStack.drop at h
  split at h
  · cases h
  · cases h
    rfl

theorem stackRefusal_of_replace (h : s.replace limit n t = .error c) : c.isStackRefusal = true := by
  unfold EvalStack.replace at h
  cases hd : s.drop n with
  | error c' =>
    rw [hd] at h
    cases h
    exact stackRefusal_of_drop hd
  | ok r =>
    rw [hd] at h
    exact stackRefusal_of_push h

theorem stackRefusal_of_combine {k : StackType → StackType → StackType}
    (h : s.combine limit k = .error c) : c.isStackRefusal = true := by
  unfold EvalStack.combine at h
  split at h
  · exact stackRefusal_of_replace h
  · cases h
    rfl

theorem stackRefusal_of_peek_bind {k : StackType → Except Cause EvalStack}
    (hk : ∀ t, k t = .error c → c.isStackRefusal = true) (h : s.peek n >>= k = .error c) :
    c.isStackRefusal = true := by
  unfold EvalStack.peek at h
  cases hn : s.types[n]? with
  | none =>
    rw [hn] at h
    cases h
    rfl
  | some t =>
    rw [hn] at h
    exact hk t h

theorem stackRefusal_of_effect {i : HostInstr} {locals : Array Local}
    (h : i.effect limit locals s = .error c) : c.isStackRefusal = true := by
  cases i with
  | nop => cases h
  | loadNull | loadInt32 | loadInt64 | loadStatic => exact stackRefusal_of_push h
  | loadLocal j =>
    simp only [effect] at h
    cases hl : locals[j.val]? with
    | none =>
      rw [hl] at h
      cases h
      rfl
    | some l =>
      rw [hl] at h
      exact stackRefusal_of_push h
  | storeLocal | pop | storeStatic | storeField => exact stackRefusal_of_drop h
  | dup => exact stackRefusal_of_peek_bind (fun _ => stackRefusal_of_push) h
  | arith | shift => exact stackRefusal_of_combine h
  | unary => exact stackRefusal_of_peek_bind (fun _ => stackRefusal_of_replace) h
  | convert | compare | box | castClass | loadField => exact stackRefusal_of_replace h
  | invoke how m =>
    cases how with
    | construct => exact stackRefusal_of_replace h
    | direct | virtual =>
      simp only [effect] at h
      split at h
      · exact stackRefusal_of_replace h
      · exact stackRefusal_of_drop h

end Refusals

/-! ### Steps -/

/-- What a step that ends in the frame `g` can fail for. -/
inductive Blame (g : Frame) : Cause → Prop where
  | stack {c : Cause} (h : c.isStackRefusal = true) : Blame g c
  | violation {v : Violation} (h : v.isRefusal = false) : Blame g (.violation v)
  | full (h : maxLocals ≤ g.locals.size) : Blame g (.tooManyLocals maxLocals)

/-- Where a local is lacking, the table is full. -/
theorem Blame.size_of_tooManyLocals {g : Frame} {n : Nat} (h : Blame g (.tooManyLocals n)) :
    maxLocals ≤ g.locals.size := by
  cases h with
  | stack h => cases h
  | full h => exact h

/-- No step looks for a rule. -/
theorem Blame.ne_unsupported {g : Frame} {c : Cause} (h : Blame g c) : c ≠ .unsupported := by
  rintro rfl
  cases h with
  | stack h => cases h

/-- No step refuses the code. -/
theorem Blame.ne_foreignCode {g : Frame} {c : Cause} {code : CodeRef} {rule : String}
    (h : Blame g c) : c ≠ .violation (.foreignCode code rule) := by
  rintro rfl
  cases h with
  | stack h => cases h
  | violation h => cases h

/-- The step fails only for what it can fail for. -/
def Lower.Blames {α : Type} (x : Lower α) : Prop := ∀ f c g, x f = .error c g → Blame g c

namespace Lower.Blames

variable {α β : Type}

theorem bind {x : Lower α} {k : α → Lower β} (hx : Blames x) (hk : ∀ a, Blames (k a)) :
    Blames (x >>= k) := by
  intro f c g h
  rcases bind_eq_error.mp h with herr | ⟨a, f', -, herr⟩
  · exact hx f c g herr
  · exact hk a f' c g herr

theorem localFor (origin : LocalOrigin) (t : StackType) : Blames (Frame.localFor origin t) := by
  intro f c g h
  obtain ⟨rfl, hfull, rfl⟩ := localFor_eq_error h
  exact .full hfull

theorem scratchLocal (t : StackType) (slot : UInt8) : Blames (Frame.scratchLocal t slot) := by
  intro f c g h
  obtain ⟨rfl, hfull, rfl⟩ := scratchLocal_eq_error h
  exact .full hfull

theorem storeRegister (r : Register) (t : StackType) : Blames (Frame.storeRegister r t) := by
  intro f c g h
  obtain ⟨rfl, hfull, rfl⟩ := storeRegister_eq_error h
  exact .full hfull

theorem peek (n : Nat) : Blames (Frame.peek n) := by
  intro f c g h
  obtain ⟨rfl, -, rfl⟩ := peek_eq_error h
  exact .stack rfl

theorem require (n : Nat) : Blames (Frame.require n) := by
  intro f c g h
  obtain ⟨rfl, -, rfl⟩ := require_eq_error h
  exact .stack rfl

theorem push (t : StackType) : Blames (Frame.push t) := by
  intro f c g h
  unfold Frame.push at h
  cases hs : f.stack.push f.limit t with
  | ok s =>
    rw [hs] at h
    cases h
  | error c' =>
    rw [hs] at h
    cases h
    exact .stack (stackRefusal_of_push hs)

theorem pop (n : Nat) : Blames (Frame.pop n) := by
  intro f c g h
  unfold Frame.pop EvalStack.pop at h
  cases hs : f.stack.drop n with
  | ok s =>
    rw [hs] at h
    cases h
  | error c' =>
    rw [hs] at h
    cases h
    exact .stack (stackRefusal_of_drop hs)

theorem planPair : PlanPair id False fun x _ => Blames x where
  pure _ _ _ _ _ _ h := by cases h
  throw v hv _ _ _ h := by
    cases h
    exact .violation hv
  bind hx hk := hx.bind fun a => hk a a False.elim
  peek n _ _ hk := (peek n).bind hk
  require := require
  holdsFloat r _ _ hk f c g h := hk (f.holdsFloat r) f c g h
  registerLocal _ _ := localFor _ _
  scratchLocal := scratchLocal

theorem emit (code : CodeRef) (i : HostInstr) : Blames (Frame.emit code i) :=
  fun _ _ _ h => .stack (stackRefusal_of_effect (emit_eq_error.mp h).1)

theorem emitAll (code : CodeRef) : ∀ is, Blames (Frame.emitAll code is)
  | [] => fun _ _ _ h => by cases h
  | i :: is => (emit code i).bind fun _ => emitAll code is

end Lower.Blames

/-! ### Rules -/

variable {rule : Rule} {op : Operation}

theorem Rule.emit_blames (hs : rule.supports op.code = true) : Blames (rule.emit op) := by
  rw [Rule.emit_eq]
  have hplan : Blames (rule.plan op) := Blames.planPair.plan hs fun r _ t => .storeRegister r t
  exact hplan.bind fun is => .emitAll op.code is

/-- A rule refuses a code that it does not serve before it does anything. -/
theorem Rule.emit_of_not_supports (h : rule.supports op.code = false) :
    rule.emit op = throw (.violation (.foreignCode op.code rule.name)) := by
  rw [Rule.emit_eq, plan_of_not_supports h]
  rfl

end Devirt
