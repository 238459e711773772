/-
# Which instruction is to blame, and for how much

An instruction consumes a number of values that its operation determines. A
rule finds out in one of several ways that they are not there: it asks for
their number, it looks for one of them, or it emits an instruction that takes
them. All come to the same. The failure is charged to the code of the
instruction, tells the number of values that the instruction consumes in full
and the depth it has met, and nothing has happened to the frame
(`Rule.emit_of_lt`).

A rule that has its operands never lacks a value afterwards
(`Rule.emit_error_of_le`): its code consumes as much as the operation does
(`Rule.Renders.operands`), and an operation that is not asked for its operands
beforehand is a single instruction (`Lower.Asks`).

Key definitions: `Rule.operands?`, `Operation.consumes?`, `Lower.Asks`,
`Rule.Fails`, `Fault.Attributed`.
Key theorems: `Rule.plan_asksFor`, `Rule.Renders.operands`, `Rule.emit_fails`,
`lower_error_attributed`.
-/
import Devirt.Proofs.Rendering
import Devirt.Proofs.Dispatch
import Devirt.Proofs.Shapes

namespace Devirt

open Devirt.Frame Lower HostInstr

/-! ### Operands on the stack -/

/-- The number of values that the rule takes off the stack for an operation,
unless it refuses what the operation carries. -/
def Rule.operands? : Rule → Operation → Option Nat
  | .push, .plain c arg =>
    match c.pushForm?, arg with
    | some .dword, .dword _ | some .qword, .qword _ | some (.register _), .register _ => some 0
    | _, _ => none
  | .pop, .plain _ .none | .pop, .plain _ (.register _) => some 1
  | .compare, .plain _ _ => some 2
  | .chain c, .plain _ _ => some c.operandCount
  | .box, .intrinsic _ (.type t) => if t.isVoid then none else some 1
  | .call, .intrinsic _ (.method how m) =>
    if how ≠ .direct ∧ ¬ m.hasThis then none else some (HostInstr.invoke how m).arity.pops
  | .loadField, .intrinsic _ (.field f) => some (if f.isStatic then 0 else 1)
  | .storeField, .intrinsic _ (.field f) => some (if f.isStatic then 1 else 2)
  | _, _ => none

/-- The number of values that a decoded operation consumes, if its code is of
those that the default table serves and it carries what that code needs. -/
def Operation.consumes? : Operation → Option Nat
  | .plain .pushiDword (.dword _) | .plain .pushiQword (.qword _)
  | .plain .pushrByte (.register _) | .plain .pushrWord (.register _)
  | .plain .pushrDword (.register _) | .plain .pushrQword (.register _)
  | .plain .pushrObject (.register _) => some 0
  | .plain .pop .none | .plain .pop (.register _) | .plain .notDword _ => some 1
  | .plain .addDword _ | .plain .addQword _ | .plain .addR32 _ | .plain .addR64 _
  | .plain .norDword _ | .plain .norQword _
  | .plain .subDword _ | .plain .orDword _ | .plain .andDword _ | .plain .xorDword _
  | .plain .cmp _ | .plain .cmpDword _ | .plain .cmpQword _ | .plain .cmpR32 _
  | .plain .cmpR64 _ => some 2
  | .intrinsic .box (.type t) => if t.isVoid then none else some 1
  | .intrinsic .ecall (.method .direct m) => some (m.params.length + m.hasThis.toNat)
  | .intrinsic .ecall (.method .virtual m) => if m.hasThis then some (m.params.length + 1) else none
  | .intrinsic .ecall (.method .construct m) => if m.hasThis then some m.params.length else none
  | .intrinsic .ldfld (.field f) => some (if f.isStatic then 0 else 1)
  | .intrinsic .stfld (.field f) => some (if f.isStatic then 1 else 2)
  | _ => none

/-- What an operation consumes is what its rule of the default table takes. -/
theorem Operation.consumes?_eq (op : Operation) :
    op.consumes? = op.code.defaultRule?.bind fun rule => rule.operands? op := by
  cases op with
  | plain c arg => cases c <;> cases arg <;> rfl
  | intrinsic call arg =>
    cases call with
    | ecall =>
      cases arg with
      | method how m =>
        cases how with
        | direct => rfl
        | virtual =>
          show (if m.hasThis then some (m.params.length + 1) else none) =
            Rule.operands? .call (.intrinsic .ecall (.method .virtual m))
          cases hthis : m.hasThis <;> simp [Rule.operands?, arity, MethodRef.stackArguments, hthis]
        | construct =>
          show (if m.hasThis then some m.params.length else none) =
            Rule.operands? .call (.intrinsic .ecall (.method .construct m))
          cases hthis : m.hasThis <;> simp [Rule.operands?, arity, hthis]
      | none | type | field => rfl
    | box | ldfld | stfld => cases arg <;> rfl
    | _ => rfl

/-! ### Refusals -/

/-- What the operation carries is refused, whatever the frame. -/
def Violation.isOperandRefusal : Violation → Bool
  | .operandShape .. | .voidType _ | .noReceiver .. => true
  | _ => false

/-- Neither what the operation carries is to blame nor how many values there
are. -/
def Cause.sparesOperands : Cause → Bool
  | .tooManyLocals _ => true
  | .violation v => !v.isOperandRefusal && !v.isRefusal
  | _ => false

namespace Lower

/-- The step fails for no want of values and not for what an operation
carries. -/
def Spares {α : Type} (x : Lower α) : Prop :=
  ∀ f c g, x f = .error c g → c.sparesOperands = true

namespace Spares

variable {α β : Type}

theorem pure (a : α) : Spares (pure a) := fun _ _ _ h => by cases h

theorem throw {v : Violation} (h : (Cause.violation v).sparesOperands = true) :
    Spares (throw (.violation v) : Lower α) := by
  intro f c g hc
  cases hc
  exact h

theorem bind {x : Lower α} {k : α → Lower β} (hx : Spares x) (hk : ∀ a, Spares (k a)) :
    Spares (x >>= k) := by
  intro f c g h
  rcases bind_eq_error.mp h with herr | ⟨a, f', -, herr⟩
  · exact hx f c g herr
  · exact hk a f' c g herr

theorem localFor (origin : LocalOrigin) (t : StackType) : Spares (Frame.localFor origin t) := by
  intro f c g h
  obtain ⟨rfl, -, rfl⟩ := localFor_eq_error h
  rfl

theorem scratchLocal (t : StackType) (slot : UInt8) : Spares (Frame.scratchLocal t slot) := by
  intro f c g h
  obtain ⟨rfl, -, rfl⟩ := scratchLocal_eq_error h
  rfl

theorem storeRegister (r : Register) (t : StackType) : Spares (Frame.storeRegister r t) := by
  intro f c g h
  obtain ⟨rfl, -, rfl⟩ := storeRegister_eq_error h
  rfl

theorem pushRegister (w : Width) (r : Register) : Spares (Plan.pushRegister w r) := by
  refine bind (fun _ _ _ h => by cases h) fun f => ?_
  split
  · split
    · exact (localFor _ _).bind fun _ => pure _
    · exact throw rfl
  · exact (localFor _ _).bind fun _ => pure _

theorem compareNumbers (t : StackType) : Spares (Plan.compareNumbers t) :=
  (scratchLocal t 0).bind fun _ => (scratchLocal t 1).bind fun _ => pure _

end Spares

/-- The step finds the code of an operation that consumes `n` values. If they
are lacking it says so, or finds an instruction that will; if not it fails for
something else. -/
structure Asks (n : Nat) (x : Lower (List HostInstr)) : Prop where
  lacks : ∀ f, f.stack.depth < n →
    x f = .error (.underflow n f.stack.depth) f ∨ ∃ i, i.arity.pops = n ∧ x f = .ok [i] f
  spares : ∀ f c g, n ≤ f.stack.depth → x f = .error c g → c.sparesOperands = true

namespace Asks

variable {n : Nat}

/-- One instruction asks for what it takes when it is emitted. -/
theorem single (i : HostInstr) : Asks i.arity.pops (pure [i]) where
  lacks _ _ := Or.inr ⟨i, rfl, rfl⟩
  spares _ _ _ _ h := by cases h

theorem of_spares {x : Lower (List HostInstr)} (h : Spares x) : Asks 0 x where
  lacks _ hlt := absurd hlt (Nat.not_lt_zero _)
  spares f c g _ herr := h f c g herr

theorem require (n : Nat) (is : List HostInstr) : Asks n (do Frame.require n; return is) where
  lacks _ hlt := Or.inl (bind_of_error (require_of_lt hlt))
  spares f c g hle h := by
    rcases bind_eq_error.mp h with hreq | ⟨u, f', -, hpure⟩
    · have hlt := (require_eq_error hreq).2.1
      omega
    · cases hpure

/-- To look `n` places below the top takes one value more. -/
theorem peek (n : Nat) {k : StackType → Lower (List HostInstr)} (hk : ∀ t, Spares (k t)) :
    Asks (n + 1) (Frame.peek n >>= k) where
  lacks f hlt := by
    have hnone : f.stack.types[n]? = none := by
      rw [f.stack.depth_eq] at hlt
      exact List.getElem?_eq_none (by omega)
    exact Or.inl (bind_of_error (peek_of_none hnone))
  spares f c g hle h := by
    rcases bind_eq_error.mp h with hpeek | ⟨t, f', -, hrest⟩
    · have hlt := (peek_eq_error hpeek).2.1
      omega
    · exact hk t f' c g hrest

theorem receiver (n : Nat) (is : List HostInstr) :
    Asks (n + 1) (do Lowering.requireReceiver n; return is) := by
  unfold Lowering.requireReceiver
  rw [bind_assoc]
  refine peek n fun t => ?_
  cases t with
  | object | pointer | nativeInt => exact .pure is
  | int32 | int64 | float => exact (Spares.throw rfl).bind fun _ => .pure is

theorem compare (width : Option Width) : Asks 2 (Plan.compare width) where
  lacks _ hlt := Or.inl (Plan.compare_of_lt hlt)
  spares f c g hle h := by
    obtain ⟨rhs, lhs, rest, ht⟩ := exists_two_of_depth hle
    by_cases hnum : lhs ≠ .object ∧ rhs ≠ .object
    · rw [Plan.compare_numbers ht hnum.1 hnum.2] at h
      exact Spares.compareNumbers _ f c g h
    · by_cases href : width = none ∧ lhs = .object ∧ rhs = .object
      · obtain ⟨rfl, rfl, rfl⟩ := href
        rw [Plan.compare_references ht] at h
        cases h
      · rw [Plan.compare_incomparable ht hnum href] at h
        cases h
        rfl

end Asks

/-- The step finds the code of an operation that consumes so many values, or
refuses the operation for what it carries. -/
def AsksFor : Option Nat → Lower (List HostInstr) → Prop
  | some n, x => Asks n x
  | none, x => ∃ v : Violation, v.isOperandRefusal = true ∧ x = throw (.violation v)

namespace AsksFor

theorem refused {v : Violation} (h : v.isOperandRefusal = true) :
    AsksFor none (throw (.violation v)) :=
  ⟨v, h, rfl⟩

theorem push {c : Opcode} {form : PushForm} (hc : c.pushForm? = some form) (arg : Operand) :
    AsksFor (Rule.push.operands? (.plain c arg)) (Plan.push form arg) := by
  simp only [Rule.operands?, hc]
  cases form with
  | dword =>
    cases arg with
    | dword v => exact Asks.single (.loadInt32 v.toInt32)
    | none | qword | register => exact refused rfl
  | qword =>
    cases arg with
    | qword v => exact Asks.single (.loadInt64 v.toInt64)
    | none | dword | register => exact refused rfl
  | register w =>
    cases arg with
    | register r => exact Asks.of_spares (.pushRegister w r)
    | none | dword | qword => exact refused rfl

theorem pop (c : Opcode) (arg : Operand) :
    AsksFor (Rule.pop.operands? (.plain c arg)) (Plan.pop arg) := by
  cases arg with
  | none => exact Asks.single .pop
  | register r => exact Asks.peek 0 fun top => (Spares.storeRegister r top).bind fun _ => .pure _
  | dword | qword => exact refused rfl

theorem box (call : Intrinsic) (arg : IntrinsicOperand) :
    AsksFor (Rule.box.operands? (.intrinsic call arg)) (Plan.box arg) := by
  cases arg with
  | type t =>
    simp only [Rule.operands?, Plan.box]
    cases t.isVoid with
    | true => exact refused rfl
    | false =>
      cases t.isValueType with
      | true => exact Asks.single (.box t)
      | false => exact Asks.single (.castClass t)
  | none | field | method => exact refused rfl

theorem call (call : Intrinsic) (arg : IntrinsicOperand) :
    AsksFor (Rule.call.operands? (.intrinsic call arg)) (Plan.call arg) := by
  cases arg with
  | method how m =>
    simp only [Rule.operands?, Plan.call]
    by_cases hthis : how ≠ .direct ∧ ¬ m.hasThis = true
    · rw [if_pos hthis, if_pos hthis]
      exact refused rfl
    · rw [if_neg hthis, if_neg hthis]
      exact Asks.require _ _
  | none | type | field => exact refused rfl

theorem loadField (call : Intrinsic) (arg : IntrinsicOperand) :
    AsksFor (Rule.loadField.operands? (.intrinsic call arg)) (Plan.loadField arg) := by
  cases arg with
  | field f =>
    simp only [Rule.operands?, Plan.loadField]
    cases f.isStatic with
    | true => exact Asks.single (.loadStatic f)
    | false => exact Asks.receiver 0 _
  | none | type | method => exact refused rfl

theorem storeField (call : Intrinsic) (arg : IntrinsicOperand) :
    AsksFor (Rule.storeField.operands? (.intrinsic call arg)) (Plan.storeField arg) := by
  cases arg with
  | field f =>
    simp only [Rule.operands?, Plan.storeField]
    cases f.isStatic with
    | true => exact Asks.single (.storeStatic f)
    | false => exact Asks.receiver 1 _
  | none | type | method => exact refused rfl

end AsksFor
end Lower

/-! ### Plans -/

section Plans

variable {rule : Rule} {op : Operation} {n : Nat}

/-- The plan of an operation whose code is served asks for what the operation
consumes. -/
theorem Rule.plan_asksFor (hs : rule.supports op.code = true) :
    AsksFor (rule.operands? op) (rule.plan op) := by
  unfold Rule.plan
  simp only [hs, if_true]
  cases op with
  | plain c arg =>
    cases rule with
    | push =>
      obtain ⟨form, hc⟩ := pushForm?_of_supports hs
      simp only [hc]
      exact .push hc arg
    | pop => exact .pop c arg
    | compare => exact Asks.compare c.width
    | chain ch => exact Asks.require _ _
    | box | call | loadField | storeField => cases hs
  | intrinsic call arg =>
    cases rule with
    | box => exact .box call arg
    | call => exact .call call arg
    | loadField => exact .loadField call arg
    | storeField => exact .storeField call arg
    | push | pop | compare => cases hs
    | chain ch => simp [Rule.supports, Rule.codes, Operation.code] at hs

theorem Rule.plan_asks (hs : rule.supports op.code = true) (hn : rule.operands? op = some n) :
    Asks n (rule.plan op) := by
  have hplan := Rule.plan_asksFor hs
  rwa [hn] at hplan

theorem Rule.plan_of_refused (hs : rule.supports op.code = true) (hn : rule.operands? op = none) :
    ∃ v : Violation, v.isOperandRefusal = true ∧ rule.plan op = throw (.violation v) := by
  have hplan := Rule.plan_asksFor hs
  rwa [hn] at hplan

end Plans

/-- What the code of an operation consumes is what the operation does. -/
theorem Rule.Renders.operands {s : Typing} {ls : Array Local} {rule : Rule} {op : Operation}
    {is : List HostInstr} (h : rule.Renders s ls op is) :
    rule.operands? op = some (Shape.ofSequence is).consumed := by
  cases h with
  | dword | qword | discard | numbers | references => rfl
  | @read c w r i hc hi hw =>
    have hshape : (Shape.ofSequence (.loadLocal i :: narrowing (s.readClass w r) w)).consumed = 0 := by
      cases s.readClass w r <;> cases w <;> rfl
    simp only [operands?, hc, hshape]
  | @store r top rest i hs hi =>
    cases top <;> rfl
  | @chain ch c arg hc hn => exact congrArg some (congrArg Shape.consumed ch.shape_eq).symm
  | boxed hv ht | cast hv ht => simp [operands?, hv, Shape.ofSequence, Shape.step, arity]
  | @call how m hm hn =>
    have haccepted : ¬ (how ≠ .direct ∧ ¬ m.hasThis = true) := by
      rintro ⟨hne, hthis⟩
      exact hm.elim hne hthis
    simp only [operands?, if_neg haccepted, Shape.ofSequence, Shape.step, List.foldl_cons,
      List.foldl_nil, Nat.zero_add, Nat.sub_zero]
  | loadStatic hf | loadField hf hr | storeStatic hf | storeField hf hr =>
    simp [operands?, hf, Shape.ofSequence, Shape.step, arity]

/-! ### Rules -/

/-- How a rule that serves an operation can fail from the frame `f`. -/
inductive Rule.Fails (rule : Rule) (op : Operation) (f : Frame) : Cause → Frame → Prop where
  /-- What the operation carries is refused. -/
  | refused {v : Violation} (hn : rule.operands? op = none) (hv : v.isOperandRefusal = true) :
    Fails rule op f (.violation v) f
  /-- The operation consumes more values than there are. -/
  | lacking {n : Nat} (hn : rule.operands? op = some n) (hlt : f.stack.depth < n) :
    Fails rule op f (.underflow n f.stack.depth) f
  /-- Its operands are there, and neither they nor their number are to blame. -/
  | spared {n : Nat} {c : Cause} {g : Frame} (hn : rule.operands? op = some n)
      (hle : n ≤ f.stack.depth) (hc : c.sparesOperands = true) : Fails rule op f c g
  | full {n : Nat} {g : Frame} (hn : rule.operands? op = some n) (hle : n ≤ f.stack.depth) :
    Fails rule op f (.overflow f.limit) g

/-- Code can fail in the ways in which an instruction can. -/
theorem emitAll_error_cases {code : CodeRef} {c : Cause} {g : Frame} : ∀ (is : List HostInstr)
    {f : Frame}, f.stack.types.length ≤ f.limit → emitAll code is f = .error c g →
    (∃ n a, c = .underflow n a) ∨ c = .overflow f.limit ∨ c.sparesOperands = true
  | [], _, _, h => by cases h
  | i :: is, f, hf, h => by
    rcases bind_eq_error.mp h with hfirst | ⟨u, f', hok, hrest⟩
    · have hmeets : Meets f.limit f.locals i f.stack _ := meets_effect hf i
      rw [(emit_eq_error.mp hfirst).1] at hmeets
      cases hmeets with
      | undeclared => exact Or.inr (Or.inr rfl)
      | lacking => exact Or.inl ⟨_, _, rfl⟩
      | full => exact Or.inr (Or.inl rfl)
    · obtain ⟨s, hs, rfl⟩ := emit_eq_ok.mp hok
      exact emitAll_error_cases is (f := f.afterEmit code i s) (retype_of_effect hf hs).2 hrest

section Rules

variable {rule : Rule} {op : Operation} {f g : Frame} {n : Nat} {c : Cause}

/-- An operation that is refused for what it carries is refused at once. -/
theorem Rule.emit_of_refused (hs : rule.supports op.code = true) (hn : rule.operands? op = none) :
    ∃ v : Violation, v.isOperandRefusal = true ∧ rule.emit op = throw (.violation v) := by
  obtain ⟨v, hv, hplan⟩ := Rule.plan_of_refused hs hn
  rw [Rule.emit_eq, hplan]
  exact ⟨v, hv, rfl⟩

/-- An operation that lacks values is refused for all it consumes: its plan
says so, or the one instruction it has is refused. -/
theorem Rule.emit_of_lt (hs : rule.supports op.code = true) (hn : rule.operands? op = some n)
    (hlt : f.stack.depth < n) : rule.emit op f = .error (.underflow n f.stack.depth) f := by
  rw [Rule.emit_eq]
  rcases (Rule.plan_asks hs hn).lacks f hlt with hplan | ⟨i, rfl, hplan⟩
  · exact bind_of_error hplan
  · rw [bind_of_ok hplan, emitAll_singleton]
    exact emit_eq_error.mpr ⟨effect_of_lt hlt, rfl⟩

/-- With its operands there, an operation lacks none on the way: its code
consumes no more than they are. -/
theorem Rule.emit_error_of_le (hs : rule.supports op.code = true) (hf : f.SoundLocals)
    (hroom : f.stack.types.length ≤ f.limit) (hn : rule.operands? op = some n)
    (hle : n ≤ f.stack.depth) (h : rule.emit op f = .error c g) :
    c = .overflow f.limit ∨ c.sparesOperands = true := by
  rw [Rule.emit_eq] at h
  rcases bind_eq_error.mp h with hplan | ⟨is, f', hplan, hemit⟩
  · exact Or.inr ((Rule.plan_asks hs hn).spares f c g hle hplan)
  · obtain ⟨ho, hstack, -⟩ := Rule.plan_eq_ok hplan
    have hlimit : f'.limit = f.limit := congrArg Options.maxStackDepth ho
    have hroom' : f'.stack.types.length ≤ f'.limit := by
      rw [hstack, hlimit]
      exact hroom
    rcases emitAll_error_cases is hroom' hemit with ⟨m, a, rfl⟩ | hfull | hspared
    · have hlt : f'.stack.depth < (Shape.ofSequence is).consumed := depth_lt_consumed hroom' hemit
      have hconsumed : n = (Shape.ofSequence is).consumed :=
        Option.some.inj (hn.symm.trans (Rule.plan_renders hf hplan).operands)
      rw [hstack] at hlt
      omega
    · exact Or.inl (hlimit ▸ hfull)
    · exact Or.inr hspared

/-- So a rule fails in one of four ways. -/
theorem Rule.emit_fails (hs : rule.supports op.code = true) (hf : f.SoundLocals)
    (hroom : f.stack.types.length ≤ f.limit) (h : rule.emit op f = .error c g) :
    rule.Fails op f c g := by
  cases hn : rule.operands? op with
  | none =>
    obtain ⟨v, hv, hemit⟩ := Rule.emit_of_refused hs hn
    rw [hemit] at h
    cases h
    exact .refused hn hv
  | some n =>
    rcases Nat.lt_or_ge f.stack.depth n with hlt | hle
    · rw [Rule.emit_of_lt hs hn hlt] at h
      cases h
      exact .lacking hn hlt
    · rcases Rule.emit_error_of_le hs hf hroom hn hle h with rfl | hspared
      · exact .full hn hle
      · exact .spared hn hle hspared

end Rules

/-! ### Faults -/

/-- The fault of lowering `i` on the frame `f`, which leaves the frame `g`, says
what it should. -/
structure Fault.Attributed (o : Options) (i : Instr) (f g : Frame) (fault : Fault) : Prop where
  /-- It is charged to the code of the instruction. -/
  code : fault.code = i.code
  /-- Values are lacking where the instruction began, and nothing has happened. -/
  underflow : ∀ n a, fault.cause = .underflow n a →
    a = f.stack.depth ∧ f.stack.depth < n ∧ g = f
  overflow : ∀ l, fault.cause = .overflow l → l = o.maxStackDepth
  /-- Locals are lacking where the table is full. -/
  tooManyLocals : ∀ l, fault.cause = .tooManyLocals l → l = 65536 ∧ g.locals.size = 65536

section Faults

variable {o : Options} {i : Instr} {f g : Frame} {rule : Rule} {fault : Fault}

/-- A fault that tells no numbers only has to name the code. -/
theorem Fault.Attributed.of_violation {c : Cause} (h : c = .unsupported ∨ ∃ v, c = .violation v) :
    Fault.Attributed o i f g ⟨i.code, c⟩ where
  code := rfl
  underflow n a hc := by rcases h with rfl | ⟨v, rfl⟩ <;> cases hc
  overflow l hc := by rcases h with rfl | ⟨v, rfl⟩ <;> cases hc
  tooManyLocals l hc := by rcases h with rfl | ⟨v, rfl⟩ <;> cases hc

theorem Rule.lower_attributed (hf : f.Reachable o) (h : rule.lower i f = .error fault g) :
    fault.Attributed o i f g := by
  have hsound : g.SoundLocals := sound_invariant.lower_error (H := []) hf.sound h
  obtain ⟨c, hemit, rfl⟩ := Rule.lower_eq_error.mp h
  cases hs : rule.supports i.operation.code with
  | false =>
    rw [Rule.emit_of_not_supports hs] at hemit
    cases hemit
    exact .of_violation (Or.inr ⟨_, rfl⟩)
  | true =>
    have hblame := Rule.emit_blames hs f c g hemit
    have hlocals : ∀ l, c = .tooManyLocals l → l = 65536 ∧ g.locals.size = 65536 := by
      rintro l rfl
      have hfull := hblame.size_of_tooManyLocals
      cases hblame with
      | stack h => cases h
      | full => exact ⟨rfl, Nat.le_antisymm hsound.size_le hfull⟩
    refine ⟨rfl, ?_, ?_, hlocals⟩
    · rintro n a rfl
      cases Rule.emit_fails hs hf.sound hf.room hemit with
      | lacking hn hlt => exact ⟨rfl, hlt, rfl⟩
      | spared hn hle hc => cases hc
    · rintro l rfl
      cases Rule.emit_fails hs hf.sound hf.room hemit with
      | full => exact congrArg Options.maxStackDepth hf.options
      | spared hn hle hc => cases hc

theorem Registry.lower_attributed {reg : Registry} (hf : f.Reachable o)
    (h : reg.lower i f = .error fault g) : fault.Attributed o i f g := by
  rcases Registry.lower_eq_error.mp h with ⟨-, rfl, rfl⟩ | ⟨r, -, hlower⟩
  · exact .of_violation (Or.inl rfl)
  · exact Rule.lower_attributed hf hlower

end Faults

/-! ### The default table -/

theorem supports_of_defaultRule? {code : CodeRef} {rule : Rule}
    (h : code.defaultRule? = some rule) : rule.supports code = true := by
  cases code with
  | opcode c => cases c <;> cases h <;> rfl
  | intrinsic call => cases call <;> cases h <;> rfl

/-- An instruction that consumes some number of values goes by a rule that
takes as many. -/
theorem rule_of_consumes? {i : Instr} {n : Nat} (h : i.operation.consumes? = some n) :
    ∃ rule : Rule, rule.supports i.operation.code = true ∧ rule.operands? i.operation = some n ∧
      Registry.default.lower i = rule.lower i := by
  rw [Operation.consumes?_eq] at h
  obtain ⟨rule, hrule, hn⟩ := Option.bind_eq_some_iff.mp h
  exact ⟨rule, supports_of_defaultRule? hrule, hn, Registry.default_lower hrule⟩

/-- The default table has no rule for the code, or the rule refuses what the
operation carries. -/
def Cause.IsRejection (c : Cause) : Prop :=
  c = .unsupported ∨ ∃ v : Violation, v.isOperandRefusal = true ∧ c = .violation v

/-- An instruction that consumes no number of values is refused at once. -/
theorem rejected_of_consumes? {i : Instr} (h : i.operation.consumes? = none) (f : Frame) :
    ∃ c : Cause, c.IsRejection ∧ Registry.default.lower i f = .error ⟨i.code, c⟩ f := by
  rw [Operation.consumes?_eq] at h
  cases hrule : i.code.defaultRule? with
  | none =>
    rw [Registry.default_lower_of_none hrule]
    exact ⟨_, Or.inl rfl, rfl⟩
  | some rule =>
    have hcode : i.operation.code.defaultRule? = some rule := hrule
    rw [hcode, Option.bind_some] at h
    obtain ⟨v, hv, hemit⟩ := Rule.emit_of_refused (supports_of_defaultRule? hrule) h
    rw [Registry.default_lower hrule]
    exact ⟨_, Or.inr ⟨v, hv, rfl⟩, Rule.lower_eq_error.mpr ⟨_, by rw [hemit]; rfl, rfl⟩⟩

/-- In every reachable frame and by any registry, a fault names the code of the
instruction and gives the right numbers. By the default registry an instruction
whose code and operand are accepted lacks values if and only if there are fewer
than it consumes, and it asks for exactly these. -/
theorem lower_error_attributed (reg : Registry) (o : Options) (f : Frame) (i : Instr)
    (hf : f.Reachable o) :
    (∀ fault g, reg.lower i f = .error fault g → fault.Attributed o i f g) ∧
    (∀ n, i.operation.consumes? = some n → ∀ needed,
      (∃ fault g available, Registry.default.lower i f = .error fault g ∧
        fault.cause = .underflow needed available) ↔ f.stack.depth < n ∧ needed = n) ∧
    (i.operation.consumes? = none ↔
      ∃ c : Cause, c.IsRejection ∧ Registry.default.lower i f = .error ⟨i.code, c⟩ f) := by
  refine ⟨fun fault g h => Registry.lower_attributed hf h, ?_, ?_⟩
  · intro n hn needed
    obtain ⟨rule, hs, hop, hlower⟩ := rule_of_consumes? hn
    rw [hlower]
    constructor
    · rintro ⟨fault, g, available, h, hcause⟩
      obtain ⟨c, hemit, rfl⟩ := Rule.lower_eq_error.mp h
      obtain rfl : c = .underflow needed available := hcause
      cases Rule.emit_fails hs hf.sound hf.room hemit with
      | lacking hm hlt =>
        obtain rfl := Option.some.inj (hop.symm.trans hm)
        exact ⟨hlt, rfl⟩
      | spared hm hle hc => cases hc
    · rintro ⟨hlt, rfl⟩
      have hemit := Rule.emit_of_lt hs hop hlt
      exact ⟨_, f, _, Rule.lower_eq_error.mpr ⟨_, hemit, rfl⟩, rfl⟩
  · refine ⟨fun h => rejected_of_consumes? h f, ?_⟩
    rintro ⟨c, hc, h⟩
    cases hn : i.operation.consumes? with
    | none => rfl
    | some n =>
      obtain ⟨rule, hs, hop, hlower⟩ := rule_of_consumes? hn
      rw [hlower] at h
      obtain ⟨c', hemit, heq⟩ := Rule.lower_eq_error.mp h
      obtain rfl : c = c' := (Fault.mk.inj heq).2
      -- with operands to take, the rule has nothing against what is carried
      rcases hc with rfl | ⟨v, hv, rfl⟩
      · cases Rule.emit_fails hs hf.sound hf.room hemit with
        | spared hm hle hc => cases hc
      · cases Rule.emit_fails hs hf.sound hf.room hemit with
        | refused hm hv' =>
          rw [hop] at hm
          cases hm
        | spared hm hle hc => simp [Cause.sparesOperands, hv] at hc

/-- A call of a method with a receiver and two parameters. -/
def threeArguments : Instr :=
  let int : TypeRef := ⟨"System.Int32", .i4⟩
  ⟨0, .intrinsic .ecall (.method .virtual ⟨⟨"T", .classType⟩, "m", [int, int], none, true⟩)⟩

/-- Of its three arguments one is there. -/
theorem lower_error_attributed_threeArguments :
    let o : Options := { maxStackDepth := 3 }
    let f := (Transcript.run ⟨{}⟩ o (numberPair.take 1)).frame
    f.Reachable o ∧ threeArguments.operation.consumes? = some 3 ∧
      Registry.default.lower threeArguments f =
        .error ⟨.intrinsic .ecall, .underflow 3 1⟩ f := by
  intro o f
  have hf : f.Reachable o := ⟨⟨{}⟩, _, rfl⟩
  have hdepth : f.stack.depth = 1 := by decide +kernel
  obtain ⟨hfault, hlacks, -⟩ := lower_error_attributed Registry.default o f threeArguments hf
  have hthree : threeArguments.operation.consumes? = some 3 := rfl
  obtain ⟨⟨code, cause⟩, g, a, h, rfl⟩ := (hlacks 3 hthree 3).mpr ⟨by omega, rfl⟩
  obtain ⟨hcode, hunderflow, -, -⟩ := hfault _ g h
  obtain ⟨rfl, -, rfl⟩ := hunderflow 3 a rfl
  obtain rfl : code = .intrinsic .ecall := hcode
  rw [hdepth] at h
  exact ⟨hf, rfl, h⟩

end Devirt
