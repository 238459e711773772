/-
# A rule plans, then emits

Every rule finds its host code first and emits it afterwards. Finding it reads
the stack and may allocate locals; it neither emits nor moves the stack
(`Rule.plan`). The two together are the rule (`Rule.emit_eq`), so what a rule
can do to a frame is what allocation and emission can do (`Rule.emit_keeps`).

Two plans are compared step by step (`PlanPair`), be it on two frames or for
operations that differ in the names of registers. What is said of one plan is a
comparison that does not look at the second one.

Key definitions: `Rule.plan`, `Compositional`, `StorelessPair`,
`CompositionalPair`, `PlanPair`, `Rule.Stores`, `Frame.MayAdd`, `Allocatable`.
Key theorems: `Plan.compare_numbers`, `Rule.emit_eq`, `PlanPair.plan`,
`CompositionalPair.plan`, `Compositional.plan`, `Rule.emit_keeps`.
-/
import Devirt.Lowering.Rule
import Devirt.Proofs.Relabel
import Devirt.Proofs.Step

namespace Devirt

open Devirt.Frame

/-! ### Plans -/

namespace Plan

/-- The code that pushes `r` as a value of width `w`. -/
def pushRegister (w : Width) (r : Register) : Lower (List HostInstr) := do
  if w ≠ .object ∧ (← get).holdsFloat r then
    if w = .dword ∨ w = .qword then
      return [.loadLocal (← registerLocal r .float)]
    else
      throw (.violation (.floatRegister r))
  else
    let home ← registerLocal r (.ofWidth w)
    return .loadLocal home :: (w.narrowing?.map HostInstr.convert).toList

def push (form : PushForm) (arg : Operand) : Lower (List HostInstr) :=
  match form, arg with
  | .dword, .dword v => return [.loadInt32 v.toInt32]
  | .qword, .qword v => return [.loadInt64 v.toInt64]
  | .register w, .register r => pushRegister w r
  | .dword, arg => throw (.violation (.operandShape arg.shape [.dword]))
  | .qword, arg => throw (.violation (.operandShape arg.shape [.qword]))
  | .register _, arg => throw (.violation (.operandShape arg.shape [.register]))

/-- The code that stores a value of type `top` into the local `home`. -/
def storeInto (top : StackType) (home : LocalIndex) : List HostInstr :=
  if StorageClass.of top = .integral ∧ top ≠ .int64 then
    [.convert .u8, .storeLocal home]
  else
    [.storeLocal home]

def pop (arg : Operand) : Lower (List HostInstr) :=
  match arg with
  | .none => return [.pop]
  | .register r => do
    let top ← peek 0
    return storeInto top (← storeRegister r top)
  | arg => throw (.violation (.operandShape arg.shape [.none, .register]))

def compareNumbers (t : StackType) : Lower (List HostInstr) := do
  let lhs ← scratchLocal t 0
  let rhs ← scratchLocal t 1
  return Lowering.signOfDifference lhs rhs

def compare (width : Option Width) : Lower (List HostInstr) := do
  require 2
  let rhs ← peek 0
  let lhs ← peek 1
  match width, lhs == .object, rhs == .object with
  | none, true, true => return Lowering.referencesDiffer
  | none, false, false => compareNumbers (.binaryResult lhs rhs)
  | some w, false, false => compareNumbers (.ofWidth w)
  | width, _, _ => throw (.violation (.incomparable lhs rhs width.isSome))

def chain (c : Chain) : Lower (List HostInstr) := do
  require c.operandCount
  return c.sequence

def box (arg : IntrinsicOperand) : Lower (List HostInstr) :=
  match arg with
  | .type t =>
    if t.isVoid then throw (.violation (.voidType t))
    else if t.isValueType then return [.box t]
    else return [.castClass t]
  | arg => throw (.violation (.operandShape arg.shape [.type]))

def call (arg : IntrinsicOperand) : Lower (List HostInstr) :=
  match arg with
  | .method how m =>
    if how ≠ .direct ∧ ¬ m.hasThis then
      throw (.violation (.noReceiver how m))
    else do
      require (HostInstr.invoke how m).arity.pops
      return [.invoke how m]
  | arg => throw (.violation (.operandShape arg.shape [.method]))

def loadField (arg : IntrinsicOperand) : Lower (List HostInstr) :=
  match arg with
  | .field f =>
    if f.isStatic then
      return [.loadStatic f]
    else do
      Lowering.requireReceiver 0
      return [.loadField f]
  | arg => throw (.violation (.operandShape arg.shape [.field]))

def storeField (arg : IntrinsicOperand) : Lower (List HostInstr) :=
  match arg with
  | .field f =>
    if f.isStatic then
      return [.storeStatic f]
    else do
      Lowering.requireReceiver 1
      return [.storeField f]
  | arg => throw (.violation (.operandShape arg.shape [.field]))

/-! ### What a comparison finds

The stack decides: two numbers, two references or nothing that can be
compared. -/

section Compare

variable {f : Frame} {width : Option Width} {lhs rhs : StackType} {rest : List StackType}

theorem compare_of_lt (h : f.stack.depth < 2) :
    compare width f = .error (.underflow 2 f.stack.depth) f :=
  Lower.bind_of_error (require_of_lt h)

/-- With two operands on the stack, what follows depends on their types. -/
theorem operands_of_types {α : Type} (ht : f.stack.types = rhs :: lhs :: rest)
    (k : StackType → StackType → Lower α) :
    (do
      require 2
      let rhs ← peek 0
      let lhs ← peek 1
      k rhs lhs : Lower α) f = k rhs lhs f := by
  have hdepth : 2 ≤ f.stack.depth := by simp [f.stack.depth_eq, ht]
  have hrhs : peek 0 f = .ok rhs f := peek_eq_ok.mpr ⟨by simp [ht], rfl⟩
  have hlhs : peek 1 f = .ok lhs f := peek_eq_ok.mpr ⟨by simp [ht], rfl⟩
  rw [Lower.bind_of_ok (require_eq_ok.mpr ⟨hdepth, rfl⟩), Lower.bind_of_ok hrhs,
    Lower.bind_of_ok hlhs]

theorem compare_numbers (ht : f.stack.types = rhs :: lhs :: rest) (hl : lhs ≠ .object)
    (hr : rhs ≠ .object) :
    compare width f = compareNumbers (width.elim (.binaryResult lhs rhs) .ofWidth) f := by
  rw [compare, operands_of_types ht, beq_eq_false_iff_ne.mpr hl, beq_eq_false_iff_ne.mpr hr]
  cases width <;> rfl

theorem compare_references (ht : f.stack.types = .object :: .object :: rest) :
    compare none f = .ok Lowering.referencesDiffer f := by
  rw [compare, operands_of_types ht]
  rfl

theorem compare_incomparable (ht : f.stack.types = rhs :: lhs :: rest)
    (hnum : ¬ (lhs ≠ .object ∧ rhs ≠ .object))
    (href : ¬ (width = none ∧ lhs = .object ∧ rhs = .object)) :
    compare width f = .error (.violation (.incomparable lhs rhs width.isSome)) f := by
  rw [compare, operands_of_types ht]
  cases width <;> cases lhs <;> cases rhs <;> first | rfl | simp_all

end Compare

end Plan

namespace Rule

/-- The host code of an operation. Allocation apart, the frame stays as it is. -/
def plan (r : Rule) (op : Operation) : Lower (List HostInstr) :=
  let foreign := throw (.violation (.foreignCode op.code r.name))
  if r.supports op.code then
    match r, op with
    | .push, .plain c arg =>
      match c.pushForm? with
      | some form => Plan.push form arg
      | none => foreign
    | .pop, .plain _ arg => Plan.pop arg
    | .compare, .plain c _ => Plan.compare c.width
    | .chain c, .plain _ _ => Plan.chain c
    | .box, .intrinsic _ arg => Plan.box arg
    | .call, .intrinsic _ arg => Plan.call arg
    | .loadField, .intrinsic _ arg => Plan.loadField arg
    | .storeField, .intrinsic _ arg => Plan.storeField arg
    | _, _ => foreign
  else
    foreign

end Rule

/-! ### A rule is its plan, emitted -/

@[simp] theorem emitAll_singleton (code : CodeRef) (i : HostInstr) : emitAll code [i] = emit code i :=
  bind_pure_unit

theorem throw_bind (c : Cause) (k : List HostInstr → Lower Unit) :
    (throw c : Lower (List HostInstr)) >>= k = throw c := rfl

variable (code : CodeRef)

theorem pushRegister_eq (w : Width) (r : Register) :
    Lowering.pushRegister code w r = Plan.pushRegister w r >>= emitAll code := by
  unfold Lowering.pushRegister Plan.pushRegister
  rw [bind_assoc]
  congr 1
  funext f
  split
  · split
    · simp
    · rfl
  · cases w.narrowing? with
    | none => simp
    | some conv => simp [emitAll]

theorem push_eq (form : PushForm) (arg : Operand) :
    Lowering.push code form arg = Plan.push form arg >>= emitAll code := by
  cases form with
  | dword => cases arg <;> simp [Lowering.push, Plan.push, throw_bind]
  | qword => cases arg <;> simp [Lowering.push, Plan.push, throw_bind]
  | register w =>
    cases arg with
    | register r => exact pushRegister_eq code w r
    | _ => rfl

theorem pop_eq (arg : Operand) : Lowering.pop code arg = Plan.pop arg >>= emitAll code := by
  cases arg with
  | none => simp [Lowering.pop, Plan.pop]
  | register r =>
    simp only [Lowering.pop, Plan.pop, Lowering.popRegister, Plan.storeInto, bind_assoc, pure_bind]
    congr 1
    funext top
    congr 1
    funext home
    split
    · simp [emitAll]
    · simp
  | _ => rfl

theorem compare_eq (width : Option Width) :
    Lowering.compare code width = Plan.compare width >>= emitAll code := by
  unfold Lowering.compare Plan.compare Lowering.compareNumbers Plan.compareNumbers
  simp only [bind_assoc]
  congr 1
  funext _
  congr 1
  funext rhs
  congr 1
  funext lhs
  rcases width with _ | w <;> rcases lhs == .object with _ | _ <;> rcases rhs == .object with _ | _ <;>
    simp [throw_bind]

theorem chain_eq (c : Chain) : Lowering.chain code c = Plan.chain c >>= emitAll code := by
  simp [Lowering.chain, Plan.chain]

theorem box_eq (arg : IntrinsicOperand) : Lowering.box code arg = Plan.box arg >>= emitAll code := by
  cases arg with
  | type t =>
    simp only [Lowering.box, Plan.box]
    split
    · rfl
    · split <;> simp
  | _ => rfl

theorem call_eq (arg : IntrinsicOperand) :
    Lowering.call code arg = Plan.call arg >>= emitAll code := by
  cases arg with
  | method how m =>
    simp only [Lowering.call, Plan.call]
    split
    · rfl
    · simp
  | _ => rfl

theorem loadField_eq (arg : IntrinsicOperand) :
    Lowering.loadField code arg = Plan.loadField arg >>= emitAll code := by
  cases arg with
  | field f =>
    simp only [Lowering.loadField, Plan.loadField]
    split <;> simp
  | _ => rfl

theorem storeField_eq (arg : IntrinsicOperand) :
    Lowering.storeField code arg = Plan.storeField arg >>= emitAll code := by
  cases arg with
  | field f =>
    simp only [Lowering.storeField, Plan.storeField]
    split <;> simp
  | _ => rfl

theorem Rule.emit_eq (r : Rule) (op : Operation) :
    r.emit op = r.plan op >>= emitAll op.code := by
  unfold Rule.emit Rule.plan Rule.refuse
  by_cases hs : r.supports op.code = true
  · simp only [hs, ↓reduceIte]
    cases r with
    | push =>
      cases op with
      | plain c arg =>
        dsimp only
        cases c.pushForm? with
        | some form => exact push_eq _ form arg
        | none => rfl
      | intrinsic call arg => rfl
    | pop =>
      cases op with
      | plain c arg => exact pop_eq _ arg
      | intrinsic call arg => rfl
    | compare =>
      cases op with
      | plain c arg => exact compare_eq _ c.width
      | intrinsic call arg => rfl
    | chain ch =>
      cases op with
      | plain c arg => exact chain_eq _ ch
      | intrinsic call arg => rfl
    | box =>
      cases op with
      | plain c arg => rfl
      | intrinsic call arg => exact box_eq _ arg
    | call =>
      cases op with
      | plain c arg => rfl
      | intrinsic call arg => exact call_eq _ arg
    | loadField =>
      cases op with
      | plain c arg => rfl
      | intrinsic call arg => exact loadField_eq _ arg
    | storeField =>
      cases op with
      | plain c arg => rfl
      | intrinsic call arg => exact storeField_eq _ arg
  · simp only [hs]
    rfl

/-! ### Plans are composed of few steps -/

/-- A property of steps that composition keeps and the steps have that plans
are composed of. -/
structure Compositional (Q : ∀ {α : Type}, Lower α → Prop) : Prop where
  pure : ∀ {α : Type} (a : α), Q (pure a)
  throw : ∀ {α : Type} (v : Violation), Q (throw (.violation v) : Lower α)
  bind : ∀ {α β : Type} {x : Lower α} {k : α → Lower β}, Q x → (∀ a, Q (k a)) → Q (x >>= k)
  peek : ∀ n, Q (peek n)
  require : ∀ n, Q (require n)
  holdsFloat : ∀ {α : Type} (r : Register) (k : Bool → Lower α), (∀ b, Q (k b)) →
    Q (do k ((← get).holdsFloat r))
  registerLocal : ∀ r t, Q (registerLocal r t)
  storeRegister : ∀ r t, Q (storeRegister r t)
  scratchLocal : ∀ t slot, Q (scratchLocal t slot)

/-- A relation of steps that composition keeps and the steps have that plans
are composed of, stores to registers apart. What follows a step may depend on
what the stack and the registers hold, but not on which locals there are. -/
structure StorelessPair (T : ∀ {α : Type}, Lower α → Lower α → Prop) : Prop where
  pure : ∀ {α : Type} (a b : α), T (pure a) (pure b)
  throw : ∀ {α : Type} (v : Violation), T (throw (.violation v) : Lower α) (throw (.violation v))
  bind : ∀ {α β : Type} {x y : Lower α} {k l : α → Lower β}, T x y → (∀ a b, T (k a) (l b)) →
    T (x >>= k) (y >>= l)
  peek : ∀ {α : Type} (n : Nat) {k l : StackType → Lower α}, (∀ t, T (k t) (l t)) →
    T (peek n >>= k) (peek n >>= l)
  require : ∀ n, T (require n) (require n)
  holdsFloat : ∀ {α : Type} (r : Register) (k l : Bool → Lower α), (∀ b, T (k b) (l b)) →
    T (do k ((← get).holdsFloat r)) (do l ((← get).holdsFloat r))
  registerLocal : ∀ r t, T (registerLocal r t) (registerLocal r t)
  scratchLocal : ∀ t slot, T (scratchLocal t slot) (scratchLocal t slot)

/-- Such a relation that stores to registers have as well. -/
structure CompositionalPair (T : ∀ {α : Type}, Lower α → Lower α → Prop) : Prop
    extends StorelessPair T where
  storeRegister : ∀ r t, T (storeRegister r t) (storeRegister r t)

/-- The violation is the refusal of a code. -/
def Violation.isRefusal : Violation → Bool
  | .foreignCode .. => true
  | _ => false

/-- A relation of steps that composition keeps and the steps have that plans of
codes that are served are composed of, stores to registers apart. The second
step has `ρ r` for each register `r` of the first. If `exact` holds, steps that
are related answer alike; otherwise nothing that follows depends on which
locals there are. -/
structure PlanPair (ρ : Register → Register) (exact : Prop)
    (T : ∀ {α : Type}, Lower α → Lower α → Prop) : Prop where
  pure : ∀ {α : Type} (a b : α), (exact → a = b) → T (pure a) (pure b)
  throw : ∀ {α : Type} (v : Violation), v.isRefusal = false →
    T (throw (.violation v) : Lower α) (throw (.violation (v.relabel ρ)))
  bind : ∀ {α β : Type} {x y : Lower α} {k l : α → Lower β}, T x y →
    (∀ a b, (exact → a = b) → T (k a) (l b)) → T (x >>= k) (y >>= l)
  peek : ∀ {α : Type} (n : Nat) {k l : StackType → Lower α}, (∀ t, T (k t) (l t)) →
    T (peek n >>= k) (peek n >>= l)
  require : ∀ n, T (require n) (require n)
  holdsFloat : ∀ {α : Type} (r : Register) (k l : Bool → Lower α), (∀ b, T (k b) (l b)) →
    T (do k ((← get).holdsFloat r)) (do l ((← get).holdsFloat (ρ r)))
  registerLocal : ∀ r t, T (registerLocal r t) (registerLocal (ρ r) t)
  scratchLocal : ∀ t slot, T (scratchLocal t slot) (scratchLocal t slot)

/-- The rule has to store a register for the operation. -/
def Rule.Stores (rule : Rule) (op : Operation) (r : Register) : Prop :=
  rule = .pop ∧ op = .plain .pop (.register r)

/-- The plan of a store looks for the type on top and then for its local. -/
theorem Rule.Stores.plan_eq {rule : Rule} {op : Operation} {r : Register} (h : rule.Stores op r) :
    rule.plan op = Plan.pop (.register r) := by
  obtain ⟨rfl, rfl⟩ := h
  rfl

theorem Rule.plan_of_not_supports {rule : Rule} {op : Operation}
    (h : rule.supports op.code = false) :
    rule.plan op = throw (.violation (.foreignCode op.code rule.name)) := by
  simp [Rule.plan, h]

theorem pushForm?_of_supports {c : Opcode} (h : Rule.push.supports (.opcode c) = true) :
    ∃ form, c.pushForm? = some form := by
  simp only [Rule.supports, Rule.codes, List.map_cons, List.map_nil, List.contains_eq_mem,
    List.mem_cons, CodeRef.opcode.injEq, List.not_mem_nil, or_false, decide_eq_true_eq] at h
  rcases h with rfl | rfl | rfl | rfl | rfl | rfl | rfl <;> exact ⟨_, rfl⟩

namespace PlanPair

variable {ρ : Register → Register} {exact : Prop} {T : ∀ {α : Type}, Lower α → Lower α → Prop}

theorem ite (_ : PlanPair ρ exact T) {α : Type} {c : Prop} [Decidable c] {x x' y y' : Lower α}
    (hx : T x x') (hy : T y y') : T (if c then x else y) (if c then x' else y') := by
  split
  · exact hx
  · exact hy

variable (hT : PlanPair ρ exact T)

include hT

/-- What is the same on both sides is answered alike. -/
theorem same {α : Type} (a : α) : T (Pure.pure a) (Pure.pure a) := hT.pure a a fun _ => rfl

/-- A step and what its answer is turned into. -/
theorem map {α β : Type} {x y : Lower α} (hxy : T x y) (k : α → β) :
    T (x >>= fun a => Pure.pure (k a)) (y >>= fun a => Pure.pure (k a)) :=
  hT.bind hxy fun a b hab => hT.pure (k a) (k b) fun h => congrArg k (hab h)

theorem pushRegister (w : Width) (r : Register) :
    T (Plan.pushRegister w r) (Plan.pushRegister w (ρ r)) := by
  refine hT.holdsFloat r (fun b => if w ≠ .object ∧ b then _ else _)
    (fun b => if w ≠ .object ∧ b then _ else _) fun b => ?_
  refine hT.ite (hT.ite ?_ (hT.throw (.floatRegister r) rfl)) ?_
  · exact hT.map (hT.registerLocal r .float) _
  · exact hT.map (hT.registerLocal r _) _

theorem push (form : PushForm) (arg : Operand) :
    T (Plan.push form arg) (Plan.push form (arg.relabel ρ)) := by
  cases form with
  | dword => cases arg <;> first | exact hT.same _ | exact hT.throw _ rfl
  | qword => cases arg <;> first | exact hT.same _ | exact hT.throw _ rfl
  | register w =>
    cases arg with
    | register r => exact hT.pushRegister w r
    | none | dword | qword => exact hT.throw _ rfl

theorem pop {arg : Operand}
    (hstore : ∀ r, arg = .register r → ∀ t, T (storeRegister r t) (storeRegister (ρ r) t)) :
    T (Plan.pop arg) (Plan.pop (arg.relabel ρ)) := by
  cases arg with
  | none => exact hT.same _
  | register r => exact hT.peek 0 fun top => hT.map (hstore r rfl top) _
  | dword | qword => exact hT.throw _ rfl

theorem compareNumbers (t : StackType) : T (Plan.compareNumbers t) (Plan.compareNumbers t) := by
  refine hT.bind (hT.scratchLocal t 0) fun lhs lhs' hl => ?_
  refine hT.bind (hT.scratchLocal t 1) fun rhs rhs' hr => ?_
  exact hT.pure _ _ fun h => by rw [hl h, hr h]

theorem compare (width : Option Width) : T (Plan.compare width) (Plan.compare width) := by
  refine hT.bind (hT.require 2) fun _ _ _ => hT.peek 0 fun rhs => hT.peek 1 fun lhs => ?_
  split
  · exact hT.same _
  · exact hT.compareNumbers _
  · exact hT.compareNumbers _
  · exact hT.throw _ rfl

theorem requireReceiver (n : Nat) :
    T (Lowering.requireReceiver n) (Lowering.requireReceiver n) := by
  refine hT.peek n fun t => ?_
  cases t <;> first | exact hT.same _ | exact hT.throw _ rfl

theorem chain (c : Chain) : T (Plan.chain c) (Plan.chain c) := hT.map (hT.require _) _

theorem box (arg : IntrinsicOperand) : T (Plan.box arg) (Plan.box arg) := by
  unfold Plan.box
  split
  · exact hT.ite (hT.throw _ rfl) (hT.ite (hT.same _) (hT.same _))
  · exact hT.throw _ rfl

theorem call (arg : IntrinsicOperand) : T (Plan.call arg) (Plan.call arg) := by
  unfold Plan.call
  split
  · exact hT.ite (hT.throw _ rfl) (hT.map (hT.require _) _)
  · exact hT.throw _ rfl

theorem loadField (arg : IntrinsicOperand) : T (Plan.loadField arg) (Plan.loadField arg) := by
  unfold Plan.loadField
  split
  · exact hT.ite (hT.same _) (hT.map (hT.requireReceiver 0) _)
  · exact hT.throw _ rfl

theorem storeField (arg : IntrinsicOperand) : T (Plan.storeField arg) (Plan.storeField arg) := by
  unfold Plan.storeField
  split
  · exact hT.ite (hT.same _) (hT.map (hT.requireReceiver 1) _)
  · exact hT.throw _ rfl

/-- So the plans of an operation whose code is served, before and after `ρ`, are
related if its store is. -/
theorem plan {rule : Rule} {op : Operation} (hs : rule.supports op.code = true)
    (hstore : ∀ r, rule.Stores op r → ∀ t, T (storeRegister r t) (storeRegister (ρ r) t)) :
    T (rule.plan op) (rule.plan (op.relabel ρ)) := by
  unfold Rule.plan
  rw [Operation.code_relabel]
  simp only [hs, if_true]
  cases op with
  | plain c arg =>
    cases rule with
    | push =>
      obtain ⟨form, hc⟩ := pushForm?_of_supports hs
      simp only [Operation.relabel, hc]
      exact hT.push form arg
    | pop =>
      have hc : c = .pop := by simpa [Rule.supports, Rule.codes, Operation.code] using hs
      exact hT.pop fun r harg => hstore r ⟨rfl, by rw [hc, harg]⟩
    | compare => exact hT.compare c.width
    | chain ch => exact hT.chain ch
    | box | call | loadField | storeField => cases hs
  | intrinsic call arg =>
    cases rule with
    | box => exact hT.box arg
    | call => exact hT.call arg
    | loadField => exact hT.loadField arg
    | storeField => exact hT.storeField arg
    | push | pop | compare => cases hs
    | chain ch => simp [Rule.supports, Rule.codes, Operation.code] at hs

end PlanPair

namespace StorelessPair

variable {T : ∀ {α : Type}, Lower α → Lower α → Prop} (hT : StorelessPair T)

include hT

theorem planPair : PlanPair id False T where
  pure a b _ := hT.pure a b
  throw v _ := by
    rw [Violation.relabel_id]
    exact hT.throw v
  bind hx hk := hT.bind hx fun a b => hk a b False.elim
  peek := hT.peek
  require := hT.require
  holdsFloat := hT.holdsFloat
  registerLocal := hT.registerLocal
  scratchLocal := hT.scratchLocal

/-- A plan is related to itself if its store is. -/
theorem plan_of_store {rule : Rule} {op : Operation}
    (hstore : ∀ r, rule.Stores op r → ∀ t, T (storeRegister r t) (storeRegister r t)) :
    T (rule.plan op) (rule.plan op) := by
  cases hs : rule.supports op.code with
  | true =>
    have hplan := hT.planPair.plan hs hstore
    rwa [Operation.relabel_id] at hplan
  | false =>
    rw [Rule.plan_of_not_supports hs]
    exact hT.throw _

/-- So every plan that stores no register is related to itself. -/
theorem plan {rule : Rule} {op : Operation} (h : ∀ r, ¬ rule.Stores op r) :
    T (rule.plan op) (rule.plan op) :=
  hT.plan_of_store fun r hr => absurd hr (h r)

end StorelessPair

/-- So every plan is related to itself. -/
theorem CompositionalPair.plan {T : ∀ {α : Type}, Lower α → Lower α → Prop}
    (hT : CompositionalPair T) (rule : Rule) (op : Operation) :
    T (rule.plan op) (rule.plan op) :=
  hT.toStorelessPair.plan_of_store fun r _ => hT.storeRegister r

namespace Compositional

variable {Q : ∀ {α : Type}, Lower α → Prop} (hQ : Compositional Q)

include hQ

/-- A property is a relation that does not look at the second step. -/
theorem pair : CompositionalPair fun x _ => Q x where
  pure a _ := hQ.pure a
  throw := hQ.throw
  bind hx hk := hQ.bind hx fun a => hk a a
  peek n _ _ hk := hQ.bind (hQ.peek n) hk
  require := hQ.require
  holdsFloat r k _ hk := hQ.holdsFloat r k hk
  registerLocal := hQ.registerLocal
  storeRegister := hQ.storeRegister
  scratchLocal := hQ.scratchLocal

/-- So every plan has the property. -/
theorem plan (r : Rule) (op : Operation) : Q (r.plan op) := hQ.pair.plan r op

end Compositional

/-! ### What allocation and emission keep -/

/-- A local may be added where there is none of its origin and type, or where
it is scratch that is not shared; a register has locals of the three slot
types only. -/
structure Frame.MayAdd (f : Frame) (origin : LocalOrigin) (t : StackType) : Prop where
  fresh : f.findLocal? origin t = none ∨
    f.options.reuseTemporaries = false ∧ ∃ slot, origin = .scratch slot
  slotType : ∀ r, origin = .register r → ∃ c : StorageClass, t = c.slotType

namespace Frame.MayAdd

variable {f : Frame} {r : Register} {c : StorageClass} {t : StackType} {slot : UInt8}

theorem register (h : f.findLocal? (.register r) c.slotType = none) :
    f.MayAdd (.register r) c.slotType where
  fresh := .inl h
  slotType _ _ := ⟨c, rfl⟩

theorem scratch (h : f.options.reuseTemporaries = true → f.findLocal? (.scratch slot) t = none) :
    f.MayAdd (.scratch slot) t where
  fresh := by
    cases hr : f.options.reuseTemporaries with
    | true => exact .inl (h hr)
    | false => exact .inr ⟨rfl, slot, rfl⟩
  slotType _ hr := by cases hr

end Frame.MayAdd

/-- The property survives every local that may be added. -/
def Extensible (P : Frame → Prop) : Prop :=
  ∀ f origin t h, f.MayAdd origin t → P f → P (f.addLocal origin t h)

/-- The property survives every change that allocation makes. -/
structure Allocatable (P : Frame → Prop) : Prop where
  addLocal : Extensible P
  markStored : ∀ f fs, P f → P { f with floats := fs }

/-- The property survives every instruction that the stack takes. -/
def Emittable (P : Frame → Prop) : Prop :=
  ∀ f code i s, i.effect f.limit f.locals f.stack = .ok s → P f → P (f.afterEmit code i s)

namespace Lower

variable {P : Frame → Prop}

theorem Keeps.of_final_eq {ε α : Type} {x : EStateM ε Frame α} (h : ∀ f, final x f = f) :
    Keeps P x :=
  fun f hf => (h f).symm ▸ hf

theorem keeps_registerLocal (hP : Extensible P) (r : Register) (t : StackType) :
    Keeps P (registerLocal r t) := by
  intro f hf
  rcases localFor_cases f (.register r) (StorageClass.of t).slotType with
    ⟨i, -, h⟩ | ⟨hn, hlt, h⟩ | ⟨-, -, h⟩
  · exact (final_of_ok h).symm ▸ hf
  · rw [registerLocal, final_of_ok h]
    exact hP f _ _ hlt (.register hn) hf
  · exact (final_of_error h).symm ▸ hf

theorem keeps_scratchLocal (hP : Extensible P) (t : StackType) (slot : UInt8) :
    Keeps P (scratchLocal t slot) := by
  intro f hf
  rcases scratchLocal_cases f t slot with ⟨-, i, -, h⟩ | ⟨hn, hlt, h⟩ | ⟨-, -, h⟩
  · exact (final_of_ok h).symm ▸ hf
  · rw [final_of_ok h]
    exact hP f _ _ hlt (.scratch hn) hf
  · exact (final_of_error h).symm ▸ hf

theorem keeps_storeRegister (hP : Allocatable P) (r : Register) (t : StackType) :
    Keeps P (storeRegister r t) :=
  (keeps_registerLocal hP.addLocal r t).bind fun _ =>
    Keeps.bind (fun f hf => hP.markStored f _ hf) fun _ => .pure _

theorem keeps_compositional (hP : Allocatable P) : Compositional (Keeps P) where
  pure := .pure
  throw _ := .throw _
  bind := .bind
  peek n := .of_final_eq (final_peek n)
  require n := .of_final_eq (final_require n)
  holdsFloat r _ hk f hf := hk (f.holdsFloat r) f hf
  registerLocal := keeps_registerLocal hP.addLocal
  storeRegister := keeps_storeRegister hP
  scratchLocal := keeps_scratchLocal hP.addLocal

end Lower

open Lower

variable {P : Frame → Prop}

/-- A plan does what allocation does, and nothing else. -/
theorem Rule.plan_keeps (hP : Allocatable P) (r : Rule) (op : Operation) : Keeps P (r.plan op) :=
  (keeps_compositional hP).plan r op

theorem keeps_emit (hE : Emittable P) (code : CodeRef) (i : HostInstr) : Keeps P (emit code i) := by
  intro f hf
  cases h : emit code i f with
  | ok u g =>
    obtain ⟨s, hs, rfl⟩ := emit_eq_ok.mp h
    exact (final_of_ok h).symm ▸ hE f code i s hs hf
  | error c g =>
    obtain ⟨-, rfl⟩ := emit_eq_error.mp h
    exact (final_of_error h).symm ▸ hf

theorem keeps_emitAll (hE : Emittable P) (code : CodeRef) : ∀ is, Keeps P (emitAll code is)
  | [] => .pure _
  | i :: is => (keeps_emit hE code i).bind fun _ => keeps_emitAll hE code is

/-- A rule does what allocation and emission do, and nothing else. -/
theorem Rule.emit_keeps (hP : Allocatable P) (hE : Emittable P) (r : Rule) (op : Operation) :
    Keeps P (r.emit op) := by
  rw [Rule.emit_eq]
  exact (r.plan_keeps hP op).bind fun is => keeps_emitAll hE op.code is

end Devirt
