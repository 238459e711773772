/-
# A type system for decoded code

Whether a body can be recompiled is a question about the decoded code: which
types its stack holds and which registers were last stored with a float
(`Typing`). One step needs the values an operation takes, of the types that it
works on, and room for what it leaves; only the comparison of numbers needs
room for one value more while it runs.

Besides the types, a body demands locals (`Demand`): one for each register and
storage class that it reads or stores, and two for each comparison of numbers
or, where scratch locals are shared, for each type that one is made at.

Nothing here knows of host code, frames or tables of locals.

Key definitions: `Typing`, `Typing.step`, `Demand`, `Demand.after`,
`Typing.check`, `Admitted`.
Key theorems: `Typing.check_append`, `Demand.pooled_le`, `Admitted.take`.
-/
import Devirt.Host.Effect
import Devirt.Options
import Mathlib.Data.Finset.Option
import Mathlib.Data.Fintype.Prod

namespace Devirt

/-! ### Types -/

/-- What is known of the state of the decoded code. -/
structure Typing where
  /-- The types on the stack, top first. -/
  stack : List StackType := []
  /-- The registers that were last stored with a float. -/
  floats : Finset Register := ∅
  deriving DecidableEq

namespace Typing

def push (limit : Nat) (t : StackType) (s : Typing) : Option Typing :=
  if s.stack.length < limit then some { s with stack := t :: s.stack } else none

/-- Takes the top `n` values. -/
def drop (n : Nat) (s : Typing) : Option Typing :=
  if n ≤ s.stack.length then some { s with stack := s.stack.drop n } else none

/-- Turns the top into a value of type `t`. -/
def replaceTop (t : StackType) (s : Typing) : Option Typing :=
  match s.stack with
  | _ :: rest => some { s with stack := t :: rest }
  | [] => none

/-- A binary operation on two values of any types. -/
def binary (s : Typing) : Option Typing :=
  match s.stack with
  | rhs :: lhs :: rest => some { s with stack := .binaryResult lhs rhs :: rest }
  | _ => none

/-- A unary operation, which keeps the type. -/
def unary (s : Typing) : Option Typing := if s.stack = [] then none else some s

/-- Pushes `r` read at width `w`. A float is read whole or not at all. -/
def read (limit : Nat) (w : Width) (r : Register) (s : Typing) : Option Typing :=
  match w with
  | .object => s.push limit .object
  | .byte | .word => if r ∈ s.floats then none else s.push limit .int32
  | .dword => s.push limit (if r ∈ s.floats then .float else .int32)
  | .qword => s.push limit (if r ∈ s.floats then .float else .int64)
  | _ => none

/-- Stores the top into `r`. -/
def store (r : Register) (s : Typing) : Option Typing :=
  match s.stack with
  | top :: rest => some ⟨rest, if top = .float then insert r s.floats else s.floats.erase r⟩
  | [] => none

/-- The two operands of a binary operation, if both are numbers. -/
def numbers? (s : Typing) : Option (StackType × StackType) :=
  match s.stack with
  | rhs :: lhs :: _ => if lhs ≠ .object ∧ rhs ≠ .object then some (lhs, rhs) else none
  | _ => none

/-- Compares two numbers or, if `references` says so, two references. -/
def compare (limit : Nat) (references : Bool) (s : Typing) : Option Typing :=
  match s.numbers? with
  | some _ =>
    if s.stack.length < limit then some { s with stack := .int32 :: s.stack.drop 2 } else none
  | none =>
    if references ∧ s.stack.take 2 = [.object, .object] then
      some { s with stack := .int32 :: s.stack.drop 2 }
    else none

/-- Whether a field can be reached through the value `n` places below the top. -/
def receiver (n : Nat) (s : Typing) : Bool :=
  match s.stack[n]? with
  | some .object | some .nativeInt | some .pointer => true
  | _ => false

/-- A call takes its arguments and leaves its result. -/
def call (limit : Nat) (how : Dispatch) (m : MethodRef) (s : Typing) : Option Typing :=
  match how with
  | .construct => (s.drop m.params.length).bind (push limit .object)
  | _ =>
    match m.resultType? with
    | some t => (s.drop m.stackArguments).bind (push limit t)
    | none => s.drop m.stackArguments

def plain (limit : Nat) (s : Typing) : Opcode → Operand → Option Typing
  | .pushiDword, .dword _ => s.push limit .int32
  | .pushiQword, .qword _ => s.push limit .int64
  | .pushrObject, .register r => s.read limit .object r
  | .pushrByte, .register r => s.read limit .byte r
  | .pushrWord, .register r => s.read limit .word r
  | .pushrDword, .register r => s.read limit .dword r
  | .pushrQword, .register r => s.read limit .qword r
  | .pop, .none => s.drop 1
  | .pop, .register r => s.store r
  | .addDword, _ | .addQword, _ | .addR32, _ | .addR64, _ => s.binary
  | .norDword, _ | .norQword, _ => s.binary
  | .subDword, _ | .orDword, _ | .andDword, _ | .xorDword, _ => s.binary
  | .notDword, _ => s.unary
  | .cmp, _ => s.compare limit true
  | .cmpDword, _ | .cmpQword, _ | .cmpR32, _ | .cmpR64, _ => s.compare limit false
  | _, _ => none

def intrinsic (limit : Nat) (s : Typing) : Intrinsic → IntrinsicOperand → Option Typing
  | .box, .type t => if t.isVoid then none else s.replaceTop .object
  | .ecall, .method how m =>
    if how ≠ .direct ∧ ¬ m.hasThis then none else s.call limit how m
  | .ldfld, .field f =>
    if f.isStatic then s.push limit f.stackType
    else if s.receiver 0 then s.replaceTop f.stackType else none
  | .stfld, .field f =>
    if f.isStatic then s.drop 1
    else if s.receiver 1 then s.drop 2 else none
  | _, _ => none

/-- The typing after one operation, if it has one. -/
def step (limit : Nat) (s : Typing) : Operation → Option Typing
  | .plain code arg => s.plain limit code arg
  | .intrinsic call arg => s.intrinsic limit call arg

end Typing

/-! ### Locals -/

/-- The locals that a body demands. -/
structure Demand where
  /-- The registers with the classes of the values read from or stored into them. -/
  homes : Finset (Register × StorageClass) := ∅
  /-- The types that numbers are compared at. -/
  scratch : Finset StackType := ∅
  /-- The number of comparisons of numbers. -/
  comparisons : Nat := 0
  deriving DecidableEq

namespace Typing

/-- The class of the values that reading `r` at width `w` gives. -/
def readClass (s : Typing) (w : Width) (r : Register) : StorageClass :=
  if w = .object then .object else if r ∈ s.floats then .float else .integral

/-- The register and class that an operation reads or stores. -/
def home? (s : Typing) : Operation → Option (Register × StorageClass)
  | .plain .pushrObject (.register r) => some (r, s.readClass .object r)
  | .plain .pushrByte (.register r) => some (r, s.readClass .byte r)
  | .plain .pushrWord (.register r) => some (r, s.readClass .word r)
  | .plain .pushrDword (.register r) => some (r, s.readClass .dword r)
  | .plain .pushrQword (.register r) => some (r, s.readClass .qword r)
  | .plain .pop (.register r) => s.stack.head?.map fun top => (r, .of top)
  | _ => none

/-- The type that an operation compares two numbers at. -/
def scratch? (s : Typing) : Operation → Option StackType
  | .plain .cmp _ => s.numbers?.map fun (lhs, rhs) => .binaryResult lhs rhs
  | .plain .cmpDword _ => s.numbers?.map fun _ => .int32
  | .plain .cmpQword _ => s.numbers?.map fun _ => .int64
  | .plain .cmpR32 _ | .plain .cmpR64 _ => s.numbers?.map fun _ => .float
  | _ => none

/-- Only a comparison that finds two operands needs scratch locals. -/
theorem operands_of_scratch? {s : Typing} {op : Operation} {t : StackType}
    (h : s.scratch? op = some t) : ∃ u v rest, s.stack = u :: v :: rest := by
  have hnumbers : ∃ p, s.numbers? = some p := by
    unfold scratch? at h
    split at h
    all_goals first
      | exact (Option.map_eq_some_iff.mp h).imp fun _ => And.left
      | cases h
  obtain ⟨p, hp⟩ := hnumbers
  unfold numbers? at hp
  split at hp
  · exact ⟨_, _, _, ‹_›⟩
  · cases hp

end Typing

namespace Demand

/-- The demand with one more home. -/
def addHome (d : Demand) (h : Register × StorageClass) : Demand :=
  { d with homes := insert h d.homes }

/-- The demand with one more comparison. -/
def addCompare (d : Demand) (t : StackType) : Demand :=
  { d with scratch := insert t d.scratch, comparisons := d.comparisons + 1 }

/-- The demand after an operation that meets the typing `s`. -/
def after (s : Typing) (op : Operation) (d : Demand) : Demand :=
  let d := (s.home? op).elim d d.addHome
  (s.scratch? op).elim d d.addCompare

/-- The number of locals demanded. -/
def locals (pooled : Bool) (d : Demand) : Nat :=
  d.homes.card + 2 * if pooled then d.scratch.card else d.comparisons

/-- Whether the locals demanded are few enough for one method. Shared ones
always are. -/
def Fits (o : Options) (d : Demand) : Prop :=
  o.reuseTemporaries = true ∨ d.locals false ≤ maxLocals

end Demand

/-! ### Bodies -/

namespace Typing

/-- The typing and the demand after a body. -/
def check (limit : Nat) : List Instr → Typing → Demand → Option (Typing × Demand)
  | [], s, d => some (s, d)
  | i :: rest, s, d =>
    (s.step limit i.operation).bind fun s' => check limit rest s' (d.after s i.operation)

end Typing

/-- From a typing and a demand on, the body is well typed within the stack
limit and demands no more locals than a method can have. -/
def AdmittedFrom (o : Options) (s : Typing) (d : Demand) (body : List Instr) : Prop :=
  ∃ s' d', Typing.check o.maxStackDepth body s d = some (s', d') ∧ d'.Fits o

/-- The body of a method is admitted. -/
def Admitted (o : Options) (body : List Instr) : Prop := AdmittedFrom o {} {} body

/-! ### Prefixes -/

theorem Typing.check_append {limit : Nat} {rest : List Instr} : ∀ (body : List Instr) (s : Typing)
    (d : Demand), Typing.check limit (body ++ rest) s d =
      (Typing.check limit body s d).bind fun (s', d') => Typing.check limit rest s' d'
  | [], _, _ => rfl
  | i :: body, s, d => by
    rw [List.cons_append, check, check]
    cases s.step limit i.operation with
    | none => rfl
    | some s' => exact check_append body s' _

/-- A body goes one instruction further if that has a typing where the body
leads to. -/
theorem Typing.check_snoc_eq_some {limit : Nat} {body : List Instr} {i : Instr} {s s' : Typing}
    {d d' : Demand} : Typing.check limit (body ++ [i]) s d = some (s', d') ↔
      ∃ u e, Typing.check limit body s d = some (u, e) ∧ u.step limit i.operation = some s' ∧
        e.after u i.operation = d' := by
  rw [check_append]
  cases check limit body s d with
  | none => simp
  | some ue =>
    obtain ⟨u, e⟩ := ue
    cases hstep : u.step limit i.operation <;> simp [check, hstep]

namespace Demand

variable {d d' : Demand} {o : Options}

/-- The second demand asks for all that the first one does. -/
structure Within (d d' : Demand) : Prop where
  homes : d.homes ⊆ d'.homes
  comparisons : d.comparisons ≤ d'.comparisons

theorem Within.refl (d : Demand) : d.Within d := ⟨Finset.Subset.refl _, le_rfl⟩

theorem Within.trans {d'' : Demand} (h : d.Within d') (h' : d'.Within d'') : d.Within d'' :=
  ⟨h.homes.trans h'.homes, h.comparisons.trans h'.comparisons⟩

theorem Within.fits (h : d.Within d') (hf : d'.Fits o) : d.Fits o := by
  rcases hf with hp | hle
  · exact Or.inl hp
  · right
    have hcard := Finset.card_le_card h.homes
    have hcomp := h.comparisons
    simp only [locals] at hle ⊢
    simp only [Bool.false_eq_true, if_false] at hle ⊢
    omega

theorem within_addHome (h : Register × StorageClass) (d : Demand) : d.Within (d.addHome h) :=
  ⟨Finset.subset_insert _ _, le_rfl⟩

theorem within_addCompare (t : StackType) (d : Demand) : d.Within (d.addCompare t) :=
  ⟨Finset.Subset.refl _, Nat.le_succ _⟩

theorem within_after (s : Typing) (op : Operation) (d : Demand) : d.Within (d.after s op) := by
  have hhome : d.Within ((s.home? op).elim d d.addHome) := by
    cases s.home? op with
    | none => exact .refl d
    | some h => exact within_addHome h d
  unfold after
  cases s.scratch? op with
  | none => exact hhome
  | some t => exact hhome.trans (within_addCompare t _)

theorem within_check {limit : Nat} : ∀ (body : List Instr) {s s' : Typing} {d d' : Demand},
    Typing.check limit body s d = some (s', d') → d.Within d'
  | [], _, _, _, _, h => by cases h; exact .refl _
  | i :: body, s, s', d, d', h => by
    obtain ⟨u, -, hu⟩ := Option.bind_eq_some_iff.mp h
    exact (within_after s i.operation d).trans (within_check body hu)

end Demand

/-- Every prefix of an admitted body is admitted. -/
theorem Admitted.take {o : Options} {body : List Instr} (h : Admitted o body) (n : Nat) :
    Admitted o (body.take n) := by
  obtain ⟨s, d, hc, hf⟩ := h
  rw [← List.take_append_drop n body, Typing.check_append] at hc
  obtain ⟨⟨s', d'⟩, hc', hrest⟩ := Option.bind_eq_some_iff.mp hc
  exact ⟨s', d', hc', (Demand.within_check _ hrest).fits hf⟩

theorem admittedFrom_cons {o : Options} {s : Typing} {d : Demand} {i : Instr} {rest : List Instr} :
    AdmittedFrom o s d (i :: rest) ↔ ∃ s', s.step o.maxStackDepth i.operation = some s' ∧
      AdmittedFrom o s' (d.after s i.operation) rest := by
  simp only [AdmittedFrom, Typing.check, Option.bind_eq_some_iff]
  constructor
  · rintro ⟨s', d', ⟨u, hu, hc⟩, hf⟩
    exact ⟨u, hu, s', d', hc, hf⟩
  · rintro ⟨u, hu, s', d', hc, hf⟩
    exact ⟨s', d', ⟨u, hu, hc⟩, hf⟩

/-! ### Shared locals are few -/

instance : Fintype Register := ⟨⟨Register.all, by decide⟩, Register.mem_all⟩

instance : Fintype StorageClass := ⟨{.integral, .float, .object}, by intro c; cases c <;> decide⟩

instance : Fintype StackType := ⟨⟨StackType.all, by decide⟩, by intro t; cases t <;> decide⟩

/-- Sixteen registers have three homes each, and six types two scratch locals. -/
theorem Demand.pooled_le (d : Demand) : d.locals true ≤ 60 := by
  have hh : d.homes.card ≤ 48 := d.homes.card_le_univ
  have hs : d.scratch.card ≤ 6 := d.scratch.card_le_univ
  simp only [Demand.locals, if_true]
  omega

theorem Demand.fits_iff {o : Options} {d : Demand} :
    d.Fits o ↔ d.locals o.reuseTemporaries ≤ maxLocals := by
  unfold Fits
  cases o.reuseTemporaries with
  | true =>
    have := d.pooled_le
    simp only [true_or, true_iff]
    unfold maxLocals
    omega
  | false => simp

end Devirt
