/-
# Running host code on values

The host keeps a stack of values and a value for each local. What it computes
is a parameter (`HostOps`), so that code can be run on integers as well as on
any other values of which only some laws are known. Of the locals a run
demands what the host demands: a value that is loaded or stored has the
declared type of its local.

A run that is defined moves the types as a replay does (`run_replay`).

Key definitions: `HostOps`, `HostOps.Typed`, `HostState`, `HostState.exec`,
`HostState.run`.
Key theorems: `HostState.run_append`, `HostState.run_replay`,
`HostState.run_signOfDifference`.
-/
import Devirt.Lowering.Compare
import Devirt.Proofs.Replay
import Mathlib.Logic.Function.Basic

namespace Devirt

/-- What the host computes on values of a type `V`; where an operation has no
result, a run stops. -/
structure HostOps (V : Type) where
  typeOf : V → StackType
  int32 : BitVec 32 → V
  int64 : BitVec 64 → V
  arith : ArithOp → V → V → Option V
  unary : UnaryOp → V → Option V
  convert : Conversion → V → Option V
  compare : CompareOp → V → V → Option V

/-- The results have the types that lowering assumes. -/
structure HostOps.Typed {V : Type} (ops : HostOps V) : Prop where
  int32 : ∀ v, ops.typeOf (ops.int32 v) = .int32
  int64 : ∀ v, ops.typeOf (ops.int64 v) = .int64
  arith : ∀ op lhs rhs v, ops.arith op lhs rhs = some v →
    ops.typeOf v = .binaryResult (ops.typeOf lhs) (ops.typeOf rhs)
  unary : ∀ op x v, ops.unary op x = some v → ops.typeOf v = ops.typeOf x
  convert : ∀ conv x v, ops.convert conv x = some v → ops.typeOf v = conv.target
  compare : ∀ op lhs rhs v, ops.compare op lhs rhs = some v → ops.typeOf v = .int32

structure HostState (V : Type) where
  /-- The values on the stack, top first. -/
  stack : List V
  locals : LocalIndex → V

namespace HostState

variable {V : Type}

def push (v : V) (s : HostState V) : HostState V := { s with stack := v :: s.stack }

/-- Replaces the top by what `k` makes of it. -/
def onTop (k : V → Option V) (s : HostState V) : Option (HostState V) :=
  match s.stack with
  | v :: rest => (k v).map fun w => { s with stack := w :: rest }
  | [] => none

/-- Replaces the top two values by what `k` makes of them, the deeper one
first. -/
def onTwo (k : V → V → Option V) (s : HostState V) : Option (HostState V) :=
  match s.stack with
  | rhs :: lhs :: rest => (k lhs rhs).map fun w => { s with stack := w :: rest }
  | _ => none

/-- Moves the top into a local of its type. -/
def store (ops : HostOps V) (types : LocalIndex → Option StackType) (i : LocalIndex)
    (s : HostState V) : Option (HostState V) :=
  match s.stack with
  | v :: rest =>
    if types i = some (ops.typeOf v) then some ⟨rest, Function.update s.locals i v⟩ else none
  | [] => none

/-- One instruction. Those that reach the host's objects have no meaning here. -/
def exec (ops : HostOps V) (types : LocalIndex → Option StackType) (i : HostInstr)
    (s : HostState V) : Option (HostState V) :=
  match i with
  | .nop => some s
  | .loadInt32 v => some (s.push (ops.int32 v.toBitVec))
  | .loadInt64 v => some (s.push (ops.int64 v.toBitVec))
  | .loadLocal i =>
    if types i = some (ops.typeOf (s.locals i)) then some (s.push (s.locals i)) else none
  | .storeLocal i => s.store ops types i
  | .dup => s.stack.head?.map fun v => s.push v
  | .pop => if s.stack = [] then none else some { s with stack := s.stack.tail }
  | .arith op => s.onTwo (ops.arith op)
  | .unary op => s.onTop (ops.unary op)
  | .convert conv => s.onTop (ops.convert conv)
  | .compare op => s.onTwo (ops.compare op)
  | .loadNull | .shift _ | .box _ | .castClass _ | .invoke _ _ => none
  | .loadField _ | .loadStatic _ | .storeField _ | .storeStatic _ => none

def run (ops : HostOps V) (types : LocalIndex → Option StackType) :
    List HostInstr → HostState V → Option (HostState V)
  | [], s => some s
  | i :: is, s => (exec ops types i s).bind (run ops types is)

variable {ops : HostOps V} {types : LocalIndex → Option StackType} {i : HostInstr}
  {is js : List HostInstr} {s s' : HostState V}

theorem run_cons : run ops types (i :: is) s = (exec ops types i s).bind (run ops types is) := rfl

theorem run_append : ∀ (is : List HostInstr) (s : HostState V),
    run ops types (is ++ js) s = (run ops types is s).bind (run ops types js)
  | [], _ => rfl
  | i :: is, s => by
    rw [List.cons_append, run_cons, run_cons]
    cases exec ops types i s with
    | none => rfl
    | some u => exact run_append is u

/-! ### Types -/

/-- The types on the stack. -/
def stackTypes (ops : HostOps V) (s : HostState V) : List StackType := s.stack.map ops.typeOf

theorem stackTypes_onTop {k : V → Option V} {f : StackType → StackType}
    (hk : ∀ x v, k x = some v → ops.typeOf v = f (ops.typeOf x)) (h : s.onTop k = some s') :
    ∃ t rest, s.stackTypes ops = t :: rest ∧ s'.stackTypes ops = f t :: rest := by
  unfold onTop at h
  split at h
  · rename_i v rest hs
    obtain ⟨w, hw, rfl⟩ := Option.map_eq_some_iff.mp h
    refine ⟨ops.typeOf v, rest.map ops.typeOf, by rw [stackTypes, hs, List.map_cons], ?_⟩
    rw [stackTypes, List.map_cons, hk v w hw]
  · cases h

theorem stackTypes_onTwo {k : V → V → Option V} {f : StackType → StackType → StackType}
    (hk : ∀ x y v, k x y = some v → ops.typeOf v = f (ops.typeOf x) (ops.typeOf y))
    (h : s.onTwo k = some s') :
    ∃ rhs lhs rest, s.stackTypes ops = rhs :: lhs :: rest ∧
      s'.stackTypes ops = f lhs rhs :: rest := by
  unfold onTwo at h
  split at h
  · rename_i y x rest hs
    obtain ⟨w, hw, rfl⟩ := Option.map_eq_some_iff.mp h
    refine ⟨ops.typeOf y, ops.typeOf x, rest.map ops.typeOf, ?_, ?_⟩
    · rw [stackTypes, hs, List.map_cons, List.map_cons]
    · rw [stackTypes, List.map_cons, hk x y w hw]
  · cases h

/-- An instruction that runs has an effect on types, and it is the one that it
has on the values. -/
theorem exec_retype (hops : ops.Typed) (h : exec ops types i s = some s') :
    i.retype types (s.stackTypes ops) = some (s'.stackTypes ops) := by
  cases i with
  | nop => cases h; rfl
  | loadInt32 v => cases h; simp [HostInstr.retype, stackTypes, push, hops.int32]
  | loadInt64 v => cases h; simp [HostInstr.retype, stackTypes, push, hops.int64]
  | loadLocal j =>
    simp only [exec] at h
    split at h
    · rename_i hj
      cases h
      simp [HostInstr.retype, stackTypes, push, hj]
    · cases h
  | storeLocal j =>
    simp only [exec, store] at h
    split at h
    · rename_i v rest hs
      split at h
      · cases h
        simp [HostInstr.retype, HostInstr.takeMany, stackTypes, hs]
      · cases h
    · cases h
  | dup =>
    obtain ⟨v, hv, rfl⟩ := Option.map_eq_some_iff.mp h
    obtain ⟨rest, hs⟩ := List.head?_eq_some_iff.mp hv
    simp [HostInstr.retype, HostInstr.takeOne, stackTypes, push, hs]
  | pop =>
    simp only [exec] at h
    split at h
    · cases h
    · rename_i hs
      cases h
      obtain ⟨v, rest, hv⟩ := List.exists_cons_of_ne_nil hs
      simp [HostInstr.retype, HostInstr.takeMany, stackTypes, hv]
  | arith op =>
    obtain ⟨rhs, lhs, rest, hs, hs'⟩ := stackTypes_onTwo (hops.arith op) h
    rw [HostInstr.retype, hs, hs', HostInstr.takeTwo]
  | unary op =>
    obtain ⟨t, rest, hs, hs'⟩ := stackTypes_onTop (f := id) (hops.unary op) h
    rw [HostInstr.retype, hs, hs']
    rfl
  | convert conv =>
    obtain ⟨t, rest, hs, hs'⟩ := stackTypes_onTop (f := fun _ => conv.target) (hops.convert conv) h
    rw [HostInstr.retype, hs, hs']
    simp [HostInstr.takeMany]
  | compare op =>
    obtain ⟨rhs, lhs, rest, hs, hs'⟩ :=
      stackTypes_onTwo (f := fun _ _ => .int32) (hops.compare op) h
    rw [HostInstr.retype, hs, hs']
    simp [HostInstr.takeMany]
  | loadNull | shift | box | castClass | invoke => cases h
  | loadField | loadStatic | storeField | storeStatic => cases h

theorem run_replay (hops : ops.Typed) : ∀ {is : List HostInstr} {s : HostState V},
    run ops types is s = some s' →
    HostInstr.replay types is (s.stackTypes ops) = some (s'.stackTypes ops)
  | [], s, h => by
    cases h
    rfl
  | i :: is, s, h => by
    obtain ⟨u, hu, hrest⟩ := Option.bind_eq_some_iff.mp h
    rw [HostInstr.replay, exec_retype hops hu, Option.bind_some]
    exact run_replay hops hrest

/-! ### Comparisons -/

/-- The code of a comparison stores its operands and leaves "greater" minus
"less". -/
theorem run_signOfDifference {lhs rhs : LocalIndex} (hne : lhs ≠ rhs) {a b : V} {rest : List V}
    {σ : LocalIndex → V} (hla : types lhs = some (ops.typeOf a))
    (hrb : types rhs = some (ops.typeOf b)) :
    run ops types (Lowering.signOfDifference lhs rhs) ⟨b :: a :: rest, σ⟩ =
      ((ops.compare .gt a b).bind fun x => (ops.compare .lt a b).bind fun y =>
        ops.arith .sub x y).map fun v =>
          ⟨v :: rest, Function.update (Function.update σ rhs b) lhs a⟩ := by
  have hl : Function.update (Function.update σ rhs b) lhs a lhs = a := Function.update_self ..
  have hr : Function.update (Function.update σ rhs b) lhs a rhs = b := by
    rw [Function.update_of_ne (Ne.symm hne), Function.update_self]
  simp only [Lowering.signOfDifference, run, exec, store, push, hla, hrb, if_true, Option.bind_some,
    hl, hr, onTwo]
  cases ops.compare .gt a b with
  | none => rfl
  | some x =>
    simp only [Option.map_some, Option.bind_some, hl, hr, if_true]
    cases ops.compare .lt a b with
    | none => rfl
    | some y =>
      simp only [Option.map_some, Option.bind_some]
      cases ops.arith .sub x y <;> rfl

end HostState

end Devirt
