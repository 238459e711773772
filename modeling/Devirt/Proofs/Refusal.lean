/-
# When the stack refuses an instruction

Whether the stack takes an instruction is a matter of three numbers: how many
values there are, how many the instruction takes and how many it leaves. It is
refused if it loads a local that nobody declared, if it takes more values than
there are, or if what it leaves is more than the limit allows, and in no other
case (`HostInstr.meets_effect`). What is underneath the values it takes stays
where it is.

An instruction that takes values and leaves others can be thought of as popping
first and pushing afterwards, each at once and with no way back
(`Frame.perform`). That comes to the same, since a stack within its limit that
has lost a value has room for one (`Frame.perform_eq`). So emission is all or
nothing, and so are the other primitives (`emit_iff_fits`).

Key definitions: `HostInstr.LoadsDeclared`, `HostInstr.Meets`,
`Frame.perform`, `Action.isPrimitive`, `EmitsWhole`.
Key theorems: `HostInstr.meets_effect`, `HostInstr.drop_retype`,
`Frame.perform_eq`, `emit_iff_fits`.
-/
import Devirt.Proofs.Emission
import Devirt.Proofs.Reachable

namespace Devirt

open Devirt.Frame Lower

/-! ### Arities decide -/

namespace HostInstr

/-- If the instruction loads a local, that is one of the table. -/
def LoadsDeclared (ls : Array Local) (i : HostInstr) : Prop :=
  ∀ j, i = .loadLocal j → j.val < ls.size

variable {ls : Array Local} {i : HostInstr} {limit : Nat}

section Types

variable {s s' : List StackType}

/-- With the values that it takes on the stack, an instruction has an effect on
types. -/
theorem exists_retype (hd : i.LoadsDeclared ls) (hp : i.arity.pops ≤ s.length) :
    ∃ s', i.retype (declared ls) s = some s' := by
  cases i with
  | nop | loadNull | loadInt32 | loadInt64 | loadStatic => exact ⟨_, rfl⟩
  | loadLocal j =>
    have hlt : j.val < ls.size := hd j rfl
    have hj : declared ls j = some ls[j.val].type := by
      rw [declared, Array.getElem?_eq_getElem hlt, Option.map_some]
    exact ⟨_, retype_loadLocal hj s⟩
  | storeLocal | pop | storeStatic | convert | box | castClass | loadField | compare | storeField =>
    exact ⟨_, takeMany_eq_some.mpr ⟨hp, rfl⟩⟩
  | dup | unary =>
    obtain ⟨t, r, rfl⟩ := List.exists_cons_of_length_pos hp
    exact ⟨_, rfl⟩
  | arith | shift =>
    rcases s with _ | ⟨rhs, _ | ⟨lhs, r⟩⟩
    · simp [arity] at hp
    · simp [arity] at hp
    · exact ⟨_, rfl⟩
  | invoke how m =>
    cases how with
    | construct | direct | virtual => exact ⟨_, takeMany_eq_some.mpr ⟨hp, rfl⟩⟩

theorem drop_takeMany {n : Nat} {us : List StackType} (h : takeMany n us s = some s') :
    s'.drop us.length = s.drop n := by
  obtain ⟨-, rfl⟩ := takeMany_eq_some.mp h
  exact List.drop_left

/-- What is underneath the values that an instruction takes is what is
underneath those that it leaves. -/
theorem drop_retype (h : i.retype (declared ls) s = some s') :
    s'.drop i.arity.pushes = s.drop i.arity.pops := by
  cases i with
  | nop | loadNull | loadInt32 | loadInt64 | loadStatic =>
    cases h
    rfl
  | loadLocal j =>
    obtain ⟨t, -, rfl⟩ := Option.map_eq_some_iff.mp h
    rfl
  | storeLocal | pop | storeStatic | convert | box | castClass | loadField | compare | storeField =>
    exact drop_takeMany h
  | dup | unary =>
    obtain ⟨t, r, rfl, rfl⟩ := takeOne_eq_some.mp h
    rfl
  | arith | shift =>
    obtain ⟨rhs, lhs, r, rfl, rfl⟩ := takeTwo_eq_some.mp h
    rfl
  | invoke how m =>
    cases how with
    | construct => exact drop_takeMany h
    | direct | virtual =>
      have hrest := drop_takeMany h
      rw [length_result] at hrest
      exact hrest

end Types

/-! ### Refusals for want of values -/

section Underflow

open EvalStack

variable {n : Nat} {t : StackType} {s : EvalStack}

theorem drop_of_lt (h : s.depth < n) : s.drop n = .error (.underflow n s.depth) :=
  if_neg (Nat.not_le.mpr h)

theorem exists_two_of_depth (h : 2 ≤ s.depth) : ∃ u v r, s.types = u :: v :: r := by
  rw [s.depth_eq] at h
  match s.types, h with
  | u :: v :: r, _ => exact ⟨u, v, r, rfl⟩

theorem replace_of_lt (h : s.depth < n) :
    s.replace limit n t = .error (.underflow n s.depth) := by
  rw [replace, drop_of_lt h]
  rfl

theorem combine_of_lt {k : StackType → StackType → StackType} (h : s.depth < 2) :
    s.combine limit k = .error (.underflow 2 s.depth) := by
  have hlen : s.types.length < 2 := s.depth_eq ▸ h
  unfold combine
  split
  · rename_i rhs lhs rest hs
    rw [hs, List.length_cons, List.length_cons] at hlen
    omega
  · rfl

theorem peek_bind_of_lt {k : StackType → Except Cause EvalStack} (h : s.depth < 1) :
    (s.peek 0 >>= k) = .error (.underflow 1 s.depth) := by
  have hnone : s.types[0]? = none := List.getElem?_eq_none (by rw [← s.depth_eq]; omega)
  rw [EvalStack.peek, hnone]
  rfl

/-- Values that are not there are missed all at once. -/
theorem effect_of_lt (h : s.depth < i.arity.pops) :
    i.effect limit ls s = .error (.underflow i.arity.pops s.depth) := by
  cases i with
  | nop | loadNull | loadInt32 | loadInt64 | loadLocal | loadStatic =>
    exact absurd h (Nat.not_lt_zero _)
  | storeLocal | pop | storeStatic | storeField => exact drop_of_lt h
  | dup | unary => exact peek_bind_of_lt h
  | arith | shift => exact combine_of_lt h
  | convert | compare | box | castClass | loadField => exact replace_of_lt h
  | invoke how m =>
    cases how with
    | construct => exact replace_of_lt h
    | direct | virtual =>
      simp only [effect]
      split
      · exact replace_of_lt h
      · exact drop_of_lt h

end Underflow

/-! ### The four ways to meet an instruction -/

/-- How the stack `s` meets the instruction `i`. -/
inductive Meets (limit : Nat) (ls : Array Local) (i : HostInstr) (s : EvalStack) :
    Except Cause EvalStack → Prop where
  /-- It loads a local that nobody declared. -/
  | undeclared {j : LocalIndex} (hi : i = .loadLocal j) (hj : ls.size ≤ j.val) :
    Meets limit ls i s (.error (.violation (.undeclaredLocal j)))
  /-- It takes more values than there are. -/
  | lacking (hd : i.LoadsDeclared ls) (hp : s.depth < i.arity.pops) :
    Meets limit ls i s (.error (.underflow i.arity.pops s.depth))
  /-- It leaves more values than there is room for. -/
  | full (hd : i.LoadsDeclared ls) (hp : i.arity.pops ≤ s.depth)
      (hl : limit < s.depth - i.arity.pops + i.arity.pushes) :
    Meets limit ls i s (.error (.overflow limit))
  | taken {s' : EvalStack} (hd : i.LoadsDeclared ls) (hp : i.arity.pops ≤ s.depth)
      (hl : s.depth - i.arity.pops + i.arity.pushes ≤ limit)
      (ht : i.retype (declared ls) s.types = some s'.types) : Meets limit ls i s (.ok s')

/-- The stack takes an instruction that fits its arity, and refuses any other
for the first reason there is. -/
theorem meets_effect {s : EvalStack} (hs : s.types.length ≤ limit) (i : HostInstr) :
    Meets limit ls i s (i.effect limit ls s) := by
  by_cases hd : i.LoadsDeclared ls
  · rcases Nat.lt_or_ge s.depth i.arity.pops with hp | hp
    · rw [effect_of_lt hp]
      exact .lacking hd hp
    · obtain ⟨ts, hts⟩ := exists_retype (s := s.types) hd (s.depth_eq ▸ hp)
      have hlen : ts.length = s.depth - i.arity.pops + i.arity.pushes := by
        rw [s.depth_eq]
        exact (length_retype hts).2
      rcases Nat.lt_or_ge limit ts.length with hl | hl
      · cases h : i.effect limit ls s with
        | error c =>
          rw [overflow_of_effect hts h]
          exact .full hd hp (hlen ▸ hl)
        | ok s' =>
          obtain ⟨hts', hl'⟩ := retype_of_effect hs h
          rw [hts, Option.some.injEq] at hts'
          rw [← hts'] at hl'
          omega
      · obtain ⟨s', h, rfl⟩ := (leaves_effect_iff hs).mpr ⟨hts, hl⟩
        rw [h]
        exact .taken hd hp (hlen ▸ hl) hts
  · obtain ⟨j, hj⟩ := Classical.not_forall.mp hd
    obtain ⟨hi, hlt⟩ := Classical.not_imp.mp hj
    have hge : ls.size ≤ j.val := Nat.not_lt.mp hlt
    have hnone : ls[j.val]? = none := Array.getElem?_eq_none hge
    have heff : i.effect limit ls s = .error (.violation (.undeclaredLocal j)) := by
      simp only [hi, effect, hnone]
    rw [heff]
    exact .undeclared hi hge

theorem depth_of_retype {s s' : EvalStack} (h : i.retype (declared ls) s.types = some s'.types) :
    s'.depth = s.depth - i.arity.pops + i.arity.pushes := by
  rw [s.depth_eq, s'.depth_eq]
  exact (length_retype h).2

/-- Seen from the bottom, the values that an instruction does not take stay. -/
theorem bottomUp_of_retype {s s' : EvalStack} (h : i.retype (declared ls) s.types = some s'.types) :
    s'.bottomUp.take (s.depth - i.arity.pops) = s.bottomUp.take (s.depth - i.arity.pops) := by
  have hdepth := depth_of_retype h
  have hpops : i.arity.pops ≤ s.depth := s.depth_eq ▸ (length_retype h).1
  have hleft : s'.types.length - (s.depth - i.arity.pops) = i.arity.pushes := by
    rw [← s'.depth_eq]
    omega
  have hkept : s.types.length - (s.depth - i.arity.pops) = i.arity.pops := by
    rw [← s.depth_eq]
    omega
  unfold EvalStack.bottomUp
  rw [List.take_reverse, List.take_reverse, hleft, hkept, drop_retype h]

end HostInstr

open HostInstr

/-! ### Effects in steps -/

namespace Frame

/-- Takes two values and leaves one whose type `k` finds from theirs. -/
def performTwo (k : StackType → StackType → StackType) : Lower Unit := do
  match ← pop 2 with
  | [lhs, rhs] => push (k lhs rhs)
  | _ => pure ()

/-- Takes `n` values and leaves one of type `t`. -/
def performReplace (n : Nat) (t : StackType) : Lower Unit := do
  let _ ← pop n
  push t

def performDrop (n : Nat) : Lower Unit := do
  let _ ← pop n
  return ()

/-- The effect of an instruction in steps. What it takes is popped before what
it leaves is pushed, and is lost if that is refused. -/
def perform : HostInstr → Lower Unit
  | .nop => pure ()
  | .loadNull => push .object
  | .loadInt32 _ => push .int32
  | .loadInt64 _ => push .int64
  | .loadLocal i => do
    match (← get).localType? i with
    | some t => push t
    | none => throw (.violation (.undeclaredLocal i))
  | .storeLocal _ | .pop | .storeStatic _ => performDrop 1
  | .dup => do push (← peek 0)
  | .arith _ => performTwo .binaryResult
  | .shift _ => performTwo fun lhs _ => lhs
  | .unary _ => do
    match ← pop 1 with
    | [t] => push t
    | _ => pure ()
  | .convert conv => performReplace 1 conv.target
  | .compare _ => performReplace 2 .int32
  | .box _ | .castClass _ => performReplace 1 .object
  | .invoke .construct m => performReplace m.params.length .object
  | .invoke _ m =>
    match m.resultType? with
    | some t => performReplace m.stackArguments t
    | none => performDrop m.stackArguments
  | .loadField f => performReplace 1 f.stackType
  | .loadStatic f => push f.stackType
  | .storeField _ => performDrop 2

/-- Writes down an instruction whose effect the stack already has. -/
def record (code : CodeRef) (i : HostInstr) : Lower Unit := fun f =>
  .ok () (f.afterEmit code i f.stack)

/-- The frame with the stack that an effect leaves, or a failure that leaves
the frame alone. -/
def settle (f : Frame) : Except Cause EvalStack → EStateM.Result Cause Frame Unit
  | .ok s => .ok () { f with stack := s }
  | .error c => .error c f

variable {f : Frame} {n : Nat} {t : StackType}

theorem push_eq_settle (f : Frame) (t : StackType) : push t f = f.settle (f.stack.push f.limit t) := by
  unfold push settle
  cases f.stack.push f.limit t <;> rfl

theorem pop_of_drop {s : EvalStack} (h : f.stack.drop n = .ok s) :
    pop n f = .ok (f.stack.types.take n).reverse { f with stack := s } := by
  simp [pop, EvalStack.pop, h, bind, Except.bind, pure, Except.pure]

theorem pop_of_drop_error {c : Cause} (h : f.stack.drop n = .error c) : pop n f = .error c f := by
  simp [pop, EvalStack.pop, h, bind, Except.bind]

theorem performDrop_eq (f : Frame) (n : Nat) : performDrop n f = f.settle (f.stack.drop n) := by
  cases h : f.stack.drop n with
  | ok s => exact bind_of_ok (pop_of_drop h)
  | error c => exact bind_of_error (pop_of_drop_error h)

theorem drop_zero (s : EvalStack) : s.drop 0 = .ok s := by
  rw [EvalStack.drop, if_pos (Nat.zero_le _)]
  rfl

/-- A stack within its limit that has lost values has room for one. -/
theorem push_after_drop {limit : Nat} {s r : EvalStack} (hs : s.types.length ≤ limit)
    (h : s.drop n = .ok r) : r = s ∨ ∃ r', r.push limit t = .ok r' := by
  rcases Nat.eq_zero_or_pos n with rfl | hn
  · rw [drop_zero] at h
    cases h
    exact Or.inl rfl
  · right
    have hdrop : n ≤ s.types.length ∧ s.types.drop n = r.types :=
      EvalStack.leaves_drop.mp ⟨r, h, rfl⟩
    have hlen : r.depth = s.types.length - n := by
      rw [r.depth_eq, ← hdrop.2, List.length_drop]
    have hlt : r.depth < limit := by omega
    exact ⟨_, if_pos hlt⟩

/-- A push behind a pop, whatever type it finds from what was popped. -/
theorem push_behind_pop (hf : f.stack.types.length ≤ f.limit) {k : List StackType → Lower Unit}
    (hk : ∀ g, k (f.stack.types.take n).reverse g = push t g) :
    (pop n >>= k) f = f.settle (f.stack.replace f.limit n t) := by
  unfold EvalStack.replace
  cases h : f.stack.drop n with
  | error c => exact bind_of_error (pop_of_drop_error h)
  | ok r =>
    rw [bind_of_ok (pop_of_drop h), hk, push_eq_settle]
    show settle { f with stack := r } (r.push f.limit t) = f.settle (r.push f.limit t)
    rcases push_after_drop (t := t) hf h with rfl | ⟨r', hr'⟩
    · rfl
    · rw [hr']
      rfl

theorem performReplace_eq (hf : f.stack.types.length ≤ f.limit) (n : Nat) (t : StackType) :
    performReplace n t f = f.settle (f.stack.replace f.limit n t) :=
  push_behind_pop hf fun _ => rfl

theorem performTwo_eq (hf : f.stack.types.length ≤ f.limit)
    (k : StackType → StackType → StackType) :
    performTwo k f = f.settle (f.stack.combine f.limit k) := by
  rcases Nat.lt_or_ge f.stack.depth 2 with h | h
  · rw [combine_of_lt h]
    exact bind_of_error (pop_of_drop_error (drop_of_lt h))
  · obtain ⟨rhs, lhs, rest, hs⟩ := exists_two_of_depth h
    have hcombine : f.stack.combine f.limit k = f.stack.replace f.limit 2 (k lhs rhs) := by
      rw [EvalStack.combine, hs]
    rw [hcombine]
    exact push_behind_pop hf fun g => by simp [hs]

/-- Popping first and pushing afterwards has the effect of the instruction, and
no more than that where it fails. -/
theorem perform_eq (hf : f.stack.types.length ≤ f.limit) (i : HostInstr) :
    perform i f = f.settle (i.effect f.limit f.locals f.stack) := by
  cases i with
  | nop => rfl
  | loadNull | loadInt32 | loadInt64 | loadStatic => exact push_eq_settle f _
  | loadLocal j =>
    have hget : perform (.loadLocal j) f = (match f.localType? j with
      | some t => push t
      | none => (throw (Cause.violation (.undeclaredLocal j)) : Lower Unit)) f := rfl
    rw [hget, localType?, effect]
    cases f.locals[j.val]? with
    | none => rfl
    | some l => exact push_eq_settle f _
  | storeLocal | pop | storeStatic | storeField => exact performDrop_eq f _
  | dup =>
    simp only [perform, effect]
    cases ht : f.stack.types[0]? with
    | none =>
      rw [bind_of_error (peek_of_none ht), EvalStack.peek, ht]
      rfl
    | some t =>
      rw [bind_of_ok (peek_eq_ok.mpr ⟨ht, rfl⟩), EvalStack.peek, ht]
      exact push_eq_settle f t
  | arith | shift => exact performTwo_eq hf _
  | unary =>
    simp only [perform, effect]
    rcases Nat.lt_or_ge f.stack.depth 1 with h | h
    · rw [peek_bind_of_lt h]
      exact bind_of_error (pop_of_drop_error (drop_of_lt h))
    · rw [f.stack.depth_eq] at h
      obtain ⟨t, rest, hs⟩ := List.exists_cons_of_length_pos h
      have hpeek : f.stack.peek 0 = .ok t := by simp [EvalStack.peek, hs]
      rw [hpeek]
      exact push_behind_pop hf fun g => by simp [hs]
  | convert | compare | box | castClass | loadField => exact performReplace_eq hf _ _
  | invoke how m =>
    cases how with
    | construct => exact performReplace_eq hf _ _
    | direct | virtual =>
      simp only [perform, effect]
      cases m.resultType? with
      | some t => exact performReplace_eq hf _ _
      | none => exact performDrop_eq f _

/-- So emission is the effect in steps, written down if it goes through. -/
theorem perform_record (hf : f.stack.types.length ≤ f.limit) (code : CodeRef) (i : HostInstr) :
    (perform i >>= fun _ => record code i) f = emit code i f := by
  have hperform := perform_eq hf i
  unfold emit
  cases h : i.effect f.limit f.locals f.stack with
  | ok s =>
    rw [h] at hperform
    exact bind_of_ok hperform
  | error c =>
    rw [h] at hperform
    exact bind_of_error hperform

end Frame

/-! ### Primitives -/

/-- An action that is no composition of others. -/
def Action.isPrimitive : Action → Bool
  | .emitAll _ | .lower _ | .lowerBy _ _ => false
  | _ => true

section Primitives

variable {reg : Registry} {code : CodeRef} {a : Action} {f g : Frame} {fault : Fault}

theorem push_error {t : StackType} {c : Cause} (h : push t f = .error c g) : g = f := by
  rw [push_eq_settle] at h
  cases hs : f.stack.push f.limit t <;> rw [hs] at h <;> cases h
  rfl

theorem pop_error {n : Nat} {c : Cause} (h : pop n f = .error c g) : g = f := by
  cases hs : f.stack.drop n with
  | ok s =>
    rw [pop_of_drop hs] at h
    cases h
  | error c' =>
    rw [pop_of_drop_error hs] at h
    cases h
    rfl

/-- A primitive that fails does nothing. -/
theorem Action.eq_of_primitive_error (ha : a.isPrimitive = true)
    (h : a.run reg code f = .error fault g) : g = f := by
  have hstep : ∀ {α : Type} {x : Lower α} {k : α → Answer}, (∀ c, x f = .error c g → g = f) →
      (k <$> x).chargedTo code f = .error fault g → g = f := by
    intro α x k hx h
    obtain ⟨c, hc, -⟩ := chargedTo_eq_error.mp h
    exact hx c (map_eq_error.mp hc)
  cases a with
  | push t => exact hstep (fun _ => push_error) h
  | pop n => exact hstep (fun _ => pop_error) h
  | peek n => exact hstep (fun _ hp => (peek_eq_error hp).2.2) h
  | registerLocal r t => exact hstep (fun _ hl => (localFor_eq_error hl).2.2) h
  | storeRegister r t => exact hstep (fun _ hr => (storeRegister_eq_error hr).2.2) h
  | scratchLocal t slot => exact hstep (fun _ hl => (scratchLocal_eq_error hl).2.2) h
  | emit i => exact hstep (fun _ he => (emit_eq_error.mp he).2) h
  | takeNewLocals | takeEmitted => cases h
  | emitAll is => cases ha
  | lower i => cases ha
  | lowerBy rule i => cases ha

end Primitives

/-! ### Emission is all or nothing -/

/-- What becomes of `i` when it is emitted on the frame `f`. -/
structure EmitsWhole (o : Options) (code : CodeRef) (f : Frame) (i : HostInstr) : Prop where
  /-- It is emitted if its arity fits, and not otherwise. -/
  fits : (∃ g, emit code i f = .ok () g) ↔ i.LoadsDeclared f.locals ∧
    i.arity.pops ≤ f.stack.depth ∧
    f.stack.depth - i.arity.pops + i.arity.pushes ≤ o.maxStackDepth
  depth : ∀ g, emit code i f = .ok () g →
    g.stack.depth = f.stack.depth - i.arity.pops + i.arity.pushes
  /-- The values that it does not take stay. -/
  below : ∀ g, emit code i f = .ok () g →
    g.stack.bottomUp.take (f.stack.depth - i.arity.pops) =
      f.stack.bottomUp.take (f.stack.depth - i.arity.pops)
  /-- A copy takes none. -/
  copies : i = .dup → ∀ g, emit code i f = .ok () g → f.stack.bottomUp <+: g.stack.bottomUp
  pending : ∀ g, emit code i f = .ok () g → g.pending = f.pending.push i
  /-- Nothing but the stack, the pending code and the log is touched. -/
  only : ∀ g, emit code i f = .ok () g → g = f.afterEmit code i g.stack
  /-- What would be popped before a push is refused is never lost. -/
  inSteps : (perform i >>= fun _ => record code i) f = emit code i f

theorem bottomUp_of_dup {ls : Array Local} {s s' : EvalStack}
    (h : HostInstr.dup.retype (declared ls) s.types = some s'.types) :
    s.bottomUp <+: s'.bottomUp := by
  obtain ⟨t, rest, hs, hs'⟩ := takeOne_eq_some.mp h
  refine ⟨[t], ?_⟩
  rw [EvalStack.bottomUp, EvalStack.bottomUp, hs, ← hs']
  simp

/-- In every reachable frame an instruction is emitted if and only if its arity
fits, as a whole or not at all. A primitive of the frame that fails, emission
included, leaves it as it was. -/
theorem emit_iff_fits (reg : Registry) (o : Options) (code : CodeRef) (f : Frame)
    (hf : f.Reachable o) :
    (∀ i, EmitsWhole o code f i) ∧
    ∀ a : Action, a.isPrimitive = true → ∀ fault g, a.run reg code f = .error fault g → g = f := by
  refine ⟨fun i => ?_, fun a ha fault g h => Action.eq_of_primitive_error ha h⟩
  have hlimit : f.limit = o.maxStackDepth := congrArg Options.maxStackDepth hf.options
  have hmeets : Meets f.limit f.locals i f.stack (i.effect f.limit f.locals f.stack) :=
    meets_effect hf.room i
  -- whatever is emitted has had its effect on types
  have htypes : ∀ {g}, emit code i f = .ok () g →
      i.retype (declared f.locals) f.stack.types = some g.stack.types := by
    intro g h
    obtain ⟨s, hs, rfl⟩ := emit_eq_ok.mp h
    exact (retype_of_effect hf.room hs).1
  refine {
    fits := ?_
    depth := fun g h => depth_of_retype (htypes h)
    below := fun g h => bottomUp_of_retype (htypes h)
    copies := ?_
    pending := ?_
    only := ?_
    inSteps := perform_record hf.room code i }
  · rw [← hlimit]
    cases he : i.effect f.limit f.locals f.stack with
    | ok s =>
      rw [he] at hmeets
      cases hmeets with
      | taken hd hp hl _ => exact ⟨fun _ => ⟨hd, hp, hl⟩, fun _ => ⟨_, emit_eq_ok.mpr ⟨s, he, rfl⟩⟩⟩
    | error c =>
      have hfails : ¬ ∃ g, emit code i f = .ok () g := by
        rintro ⟨g, hg⟩
        rw [emit_eq_error.mpr ⟨he, rfl⟩] at hg
        cases hg
      refine ⟨fun h => absurd h hfails, fun ⟨hd, hp, hl⟩ => ?_⟩
      rw [he] at hmeets
      cases hmeets with
      | undeclared hi hj => exact absurd (hd _ hi) (Nat.not_lt.mpr hj)
      | lacking _ hp' => omega
      | full _ _ hl' => omega
  · rintro rfl g h
    exact bottomUp_of_dup (htypes h)
  · intro g h
    obtain ⟨s, -, rfl⟩ := emit_eq_ok.mp h
    rfl
  · intro g h
    obtain ⟨s, -, rfl⟩ := emit_eq_ok.mp h
    rfl

/-- As many numbers as the stack may hold. -/
def numberPair : List (CodeRef × Action) :=
  let code := CodeRef.opcode .nop
  [(code, .emit (.loadInt64 1)), (code, .emit (.loadInt32 2))]

/-- They can be added, but there is no room for a copy. -/
theorem emit_iff_fits_fullStack :
    let o : Options := { maxStackDepth := 2 }
    let f := (Transcript.run ⟨{}⟩ o numberPair).frame
    f.Reachable o ∧ Action.isPrimitive (.emit .dup) = true ∧
      (∃ g, emit (.opcode .nop) (.arith .add) f = .ok () g ∧ g.stack.depth = 1) ∧
      ¬ (∃ g, emit (.opcode .nop) .dup f = .ok () g) ∧
      ∃ fault, (Action.emit .dup).run ⟨{}⟩ (.opcode .nop) f = .error fault f := by
  intro o f
  have hf : f.Reachable o := ⟨⟨{}⟩, numberPair, rfl⟩
  have hdepth : f.stack.depth = 2 := by decide +kernel
  obtain ⟨hwhole, hkept⟩ := emit_iff_fits ⟨{}⟩ o (.opcode .nop) f hf
  have hadd := hwhole (.arith .add)
  have hdup := (hwhole .dup).fits
  have hfails : outcome? ((Action.emit .dup).run ⟨{}⟩ (.opcode .nop)) f = none := by
    decide +kernel
  refine ⟨hf, rfl, ?_, ?_, ?_⟩
  · have hloads : (HostInstr.arith .add).LoadsDeclared f.locals := by
      intro j hj
      cases hj
    have hroom : 2 ≤ f.stack.depth ∧ f.stack.depth - 2 + 1 ≤ 2 := by omega
    obtain ⟨g, hg⟩ := hadd.fits.mpr ⟨hloads, hroom⟩
    have hleft : g.stack.depth = 1 := by
      rw [hadd.depth g hg, hdepth]
      rfl
    exact ⟨g, hg, hleft⟩
  · rw [hdup, hdepth]
    exact fun h => absurd h.2.2 (by decide)
  · cases h : (Action.emit .dup).run ⟨{}⟩ (.opcode .nop) f with
    | ok a g =>
      rw [outcome?, h] at hfails
      cases hfails
    | error fault g =>
      obtain rfl : g = f := hkept (.emit .dup) rfl fault g h
      exact ⟨fault, rfl⟩

end Devirt
