/-
# Host code on typings

Host code moves the typing of the decoded code as far as the stack goes
(`Typing.through`). For each sequence that lowering emits, that is one step of
the type system: a push, values taken, a value replaced, a binary operation, a
store or a comparison.

Key definitions: `Typing.through`.
Key theorems: `Typing.through_push`, `Typing.through_replace`,
`Typing.through_signOfDifference`.
-/
import Devirt.Proofs.Emission
import Devirt.Proofs.Typing

namespace Devirt

open HostInstr

namespace Typing

variable {limit : Nat} {types : LocalIndex → Option StackType} {i : HostInstr}
  {is js : List HostInstr} {s : Typing} {t : StackType}

/-- The typing after host code, which knows of no registers. -/
def through (limit : Nat) (types : LocalIndex → Option StackType) (is : List HostInstr)
    (s : Typing) : Option Typing :=
  (replayWithin limit types is s.stack).map fun ts => { s with stack := ts }

theorem through_one : s.through limit types [i] =
    ((i.retype types s.stack).filter fun ts => ts.length ≤ limit).map fun ts =>
      { s with stack := ts } := by
  simp only [through, replayWithin]
  cases (i.retype types s.stack).filter fun ts => ts.length ≤ limit <;> rfl

theorem through_cons :
    s.through limit types (i :: is) = (s.through limit types [i]).bind (through limit types is) := by
  rw [through_one, through, replayWithin]
  cases (i.retype types s.stack).filter fun ts => ts.length ≤ limit <;> rfl

theorem through_push (h : i.retype types s.stack = some (t :: s.stack)) :
    s.through limit types [i] = s.push limit t := by
  rw [through_one, h, push, Option.filter_some]
  by_cases hlt : s.stack.length < limit
  · rw [if_pos hlt, if_pos (by simpa [Nat.succ_le_iff] using hlt), Option.map_some]
  · rw [if_neg hlt, if_neg (by simpa [Nat.succ_le_iff] using hlt), Option.map_none]

/-- Taking values and pushing one in their place. -/
theorem through_replace {n : Nat} (h : i.retype types s.stack = takeMany n [t] s.stack) :
    s.through limit types [i] = (s.drop n).bind (push limit t) := by
  rw [through_one, h, drop, takeMany, List.singleton_append]
  by_cases hn : n ≤ s.stack.length
  · rw [if_pos hn, if_pos hn, Option.filter_some, Option.bind_some, push]
    by_cases hlt : (s.stack.drop n).length < limit
    · rw [if_pos hlt, if_pos (by simpa [Nat.succ_le_iff] using hlt), Option.map_some]
    · rw [if_neg hlt, if_neg (by simpa [Nat.succ_le_iff] using hlt), Option.map_none]
  · rw [if_neg hn, if_neg hn]
    rfl

/-- The comparison of two numbers up to the reload of the first operand for
the second verdict. -/
theorem replayWithin_firstVerdict {lhs rhs : LocalIndex} {u v : StackType} {rest : List StackType}
    (hle : rest.length + 1 + 1 ≤ limit) (hl : types lhs = some t) (hr : types rhs = some t) :
    replayWithin limit types ((Lowering.signOfDifference lhs rhs).take 6 ++ js) (u :: v :: rest) =
      replayWithin limit types js (t :: .int32 :: rest) := by
  have h1 : rest.length + 1 ≤ limit := by omega
  have h0 : rest.length ≤ limit := by omega
  show replayWithin limit types (.storeLocal rhs :: .storeLocal lhs :: .loadLocal lhs ::
    .loadLocal rhs :: .compare .gt :: .loadLocal lhs :: js) (u :: v :: rest) = _
  rw [replayWithin_cons rfl h1, replayWithin_cons rfl h0,
    replayWithin_cons (retype_loadLocal hl _) h1, replayWithin_cons (retype_loadLocal hr _) hle,
    replayWithin_cons rfl h1, replayWithin_cons (retype_loadLocal hl _) hle]
  rfl

variable (hs : s.stack.length ≤ limit)

include hs

theorem through_drop {n : Nat} (h : i.retype types s.stack = takeMany n [] s.stack) :
    s.through limit types [i] = s.drop n := by
  rw [through_one, h, drop, takeMany, List.nil_append]
  by_cases hn : n ≤ s.stack.length
  · have hle : (s.stack.drop n).length ≤ limit := by rw [List.length_drop]; omega
    rw [if_pos hn, if_pos hn, Option.filter_some, if_pos (by simpa using hle), Option.map_some]
  · rw [if_neg hn, if_neg hn]
    rfl

theorem through_replaceTop (h : i.retype types s.stack = takeMany 1 [t] s.stack) :
    s.through limit types [i] = s.replaceTop t := by
  rw [through_replace h, drop, replaceTop]
  cases hst : s.stack with
  | nil => rfl
  | cons u rest =>
    have hlt : rest.length < limit := by rw [hst, List.length_cons] at hs; omega
    simp [push, hlt]

theorem through_binary (op : ArithOp) : s.through limit types [.arith op] = s.binary := by
  rw [through_one, retype, binary]
  rcases hst : s.stack with _ | ⟨rhs, _ | ⟨lhs, rest⟩⟩
  · rfl
  · rfl
  · have hle : rest.length + 1 ≤ limit := by
      rw [hst, List.length_cons, List.length_cons] at hs
      omega
    simp [takeTwo, hle]

theorem through_unary (op : UnaryOp) : s.through limit types [.unary op] = s.unary := by
  rw [through_one, retype, unary]
  obtain ⟨stack, floats⟩ := s
  cases stack with
  | nil => rfl
  | cons t rest =>
    have hle : rest.length + 1 ≤ limit := hs
    simp [takeOne, hle]

/-- A complement after a binary operation changes no type. -/
theorem through_nor : s.through limit types [.arith .or, .unary .not] = s.binary := by
  rw [through_cons, through_binary hs, binary]
  rcases hst : s.stack with _ | ⟨rhs, _ | ⟨lhs, rest⟩⟩
  · rfl
  · rfl
  · have hle : rest.length + 1 ≤ limit := by
      rw [hst, List.length_cons, List.length_cons] at hs
      omega
    rw [Option.bind_some, through_unary (by simpa using hle), unary, if_neg (by simp)]

/-- Storing the top into a local, widened or not, takes it. -/
theorem through_storeInto {top : StackType} {rest : List StackType} (h : s.stack = top :: rest)
    (home : LocalIndex) :
    s.through limit types (Plan.storeInto top home) = some { s with stack := rest } := by
  have hle : rest.length + 1 ≤ limit := by rw [h, List.length_cons] at hs; omega
  unfold Plan.storeInto
  split
  · rw [through_cons, through_replaceTop (t := .int64) hs rfl, replaceTop, h]
    exact through_drop (s := { s with stack := .int64 :: rest }) (n := 1) hle rfl
  · rw [through_drop (n := 1) hs rfl, drop, h]
    rfl

theorem through_referencesDiffer {t u : StackType} {rest : List StackType}
    (h : s.stack = t :: u :: rest) :
    s.through limit types Lowering.referencesDiffer = some { s with stack := .int32 :: rest } := by
  have hle : rest.length + 1 + 1 ≤ limit := by rw [h] at hs; exact hs
  have h1 : rest.length + 1 ≤ limit := by omega
  have hstep : replayWithin limit types Lowering.referencesDiffer (t :: u :: rest) =
      some (.int32 :: rest) := by
    rw [Lowering.referencesDiffer, replayWithin_cons rfl h1, replayWithin_cons rfl hle,
      replayWithin_cons rfl h1]
    rfl
  rw [through, h, hstep, Option.map_some]

/-- The comparison of two numbers reloads one of them while the other and the
first verdict are on the stack, so it needs one place more than it takes. -/
theorem through_signOfDifference {lhs rhs : LocalIndex} {u v t : StackType}
    {rest : List StackType} (h : s.stack = u :: v :: rest) (hl : types lhs = some t)
    (hr : types rhs = some t) :
    s.through limit types (Lowering.signOfDifference lhs rhs) =
      if s.stack.length < limit then some { s with stack := .int32 :: rest } else none := by
  have h2 : rest.length + 1 + 1 ≤ limit := by rw [h] at hs; exact hs
  have h1 : rest.length + 1 ≤ limit := by omega
  -- up to the reload that needs the extra place
  have hprefix : replayWithin limit types (Lowering.signOfDifference lhs rhs) (u :: v :: rest) =
      replayWithin limit types [.loadLocal rhs, .compare .lt, .arith .sub] (t :: .int32 :: rest) :=
    replayWithin_firstVerdict h2 hl hr
  rw [through, h, hprefix, List.length_cons, List.length_cons]
  by_cases h3 : rest.length + 1 + 1 < limit
  · rw [if_pos h3, replayWithin_cons (retype_loadLocal hr _) h3, replayWithin_cons rfl h2,
      replayWithin_cons rfl h1]
    rfl
  · rw [if_neg h3, replayWithin_cons_of_lt (retype_loadLocal hr _) (Nat.lt_succ_of_le (Nat.not_lt.mp h3)),
      Option.map_none]

theorem through_invoke (how : Dispatch) (m : MethodRef) :
    s.through limit types [.invoke how m] = s.call limit how m := by
  cases how with
  | construct => exact through_replace rfl
  | direct | virtual =>
    unfold call
    cases hr : m.resultType? with
    | none => exact through_drop hs (by simp [retype, hr])
    | some t => exact through_replace (by simp [retype, hr])

end Typing

end Devirt
