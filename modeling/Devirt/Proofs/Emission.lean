/-
# When a sequence can be emitted

A sequence of host instructions is emitted one by one, each taking effect at
once. Whether it goes through depends on the types on the stack, on those of
the locals and on the limit alone (`HostInstr.replayWithin`), and what it
leaves of the frame is known in advance: the new stack, the sequence behind
the pending code, and the log (`emitAll_cases`).

Key definitions: `HostInstr.replayWithin`.
Key theorems: `emitAll_cases`, `overflow_of_emitAll`, `Rule.lower_eq_plan`.
-/
import Devirt.Proofs.Replay
import Devirt.Proofs.Transcript

namespace Devirt

open Devirt.Frame Lower

namespace HostInstr

variable {limit : Nat} {types : LocalIndex → Option StackType} {i : HostInstr}
  {is : List HostInstr} {s ts : List StackType}

/-- The types on the stack after a sequence, if it never holds more than
`limit` of them on the way. -/
def replayWithin (limit : Nat) (types : LocalIndex → Option StackType) :
    List HostInstr → List StackType → Option (List StackType)
  | [], s => some s
  | i :: is, s =>
    ((i.retype types s).filter fun ts => ts.length ≤ limit).bind (replayWithin limit types is)

/-- An instruction whose outcome there is room for. -/
theorem replayWithin_cons (h : i.retype types s = some ts) (hle : ts.length ≤ limit) :
    replayWithin limit types (i :: is) s = replayWithin limit types is ts := by
  rw [replayWithin, h, Option.filter_some, if_pos (decide_eq_true hle), Option.bind_some]

/-- An instruction whose outcome there is no room for. -/
theorem replayWithin_cons_of_lt (h : i.retype types s = some ts) (hlt : limit < ts.length) :
    replayWithin limit types (i :: is) s = none := by
  rw [replayWithin, h, Option.filter_some, if_neg (by simpa using hlt), Option.bind_none]

theorem replayWithin_cons_eq_some : replayWithin limit types (i :: is) s = some ts ↔
    ∃ us, i.retype types s = some us ∧ us.length ≤ limit ∧ replayWithin limit types is us = some ts := by
  simp [replayWithin, Option.bind_eq_some_iff, Option.filter_eq_some_iff, and_assoc]

theorem retype_loadLocal {j : LocalIndex} {t : StackType} (h : types j = some t)
    (s : List StackType) : (HostInstr.loadLocal j).retype types s = some (t :: s) := by
  rw [retype, h, Option.map_some]

theorem replay_of_replayWithin : ∀ {is : List HostInstr} {s : List StackType},
    replayWithin limit types is s = some ts → replay types is s = some ts
  | [], _, h => h
  | i :: is, s, h => by
    obtain ⟨us, hus, -, hrest⟩ := replayWithin_cons_eq_some.mp h
    rw [replay, hus, Option.bind_some]
    exact replay_of_replayWithin hrest

theorem length_le_of_replayWithin : ∀ {is : List HostInstr} {s : List StackType},
    s.length ≤ limit → replayWithin limit types is s = some ts → ts.length ≤ limit
  | [], _, hs, h => by
    cases h
    exact hs
  | i :: is, s, _, h => by
    obtain ⟨us, -, hle, hrest⟩ := replayWithin_cons_eq_some.mp h
    exact length_le_of_replayWithin hle hrest

end HostInstr

open HostInstr

/-- A sequence goes through as far as its types do. -/
theorem emitAll_cases (code : CodeRef) : ∀ (is : List HostInstr) (f : Frame),
    f.stack.types.length ≤ f.limit →
    (∃ s p l, emitAll code is f = .ok () { f with stack := s, pending := p, log := l } ∧
      p.toList = f.pending.toList ++ is ∧
      replayWithin f.limit (declared f.locals) is f.stack.types = some s.types) ∨
    ((∃ c g, emitAll code is f = .error c g) ∧
      replayWithin f.limit (declared f.locals) is f.stack.types = none)
  | [], f, _ => .inl ⟨f.stack, f.pending, f.log, rfl, (List.append_nil _).symm, rfl⟩
  | i :: is, f, hf => by
    cases he : emit code i f with
    | error c g =>
      refine .inr ⟨⟨c, g, bind_of_error he⟩, ?_⟩
      obtain ⟨heff, -⟩ := emit_eq_error.mp he
      -- had the types an outcome within the limit, the stack would have taken the instruction
      rw [Option.eq_none_iff_forall_not_mem]
      intro ts hts
      obtain ⟨us, hus, hle, -⟩ := replayWithin_cons_eq_some.mp hts
      obtain ⟨s, hs, -⟩ := (leaves_effect_iff hf).mpr ⟨hus, hle⟩
      rw [heff] at hs
      cases hs
    | ok u g =>
      obtain ⟨s, hs, rfl⟩ := emit_eq_ok.mp he
      obtain ⟨hus, hle⟩ := retype_of_effect hf hs
      have hstep : replayWithin f.limit (declared f.locals) (i :: is) f.stack.types =
          replayWithin f.limit (declared f.locals) is s.types := replayWithin_cons hus hle
      rw [hstep]
      rcases emitAll_cases code is (f.afterEmit code i s) hle with
        ⟨s', p, l, h, hp, hr⟩ | ⟨⟨c, g, h⟩, hr⟩
      · refine .inl ⟨s', p, l, (bind_of_ok he).trans h, ?_, hr⟩
        rw [hp, afterEmit, Array.toList_push, List.append_assoc, List.singleton_append]
      · exact .inr ⟨⟨c, g, (bind_of_ok he).trans h⟩, hr⟩

/-! ### Refusals for want of room -/

section Overflow

open EvalStack

variable {limit n : Nat} {t : StackType} {s : EvalStack} {ts : List StackType} {c : Cause}
  {i : HostInstr} {locals : Array Local}

theorem overflow_of_push (h : s.push limit t = .error c) : c = .overflow limit := by
  unfold EvalStack.push at h
  split at h
  · cases h
  · cases h
    rfl

theorem drop_ne_error (hn : n ≤ s.types.length) : s.drop n ≠ .error c := by
  intro h
  rw [EvalStack.drop, if_pos (s.depth_eq ▸ hn)] at h
  cases h

theorem overflow_of_replace (hn : n ≤ s.types.length) (h : s.replace limit n t = .error c) :
    c = .overflow limit := by
  unfold EvalStack.replace at h
  cases hd : s.drop n with
  | error c' => exact absurd hd (drop_ne_error hn)
  | ok r =>
    rw [hd] at h
    exact overflow_of_push h

theorem overflow_of_combine {k : StackType → StackType → StackType}
    (ht : takeTwo k s.types = some ts) (h : s.combine limit k = .error c) : c = .overflow limit := by
  obtain ⟨rhs, lhs, rest, hs, -⟩ := takeTwo_eq_some.mp ht
  unfold EvalStack.combine at h
  rw [hs] at h
  exact overflow_of_replace (by simp [hs]) h

theorem overflow_of_peek_bind {k : StackType → Except Cause EvalStack} (hn : n < s.types.length)
    (hk : ∀ t, k t = .error c → c = .overflow limit) (h : s.peek n >>= k = .error c) :
    c = .overflow limit := by
  rw [EvalStack.peek, List.getElem?_eq_getElem hn] at h
  exact hk _ h

/-- Where the types allow an instruction, only a full stack refuses it. -/
theorem overflow_of_effect (hr : i.retype (declared locals) s.types = some ts)
    (h : i.effect limit locals s = .error c) : c = .overflow limit := by
  cases i with
  | nop => cases h
  | loadNull | loadInt32 | loadInt64 | loadStatic => exact overflow_of_push h
  | loadLocal j =>
    simp only [effect, retype, declared] at h hr
    cases hl : locals[j.val]? with
    | none => simp [hl] at hr
    | some l =>
      rw [hl] at h
      exact overflow_of_push h
  | storeLocal | pop | storeStatic | storeField =>
    exact absurd h (drop_ne_error (takeMany_eq_some.mp hr).1)
  | dup =>
    obtain ⟨t, rest, hs, -⟩ := takeOne_eq_some.mp hr
    exact overflow_of_peek_bind (by simp [hs]) (fun _ => overflow_of_push) h
  | arith | shift => exact overflow_of_combine hr h
  | unary =>
    obtain ⟨t, rest, hs, -⟩ := takeOne_eq_some.mp hr
    exact overflow_of_peek_bind (by simp [hs]) (fun _ => overflow_of_replace (by simp [hs])) h
  | convert | compare | box | castClass | loadField =>
    exact overflow_of_replace (takeMany_eq_some.mp hr).1 h
  | invoke how m =>
    cases how with
    | construct => exact overflow_of_replace (takeMany_eq_some.mp hr).1 h
    | direct | virtual =>
      have hn := (takeMany_eq_some.mp hr).1
      simp only [effect] at h
      split at h
      · exact overflow_of_replace hn h
      · exact absurd h (drop_ne_error hn)

end Overflow

theorem overflow_of_emitAll {code : CodeRef} {c : Cause} {g : Frame} {ts : List StackType} :
    ∀ {is : List HostInstr} {f : Frame}, f.stack.types.length ≤ f.limit →
    replay (declared f.locals) is f.stack.types = some ts → emitAll code is f = .error c g →
    c = .overflow f.limit
  | [], f, _, _, h => by cases h
  | i :: is, f, hf, hr, h => by
    obtain ⟨us, hus, hrest⟩ := Option.bind_eq_some_iff.mp hr
    rcases bind_eq_error.mp h with he | ⟨u, k, he, hk⟩
    · exact overflow_of_effect hus (emit_eq_error.mp he).1
    · obtain ⟨s, hs, rfl⟩ := emit_eq_ok.mp he
      obtain ⟨hus', hle⟩ := retype_of_effect hf hs
      rw [hus, Option.some.injEq] at hus'
      exact overflow_of_emitAll (f := f.afterEmit code i s) hle (hus' ▸ hrest) hk

/-! ### Lowering -/

/-- Finding the code of an operation leaves the stack, the pending code and
the options alone. -/
theorem Rule.plan_eq_ok {r : Rule} {op : Operation} {f f' : Frame} {is : List HostInstr}
    (h : r.plan op f = .ok is f') :
    f'.options = f.options ∧ f'.stack = f.stack ∧ f'.pending = f.pending := by
  have hk : Allocatable fun g => g.options = f.options ∧ g.stack = f.stack ∧ g.pending = f.pending :=
    ⟨fun _ _ _ _ _ hg => hg, fun _ _ hg => hg⟩
  exact (r.plan_keeps hk op).ok h ⟨rfl, rfl, rfl⟩

/-- An instruction lowered with nothing pending is handed out as it was
planned, and its types go through within the limit. -/
theorem Rule.lower_eq_plan {r : Rule} {i : Instr} {f g : Frame} {code : Array HostInstr}
    (hf : f.stack.types.length ≤ f.limit) (hp : f.pending = #[]) (h : r.lower i f = .ok code g) :
    ∃ f', r.plan i.operation f = .ok code.toList f' ∧ f'.options = f.options ∧ f'.stack = f.stack ∧
      (∃ s l, g = { f' with stack := s, pending := #[], log := l }) ∧
      replayWithin f.limit (declared g.locals) code.toList f.stack.types = some g.stack.types := by
  obtain ⟨k, hk, rfl, rfl⟩ := Rule.lower_eq_ok.mp h
  rw [Rule.emit_eq] at hk
  obtain ⟨is, f', hplan, hemit⟩ := bind_eq_ok.mp hk
  obtain ⟨ho, hs, hp'⟩ := Rule.plan_eq_ok hplan
  have hlimit : f'.limit = f.limit := congrArg Options.maxStackDepth ho
  rcases emitAll_cases i.operation.code is f' (by rw [hs, hlimit]; exact hf) with
    ⟨s, p, l, hok, htoList, hr⟩ | ⟨⟨c, g, herr⟩, -⟩
  · cases hok.symm.trans hemit
    rw [hp', hp, Array.toList_empty, List.nil_append] at htoList
    rw [htoList]
    refine ⟨f', hplan, ho, hs, ⟨s, l, rfl⟩, ?_⟩
    rw [← hlimit, ← hs]
    exact hr
  · rw [hemit] at herr
    cases herr

end Devirt
