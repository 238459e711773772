/-
# Instructions that fail

An instruction that cannot be lowered by the default table leaves the stack and
the pending code as they were, with one exception. Nearly every rule finds out
before it emits, or emits one instruction that is refused as a whole. Only the
comparison of two numbers can break off in the middle: it needs one more place
than its operands take, so on a full stack its seventh instruction is refused.
Nothing is rolled back, and the six before it stay (`BreaksOff`).

Key definitions: `BreaksOff`.
Key theorems: `Rule.Renders.emitAll_error`, `lower_error_keeps`.
-/
import Devirt.Proofs.Dispatch
import Devirt.Proofs.Inert
import Devirt.Proofs.Reachable
import Devirt.Proofs.Rendering
import Devirt.Proofs.Through

namespace Devirt

open Devirt.Frame Lower HostInstr

/-! ### Where a sequence fails -/

theorem emitAll_append (code : CodeRef) (js : List HostInstr) : ∀ is : List HostInstr,
    emitAll code (is ++ js) = emitAll code is >>= fun _ => emitAll code js
  | [] => by rw [List.nil_append, emitAll, pure_bind]
  | i :: is => by
    rw [List.cons_append, emitAll, emitAll, bind_assoc]
    congr 1
    funext _
    exact emitAll_append code js is

/-- A value that there is room for can be cut down to any width. -/
theorem through_narrowing {limit : Nat} (types : LocalIndex → Option StackType) (s : Typing)
    (k : StorageClass) (w : Width) {t : StackType} {rest : List StackType}
    (hle : (t :: rest).length ≤ limit) :
    ∃ s', ({ s with stack := t :: rest } : Typing).through limit types (narrowing k w) = some s' := by
  cases k with
  | float | object => exact ⟨_, rfl⟩
  | integral =>
    cases hconv : w.narrowing? with
    | none => exact ⟨_, by rw [narrowing, hconv]; rfl⟩
    | some conv =>
      refine ⟨{ s with stack := conv.target :: rest }, ?_⟩
      rw [narrowing, hconv, Option.map_some, Option.toList_some]
      exact Typing.through_replaceTop hle rfl

section Emission

variable {f g : Frame} {code : CodeRef} {c : Cause} {is : List HostInstr} {s : Typing}

theorem frame_of_singleton_error {i : HostInstr} (h : emitAll code [i] f = .error c g) : g = f := by
  rw [emitAll_singleton] at h
  exact (emit_eq_error.mp h).2

variable (hst : f.stack.types = s.stack) (hroom : s.stack.length ≤ f.limit)

include hst hroom

/-- Code that moves the typing on does not fail. -/
theorem not_error_of_through {s' : Typing} (h : s.through f.limit (declared f.locals) is = some s')
    (he : emitAll code is f = .error c g) : False := by
  obtain ⟨ts, hts, -⟩ := Option.map_eq_some_iff.mp h
  rw [← hst] at hts hroom
  rcases emitAll_cases code is f hroom with ⟨_, _, _, hok, -, -⟩ | ⟨-, hnone⟩
  · rw [he] at hok
    cases hok
  · rw [hts] at hnone
    cases hnone

/-- A read fails when it loads or not at all. -/
theorem frame_of_read_error {i : LocalIndex} {k : StorageClass} {w : Width}
    (he : emitAll code (.loadLocal i :: narrowing k w) f = .error c g) : g = f := by
  rw [← hst] at hroom
  rcases bind_eq_error.mp he with hload | ⟨u, f', hload, hnarrow⟩
  · exact (emit_eq_error.mp hload).2
  · exfalso
    obtain ⟨st, heff, rfl⟩ := emit_eq_ok.mp hload
    obtain ⟨hts, hle⟩ := retype_of_effect hroom heff
    obtain ⟨t, -, htypes⟩ := Option.map_eq_some_iff.mp hts
    rw [← htypes] at hle
    obtain ⟨s', hs'⟩ := through_narrowing (declared f.locals) s k w hle
    rw [htypes] at hs' hle
    exact not_error_of_through (f := f.afterEmit code (.loadLocal i) st) rfl hle hs' hnarrow

/-- The comparison of two numbers fails on a full stack, with six of its nine
instructions emitted. -/
theorem left_of_signOfDifference_error {u v t : StackType} {rest : List StackType}
    {lhs rhs : LocalIndex} (hs : s.stack = u :: v :: rest) (hl : IsScratch f.locals 0 t lhs)
    (hr : IsScratch f.locals 1 t rhs)
    (he : emitAll code (Lowering.signOfDifference lhs rhs) f = .error c g) :
    s.stack.length = f.limit ∧ c = .overflow f.limit ∧
      (∃ st p l, g = { f with stack := st, pending := p, log := l }) ∧
      g.pending.toList = f.pending.toList ++ (Lowering.signOfDifference lhs rhs).take 6 ∧
      g.stack.types = t :: .int32 :: rest := by
  have hfull : ¬ s.stack.length < f.limit := by
    intro hlt
    have hthrough : s.through f.limit (declared f.locals) (Lowering.signOfDifference lhs rhs) =
        some { s with stack := .int32 :: rest } := by
      rw [Typing.through_signOfDifference hroom hs hl.declared hr.declared, if_pos hlt]
    exact not_error_of_through hst hroom hthrough he
  have hlimit : rest.length + 1 + 1 = f.limit := by
    have hlen : s.stack.length = rest.length + 1 + 1 := by rw [hs]; rfl
    omega
  have hfirst : replayWithin f.limit (declared f.locals) ((Lowering.signOfDifference lhs rhs).take 6)
      f.stack.types = some (t :: .int32 :: rest) := by
    rw [hst, hs, ← List.append_nil (List.take _ _)]
    exact Typing.replayWithin_firstVerdict hlimit.le hl.declared hr.declared
  have hsplit : Lowering.signOfDifference lhs rhs = (Lowering.signOfDifference lhs rhs).take 6 ++
      [.loadLocal rhs, .compare .lt, .arith .sub] := rfl
  rw [hsplit, emitAll_append] at he
  rcases emitAll_cases code ((Lowering.signOfDifference lhs rhs).take 6) f (hst ▸ hroom) with
    ⟨st, p, l, hok, hp, hr'⟩ | ⟨-, hnone⟩
  · rw [hfirst, Option.some.injEq] at hr'
    rw [bind_of_ok hok] at he
    have hreload : (HostInstr.loadLocal rhs).retype (declared f.locals) st.types =
        some (t :: t :: .int32 :: rest) := by
      rw [← hr']
      exact retype_loadLocal hr.declared _
    -- there is no place for the operand that is reloaded
    rcases bind_eq_error.mp he with hload | ⟨_, k, hload, -⟩
    · obtain ⟨heff, rfl⟩ := emit_eq_error.mp hload
      exact ⟨by omega, overflow_of_effect hreload heff, ⟨st, p, l, rfl⟩, hp, hr'.symm⟩
    · exfalso
      obtain ⟨st', heff, -⟩ := emit_eq_ok.mp hload
      have hle : st.types.length ≤ f.limit := by
        rw [← hr']
        exact hlimit.le
      obtain ⟨hts, hle'⟩ := retype_of_effect hle heff
      rw [hreload, Option.some.injEq] at hts
      have hlen : st'.types.length = rest.length + 1 + 1 + 1 := by rw [← hts]; rfl
      have hle'' : st'.types.length ≤ f.limit := hle'
      omega
  · rw [hfirst] at hnone
    cases hnone

end Emission

/-! ### What is left of an instruction -/

/-- Lowering `op` breaks off with the cause `c` in the middle of a comparison of
two numbers. The stack was full; the operands have gone to their scratch
locals, and the first of them is back on the stack beside the first verdict. -/
structure BreaksOff (op : Operation) (f g : Frame) (c : Cause) : Prop where
  full : f.stack.depth = f.limit
  cause : c = .overflow f.limit
  left : ∃ t lhs rhs, f.typing.scratch? op = some t ∧ IsScratch g.locals 0 t lhs ∧
    IsScratch g.locals 1 t rhs ∧
    g.pending = f.pending ++ ((Lowering.signOfDifference lhs rhs).take 6).toArray ∧
    g.stack.types = t :: .int32 :: f.stack.types.drop 2

section Failures

variable {f f' g : Frame} {c : Cause} {op : Operation} {i : Instr} {fault : Fault}
  (hroom : f.stack.types.length ≤ f.limit)

include hroom

/-- Code that an operation is rendered to fails at once or not at all, unless it
compares two numbers. -/
theorem Rule.Renders.emitAll_error {rule : Rule} {is : List HostInstr}
    (hrule : op.code.defaultRule? = some rule) (h : rule.Renders f.typing f'.locals op is)
    (hs : f'.stack = f.stack) (hp : f'.pending = f.pending) (hlimit : f'.limit = f.limit)
    (he : emitAll op.code is f' = .error c g) : g = f' ∨ BreaksOff op f g c := by
  have hst : f'.stack.types = f.typing.stack := by
    rw [hs]
    rfl
  have hroom' : f.typing.stack.length ≤ f'.limit := by
    rw [hlimit]
    exact hroom
  cases h with
  | dword | qword | discard | boxed | cast | call | loadStatic | loadField | storeStatic
  | storeField => exact Or.inl (frame_of_singleton_error he)
  | read => exact Or.inl (frame_of_read_error hst hroom' he)
  | store hstack =>
    exact (not_error_of_through hst hroom' (Typing.through_storeInto hroom' hstack _) he).elim
  | references hstack =>
    exact (not_error_of_through hst hroom' (Typing.through_referencesDiffer hroom' hstack) he).elim
  | chain _ hn =>
    rcases default_chain_cases hrule with ⟨_, hseq⟩ | ⟨_, hseq⟩ | rfl
    · rw [hseq] at he
      exact Or.inl (frame_of_singleton_error he)
    · rw [hseq] at he
      exact Or.inl (frame_of_singleton_error he)
    · exfalso
      -- two operands are there, so neither instruction of NOR is refused
      obtain ⟨rhs, lhs, rest, hstack⟩ : ∃ rhs lhs rest, f.typing.stack = rhs :: lhs :: rest := by
        rcases hst' : f.typing.stack with _ | ⟨rhs, _ | ⟨lhs, rest⟩⟩
        · simp [hst', Chain.nor] at hn
        · simp [hst', Chain.nor] at hn
        · exact ⟨rhs, lhs, rest, rfl⟩
      have hbinary : f.typing.binary =
          some { f.typing with stack := .binaryResult lhs rhs :: rest } := by
        rw [Typing.binary, hstack]
      exact not_error_of_through hst hroom' ((Typing.through_nor hroom').trans hbinary) he
  | numbers ht hl hr =>
    obtain ⟨u, v, rest, hstack⟩ := Typing.operands_of_scratch? ht
    obtain ⟨hfull, hc, ⟨st, p, l, hg⟩, hpending, htypes⟩ :=
      left_of_signOfDifference_error hst hroom' hstack hl hr he
    have hlocals : g.locals = f'.locals := by rw [hg]
    have hrest : f.stack.types.drop 2 = rest := by
      have hstack' : f.stack.types = u :: v :: rest := hstack
      rw [hstack']
      rfl
    right
    refine ⟨?_, hlimit ▸ hc, _, _, _, ht, hlocals ▸ hl, hlocals ▸ hr, ?_, hrest ▸ htypes⟩
    · rw [f.stack.depth_eq, ← hlimit]
      exact hfull
    · apply Array.toList_inj.mp
      rw [hpending, Array.toList_append, hp]

/-- An instruction that fails leaves the stack and the pending code alone, or it
is a comparison that breaks off. -/
theorem Registry.default_lower_error (hf : f.SoundLocals)
    (h : Registry.default.lower i f = .error fault g) :
    fault.code = i.code ∧ ((g.stack = f.stack ∧ g.pending = f.pending) ∨
      BreaksOff i.operation f g fault.cause) := by
  cases hr : i.code.defaultRule? with
  | none =>
    rw [default_lower_of_none hr] at h
    cases h
    exact ⟨rfl, Or.inl ⟨rfl, rfl⟩⟩
  | some r =>
    rw [default_lower hr] at h
    obtain ⟨c, hc, rfl⟩ := Rule.lower_eq_error.mp h
    refine ⟨rfl, ?_⟩
    rw [Rule.emit_eq] at hc
    rcases bind_eq_error.mp hc with hplan | ⟨is, f', hplan, hemit⟩
    · have hkeeps : Allocatable fun k => k.stack = f.stack ∧ k.pending = f.pending :=
        ⟨fun _ _ _ _ _ hk => hk, fun _ _ hk => hk⟩
      have hfinal := r.plan_keeps hkeeps i.operation f ⟨rfl, rfl⟩
      rw [final_of_error hplan] at hfinal
      exact Or.inl hfinal
    · obtain ⟨ho, hs, hp⟩ := Rule.plan_eq_ok hplan
      have hlimit : f'.limit = f.limit := congrArg Options.maxStackDepth ho
      rcases (Rule.plan_renders hf hplan).emitAll_error hroom hr hs hp hlimit hemit with rfl | hbreaks
      · exact Or.inl ⟨hs, hp⟩
      · exact Or.inr hbreaks

end Failures

/-- An instruction that the default table cannot lower leaves the stack and the
pending code of any reachable frame as they were, so the next instruction that
is lowered is handed out as its own code, behind what was pending before. The
exception is a comparison of two numbers on a full stack, which breaks off. -/
theorem lower_error_keeps (o : Options) (f g : Frame) (i : Instr) (fault : Fault)
    (hf : f.Reachable o) (h : Registry.default.lower i f = .error fault g) :
    (g.stack = f.stack ∧ g.pending = f.pending ∧
      ∀ next code k, Registry.default.lower next g = .ok code k →
        ∃ own, code = f.pending ++ own ∧
          Registry.default.lower next { g with pending := #[] } = .ok own k) ∨
    BreaksOff i.operation f g fault.cause := by
  obtain ⟨-, ⟨hs, hp⟩ | hbreaks⟩ := Registry.default_lower_error hf.room hf.sound h
  · refine Or.inl ⟨hs, hp, fun next code k hnext => ?_⟩
    rw [← hp]
    exact Registry.lower_behind hnext
  · exact Or.inr hbreaks

/-- A reference and a number, left pending. -/
def mixedOperands : List (CodeRef × Action) :=
  let code := CodeRef.opcode .nop
  [(code, .emit .loadNull), (code, .emit (.loadInt32 1))]

theorem lower_error_keeps_mixedOperands :
    let f := (Transcript.run ⟨{}⟩ {} mixedOperands).frame
    ∃ fault g, Registry.default.lower ⟨0, .plain .cmp .none⟩ f = .error fault g ∧
      g.stack = f.stack ∧ g.pending = f.pending ∧ f.pending.size = 2 := by
  intro f
  have hsize : f.pending.size = 2 := by decide +kernel
  have hroom : f.stack.depth ≠ f.limit := by decide +kernel
  have hfails : (match Registry.default.lower ⟨0, .plain .cmp .none⟩ f with
      | .error _ _ => true
      | .ok _ _ => false) = true := by decide +kernel
  cases h : Registry.default.lower ⟨0, .plain .cmp .none⟩ f with
  | ok code g =>
    rw [h] at hfails
    cases hfails
  | error fault g =>
    refine ⟨fault, g, rfl, ?_⟩
    rcases lower_error_keeps {} f g _ fault ⟨⟨{}⟩, mixedOperands, rfl⟩ h with ⟨hs, hp, -⟩ | hbreaks
    · exact ⟨hs, hp, hsize⟩
    · exact absurd hbreaks.full hroom

/-- Two numbers, as many as the stack may hold. -/
def fullStack : List (CodeRef × Action) :=
  let code := CodeRef.opcode .nop
  [(code, .lower ⟨0, .plain .pushiQword (.qword 1)⟩),
    (code, .lower ⟨9, .plain .pushiQword (.qword 2)⟩)]

/-- Comparing them fails and leaves six instructions pending and another type
on the stack. -/
theorem lower_error_fullStack :
    let o : Options := { maxStackDepth := 2 }
    let f := (Transcript.run Registry.default o fullStack).frame
    f.Reachable o ∧ ∃ fault g,
      Registry.default.lower ⟨18, .plain .cmpQword .none⟩ f = .error fault g ∧
      f.pending.size = 0 ∧ g.pending.size = 6 ∧
      f.stack.types = [.int64, .int64] ∧ g.stack.types = [.int64, .int32] := by
  intro o f
  have hfails : (match Registry.default.lower ⟨18, .plain .cmpQword .none⟩ f with
      | .error _ g => some (g.pending.size, g.stack.types)
      | .ok _ _ => none) = some (6, [.int64, .int32]) := by decide +kernel
  refine ⟨⟨Registry.default, fullStack, rfl⟩, ?_⟩
  cases h : Registry.default.lower ⟨18, .plain .cmpQword .none⟩ f with
  | ok code g =>
    rw [h] at hfails
    cases hfails
  | error fault g =>
    rw [h, Option.some.injEq, Prod.mk.injEq] at hfails
    exact ⟨fault, g, rfl, by decide +kernel, hfails.1, by decide +kernel, hfails.2⟩

end Devirt
