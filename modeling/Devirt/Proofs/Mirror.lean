/-
# The abstract stack mirrors the host code

Every emitted instruction has its effect on the abstract stack at once, so the
stack of a frame is that of the host code produced so far: replayed from the
empty stack, the code leaves the types of the stack, and the greatest height on
the way is its peak (`Frame.Mirrors`). A refused instruction changes nothing
and a failed lowering keeps what it emitted, so the law survives calls that
fail, instructions that fail half way, hand-outs at any point and locals that
come later (`transcript_mirrors`).

For a recompiled method this is the safety of its code: by the arities alone,
no instruction takes more than there is, and the depth recorded for the method
is the greatest one that is reached (`recompile_stack_safe`).

Key definitions: `Frame.Mirrors`, `emissions`.
Key theorems: `mirrors_invariant`, `transcript_mirrors`,
`recompile_stack_safe`.
-/
import Devirt.Proofs.Locals
import Devirt.Proofs.Tracing

namespace Devirt

open Devirt.Frame Lower HostInstr

/-! ### The invariant -/

/-- The stack of the frame is the one that the code `H` leaves. -/
structure Frame.Mirrors (o : Options) (H : List HostInstr) (f : Frame) : Prop where
  options : f.options = o
  types : replay (declared f.locals) H [] = some f.stack.types
  peak : IsPeak (height (declared f.locals)) H f.stack.peak
  peak_le : f.stack.peak ≤ o.maxStackDepth

namespace Frame.Mirrors

variable {o : Options} {H : List HostInstr} {f : Frame}

theorem height_eq (hf : f.Mirrors o H) :
    height (declared f.locals) H = some f.stack.types.length := by
  rw [height, hf.types, Option.map_some]

theorem depth_le_peak (hf : f.Mirrors o H) : f.stack.depth ≤ f.stack.peak := by
  rw [f.stack.depth_eq]
  exact hf.peak.height_le hf.height_eq

theorem room (hf : f.Mirrors o H) : f.stack.types.length ≤ f.limit := by
  rw [limit, hf.options, ← f.stack.depth_eq]
  exact Nat.le_trans hf.depth_le_peak hf.peak_le

theorem start (o : Options) : (Frame.start o).Mirrors o [] where
  options := rfl
  types := rfl
  peak := .nil rfl
  peak_le := Nat.zero_le _

theorem addLocal (hf : f.Mirrors o H) (origin : LocalOrigin) (t : StackType)
    (h : f.locals.size < maxLocals) : (f.addLocal origin t h).Mirrors o H where
  options := hf.options
  types := replay_mono (fun _ _ => ((Extends.refl _).push _).declared) H hf.types
  peak := hf.peak.mono fun is _ => height_mono (fun _ _ => ((Extends.refl _).push _).declared) is
  peak_le := hf.peak_le

theorem afterEmit (hf : f.Mirrors o H) {code : CodeRef} {i : HostInstr} {s : EvalStack}
    (hs : i.effect f.limit f.locals f.stack = .ok s) : (f.afterEmit code i s).Mirrors o (H ++ [i]) := by
  have hlimit : f.limit = o.maxStackDepth := congrArg Options.maxStackDepth hf.options
  obtain ⟨hts, hroom⟩ := retype_of_effect hf.room hs
  have hrep : replay (declared f.locals) (H ++ [i]) [] = some s.types := by
    rw [replay_snoc, hf.types, Option.bind_some, hts]
  have hpeak : s.peak = max f.stack.peak s.types.length := by
    rw [← s.depth_eq]
    exact raises_effect hf.depth_le_peak hs
  refine ⟨hf.options, hrep, ?_, ?_⟩
  · rw [show (f.afterEmit code i s).stack.peak = _ from hpeak]
    exact hf.peak.snoc (by rw [height, hrep, Option.map_some])
  · rw [show (f.afterEmit code i s).stack.peak = _ from hpeak]
    exact Nat.max_le.mpr ⟨hf.peak_le, hlimit ▸ hroom⟩

end Frame.Mirrors

theorem mirrors_invariant (o : Options) : TranscriptInvariant (Frame.Mirrors o) where
  addLocal _ _ origin t h _ hf := hf.addLocal origin t h
  markStored _ _ _ hf := ⟨hf.options, hf.types, hf.peak, hf.peak_le⟩
  emit _ _ _ _ _ hs hf := hf.afterEmit hs
  drain _ _ hf := ⟨hf.options, hf.types, hf.peak, hf.peak_le⟩
  report _ _ _ hf := ⟨hf.options, hf.types, hf.peak, hf.peak_le⟩

/-! ### The log names every instruction once -/

/-- The instruction that an event reports as emitted. -/
def Event.emission? : Event → Option HostInstr
  | .emitted _ i _ => some i
  | _ => none

/-- The instructions that a log reports as emitted, in order. -/
def emissions (log : Array Event) : List HostInstr := log.toList.filterMap Event.emission?

theorem emissions_invariant :
    TranscriptInvariant fun H f => f.options.traceEmission = true ∧ emissions f.log = H where
  addLocal _ _ _ _ _ _ hf := hf
  markStored _ _ _ hf := hf
  emit H f code i s _ hf := by
    obtain ⟨ht, rfl⟩ := hf
    refine ⟨ht, ?_⟩
    simp [Frame.afterEmit, ht, emissions, Event.emission?]
  drain _ _ hf := hf
  report _ _ _ hf := hf

/-! ### Transcripts -/

/-- After any run of calls on a new frame that leave the stack to the host
code, failed ones included, the code produced so far replays to the stack of
the frame and to its peak. It is the code that a traced run logs as emitted,
instruction by instruction, so nothing is lost, repeated or reordered. -/
theorem transcript_mirrors (reg : Registry) (o : Options) (calls : List (CodeRef × Action))
    (hc : ∀ call ∈ calls, call.2.movesStack = false) :
    let t := Transcript.run reg o calls
    let traced := Transcript.run reg { o with traceEmission := true } calls
    replay (declared t.frame.locals) t.code [] = some t.frame.stack.types ∧
      IsPeak (height (declared t.frame.locals)) t.code t.frame.stack.peak ∧
      t.code = emissions traced.frame.log := by
  intro t traced
  have hm : t.frame.Mirrors o t.code := (mirrors_invariant o).run hc (.start o)
  have hlog : traced.frame.options.traceEmission = true ∧ emissions traced.frame.log = traced.code :=
    emissions_invariant.run hc ⟨rfl, rfl⟩
  -- both runs are the untraced one, their logs apart
  have hcode : traced.code = t.code := by
    rw [← Transcript.code_untraced traced, ← Transcript.code_untraced t, ← Transcript.run_untraced,
      ← Transcript.run_untraced]
    rfl
  exact ⟨hm.types, hm.peak, hcode ▸ hlog.2.symm⟩

/-- Two constants, handed out, and a comparison that runs out of stack after
six of its nine instructions. -/
def brokenComparison : List (CodeRef × Action) :=
  let code := CodeRef.opcode .nop
  [(code, .emit (.loadInt32 7)), (code, .emit (.loadInt32 5)), (code, .takeEmitted),
    (code, .lowerBy .compare ⟨0, .plain .cmpDword .none⟩), (code, .emit .pop)]

theorem transcript_mirrors_brokenComparison :
    let o : Options := { maxStackDepth := 2 }
    let t := Transcript.run ⟨{}⟩ o brokenComparison
    let traced := Transcript.run ⟨{}⟩ { o with traceEmission := true } brokenComparison
    (∀ call ∈ brokenComparison, call.2.movesStack = false) ∧
      t.handed.length = 2 ∧ t.frame.pending.size = 7 ∧
      replay (declared t.frame.locals) t.code [] = some t.frame.stack.types ∧
      IsPeak (height (declared t.frame.locals)) t.code t.frame.stack.peak ∧
      t.code = emissions traced.frame.log :=
  ⟨by decide, by decide +kernel, by decide +kernel,
    transcript_mirrors ⟨{}⟩ { maxStackDepth := 2 } brokenComparison (by decide)⟩

/-! ### Methods -/

/-- Whatever rules the registry has: run by the arities alone, the code of a
recompiled method never takes more than there is, and the depth recorded for it
is the greatest depth after any prefix, which the limit bounds. -/
theorem recompile_stack_safe (reg : Registry) (o : Options) (body : List Instr) (m : Method)
    (h : (reg.recompile o body).result = .ok m) :
    IsPeak (runArity · 0) m.instructions.toList m.maxStack ∧ m.maxStack ≤ o.maxStackDepth := by
  obtain ⟨a, f, ha, hi, -, hs, -⟩ := Registry.recompile_eq_ok h
  have h0 : CodeInvariant.Behind (Frame.Mirrors o) [] (.start o) := .start o
  have hf := (mirrors_invariant o).assemble body h0 ha
  rw [CodeInvariant.Behind, Registry.assemble_pending body rfl ha, List.append_nil] at hf
  rw [hi, hs]
  exact ⟨hf.peak.mono fun _ _ => runArity_of_height, hf.peak_le⟩

/-- Comparing a register with itself in no more room than it takes. -/
def selfComparison : List Instr :=
  [⟨0, .plain .pushrDword (.register .r1)⟩, ⟨1, .plain .pushrDword (.register .r1)⟩,
    ⟨2, .plain .cmpDword .none⟩, ⟨3, .plain .pop (.register .r2)⟩]

theorem recompile_stack_safe_selfComparison :
    ∃ m, (Registry.default.recompile { maxStackDepth := 3 } selfComparison).result = .ok m ∧
      m.maxStack = 3 ∧ IsPeak (runArity · 0) m.instructions.toList m.maxStack := by
  have h : ((Registry.default.recompile { maxStackDepth := 3 } selfComparison).result.map
      Method.maxStack).toOption = some 3 := by decide +kernel
  cases hm : (Registry.default.recompile { maxStackDepth := 3 } selfComparison).result with
  | error e =>
    rw [hm] at h
    cases h
  | ok m =>
    rw [hm] at h
    exact ⟨m, rfl, Option.some.inj h, (recompile_stack_safe _ _ _ m hm).1⟩

end Devirt
