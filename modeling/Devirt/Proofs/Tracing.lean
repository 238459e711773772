/-
# Tracing does not interfere

Whether emission is logged changes the log and nothing else. A step is blind
to tracing if it does the same on a frame whose log and tracing flag are
erased (`Lower.Blind`). Erasing them is an inert change, so lowering is blind,
and so is every call. A transcript with tracing on is the transcript with
tracing off, and a log beside it (`Transcript.run_untraced`); what comes of a
recompilation is the same (`Registry.result_untraced`).

Key definitions: `Frame.untraced`, `Lower.Blind`.
Key theorems: `Frame.inert_untraced`, `Action.run_blind`,
`Registry.result_untraced`, `Transcript.run_untraced`.
-/
import Devirt.Proofs.Inert

namespace Devirt

/-- The options with tracing off. -/
def Options.untraced (o : Options) : Options := { o with traceEmission := false }

/-- The frame without its log and with tracing off. -/
def Frame.untraced (f : Frame) : Frame :=
  { f with options := f.options.untraced, log := #[] }

open Devirt.Frame Lower

/-- The step does the same with tracing off. -/
def Lower.Blind {ε α : Type} (x : EStateM ε Frame α) : Prop :=
  ∀ f, x f.untraced = mapFrame Frame.untraced (x f)

theorem Frame.inert_untraced : Inert Frame.untraced where
  stack _ := rfl
  locals _ := rfl
  floats _ := rfl
  limit _ := rfl
  reuse _ := rfl
  withStack _ _ := rfl
  withLocals _ _ := rfl
  withFloats _ _ := rfl
  afterEmit _ _ _ _ := rfl

/-! ### Calls and runs -/

theorem Action.run_blind (reg : Registry) (code : CodeRef) (a : Action) : Blind (a.run reg code) :=
  a.run_commutes inert_untraced (fun _ => rfl) reg code fun _ _ => rfl

namespace Registry

theorem lower_blind (reg : Registry) (i : Instr) : Blind (reg.lower i) :=
  reg.lower_commutes inert_untraced (fun _ => rfl) i

/-- A body is assembled the same with tracing off. -/
theorem assemble_untraced (reg : Registry) : ∀ (body : List Instr) (a : Assembly) (f : Frame),
    reg.assemble body a f.untraced =
      ((reg.assemble body a f).1, (reg.assemble body a f).2.untraced)
  | [], a, f => rfl
  | i :: rest, a, f => by
    have hblind := reg.lower_blind i f
    rw [assemble, assemble, hblind]
    cases reg.lower i f with
    | ok code g => exact assemble_untraced reg rest (a.append i.offset code) g
    | error fault g => rfl

/-- What comes of a recompilation does not depend on tracing. -/
theorem result_untraced (reg : Registry) (o : Options) (body : List Instr) :
    (reg.recompile o.untraced body).result = (reg.recompile o body).result := by
  have hstart : Frame.start o.untraced = (Frame.start o).untraced := rfl
  unfold recompile
  rw [hstart, assemble_untraced]
  rcases reg.assemble body {} (.start o) with ⟨e | a, f⟩
  · rfl
  · rfl

end Registry

namespace Transcript

/-- The transcript with its frame untraced. -/
def untraced (t : Transcript) : Transcript := { t with frame := t.frame.untraced }

theorem next_untraced (reg : Registry) (t : Transcript) (call : CodeRef × Action) :
    t.untraced.next reg call = (t.next reg call).untraced := by
  have hb := call.2.run_blind reg call.1 t.frame
  unfold next
  rw [untraced, hb]
  cases call.2.run reg call.1 t.frame <;> rfl

/-- The transcript of a run does not depend on tracing, its log apart. -/
theorem run_untraced (reg : Registry) (o : Options) (calls : List (CodeRef × Action)) :
    run reg o.untraced calls = (run reg o calls).untraced := by
  suffices ∀ t : Transcript,
      calls.foldl (next reg) t.untraced = (calls.foldl (next reg) t).untraced from
    this { frame := .start o }
  induction calls with
  | nil => exact fun _ => rfl
  | cons call calls ih =>
    intro t
    rw [List.foldl_cons, List.foldl_cons, next_untraced, ih]

theorem code_untraced (t : Transcript) : t.untraced.code = t.code := rfl

end Transcript

end Devirt
