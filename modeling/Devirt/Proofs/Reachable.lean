/-
# Reachable frames

A frame is reachable if some run of calls on a new frame leads to it. Any call
may be made, those that push and pop types without host code included, and
lowering may go by any registry and any rule. What a property needs to hold of
every reachable frame is one fact for each way a frame can change
(`StackInvariant`).

Every reachable frame has the options it was started with, a sound table of
locals and a stack within its limit (`Frame.Reachable.options`,
`Frame.Reachable.sound`, `Frame.Reachable.room`).

Key definitions: `StackInvariant`, `Frame.Reachable`, `Frame.after`.
Key theorems: `StackInvariant.run`, `Frame.Reachable.of_invariant`,
`Frame.reachable_after`.
-/
import Devirt.Proofs.Locals

namespace Devirt

open Devirt.Frame Lower HostInstr

/-! ### Invariants of all calls -/

/-- A property that pushing and popping types does not touch either. -/
structure StackInvariant (P : List HostInstr → Frame → Prop) : Prop extends TranscriptInvariant P where
  push : ∀ H f t s, f.stack.push f.limit t = .ok s → P H f → P H { f with stack := s }
  drop : ∀ H f n s, f.stack.drop n = .ok s → P H f → P H { f with stack := s }

namespace StackInvariant

open CodeInvariant TranscriptInvariant

variable {P : List HostInstr → Frame → Prop} (hP : StackInvariant P)

include hP

theorem keeps_push (H : List HostInstr) (t : StackType) : Keeps (Behind P H) (Frame.push t) := by
  intro f hf
  unfold final Frame.push
  cases hs : f.stack.push f.limit t with
  | ok s => exact hP.push _ f t s hs hf
  | error c => exact hf

theorem keeps_pop (H : List HostInstr) (n : Nat) : Keeps (Behind P H) (Frame.pop n) := by
  intro f hf
  unfold final Frame.pop EvalStack.pop
  cases hs : f.stack.drop n with
  | ok s => exact hP.drop _ f n s hs hf
  | error c => exact hf

/-- What one call preserves. -/
theorem next {reg : Registry} {t : Transcript} {call : CodeRef × Action}
    (ht : P t.code t.frame) : P (t.next reg call).code (t.next reg call).frame := by
  by_cases hc : call.2.movesStack = false
  · exact hP.toTranscriptInvariant.next hc ht
  · obtain ⟨code, a⟩ := call
    cases a with
    | push t => exact next_of_keeps rfl (fun _ => rfl) (fun H => hP.keeps_push H t) ht
    | pop n => exact next_of_keeps rfl (fun _ => rfl) (fun H => hP.keeps_pop H n) ht
    | _ => exact absurd rfl hc

/-- What a whole run preserves. -/
theorem run {reg : Registry} {options : Options} {calls : List (CodeRef × Action)}
    (h0 : P [] (.start options)) :
    P (Transcript.run reg options calls).code (Transcript.run reg options calls).frame :=
  List.foldlRecOn (motive := fun t : Transcript => P t.code t.frame) calls _ h0
    fun _ ht _ _ => hP.next ht

end StackInvariant

/-! ### Reachable frames -/

/-- Some run of calls on a new frame leads to the frame. -/
def Frame.Reachable (o : Options) (f : Frame) : Prop :=
  ∃ reg calls, (Transcript.run reg o calls).frame = f

theorem sound_stackInvariant : StackInvariant fun _ f => f.SoundLocals where
  toTranscriptInvariant := sound_invariant
  push _ _ _ _ _ hf := ⟨hf.index_eq, hf.find_eq, hf.slotType⟩
  drop _ _ _ _ _ hf := ⟨hf.index_eq, hf.find_eq, hf.slotType⟩

theorem options_stackInvariant (o : Options) : StackInvariant fun _ f => f.options = o where
  addLocal _ _ _ _ _ _ hf := hf
  markStored _ _ _ hf := hf
  emit _ _ _ _ _ _ hf := hf
  drain _ _ hf := hf
  report _ _ _ hf := hf
  push _ _ _ _ _ hf := hf
  drop _ _ _ _ _ hf := hf

/-- No call takes a local back. -/
theorem extends_stackInvariant (ls : Array Local) :
    StackInvariant fun _ f => Extends ls f.locals where
  toTranscriptInvariant := extends_invariant ls
  push _ _ _ _ _ hf := hf
  drop _ _ _ _ _ hf := hf

/-- The stack never holds more than the limit allows. -/
theorem room_stackInvariant : StackInvariant fun _ f => f.stack.types.length ≤ f.limit where
  addLocal _ _ _ _ _ _ hf := hf
  markStored _ _ _ hf := hf
  emit _ _ _ _ _ hs hf := (retype_of_effect hf hs).2
  drain _ _ hf := hf
  report _ _ _ hf := hf
  push _ _ _ s hs _ := (leaves_push_iff.mp ⟨s, hs, rfl⟩).2
  drop _ _ _ s hs hf := ((leaves_drop_iff hf).mp ⟨s, hs, rfl⟩).2

namespace Frame.Reachable

variable {o : Options} {f : Frame}

/-- What holds of a new frame and survives every call holds of every reachable
frame. -/
theorem of_invariant {P : Frame → Prop} (hP : StackInvariant fun _ f => P f)
    (h0 : P (.start o)) (hf : f.Reachable o) : P f := by
  obtain ⟨reg, calls, rfl⟩ := hf
  exact hP.run h0

theorem options (hf : f.Reachable o) : f.options = o :=
  of_invariant (options_stackInvariant o) rfl hf

theorem sound (hf : f.Reachable o) : f.SoundLocals :=
  of_invariant sound_stackInvariant (.start o) hf

theorem room (hf : f.Reachable o) : f.stack.types.length ≤ f.limit :=
  of_invariant room_stackInvariant (Nat.zero_le _) hf

end Frame.Reachable

/-! ### The frame after calls -/

/-- What one call preserves of a frame. -/
theorem StackInvariant.action_next {P : Frame → Prop} (hP : StackInvariant fun _ f => P f)
    (reg : Registry) (code : CodeRef) (a : Action) {f : Frame} (hf : P f) : P (a.next reg code f) := by
  have hnext : P (Transcript.next reg ⟨f, []⟩ (code, a)).frame := hP.next hf
  unfold Transcript.next at hnext
  unfold Action.next
  cases h : a.run reg code f <;> simpa only [h] using hnext

namespace Frame

variable {reg : Registry} {o : Options} {f : Frame} {calls : List (CodeRef × Action)}

/-- The frame after calls, whether they fail or not. -/
def after (reg : Registry) (calls : List (CodeRef × Action)) (f : Frame) : Frame :=
  calls.foldl (fun g call => call.2.next reg call.1 g) f

theorem after_snoc (call : CodeRef × Action) :
    f.after reg (calls ++ [call]) = call.2.next reg call.1 (f.after reg calls) := by
  rw [after, List.foldl_append]
  rfl

/-- It is the frame of the transcript. -/
theorem after_start : (Frame.start o).after reg calls = (Transcript.run reg o calls).frame := by
  have hnext : ∀ (t : Transcript) call, (t.next reg call).frame = call.2.next reg call.1 t.frame := by
    intro t call
    unfold Transcript.next Action.next
    cases call.2.run reg call.1 t.frame <;> rfl
  suffices ∀ t : Transcript, t.frame.after reg calls = (calls.foldl (Transcript.next reg) t).frame from
    this { frame := .start o }
  induction calls with
  | nil => exact fun _ => rfl
  | cons call calls ih =>
    intro t
    rw [List.foldl_cons, ← ih, hnext]
    rfl

theorem reachable_after (reg : Registry) (o : Options) (calls : List (CodeRef × Action)) :
    ((Frame.start o).after reg calls).Reachable o :=
  ⟨reg, calls, after_start.symm⟩

end Frame

end Devirt
