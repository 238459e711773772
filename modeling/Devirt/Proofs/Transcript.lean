/-
# Everything a frame has produced

A frame hands its host code out in pieces: what is pending when it is asked,
and what an instruction was lowered to. A transcript is a frame with all it
has handed out so far, so its code is what was handed out and then what is
still pending. Calls may fail and the transcript goes on with what they left.

A property of the code and the frame that allocation, emission and handing
out keep holds of every body under recompilation (`CodeInvariant.assemble`), and
of every transcript if it does not depend on the locals handed out
(`TranscriptInvariant.run`).

Key definitions: `Transcript`, `Transcript.run`, `Transcript.code`,
`CodeInvariant`, `TranscriptInvariant`.
Key theorems: `Registry.lower_eq_ok`, `Registry.lower_eq_error`,
`CodeInvariant.assemble`, `TranscriptInvariant.run`, `Registry.recompile_eq_ok`.
-/
import Devirt.Proofs.Plan
import Devirt.Recompile
import Devirt.Session

namespace Devirt

open Devirt.Frame Lower

/-! ### Lowering, taken apart -/

theorem Rule.lower_eq_ok {r : Rule} {i : Instr} {f g : Frame} {code : Array HostInstr} :
    r.lower i f = .ok code g ↔
      ∃ h, r.emit i.operation f = .ok () h ∧ code = h.pending ∧ g = { h with pending := #[] } := by
  have hl : r.lower i f = .ok code g ↔ r.lowerOperation i.operation f = .ok code g := by
    cases h : r.lowerOperation i.operation f with
    | ok a k => rw [Rule.lower, chargedTo_of_ok h]; simp
    | error c k => rw [Rule.lower, chargedTo_of_error h]; simp
  rw [hl, Rule.lowerOperation, bind_eq_ok]
  constructor
  · rintro ⟨⟨⟩, h, he, ht⟩
    cases ht
    exact ⟨h, he, rfl, rfl⟩
  · rintro ⟨h, he, rfl, rfl⟩
    exact ⟨(), h, he, rfl⟩

theorem Rule.lower_eq_error {r : Rule} {i : Instr} {f g : Frame} {fault : Fault} :
    r.lower i f = .error fault g ↔
      ∃ c, r.emit i.operation f = .error c g ∧ fault = ⟨i.code, c⟩ := by
  cases h : r.emit i.operation f with
  | ok u k =>
    have ho : r.lowerOperation i.operation f = .ok k.pending { k with pending := #[] } := by
      rw [Rule.lowerOperation, bind_of_ok h]; rfl
    rw [Rule.lower, chargedTo_of_ok ho]; simp
  | error c k =>
    have ho : r.lowerOperation i.operation f = .error c k := by
      rw [Rule.lowerOperation, bind_of_error h]
    rw [Rule.lower, chargedTo_of_error ho]
    simp [eq_comm, and_comm, and_assoc]

theorem Registry.lower_of_find {reg : Registry} {i : Instr} {r : Installed}
    (h : reg.find? i.code = some r) : reg.lower i = r.rule.lower i := by
  simp [Registry.lower, Registry.lookup, h]

theorem Registry.lower_of_find_none {reg : Registry} {i : Instr} (h : reg.find? i.code = none) :
    reg.lower i = throw ⟨i.code, .unsupported⟩ := by
  simp [Registry.lower, Registry.lookup, h]

/-- What is lowered, a rule of the registry has lowered. -/
theorem Registry.lower_eq_ok {reg : Registry} {i : Instr} {f g : Frame} {code : Array HostInstr} :
    reg.lower i f = .ok code g ↔
      ∃ r, reg.find? i.code = some r ∧ r.rule.lower i f = .ok code g := by
  cases hr : reg.find? i.code with
  | some r => simp [lower_of_find hr]
  | none =>
    rw [lower_of_find_none hr]
    constructor
    · intro h
      cases h
    · rintro ⟨r, hsome, -⟩
      cases hsome

/-- An instruction fails for want of a rule, or its rule fails. -/
theorem Registry.lower_eq_error {reg : Registry} {i : Instr} {f g : Frame} {fault : Fault} :
    reg.lower i f = .error fault g ↔
      (reg.find? i.code = none ∧ fault = ⟨i.code, .unsupported⟩ ∧ g = f) ∨
        ∃ r, reg.find? i.code = some r ∧ r.rule.lower i f = .error fault g := by
  cases hr : reg.find? i.code with
  | some r => simp [lower_of_find hr]
  | none =>
    rw [lower_of_find_none hr]
    constructor
    · intro h
      cases h
      exact .inl ⟨rfl, rfl, rfl⟩
    · rintro (⟨-, rfl, rfl⟩ | ⟨r, hsome, -⟩)
      · rfl
      · cases hsome

/-! ### Transcripts -/

/-- A call that pushes or pops types by itself, without host code. -/
def Action.movesStack : Action → Bool
  | .push _ | .pop _ => true
  | _ => false

/-- The host code in an answer. -/
def Answer.handed : Answer → List HostInstr
  | .code is => is.toList
  | _ => []

structure Transcript where
  frame : Frame
  /-- The host code handed out so far. -/
  handed : List HostInstr := []

namespace Transcript

/-- All host code produced so far, the pending one last. -/
def code (t : Transcript) : List HostInstr := t.handed ++ t.frame.pending.toList

/-- The transcript after a call, charged to a code of the caller's. -/
def next (reg : Registry) (t : Transcript) (call : CodeRef × Action) : Transcript :=
  match call.2.run reg call.1 t.frame with
  | .ok answer f => ⟨f, t.handed ++ answer.handed⟩
  | .error _ f => ⟨f, t.handed⟩

/-- The transcript of calls on a new frame. -/
def run (reg : Registry) (options : Options) (calls : List (CodeRef × Action)) : Transcript :=
  calls.foldl (next reg) { frame := .start options }

end Transcript

/-! ### Invariants -/

/-- A property of the code produced so far and the frame that survives
allocation, emission and handing out of code. -/
structure CodeInvariant (P : List HostInstr → Frame → Prop) : Prop where
  addLocal : ∀ H f origin t h, f.MayAdd origin t → P H f → P H (f.addLocal origin t h)
  markStored : ∀ H f fs, P H f → P H { f with floats := fs }
  emit : ∀ H f code i s, i.effect f.limit f.locals f.stack = .ok s → P H f →
    P (H ++ [i]) (f.afterEmit code i s)
  drain : ∀ H f, P H f → P H { f with pending := #[] }

namespace CodeInvariant

variable {P : List HostInstr → Frame → Prop} (hP : CodeInvariant P) {H : List HostInstr}
  {f g : Frame}

/-- The property of a frame whose pending code comes after `H`. -/
abbrev Behind (P : List HostInstr → Frame → Prop) (H : List HostInstr) (f : Frame) : Prop :=
  P (H ++ f.pending.toList) f

include hP

theorem allocatable : Allocatable (Behind P H) where
  addLocal f origin t h hm hf := hP.addLocal _ f origin t h hm hf
  markStored f fs hf := hP.markStored _ f fs hf

theorem emittable : Emittable (Behind P H) := by
  intro f code i s hs hf
  have hcode : H ++ (f.afterEmit code i s).pending.toList = (H ++ f.pending.toList) ++ [i] := by
    simp [afterEmit]
  rw [Behind, hcode]
  exact hP.emit _ f code i s hs hf

theorem keeps_emit (r : Rule) (op : Operation) : Keeps (Behind P H) (r.emit op) :=
  r.emit_keeps hP.allocatable hP.emittable op

theorem drained (hf : Behind P H f) : Behind P (H ++ f.pending.toList) { f with pending := #[] } := by
  simpa [Behind] using hP.drain _ f hf

/-- Lowering hands out all that is pending in the end. -/
theorem lower_ok {r : Rule} {i : Instr} {code : Array HostInstr} (hf : Behind P H f)
    (h : r.lower i f = .ok code g) : Behind P (H ++ code.toList) g := by
  obtain ⟨k, hk, rfl, rfl⟩ := Rule.lower_eq_ok.mp h
  exact hP.drained ((hP.keeps_emit r i.operation).ok hk hf)

/-- What a failed lowering emitted stays pending. -/
theorem lower_error {r : Rule} {i : Instr} {fault : Fault} (hf : Behind P H f)
    (h : r.lower i f = .error fault g) : Behind P H g := by
  obtain ⟨c, hc, -⟩ := Rule.lower_eq_error.mp h
  exact final_of_error hc ▸ hP.keeps_emit r i.operation f hf

theorem registry_lower_ok {reg : Registry} {i : Instr} {code : Array HostInstr}
    (hf : Behind P H f) (h : reg.lower i f = .ok code g) : Behind P (H ++ code.toList) g := by
  obtain ⟨r, -, hlower⟩ := Registry.lower_eq_ok.mp h
  exact hP.lower_ok hf hlower

theorem registry_lower_error {reg : Registry} {i : Instr} {fault : Fault}
    (hf : Behind P H f) (h : reg.lower i f = .error fault g) : Behind P H g := by
  rcases Registry.lower_eq_error.mp h with ⟨-, -, rfl⟩ | ⟨r, -, hlower⟩
  · exact hf
  · exact hP.lower_error hf hlower

/-- What lowering a body preserves. -/
theorem assemble {reg : Registry} : ∀ (body : List Instr) {a a' : Assembly} {f f' : Frame},
    Behind P a.instructions.toList f → reg.assemble body a f = (.ok a', f') →
    Behind P a'.instructions.toList f'
  | [], _, _, _, _, hf, h => by
    cases h
    exact hf
  | i :: rest, a, a', f, f', hf, h => by
    unfold Registry.assemble at h
    cases hl : reg.lower i f with
    | ok code g =>
      simp only [hl] at h
      refine assemble rest ?_ h
      simpa [Assembly.append] using hP.registry_lower_ok hf hl
    | error fault g => simp [hl] at h

end CodeInvariant

/-- A property that handing out locals does not touch either. -/
structure TranscriptInvariant (P : List HostInstr → Frame → Prop) : Prop extends CodeInvariant P where
  report : ∀ H f n, P H f → P H { f with reported := n }

namespace TranscriptInvariant

open CodeInvariant

variable {P : List HostInstr → Frame → Prop} {g : Frame}

theorem next_of_ok {reg : Registry} {t : Transcript} {call : CodeRef × Action} {b : Answer}
    (h : call.2.run reg call.1 t.frame = .ok b g) (hg : Behind P (t.handed ++ b.handed) g) :
    P (t.next reg call).code (t.next reg call).frame := by
  simp only [Transcript.next, h]
  exact hg

theorem next_of_error {reg : Registry} {t : Transcript} {call : CodeRef × Action} {fault : Fault}
    (h : call.2.run reg call.1 t.frame = .error fault g) (hg : Behind P t.handed g) :
    P (t.next reg call).code (t.next reg call).frame := by
  simp only [Transcript.next, h]
  exact hg

/-- A call that hands out no host code. -/
theorem next_of_keeps {α : Type} {reg : Registry} {t : Transcript} {call : CodeRef × Action}
    {x : Lower α} {k : α → Answer} (ha : call.2.run reg call.1 = (k <$> x).chargedTo call.1)
    (hk : ∀ b, (k b).handed = []) (hx : ∀ H, Keeps (Behind P H) x) (ht : P t.code t.frame) :
    P (t.next reg call).code (t.next reg call).frame := by
  cases h : x t.frame with
  | ok b g =>
    refine next_of_ok (g := g) (b := k b) (by rw [ha, chargedTo_of_ok (map_of_ok h)]) ?_
    rw [hk, List.append_nil]
    exact (hx t.handed).ok h ht
  | error c g =>
    refine next_of_error (g := g) (by rw [ha, chargedTo_of_error (map_of_error h)]) ?_
    exact final_of_error h ▸ hx t.handed t.frame ht

variable (hP : TranscriptInvariant P)

include hP

/-- What one call preserves. -/
theorem next {reg : Registry} {t : Transcript} {call : CodeRef × Action}
    (hc : call.2.movesStack = false) (ht : P t.code t.frame) :
    P (t.next reg call).code (t.next reg call).frame := by
  obtain ⟨code, a⟩ := call
  cases a with
  | push | pop => cases hc
  | peek n => exact next_of_keeps rfl (fun _ => rfl) (fun _ => .of_final_eq (final_peek n)) ht
  | registerLocal r t =>
    exact next_of_keeps rfl (fun _ => rfl) (fun _ => keeps_registerLocal hP.allocatable.addLocal r t) ht
  | storeRegister r t =>
    exact next_of_keeps rfl (fun _ => rfl) (fun _ => keeps_storeRegister hP.allocatable r t) ht
  | scratchLocal t slot =>
    exact next_of_keeps rfl (fun _ => rfl) (fun _ => keeps_scratchLocal hP.allocatable.addLocal t slot) ht
  | takeNewLocals =>
    exact next_of_keeps rfl (fun _ => rfl) (fun _ f hf => hP.report _ f f.locals.size hf) ht
  | emit i => exact next_of_keeps rfl (fun _ => rfl) (fun _ => Devirt.keeps_emit hP.emittable code i) ht
  | emitAll is => exact next_of_keeps rfl (fun _ => rfl) (fun _ => keeps_emitAll hP.emittable code is) ht
  | takeEmitted => exact next_of_ok (b := .code t.frame.pending) rfl (hP.drained ht)
  | lower i =>
    cases h : reg.lower i t.frame with
    | ok out g => exact next_of_ok (map_of_ok h) (hP.registry_lower_ok ht h)
    | error fault g => exact next_of_error (map_of_error h) (hP.registry_lower_error ht h)
  | lowerBy rule i =>
    cases h : rule.lower i t.frame with
    | ok out g => exact next_of_ok (map_of_ok h) (hP.lower_ok ht h)
    | error fault g => exact next_of_error (map_of_error h) (hP.lower_error ht h)

/-- What a whole run preserves. -/
theorem run {reg : Registry} {options : Options} {calls : List (CodeRef × Action)}
    (hc : ∀ call ∈ calls, call.2.movesStack = false) (h0 : P [] (.start options)) :
    P (Transcript.run reg options calls).code (Transcript.run reg options calls).frame :=
  List.foldlRecOn (motive := fun t : Transcript => P t.code t.frame) calls _ h0
    fun _ ht call hcall => hP.next (hc call hcall) ht

end TranscriptInvariant

/-! ### Methods -/

/-- Recompilation hands out no locals before it is done. -/
theorem reported_invariant : CodeInvariant fun _ f => f.reported = 0 where
  addLocal _ _ _ _ _ _ hf := hf
  markStored _ _ _ hf := hf
  emit _ _ _ _ _ _ hf := hf
  drain _ _ hf := hf

theorem Registry.assemble_pending {reg : Registry} : ∀ (body : List Instr) {a a' : Assembly}
    {f f' : Frame}, f.pending = #[] → reg.assemble body a f = (.ok a', f') → f'.pending = #[]
  | [], _, _, _, _, hf, h => by
    cases h
    exact hf
  | i :: rest, a, a', f, f', hf, h => by
    unfold Registry.assemble at h
    cases hl : reg.lower i f with
    | error fault g => simp [hl] at h
    | ok code g =>
      simp only [hl] at h
      refine assemble_pending rest ?_ h
      obtain ⟨r, -, hlower⟩ := Registry.lower_eq_ok.mp hl
      obtain ⟨k, -, -, rfl⟩ := Rule.lower_eq_ok.mp hlower
      rfl

/-- The method of a body whose assembly went through. -/
theorem Registry.recompile_eq_ok {reg : Registry} {o : Options} {body : List Instr} {m : Method}
    (h : (reg.recompile o body).result = .ok m) :
    ∃ a f, reg.assemble body {} (.start o) = (.ok a, f) ∧ m.instructions = a.instructions ∧
      m.locals = f.locals ∧ m.maxStack = f.stack.peak ∧ m.mappings = a.mappings := by
  unfold Registry.recompile at h
  split at h
  · rename_i a f ha
    cases h
    have hr : f.reported = 0 := reported_invariant.assemble body rfl ha
    refine ⟨a, f, ha, rfl, ?_, rfl, rfl⟩
    simp [newLocals, hr]
  · cases h

end Devirt
