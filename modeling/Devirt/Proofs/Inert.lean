/-
# What lowering does not read

Some parts of a frame are written by lowering and never read: the log with
what asks for it, and the code that is already pending. A change of a frame
that keeps to those is inert (`Frame.Inert`). Lowering commutes with an inert
change: it ends alike, and the change can be made before or after it
(`Rule.emit_commutes`), and so does any call (`Action.run_commutes`). Finding
the code of an operation reads less than emitting it, so it commutes with more
(`Rule.plan_commutes`), and allocation reads less still.

Code that is pending when an instruction is lowered is handed out ahead of the
instruction's own code and has no other influence
(`Registry.lower_behind`).

Key definitions: `Lower.Commutes`, `Frame.AllocInert`, `Frame.PlanInert`,
`Frame.Inert`, `Frame.behind`.
Key theorems: `Rule.plan_commutes`, `Rule.emit_commutes`,
`Action.run_commutes`, `Registry.lower_behind`.
-/
import Devirt.Proofs.Transcript

namespace Devirt

open Devirt.Frame

/-! ### Composition -/

namespace Lower

variable {ε α β : Type} {φ : Frame → Frame}

/-- The outcome with its frame changed. -/
def mapFrame (φ : Frame → Frame) : EStateM.Result ε Frame α → EStateM.Result ε Frame α
  | .ok a f => .ok a (φ f)
  | .error e f => .error e (φ f)

/-- The step does the same whether the frame is changed before or after it. -/
def Commutes (φ : Frame → Frame) (x : EStateM ε Frame α) : Prop :=
  ∀ f, x (φ f) = mapFrame φ (x f)

namespace Commutes

theorem ok {x : EStateM ε Frame α} (hx : Commutes φ x) {f g : Frame} {a : α} (h : x f = .ok a g) :
    x (φ f) = .ok a (φ g) := by
  rw [hx f, h]
  rfl

theorem error {x : EStateM ε Frame α} (hx : Commutes φ x) {f g : Frame} {e : ε}
    (h : x f = .error e g) : x (φ f) = .error e (φ g) := by
  rw [hx f, h]
  rfl

theorem pure (a : α) : Commutes φ (pure a : EStateM ε Frame α) := fun _ => rfl

theorem throw (e : ε) : Commutes φ (throw e : EStateM ε Frame α) := fun _ => rfl

theorem bind {x : EStateM ε Frame α} {k : α → EStateM ε Frame β} (hx : Commutes φ x)
    (hk : ∀ a, Commutes φ (k a)) : Commutes φ (x >>= k) := by
  intro f
  cases h : x f with
  | ok a g => rw [bind_of_ok h, bind_of_ok (hx.ok h), hk a g]
  | error e g =>
    rw [bind_of_error h, bind_of_error (hx.error h)]
    rfl

theorem map {x : EStateM ε Frame α} (hx : Commutes φ x) (k : α → β) : Commutes φ (k <$> x) := by
  intro f
  cases h : x f with
  | ok a g =>
    rw [map_of_ok h, map_of_ok (hx.ok h)]
    rfl
  | error e g =>
    rw [map_of_error h, map_of_error (hx.error h)]
    rfl

theorem chargedTo {x : Lower α} (hx : Commutes φ x) (code : CodeRef) :
    Commutes φ (x.chargedTo code) := by
  intro f
  cases h : x f with
  | ok a g =>
    rw [chargedTo_of_ok h, chargedTo_of_ok (hx.ok h)]
    rfl
  | error c g =>
    rw [chargedTo_of_error h, chargedTo_of_error (hx.error h)]
    rfl

end Commutes

end Lower

open Lower

/-! ### Inert changes -/

/-- The change keeps what allocation reads, and can be made before or after each
change that it makes. -/
structure Frame.AllocInert (φ : Frame → Frame) : Prop where
  locals : ∀ f, (φ f).locals = f.locals
  floats : ∀ f, (φ f).floats = f.floats
  reuse : ∀ f, (φ f).options.reuseTemporaries = f.options.reuseTemporaries
  withLocals : ∀ f ls, φ { f with locals := ls } = { φ f with locals := ls }
  withFloats : ∀ f fs, φ { f with floats := fs } = { φ f with floats := fs }

/-- The change keeps what finding the code of an operation reads as well. -/
structure Frame.PlanInert (φ : Frame → Frame) : Prop extends Frame.AllocInert φ where
  stack : ∀ f, (φ f).stack = f.stack

/-- The change keeps all that lowering reads, and can be made before or after
each change that lowering makes. -/
structure Frame.Inert (φ : Frame → Frame) : Prop extends Frame.PlanInert φ where
  limit : ∀ f, (φ f).limit = f.limit
  withStack : ∀ f s, φ { f with stack := s } = { φ f with stack := s }
  afterEmit : ∀ f code i s, φ (f.afterEmit code i s) = (φ f).afterEmit code i s

namespace Frame.AllocInert

variable {φ : Frame → Frame} (hφ : AllocInert φ)

include hφ

theorem holdsFloat (f : Frame) (r : Register) : (φ f).holdsFloat r = f.holdsFloat r := by
  rw [Frame.holdsFloat, Frame.holdsFloat, hφ.floats]

theorem findLocal? (f : Frame) (origin : LocalOrigin) (t : StackType) :
    (φ f).findLocal? origin t = f.findLocal? origin t := by
  rw [Frame.findLocal?, Frame.findLocal?, hφ.locals]

theorem addLocal (f : Frame) (origin : LocalOrigin) (t : StackType)
    (h : f.locals.size < maxLocals) (h' : (φ f).locals.size < maxLocals) :
    (φ f).addLocal origin t h' = φ (f.addLocal origin t h) := by
  have hadd := hφ.withLocals f (f.locals.push ⟨⟨f.locals.size, h⟩, t, origin⟩)
  unfold Frame.addLocal
  rw [hadd]
  simp only [hφ.locals]

theorem allocate (origin : LocalOrigin) (t : StackType) : Commutes φ (Frame.allocate origin t) := by
  intro f
  have hsize : (φ f).locals.size = f.locals.size := by rw [hφ.locals]
  rcases Nat.lt_or_ge f.locals.size maxLocals with h | h
  · have h' : (φ f).locals.size < maxLocals := by omega
    rw [allocate_of_lt origin t h, allocate_of_lt origin t h', hφ.addLocal f origin t h h']
    simp only [hsize]
    rfl
  · have h' : maxLocals ≤ (φ f).locals.size := by omega
    rw [allocate_of_ge origin t h, allocate_of_ge origin t h']
    rfl

theorem localFor (origin : LocalOrigin) (t : StackType) : Commutes φ (Frame.localFor origin t) := by
  intro f
  unfold Frame.localFor
  rw [hφ.findLocal?]
  cases f.findLocal? origin t with
  | some i => rfl
  | none => exact hφ.allocate origin t f

theorem markStored (r : Register) (t : StackType) : Commutes φ (Frame.markStored r t) := by
  intro f
  unfold Frame.markStored
  rw [hφ.floats]
  exact congrArg _ (hφ.withFloats f _).symm

theorem storeRegister (r : Register) (t : StackType) : Commutes φ (Frame.storeRegister r t) :=
  (hφ.localFor _ _).bind fun _ => (hφ.markStored r t).bind fun _ => .pure _

theorem scratchLocal (t : StackType) (slot : UInt8) : Commutes φ (Frame.scratchLocal t slot) := by
  intro f
  unfold Frame.scratchLocal
  rw [hφ.reuse]
  cases f.options.reuseTemporaries with
  | true => exact hφ.localFor _ t f
  | false => exact hφ.allocate _ t f

end Frame.AllocInert

namespace Frame.PlanInert

variable {φ : Frame → Frame} (hφ : PlanInert φ)

include hφ

theorem peek (n : Nat) : Commutes φ (Frame.peek n) := by
  intro f
  rw [Frame.peek, Frame.peek, hφ.stack]
  cases f.stack.peek n <;> rfl

theorem require (n : Nat) : Commutes φ (Frame.require n) := by
  intro f
  unfold Frame.require
  rw [hφ.stack]
  split <;> rfl

theorem compositional : Compositional (Commutes φ) where
  pure := .pure
  throw _ := .throw _
  bind := .bind
  peek := hφ.peek
  require := hφ.require
  holdsFloat r k hk f := by
    show k ((φ f).holdsFloat r) (φ f) = _
    rw [hφ.holdsFloat]
    exact hk (f.holdsFloat r) f
  registerLocal _ _ := hφ.localFor _ _
  storeRegister := hφ.storeRegister
  scratchLocal := hφ.scratchLocal

end Frame.PlanInert

/-- Finding the code of an operation commutes with what it does not read. -/
theorem Rule.plan_commutes {φ : Frame → Frame} (hφ : PlanInert φ) (r : Rule) (op : Operation) :
    Commutes φ (r.plan op) :=
  hφ.compositional.plan r op

namespace Frame.Inert

variable {φ : Frame → Frame} (hφ : Inert φ)

include hφ

theorem push (t : StackType) : Commutes φ (Frame.push t) := by
  intro f
  rw [Frame.push, Frame.push, hφ.stack, hφ.limit]
  cases f.stack.push f.limit t with
  | ok s => exact congrArg _ (hφ.withStack f s).symm
  | error c => rfl

theorem pop (n : Nat) : Commutes φ (Frame.pop n) := by
  intro f
  rw [Frame.pop, Frame.pop, hφ.stack]
  cases f.stack.pop n with
  | ok r => exact congrArg _ (hφ.withStack f r.2).symm
  | error c => rfl

theorem emit (code : CodeRef) (i : HostInstr) : Commutes φ (Frame.emit code i) := by
  intro f
  have heff : i.effect (φ f).limit (φ f).locals (φ f).stack = i.effect f.limit f.locals f.stack := by
    rw [hφ.limit, hφ.locals, hφ.stack]
  cases h : i.effect f.limit f.locals f.stack with
  | ok s =>
    rw [emit_eq_ok.mpr ⟨s, h, rfl⟩]
    exact emit_eq_ok.mpr ⟨s, heff.trans h, hφ.afterEmit f code i s⟩
  | error c =>
    rw [emit_eq_error.mpr ⟨h, rfl⟩]
    exact emit_eq_error.mpr ⟨heff.trans h, rfl⟩

theorem emitAll (code : CodeRef) : ∀ is, Commutes φ (Frame.emitAll code is)
  | [] => .pure _
  | i :: is => (hφ.emit code i).bind fun _ => emitAll code is

end Frame.Inert

/-- A rule commutes with every inert change. -/
theorem Rule.emit_commutes {φ : Frame → Frame} (hφ : Inert φ) (r : Rule) (op : Operation) :
    Commutes φ (r.emit op) := by
  rw [Rule.emit_eq]
  exact (r.plan_commutes hφ.toPlanInert op).bind fun is => hφ.emitAll op.code is

/-! ### Calls -/

section Calls

variable {φ : Frame → Frame} (hφ : Inert φ) (hdrain : Commutes φ Frame.takeEmitted)

include hφ hdrain

theorem Rule.lower_commutes (r : Rule) (i : Instr) : Commutes φ (r.lower i) :=
  ((r.emit_commutes hφ i.operation).bind fun _ => hdrain).chargedTo i.code

theorem Registry.lower_commutes (reg : Registry) (i : Instr) : Commutes φ (reg.lower i) := by
  cases h : reg.find? i.code with
  | some r =>
    rw [Registry.lower_of_find h]
    exact r.rule.lower_commutes hφ hdrain i
  | none =>
    rw [Registry.lower_of_find_none h]
    exact Commutes.throw _

/-- A call commutes with every inert change that its hand-outs commute with. -/
theorem Action.run_commutes (reg : Registry) (code : CodeRef) {a : Action}
    (hlocals : a = .takeNewLocals → Commutes φ Frame.takeNewLocals) : Commutes φ (a.run reg code) := by
  cases a with
  | push t => exact ((hφ.push t).map _).chargedTo code
  | pop n => exact ((hφ.pop n).map _).chargedTo code
  | peek n => exact ((hφ.peek n).map _).chargedTo code
  | registerLocal r t => exact ((hφ.localFor _ _).map _).chargedTo code
  | storeRegister r t => exact ((hφ.storeRegister r t).map _).chargedTo code
  | scratchLocal t slot => exact ((hφ.scratchLocal t slot).map _).chargedTo code
  | takeNewLocals => exact ((hlocals rfl).map _).chargedTo code
  | emit i => exact ((hφ.emit code i).map _).chargedTo code
  | emitAll is => exact ((hφ.emitAll code is).map _).chargedTo code
  | takeEmitted => exact (hdrain.map _).chargedTo code
  | lower i => exact (reg.lower_commutes hφ hdrain i).map _
  | lowerBy rule i => exact (rule.lower_commutes hφ hdrain i).map _

end Calls

/-! ### Pending code -/

/-- The frame with more code pending, ahead of its own. -/
def Frame.behind (p : Array HostInstr) (f : Frame) : Frame := { f with pending := p ++ f.pending }

theorem Frame.inert_behind (p : Array HostInstr) : Inert (Frame.behind p) where
  stack _ := rfl
  locals _ := rfl
  floats _ := rfl
  limit _ := rfl
  reuse _ := rfl
  withStack _ _ := rfl
  withLocals _ _ := rfl
  withFloats _ _ := rfl
  afterEmit f code i s := by
    unfold behind afterEmit
    rw [Array.append_push]

/-- A frame is the frame with nothing pending behind what it has pending. -/
theorem Frame.behind_pending (f : Frame) : ({ f with pending := #[] } : Frame).behind f.pending = f := by
  simp [behind]

variable {f g : Frame} {i : Instr} {code : Array HostInstr}

theorem Rule.lower_behind {r : Rule} (p : Array HostInstr) (h : r.lower i f = .ok code g) :
    r.lower i (f.behind p) = .ok (p ++ code) g := by
  obtain ⟨k, hk, rfl, rfl⟩ := Rule.lower_eq_ok.mp h
  refine Rule.lower_eq_ok.mpr ⟨k.behind p, ?_, rfl, rfl⟩
  exact (r.emit_commutes (inert_behind p) i.operation).ok hk

theorem Rule.lower_error_behind {r : Rule} {fault : Fault} (p : Array HostInstr)
    (h : r.lower i f = .error fault g) : r.lower i (f.behind p) = .error fault (g.behind p) := by
  obtain ⟨c, hc, rfl⟩ := Rule.lower_eq_error.mp h
  exact Rule.lower_eq_error.mpr ⟨c, (r.emit_commutes (inert_behind p) i.operation).error hc, rfl⟩

/-- What an instruction is lowered to is its own code behind what was pending. -/
theorem Registry.lower_behind {reg : Registry} (h : reg.lower i f = .ok code g) :
    ∃ own, code = f.pending ++ own ∧ reg.lower i { f with pending := #[] } = .ok own g := by
  obtain ⟨r, hr, hrule⟩ := lower_eq_ok.mp h
  rw [lower_of_find hr]
  have hf := f.behind_pending
  cases hown : r.rule.lower i { f with pending := #[] } with
  | ok own k =>
    have hcode := Rule.lower_behind f.pending hown
    rw [hf, hrule] at hcode
    cases hcode
    exact ⟨own, rfl, rfl⟩
  | error fault k =>
    have herr := Rule.lower_error_behind f.pending hown
    rw [hf, hrule] at herr
    cases herr

end Devirt
