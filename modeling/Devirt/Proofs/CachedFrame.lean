/-
# A frame with maps instead of searches

A frame searches its table for the local of a register or a shared scratch slot,
and lists the registers that hold a float. A context may as well keep maps: the
local of each register and storage class, the scratch local of each type and
slot, and the class of what each register was last stored with
(`CachedFrame`). It enters a local where it allocates one, and looks up what it
has entered.

The maps of a new context are empty, as its table is, and they say what the
searches say from then on (`CachedFrame.Of`). So each primitive answers the same
with maps as without, and fails where it fails without them, and so does every
step that is composed of them (`Simulates.bind`).

Key definitions: `CachedFrame`, `CachedFrame.Of`, `Simulates`.
Key theorems: `CachedFrame.Of.enterRegister`, `CachedFrame.Of.enterScratch`,
`simulates_registerLocal`, `simulates_storeRegister`, `simulates_scratchLocal`,
`simulates_holdsFloat`, `simulates_onFrame`, `Simulates.bind`, `Simulates.of_start`.
-/
import Devirt.Proofs.Inert
import Devirt.Proofs.Locals
import Mathlib.Logic.Function.Basic

namespace Devirt

open Devirt.Frame Lower

/-- The frame without its list of registers that hold floats. -/
def Frame.unlisted (f : Frame) : Frame := { f with floats := [] }

@[simp] theorem Frame.unlisted_stack (f : Frame) : f.unlisted.stack = f.stack := rfl

@[simp] theorem Frame.unlisted_locals (f : Frame) : f.unlisted.locals = f.locals := rfl

@[simp] theorem Frame.unlisted_limit (f : Frame) : f.unlisted.limit = f.limit := rfl

/-- An unlisted frame, with maps for what a frame searches for. -/
structure CachedFrame where
  frame : Frame
  registerLocals : Register × StorageClass → Option LocalIndex := fun _ => none
  scratchLocals : StackType × UInt8 → Option LocalIndex := fun _ => none
  /-- The class of the value that a register was last stored with. -/
  contents : Register → Option StorageClass := fun _ => none

namespace CachedFrame

/-! ### The primitives -/

/-- A step of the frame, which leaves the maps alone. -/
def onFrame {α : Type} (x : Lower α) : EStateM Cause CachedFrame α := fun z =>
  match x z.frame with
  | .ok a f => .ok a { z with frame := f }
  | .error c f => .error c { z with frame := f }

/-- The context with a local entered for a register and class. -/
def enterRegister (z : CachedFrame) (r : Register) (c : StorageClass) (i : LocalIndex) : CachedFrame :=
  { z with registerLocals := Function.update z.registerLocals (r, c) (some i) }

/-- The context with a local entered for a scratch slot of a type. -/
def enterScratch (z : CachedFrame) (t : StackType) (slot : UInt8) (i : LocalIndex) : CachedFrame :=
  { z with scratchLocals := Function.update z.scratchLocals (t, slot) (some i) }

/-- The local that backs `r` for values of type `t`. -/
def registerLocal (r : Register) (t : StackType) : EStateM Cause CachedFrame LocalIndex := fun z =>
  match z.registerLocals (r, .of t) with
  | some i => .ok i z
  | none =>
    match onFrame (allocate (.register r) (StorageClass.of t).slotType) z with
    | .ok i z' => .ok i (z'.enterRegister r (.of t) i)
    | .error c z' => .error c z'

/-- The local that a value of type `t` stored into `r` goes to. -/
def storeRegister (r : Register) (t : StackType) : EStateM Cause CachedFrame LocalIndex := fun z =>
  match registerLocal r t z with
  | .ok i z' => .ok i { z' with contents := Function.update z'.contents r (some (.of t)) }
  | .error c z' => .error c z'

/-- Whether the last value stored into `r` was a float. -/
def holdsFloat (z : CachedFrame) (r : Register) : Bool := z.contents r = some .float

/-- A scratch local of type `t`, looked up only where slots are shared. -/
def scratchLocal (t : StackType) (slot : UInt8) : EStateM Cause CachedFrame LocalIndex := fun z =>
  if z.frame.options.reuseTemporaries then
    match z.scratchLocals (t, slot) with
    | some i => .ok i z
    | none =>
      match onFrame (allocate (.scratch slot) t) z with
      | .ok i z' => .ok i (z'.enterScratch t slot i)
      | .error c z' => .error c z'
  else
    onFrame (allocate (.scratch slot) t) z

/-! ### What the maps say -/

/-- The context is that of the frame: its maps say what searches of the frame
say, and it is the same otherwise. -/
structure Of (z : CachedFrame) (f : Frame) : Prop where
  frame : z.frame = f.unlisted
  registerLocals : ∀ r c, z.registerLocals (r, c) = f.findLocal? (.register r) c.slotType
  scratchLocals : f.options.reuseTemporaries = true →
    ∀ t slot, z.scratchLocals (t, slot) = f.findLocal? (.scratch slot) t
  contents : ∀ r, z.contents r = some .float ↔ f.holdsFloat r = true

theorem slotType_injective : Function.Injective StorageClass.slotType :=
  Function.LeftInverse.injective StorageClass.of_slotType

namespace Of

variable {z : CachedFrame} {f : Frame} {r : Register} {c : StorageClass} {t : StackType} {slot : UInt8}
  {origin : LocalOrigin}

theorem start (o : Options) : Of { frame := .start o } (.start o) where
  frame := rfl
  registerLocals r c := by simp [findLocal?, Frame.start]
  scratchLocals _ t slot := by simp [findLocal?, Frame.start]
  contents r := by simp [Frame.holdsFloat, Frame.start]

theorem allocate_of_lt (hz : z.Of f) (hlt : f.locals.size < maxLocals) :
    onFrame (allocate origin t) z =
      .ok ⟨f.locals.size, hlt⟩ { z with frame := (f.addLocal origin t hlt).unlisted } := by
  have h : allocate origin t f.unlisted = .ok ⟨f.locals.size, hlt⟩ (f.unlisted.addLocal origin t hlt) :=
    @Frame.allocate_of_lt f.unlisted origin t hlt
  rw [onFrame, hz.frame, h]
  rfl

theorem allocate_of_ge (hz : z.Of f) (hge : maxLocals ≤ f.locals.size) :
    onFrame (allocate origin t) z = .error (.tooManyLocals maxLocals) z := by
  have h : allocate origin t f.unlisted = .error (.tooManyLocals maxLocals) f.unlisted :=
    @Frame.allocate_of_ge f.unlisted origin t hge
  rw [onFrame, hz.frame, h, ← hz.frame]

/-- A new local of a register is what a search finds from then on. -/
theorem enterRegister (hz : z.Of f) (hnone : f.findLocal? (.register r) c.slotType = none)
    (hlt : f.locals.size < maxLocals) :
    (CachedFrame.enterRegister { z with frame := (f.addLocal (.register r) c.slotType hlt).unlisted }
      r c ⟨f.locals.size, hlt⟩).Of (f.addLocal (.register r) c.slotType hlt) where
  frame := rfl
  registerLocals r' c' := by
    by_cases h : (r', c') = (r, c)
    · obtain ⟨rfl, rfl⟩ := Prod.mk.inj h
      rw [findLocal?_addLocal_self hlt hnone]
      exact Function.update_self ..
    · have hne : ¬ (LocalOrigin.register r = .register r' ∧ c.slotType = c'.slotType) := by
        rintro ⟨hr, hc⟩
        exact h (Prod.ext (LocalOrigin.register.inj hr).symm (slotType_injective hc).symm)
      rw [findLocal?_addLocal_of_ne hlt hne, ← hz.registerLocals r' c']
      exact Function.update_of_ne h ..
  scratchLocals hr t slot := by
    rw [findLocal?_addLocal_of_ne hlt (by simp)]
    exact hz.scratchLocals hr t slot
  contents := hz.contents

/-- So is a new scratch local, where slots are shared. -/
theorem enterScratch (hz : z.Of f) (hnone : f.findLocal? (.scratch slot) t = none)
    (hlt : f.locals.size < maxLocals) :
    (CachedFrame.enterScratch { z with frame := (f.addLocal (.scratch slot) t hlt).unlisted } t slot
      ⟨f.locals.size, hlt⟩).Of (f.addLocal (.scratch slot) t hlt) where
  frame := rfl
  registerLocals r c := by
    rw [findLocal?_addLocal_of_ne hlt (by simp)]
    exact hz.registerLocals r c
  scratchLocals hr t' slot' := by
    by_cases h : (t', slot') = (t, slot)
    · obtain ⟨rfl, rfl⟩ := Prod.mk.inj h
      rw [findLocal?_addLocal_self hlt hnone]
      exact Function.update_self ..
    · have hne : ¬ (LocalOrigin.scratch slot = .scratch slot' ∧ t = t') := by
        rintro ⟨hs, ht⟩
        exact h (Prod.ext ht.symm (LocalOrigin.scratch.inj hs).symm)
      rw [findLocal?_addLocal_of_ne hlt hne, ← hz.scratchLocals hr t' slot']
      exact Function.update_of_ne h ..
  contents := hz.contents

/-- Where no slots are shared, scratch locals are not entered. -/
theorem addScratch (hz : z.Of f) (hr : f.options.reuseTemporaries = false)
    (hlt : f.locals.size < maxLocals) :
    Of { z with frame := (f.addLocal (.scratch slot) t hlt).unlisted }
      (f.addLocal (.scratch slot) t hlt) where
  frame := rfl
  registerLocals r c := by
    rw [findLocal?_addLocal_of_ne hlt (by simp)]
    exact hz.registerLocals r c
  scratchLocals hr' := absurd hr' (by simp [addLocal, hr])
  contents := hz.contents

theorem holdsFloat (hz : z.Of f) (r : Register) : z.holdsFloat r = f.holdsFloat r := by
  rw [Bool.eq_iff_iff, ← hz.contents r]
  exact decide_eq_true_iff

/-- A register holds what it was last stored with. -/
theorem markStored (hz : z.Of f) (r : Register) (t : StackType) :
    Of { z with contents := Function.update z.contents r (some (.of t)) }
      (final (markStored r t) f) where
  frame := hz.frame
  registerLocals := hz.registerLocals
  scratchLocals := hz.scratchLocals
  contents r' := by
    show Function.update z.contents r (some (.of t)) r' = some .float ↔
      (if t = .float then r :: f.floats.filter (· ≠ r) else f.floats.filter (· ≠ r)).contains r' = true
    by_cases hr : r' = r
    · rw [hr, Function.update_self]
      cases t <;> simp [StorageClass.of]
    · rw [Function.update_of_ne hr, hz.contents r']
      by_cases ht : t = .float <;> simp [ht, hr, Frame.holdsFloat]

end Of

end CachedFrame

/-! ### Agreement -/

section Agreement

variable {α β : Type} {r : Register} {t : StackType} {slot : UInt8}

/-- The steps end alike, with the same answer or the same cause, and lead from
the context of a frame to that of a frame. -/
def Simulates (y : EStateM Cause CachedFrame α) (x : Lower α) : Prop :=
  ∀ z f, z.Of f →
    (∃ a z' f', y z = .ok a z' ∧ x f = .ok a f' ∧ z'.Of f') ∨
      ∃ c z' f', y z = .error c z' ∧ x f = .error c f' ∧ z'.Of f'

theorem Simulates.pure (a : α) : Simulates (pure a) (pure a) :=
  fun z f hz => .inl ⟨a, z, f, rfl, rfl, hz⟩

/-- So do steps that are composed of such steps. -/
theorem Simulates.bind {y : EStateM Cause CachedFrame α} {x : Lower α}
    {l : α → EStateM Cause CachedFrame β} {k : α → Lower β} (h : Simulates y x)
    (hk : ∀ a, Simulates (l a) (k a)) : Simulates (y >>= l) (x >>= k) := by
  intro z f hz
  rcases h z f hz with ⟨a, z', f', hy, hx, hz'⟩ | ⟨c, z', f', hy, hx, hz'⟩
  · have hbind : (y >>= l) z = l a z' := by simp [Bind.bind, EStateM.bind, hy]
    rw [hbind, bind_of_ok hx]
    exact hk a z' f' hz'
  · have hbind : (y >>= l) z = .error c z' := by simp [Bind.bind, EStateM.bind, hy]
    exact .inr ⟨c, z', f', hbind, bind_of_error hx, hz'⟩

/-- From a new context and a new frame on, they end alike. -/
theorem Simulates.of_start {y : EStateM Cause CachedFrame α} {x : Lower α} (h : Simulates y x)
    (o : Options) :
    (∃ a z f, y { frame := .start o } = .ok a z ∧ x (.start o) = .ok a f ∧ z.Of f) ∨
      ∃ c z f, y { frame := .start o } = .error c z ∧ x (.start o) = .error c f ∧ z.Of f :=
  h _ _ (.start o)

theorem simulates_registerLocal (r : Register) (t : StackType) :
    Simulates (CachedFrame.registerLocal r t) (registerLocal r t) := by
  intro z f hz
  have hfind : z.registerLocals (r, .of t) = f.findLocal? (.register r) (StorageClass.of t).slotType :=
    hz.registerLocals r _
  unfold CachedFrame.registerLocal
  rcases localFor_cases f (.register r) (StorageClass.of t).slotType with
    ⟨i, hi, h⟩ | ⟨hnone, hlt, h⟩ | ⟨hnone, hge, h⟩
  · rw [hfind, hi]
    exact .inl ⟨i, z, f, rfl, h, hz⟩
  · rw [hfind, hnone, hz.allocate_of_lt hlt]
    exact .inl ⟨_, _, _, rfl, h, hz.enterRegister hnone hlt⟩
  · rw [hfind, hnone, hz.allocate_of_ge hge]
    exact .inr ⟨_, z, f, rfl, h, hz⟩

theorem simulates_storeRegister (r : Register) (t : StackType) :
    Simulates (CachedFrame.storeRegister r t) (storeRegister r t) := by
  intro z f hz
  unfold CachedFrame.storeRegister
  rcases simulates_registerLocal r t z f hz with ⟨i, z', f', hy, hx, hz'⟩ | ⟨c, z', f', hy, hx, hz'⟩
  · rw [hy]
    exact .inl ⟨i, _, _, rfl, bind_of_ok hx, hz'.markStored r t⟩
  · rw [hy]
    exact .inr ⟨c, z', f', rfl, bind_of_error hx, hz'⟩

theorem simulates_scratchLocal (t : StackType) (slot : UInt8) :
    Simulates (CachedFrame.scratchLocal t slot) (scratchLocal t slot) := by
  intro z f hz
  have hreuse : z.frame.options.reuseTemporaries = f.options.reuseTemporaries := by
    rw [hz.frame]
    rfl
  unfold CachedFrame.scratchLocal
  rw [hreuse]
  cases hr : f.options.reuseTemporaries with
  | true =>
    have hlocal : scratchLocal t slot f = localFor (.scratch slot) t f := if_pos hr
    have hfind : z.scratchLocals (t, slot) = f.findLocal? (.scratch slot) t :=
      hz.scratchLocals hr t slot
    rw [if_pos rfl, hlocal, hfind]
    rcases localFor_cases f (.scratch slot) t with ⟨i, hi, h⟩ | ⟨hnone, hlt, h⟩ | ⟨hnone, hge, h⟩
    · rw [hi]
      exact .inl ⟨i, z, f, rfl, h, hz⟩
    · rw [hnone, hz.allocate_of_lt hlt]
      exact .inl ⟨_, _, _, rfl, h, hz.enterScratch hnone hlt⟩
    · rw [hnone, hz.allocate_of_ge hge]
      exact .inr ⟨_, z, f, rfl, h, hz⟩
  | false =>
    have hlocal : scratchLocal t slot f = allocate (.scratch slot) t f := by simp [scratchLocal, hr]
    rw [if_neg Bool.false_ne_true, hlocal]
    rcases Nat.lt_or_ge f.locals.size maxLocals with hlt | hge
    · exact .inl ⟨_, _, _, hz.allocate_of_lt hlt, allocate_of_lt _ t hlt, hz.addScratch hr hlt⟩
    · exact .inr ⟨_, z, f, hz.allocate_of_ge hge, allocate_of_ge _ t hge, hz⟩

/-- To ask what a register holds is to look it up. -/
theorem simulates_holdsFloat (r : Register) :
    Simulates ((fun z => z.holdsFloat r) <$> get) ((fun f => f.holdsFloat r) <$> get) :=
  fun z f hz => .inl ⟨z.holdsFloat r, z, f, rfl, by rw [hz.holdsFloat r]; rfl, hz⟩

/-- What the step reads and changes is neither the table nor the list of floats. -/
structure Apart (x : Lower α) : Prop where
  commutes : Commutes unlisted x
  keeps : ∀ f, (final x f).options = f.options ∧ (final x f).locals = f.locals ∧
    (final x f).floats = f.floats

/-- Such a step is the same with maps and without. -/
theorem simulates_onFrame {x : Lower α} (hx : Apart x) : Simulates (CachedFrame.onFrame x) x := by
  intro z f hz
  have hof : ∀ g, final x f = g → CachedFrame.Of { z with frame := g.unlisted } g := by
    rintro g rfl
    obtain ⟨ho, hl, hf⟩ := hx.keeps f
    refine { frame := rfl, registerLocals := ?_, scratchLocals := ?_, contents := ?_ }
    · intro r c
      rw [findLocal?, hl]
      exact hz.registerLocals r c
    · intro hr t slot
      rw [findLocal?, hl]
      exact hz.scratchLocals (ho ▸ hr) t slot
    · intro r
      rw [holdsFloat, hf]
      exact hz.contents r
  unfold CachedFrame.onFrame
  rw [hz.frame]
  cases h : x f with
  | ok a g =>
    rw [hx.commutes.ok h]
    exact .inl ⟨a, _, g, rfl, rfl, hof g (final_of_ok h)⟩
  | error c g =>
    rw [hx.commutes.error h]
    exact .inr ⟨c, _, g, rfl, rfl, hof g (final_of_error h)⟩

namespace Apart

theorem pure (a : α) : Apart (pure a : Lower α) := ⟨.pure a, fun _ => ⟨rfl, rfl, rfl⟩⟩

theorem bind {x : Lower α} {k : α → Lower β} (hx : Apart x) (hk : ∀ a, Apart (k a)) :
    Apart (x >>= k) where
  commutes := hx.commutes.bind fun a => (hk a).commutes
  keeps f := by
    have hkeeps := hx.keeps f
    cases h : x f with
    | ok a g =>
      have hfinal : final (x >>= k) f = final (k a) g := by
        unfold final
        rw [bind_of_ok h]
      rw [final_of_ok h] at hkeeps
      obtain ⟨ho, hl, hf⟩ := (hk a).keeps g
      rw [hfinal]
      exact ⟨ho.trans hkeeps.1, hl.trans hkeeps.2.1, hf.trans hkeeps.2.2⟩
    | error c g =>
      rw [final_of_error h] at hkeeps
      rw [final_of_error (bind_of_error h)]
      exact hkeeps

theorem push (t : StackType) : Apart (push t) where
  commutes f := by
    rw [Frame.push, Frame.push, unlisted_stack, unlisted_limit]
    cases f.stack.push f.limit t <;> rfl
  keeps f := by
    unfold final Frame.push
    cases f.stack.push f.limit t <;> exact ⟨rfl, rfl, rfl⟩

theorem pop (n : Nat) : Apart (pop n) where
  commutes f := by
    rw [Frame.pop, Frame.pop, unlisted_stack]
    cases f.stack.pop n <;> rfl
  keeps f := by
    unfold final Frame.pop
    cases f.stack.pop n <;> exact ⟨rfl, rfl, rfl⟩

theorem peek (n : Nat) : Apart (peek n) where
  commutes f := by
    rw [Frame.peek, Frame.peek, unlisted_stack]
    cases f.stack.peek n <;> rfl
  keeps f := by
    rw [final_peek]
    exact ⟨rfl, rfl, rfl⟩

theorem emit (code : CodeRef) (i : HostInstr) : Apart (emit code i) where
  commutes f := by
    rw [Frame.emit, Frame.emit, unlisted_stack, unlisted_limit, unlisted_locals]
    cases i.effect f.limit f.locals f.stack <;> rfl
  keeps f := by
    unfold final Frame.emit
    cases i.effect f.limit f.locals f.stack <;> exact ⟨rfl, rfl, rfl⟩

theorem emitAll (code : CodeRef) : ∀ is, Apart (emitAll code is)
  | [] => .pure ()
  | i :: is => (emit code i).bind fun _ => emitAll code is

theorem takeEmitted : Apart takeEmitted := ⟨fun _ => rfl, fun _ => ⟨rfl, rfl, rfl⟩⟩

theorem takeNewLocals : Apart takeNewLocals := ⟨fun _ => rfl, fun _ => ⟨rfl, rfl, rfl⟩⟩

end Apart

end Agreement

end Devirt
