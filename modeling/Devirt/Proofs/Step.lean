/-
# Steps of lowering, composed

A step of lowering is a composition of the frame's primitives. How it ends
follows from how its parts end (`Lower.bind_eq_ok`, `Lower.bind_eq_error`).
A failed step keeps the changes made before it, so what a step preserves is
said of the frame it ends in either way: `Lower.Keeps P x`. Where it matters
whether it fails, `Lower.Yields` says what comes of it and for which reasons
it may fail.

Key definitions: `Lower.final`, `Lower.outcome?`, `Lower.Keeps`,
`Lower.Yields`, `Frame.addLocal`, `Frame.afterEmit`.
Key theorems: `Lower.Keeps.bind`, `Lower.Yields.bind`, `Frame.emit_eq_ok`,
`Frame.localFor_cases`, `Frame.scratchLocal_cases`, `Frame.localFor_eq_error`.
-/
import Devirt.Frame

namespace Devirt

/-! ### Composition -/

namespace Lower

variable {ε α β : Type} {P : Frame → Prop}

theorem bind_of_ok {x : EStateM ε Frame α} {k : α → EStateM ε Frame β} {f g : Frame} {a : α}
    (h : x f = .ok a g) : (x >>= k) f = k a g := by
  simp [bind, EStateM.bind, h]

theorem bind_of_error {x : EStateM ε Frame α} {k : α → EStateM ε Frame β} {f g : Frame} {e : ε}
    (h : x f = .error e g) : (x >>= k) f = .error e g := by
  simp [bind, EStateM.bind, h]

theorem bind_eq_ok {x : EStateM ε Frame α} {k : α → EStateM ε Frame β} {f h : Frame} {b : β} :
    (x >>= k) f = .ok b h ↔ ∃ a g, x f = .ok a g ∧ k a g = .ok b h := by
  cases hx : x f with
  | ok a g => simp [bind_of_ok hx, and_assoc]
  | error e g => simp [bind_of_error hx]

theorem bind_eq_error {x : EStateM ε Frame α} {k : α → EStateM ε Frame β} {f h : Frame} {e : ε} :
    (x >>= k) f = .error e h ↔
      x f = .error e h ∨ ∃ a g, x f = .ok a g ∧ k a g = .error e h := by
  cases hx : x f with
  | ok a g => simp [bind_of_ok hx, and_assoc]
  | error e g => simp [bind_of_error hx]

theorem map_of_ok {x : EStateM ε Frame α} {k : α → β} {f g : Frame} {a : α}
    (h : x f = .ok a g) : (k <$> x) f = .ok (k a) g := by
  simp [Functor.map, EStateM.map, h]

theorem map_of_error {x : EStateM ε Frame α} {k : α → β} {f g : Frame} {e : ε}
    (h : x f = .error e g) : (k <$> x) f = .error e g := by
  simp [Functor.map, EStateM.map, h]

theorem chargedTo_of_ok {x : Lower α} {code : CodeRef} {f g : Frame} {a : α} (h : x f = .ok a g) :
    x.chargedTo code f = .ok a g := by
  simp [Lower.chargedTo, EStateM.adaptExcept, h]

theorem chargedTo_of_error {x : Lower α} {code : CodeRef} {f g : Frame} {c : Cause}
    (h : x f = .error c g) : x.chargedTo code f = .error ⟨code, c⟩ g := by
  simp [Lower.chargedTo, EStateM.adaptExcept, h]

theorem map_eq_ok {x : EStateM ε Frame α} {k : α → β} {f g : Frame} {b : β} :
    (k <$> x) f = .ok b g ↔ ∃ a, x f = .ok a g ∧ k a = b := by
  cases h : x f with
  | ok a g' => simp [map_of_ok h, and_left_comm, and_comm]
  | error e g' => simp [map_of_error h]

theorem map_eq_error {x : EStateM ε Frame α} {k : α → β} {f g : Frame} {e : ε} :
    (k <$> x) f = .error e g ↔ x f = .error e g := by
  cases h : x f with
  | ok a g' => simp [map_of_ok h]
  | error e' g' => simp [map_of_error h]

theorem chargedTo_eq_ok {x : Lower α} {code : CodeRef} {f g : Frame} {a : α} :
    x.chargedTo code f = .ok a g ↔ x f = .ok a g := by
  cases h : x f with
  | ok a' g' => rw [chargedTo_of_ok h]; simp
  | error c g' => rw [chargedTo_of_error h]; simp

theorem chargedTo_eq_error {x : Lower α} {code : CodeRef} {f g : Frame} {fault : Fault} :
    x.chargedTo code f = .error fault g ↔ ∃ c, x f = .error c g ∧ fault = ⟨code, c⟩ := by
  cases h : x f with
  | ok a g' => rw [chargedTo_of_ok h]; simp
  | error c g' =>
    rw [chargedTo_of_error h]
    simp [eq_comm, and_comm, and_assoc]

/-- The frame a step ends in, whether it failed or not. -/
def final (x : EStateM ε Frame α) (f : Frame) : Frame :=
  match x f with
  | .ok _ g => g
  | .error _ g => g

theorem final_of_ok {x : EStateM ε Frame α} {f g : Frame} {a : α} (h : x f = .ok a g) :
    final x f = g := by
  simp [final, h]

theorem final_of_error {x : EStateM ε Frame α} {f g : Frame} {e : ε} (h : x f = .error e g) :
    final x f = g := by
  simp [final, h]

/-- What the step answers and where it ends, if it goes through. -/
def outcome? (x : EStateM ε Frame α) (f : Frame) : Option (α × Frame) :=
  match x f with
  | .ok a g => some (a, g)
  | .error _ _ => none

/-- What a computation finds about an outcome is so of it. -/
theorem exists_outcome {x : EStateM ε Frame α} {f : Frame} {k : α × Frame → β} {b : β}
    (h : (outcome? x f).map k = some b) : ∃ a g, x f = .ok a g ∧ k (a, g) = b := by
  unfold outcome? at h
  cases hx : x f with
  | ok a g =>
    rw [hx] at h
    exact ⟨a, g, rfl, Option.some.inj h⟩
  | error e g =>
    rw [hx] at h
    cases h

/-- The step leaves `P` true where it was true. -/
def Keeps (P : Frame → Prop) (x : EStateM ε Frame α) : Prop :=
  ∀ f, P f → P (final x f)

theorem Keeps.ok {x : EStateM ε Frame α} (hx : Keeps P x) {f g : Frame} {a : α}
    (h : x f = .ok a g) (hf : P f) : P g :=
  final_of_ok h ▸ hx f hf

theorem Keeps.pure (a : α) : Keeps P (pure a : EStateM ε Frame α) :=
  fun _ hf => hf

theorem Keeps.throw (e : ε) : Keeps P (throw e : EStateM ε Frame α) :=
  fun _ hf => hf

theorem Keeps.bind {x : EStateM ε Frame α} {k : α → EStateM ε Frame β} (hx : Keeps P x)
    (hk : ∀ a, Keeps P (k a)) : Keeps P (x >>= k) := by
  intro f hf
  have hxf := hx f hf
  cases h : x f with
  | ok a g =>
    rw [final_of_ok h] at hxf
    simpa only [final, bind_of_ok h] using hk a g hxf
  | error e g =>
    rw [final_of_error h] at hxf
    simpa only [final, bind_of_error h] using hxf

/-- From `f` on, the step ends as `P` says, or it fails for a reason that `E`
allows. -/
def Yields (x : EStateM ε Frame α) (f : Frame) (P : α → Frame → Prop) (E : ε → Prop) : Prop :=
  (∃ a g, x f = .ok a g ∧ P a g) ∨ ∃ e g, x f = .error e g ∧ E e

namespace Yields

variable {x : EStateM ε Frame α} {k : α → EStateM ε Frame β} {f g : Frame} {a : α} {e : ε}
  {P : α → Frame → Prop} {Q : β → Frame → Prop} {E : ε → Prop}

theorem pure (h : P a f) : Yields (pure a) f P E := .inl ⟨a, f, rfl, h⟩

theorem throw (h : E e) : Yields (throw e) f P E := .inr ⟨e, f, rfl, h⟩

theorem mono {E' : ε → Prop} (h : Yields x f P E) (hE : ∀ e, E e → E' e) : Yields x f P E' := by
  rcases h with hok | ⟨e, g, hx, he⟩
  · exact .inl hok
  · exact .inr ⟨e, g, hx, hE e he⟩

/-- Steps that end alike yield alike. -/
theorem congr {y : EStateM ε Frame α} (h : x f = y g) (hy : Yields y g P E) : Yields x f P E := by
  unfold Yields
  rw [h]
  exact hy

theorem bind_ok (h : x f = .ok a g) (hk : Yields (k a) g Q E) : Yields (x >>= k) f Q E :=
  .congr (bind_of_ok h) hk

theorem bind_error (h : x f = .error e g) (he : E e) : Yields (x >>= k) f Q E :=
  .inr ⟨e, g, bind_of_error h, he⟩

/-- Two steps in a row, the second one from wherever the first one ends. -/
theorem bind (hx : Yields x f P E) (hk : ∀ a g, P a g → Yields (k a) g Q E) :
    Yields (x >>= k) f Q E := by
  rcases hx with ⟨a, g, h, hp⟩ | ⟨e, g, h, he⟩
  · exact .bind_ok h (hk a g hp)
  · exact .bind_error h he

end Yields

end Lower

/-! ### The primitives -/

namespace Frame

variable {f g : Frame}

/-- The frame with one more local. -/
def addLocal (f : Frame) (origin : LocalOrigin) (t : StackType) (h : f.locals.size < maxLocals) :
    Frame :=
  { f with locals := f.locals.push ⟨⟨f.locals.size, h⟩, t, origin⟩ }

/-- The frame after `i` was emitted and left the stack `s`. -/
def afterEmit (f : Frame) (code : CodeRef) (i : HostInstr) (s : EvalStack) : Frame :=
  { f with
    stack := s
    pending := f.pending.push i
    log := if f.options.traceEmission then f.log.push (.emitted code i s.depth) else f.log }

theorem emit_eq_ok {code : CodeRef} {i : HostInstr} :
    emit code i f = .ok () g ↔
      ∃ s, i.effect f.limit f.locals f.stack = .ok s ∧ g = f.afterEmit code i s := by
  unfold emit afterEmit
  cases i.effect f.limit f.locals f.stack with
  | ok s => simp [eq_comm (a := g)]
  | error c => simp

theorem emit_eq_error {code : CodeRef} {i : HostInstr} {c : Cause} :
    emit code i f = .error c g ↔ i.effect f.limit f.locals f.stack = .error c ∧ g = f := by
  unfold emit
  cases i.effect f.limit f.locals f.stack with
  | ok s => simp
  | error c => simp [eq_comm]

theorem peek_eq_ok {n : Nat} {t : StackType} :
    peek n f = .ok t g ↔ f.stack.types[n]? = some t ∧ g = f := by
  unfold peek EvalStack.peek
  cases f.stack.types[n]? with
  | none => simp
  | some t => simp [eq_comm]

theorem peek_of_none {n : Nat} (h : f.stack.types[n]? = none) :
    peek n f = .error (.underflow (n + 1) f.stack.depth) f := by
  simp [peek, EvalStack.peek, h]

theorem final_peek (n : Nat) (f : Frame) : Lower.final (peek n) f = f := by
  unfold Lower.final peek
  cases f.stack.peek n <;> rfl

theorem require_eq_ok {n : Nat} : require n f = .ok () g ↔ n ≤ f.stack.depth ∧ g = f := by
  unfold require
  by_cases h : n ≤ f.stack.depth
  · simp [h, eq_comm]
  · simp [h]

theorem require_of_lt {n : Nat} (h : f.stack.depth < n) :
    require n f = .error (.underflow n f.stack.depth) f := by
  simp [require, Nat.not_le.mpr h]

theorem final_require (n : Nat) (f : Frame) : Lower.final (require n) f = f := by
  unfold Lower.final require
  by_cases h : n ≤ f.stack.depth <;> simp [h]

theorem allocate_of_lt (origin : LocalOrigin) (t : StackType) (h : f.locals.size < maxLocals) :
    allocate origin t f = .ok ⟨f.locals.size, h⟩ (f.addLocal origin t h) := by
  simp [allocate, addLocal, h]

theorem allocate_of_ge (origin : LocalOrigin) (t : StackType) (h : maxLocals ≤ f.locals.size) :
    allocate origin t f = .error (.tooManyLocals maxLocals) f := by
  simp [allocate, Nat.not_lt.mpr h]

theorem localFor_of_some {origin : LocalOrigin} {t : StackType} {i : LocalIndex}
    (h : f.findLocal? origin t = some i) : localFor origin t f = .ok i f := by
  rw [localFor, h]

theorem localFor_of_none {origin : LocalOrigin} {t : StackType}
    (h : f.findLocal? origin t = none) : localFor origin t f = allocate origin t f := by
  rw [localFor, h]

/-- A local is found, made or refused for want of room. -/
theorem localFor_cases (f : Frame) (origin : LocalOrigin) (t : StackType) :
    (∃ i, f.findLocal? origin t = some i ∧ localFor origin t f = .ok i f) ∨
    (f.findLocal? origin t = none ∧ ∃ h : f.locals.size < maxLocals,
      localFor origin t f = .ok ⟨f.locals.size, h⟩ (f.addLocal origin t h)) ∨
    (f.findLocal? origin t = none ∧ maxLocals ≤ f.locals.size ∧
      localFor origin t f = .error (.tooManyLocals maxLocals) f) := by
  cases hfind : f.findLocal? origin t with
  | some i => exact .inl ⟨i, rfl, localFor_of_some hfind⟩
  | none =>
    rw [localFor_of_none hfind]
    refine .inr ?_
    rcases Nat.lt_or_ge f.locals.size maxLocals with h | h
    · exact .inl ⟨rfl, h, allocate_of_lt origin t h⟩
    · exact .inr ⟨rfl, h, allocate_of_ge origin t h⟩

/-- A scratch local is found only where the options let it be shared. -/
theorem scratchLocal_cases (f : Frame) (t : StackType) (slot : UInt8) :
    (f.options.reuseTemporaries = true ∧
      ∃ i, f.findLocal? (.scratch slot) t = some i ∧ scratchLocal t slot f = .ok i f) ∨
    ((f.options.reuseTemporaries = true → f.findLocal? (.scratch slot) t = none) ∧
      ∃ h : f.locals.size < maxLocals,
        scratchLocal t slot f = .ok ⟨f.locals.size, h⟩ (f.addLocal (.scratch slot) t h)) ∨
    ((f.options.reuseTemporaries = true → f.findLocal? (.scratch slot) t = none) ∧
      maxLocals ≤ f.locals.size ∧
      scratchLocal t slot f = .error (.tooManyLocals maxLocals) f) := by
  unfold scratchLocal
  cases hr : f.options.reuseTemporaries with
  | true => simpa using localFor_cases f (.scratch slot) t
  | false =>
    rcases Nat.lt_or_ge f.locals.size maxLocals with h | h
    · exact .inr (.inl ⟨by simp, h, by simpa using allocate_of_lt _ t h⟩)
    · exact .inr (.inr ⟨by simp, h, by simpa using allocate_of_ge _ t h⟩)

section Failures

variable {origin : LocalOrigin} {t : StackType} {slot : UInt8} {c : Cause}

/-- A local that cannot be had leaves a full table as it was. -/
theorem localFor_eq_error (h : localFor origin t f = .error c g) :
    c = .tooManyLocals maxLocals ∧ maxLocals ≤ f.locals.size ∧ g = f := by
  rcases localFor_cases f origin t with ⟨i, -, hok⟩ | ⟨-, _, hok⟩ | ⟨-, hfull, herr⟩
  · rw [hok] at h
    cases h
  · rw [hok] at h
    cases h
  · rw [herr] at h
    cases h
    exact ⟨rfl, hfull, rfl⟩

theorem scratchLocal_eq_error (h : scratchLocal t slot f = .error c g) :
    c = .tooManyLocals maxLocals ∧ maxLocals ≤ f.locals.size ∧ g = f := by
  rcases scratchLocal_cases f t slot with ⟨-, i, -, hok⟩ | ⟨-, _, hok⟩ | ⟨-, hfull, herr⟩
  · rw [hok] at h
    cases h
  · rw [hok] at h
    cases h
  · rw [herr] at h
    cases h
    exact ⟨rfl, hfull, rfl⟩

/-- A register is remembered to hold a value only once it has a local for it. -/
theorem storeRegister_eq_error {r : Register} (h : storeRegister r t f = .error c g) :
    c = .tooManyLocals maxLocals ∧ maxLocals ≤ f.locals.size ∧ g = f := by
  rcases Lower.bind_eq_error.mp h with hlocal | ⟨i, f', -, hmark⟩
  · exact localFor_eq_error hlocal
  · cases hmark

theorem peek_eq_error {n : Nat} (h : peek n f = .error c g) :
    c = .underflow (n + 1) f.stack.depth ∧ f.stack.depth ≤ n ∧ g = f := by
  cases hn : f.stack.types[n]? with
  | some t =>
    rw [peek_eq_ok.mpr ⟨hn, rfl⟩] at h
    cases h
  | none =>
    rw [peek_of_none hn] at h
    cases h
    exact ⟨rfl, f.stack.depth_eq ▸ List.getElem?_eq_none_iff.mp hn, rfl⟩

theorem require_eq_error {n : Nat} (h : require n f = .error c g) :
    c = .underflow n f.stack.depth ∧ f.stack.depth < n ∧ g = f := by
  rcases Nat.lt_or_ge f.stack.depth n with hlt | hge
  · rw [require_of_lt hlt] at h
    cases h
    exact ⟨rfl, hlt, rfl⟩
  · rw [require_eq_ok.mpr ⟨hge, rfl⟩] at h
    cases h

end Failures

end Frame

end Devirt
