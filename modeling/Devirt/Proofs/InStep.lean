/-
# Runs in step

Two runs that differ in what they may use up go in step: each step of both
goes through, or both fail alike, until the one that may use less stops
(`Lower.InStep`). Steps in a row go in step if each of them does
(`Lower.InStep.bind`), so a rule does if finding its code and emitting it do
(`Rule.lower_inStep`), and two runs of a body do if each instruction does
(`Registry.assemble_inStep`).

Key definitions: `Lower.InStep`, `Registry.InStep`.
Key theorems: `Lower.InStep.bind`, `Rule.lower_inStep`,
`Registry.assemble_inStep`, `Registry.recompile_inStep`.
-/
import Devirt.Proofs.Beginnings

namespace Devirt

/-! ### Steps -/

namespace Lower

variable {ε α β γ δ : Type} {stops : ε → Prop} {P : Frame → Prop}
  {Q Q' : α → Frame → β → Frame → Prop} {R : γ → Frame → δ → Frame → Prop}

/-- How two steps end together. Both go through, as `Q` says, or both fail
alike. Or else the first one stops, and if the second one goes through, then
`P` is true where it ends. -/
inductive InStep (stops : ε → Prop) (P : Frame → Prop) (Q : α → Frame → β → Frame → Prop) :
    EStateM.Result ε Frame α → EStateM.Result ε Frame β → Prop where
  | ok {a : α} {b : β} {f g : Frame} (h : Q a f b g) : InStep stops P Q (.ok a f) (.ok b g)
  | error {e : ε} {f g : Frame} : InStep stops P Q (.error e f) (.error e g)
  | stopped {e : ε} {f : Frame} {r : EStateM.Result ε Frame β} (he : stops e)
      (h : ∀ b g, r = .ok b g → P g) : InStep stops P Q (.error e f) r

namespace InStep

theorem mono {r : EStateM.Result ε Frame α} {r' : EStateM.Result ε Frame β}
    (h : InStep stops P Q r r') (hQ : ∀ a f b g, Q a f b g → Q' a f b g) :
    InStep stops P Q' r r' := by
  cases h with
  | ok h => exact .ok (hQ _ _ _ _ h)
  | error => exact .error
  | stopped he h => exact .stopped he h

/-- What is known of steps that go through includes that they do. -/
theorem and_eq {r : EStateM.Result ε Frame α} {r' : EStateM.Result ε Frame β}
    (h : InStep stops P Q r r') :
    InStep stops P (fun a f b g => Q a f b g ∧ r = .ok a f ∧ r' = .ok b g) r r' := by
  cases h with
  | ok h => exact .ok ⟨h, rfl, rfl⟩
  | error => exact .error
  | stopped he h => exact .stopped he h

/-- Two steps in a row, if the second one never makes `P` false. -/
theorem bind {x : EStateM ε Frame α} {y : EStateM ε Frame β} {k : α → EStateM ε Frame γ}
    {l : β → EStateM ε Frame δ} {f g : Frame} (hx : InStep stops P Q (x f) (y g))
    (hk : ∀ a f' b g', Q a f' b g' → InStep stops P R (k a f') (l b g'))
    (hP : ∀ b, Keeps P (l b)) : InStep stops P R ((x >>= k) f) ((y >>= l) g) := by
  generalize hfirst : x f = r at hx
  generalize hsecond : y g = r' at hx
  cases hx with
  | ok h =>
    rw [bind_of_ok hfirst, bind_of_ok hsecond]
    exact hk _ _ _ _ h
  | error =>
    rw [bind_of_error hfirst, bind_of_error hsecond]
    exact .error
  | stopped he h =>
    rw [bind_of_error hfirst]
    refine .stopped he fun d g'' hd => ?_
    obtain ⟨b, g', hy, hl⟩ := bind_eq_ok.mp hd
    exact (hP b).ok hl (h b g' (hsecond.symm.trans hy))

theorem chargedTo {stops : Cause → Prop} {x : Lower α} {y : Lower β} {f g : Frame}
    (hx : InStep stops P Q (x f) (y g)) (code : CodeRef) :
    InStep (fun fault : Fault => stops fault.cause) P Q (x.chargedTo code f)
      (y.chargedTo code g) := by
  generalize hfirst : x f = r at hx
  generalize hsecond : y g = r' at hx
  cases hx with
  | ok h =>
    rw [chargedTo_of_ok hfirst, chargedTo_of_ok hsecond]
    exact .ok h
  | error =>
    rw [chargedTo_of_error hfirst, chargedTo_of_error hsecond]
    exact .error
  | stopped he h =>
    rw [chargedTo_of_error hfirst]
    cases r' with
    | ok b k =>
      rw [chargedTo_of_ok hsecond]
      exact .stopped he fun _ _ hb => by cases hb; exact h b k rfl
    | error c k =>
      rw [chargedTo_of_error hsecond]
      exact .stopped he fun _ _ hb => by cases hb

end InStep

end Lower

open Devirt.Frame Lower

/-! ### Rules -/

/-- A rule finds its code, emits it and hands it out. -/
theorem Rule.lower_inStep {stops : Cause → Prop} {P : Frame → Prop}
    {Q : List HostInstr → Frame → List HostInstr → Frame → Prop} {R : Frame → Frame → Prop}
    {S : Array HostInstr → Frame → Array HostInstr → Frame → Prop} {r : Rule} {i : Instr}
    {f g : Frame} (hplan : InStep stops P Q (r.plan i.operation f) (r.plan i.operation g))
    (hemit : ∀ is f' js g', Q is f' js g' → InStep stops P (fun _ f'' _ g'' => R f'' g'')
      (emitAll i.operation.code is f') (emitAll i.operation.code js g'))
    (hdrain : ∀ f' g', R f' g' →
      S f'.pending { f' with pending := #[] } g'.pending { g' with pending := #[] })
    (hemitP : ∀ is, Keeps P (emitAll i.operation.code is)) (hdrainP : Keeps P takeEmitted) :
    InStep (fun fault : Fault => stops fault.cause) P S (r.lower i f) (r.lower i g) := by
  have hrule : InStep stops P (fun _ f' _ g' => R f' g') (r.emit i.operation f)
      (r.emit i.operation g) := by
    rw [Rule.emit_eq]
    exact hplan.bind hemit hemitP
  have hout : InStep stops P S (r.lowerOperation i.operation f) (r.lowerOperation i.operation g) :=
    hrule.bind (fun _ f' _ g' h => .ok (hdrain f' g' h)) fun _ => hdrainP
  exact hout.chargedTo i.code

/-! ### Bodies -/

namespace Registry

/-- How two runs of a body end together: both go through, as `S` says, or both
fail alike, or else the first one stops, no later than the second one fails,
and if that goes through, then `P` is true where it ends. -/
inductive InStep (stops : Cause → Prop) (P : Frame → Prop)
    (S : Assembly → Frame → Assembly → Frame → Prop) :
    Except RecompileError Assembly × Frame → Except RecompileError Assembly × Frame → Prop where
  | ok {a b : Assembly} {f g : Frame} (h : S a f b g) : InStep stops P S (.ok a, f) (.ok b, g)
  | error {e : RecompileError} {f g : Frame} : InStep stops P S (.error e, f) (.error e, g)
  | stopped {e : RecompileError} {f : Frame} {r : Except RecompileError Assembly × Frame}
      (he : stops e.fault.cause) (hok : ∀ b g, r = (.ok b, g) → P g)
      (herror : ∀ e' g, r = (.error e', g) → e.index ≤ e'.index) : InStep stops P S (.error e, f) r

/-- Two runs of a body go in step if they do so on each instruction. -/
theorem assemble_inStep {reg : Registry} {stops : Cause → Prop} {P : Frame → Prop}
    {S : Assembly → Frame → Assembly → Frame → Prop}
    (hsize : ∀ a f b g, S a f b g → a.mappings.size = b.mappings.size)
    (hstep : ∀ i a f b g, S a f b g → Lower.InStep (fun fault : Fault => stops fault.cause) P
      (fun code f' code' g' => S (a.append i.offset code) f' (b.append i.offset code') g')
      (reg.lower i f) (reg.lower i g))
    (hP : ∀ body b b' g g', P g → reg.assemble body b g = (.ok b', g') → P g')
    (body : List Instr) : ∀ {a b : Assembly} {f g : Frame}, S a f b g →
    InStep stops P S (reg.assemble body a f) (reg.assemble body b g) := by
  induction body with
  | nil => exact fun h => .ok h
  | cons i rest ih =>
    intro a b f g hS
    have hlower := hstep i a f b g hS
    have hab := hsize a f b g hS
    generalize hfirst : reg.lower i f = r at hlower
    generalize hsecond : reg.lower i g = r' at hlower
    rw [assemble, hfirst, assemble, hsecond]
    cases hlower with
    | ok h => exact ih h
    | error =>
      simp only [hab]
      exact .error
    | stopped he h =>
      cases r' with
      | error fault k =>
        refine .stopped he (fun b' g' hb => by cases hb) fun e' g' he' => ?_
        cases he'
        exact hab.le
      | ok code k =>
        -- the second run goes on, and its position can only rise
        refine .stopped he (fun b' g' hb => hP rest _ _ _ _ (h code k rfl) hb) fun e' g' he' => ?_
        obtain ⟨n, -, -, -, -, hindex, -⟩ := assemble_eq_error he'
        rw [hindex, Assembly.append, Array.size_push]
        show a.mappings.size ≤ b.mappings.size + 1 + n
        omega

end Registry

/-! ### Methods -/

/-- What comes of a body, by two runs that go in step. -/
theorem Registry.recompile_inStep {reg : Registry} {stops : Cause → Prop} {P : Frame → Prop}
    {S : Assembly → Frame → Assembly → Frame → Prop} {o o' : Options} {body : List Instr}
    (h : InStep stops P S (reg.assemble body {} (.start o)) (reg.assemble body {} (.start o'))) :
    (∃ m m' a f b g, (reg.recompile o body).result = .ok m ∧ (reg.recompile o' body).result = .ok m' ∧
      S a f b g ∧ m.IsOf a f ∧ m'.IsOf b g) ∨
    (∃ e, (reg.recompile o body).result = .error e ∧ (reg.recompile o' body).result = .error e) ∨
    ∃ e, (reg.recompile o body).result = .error e ∧ stops e.fault.cause ∧
      (∀ m', (reg.recompile o' body).result = .ok m' → ∃ b g, P g ∧ m'.IsOf b g) ∧
      ∀ e', (reg.recompile o' body).result = .error e' → e.index ≤ e'.index := by
  generalize hfirst : reg.assemble body {} (.start o) = r at h
  generalize hsecond : reg.assemble body {} (.start o') = r' at h
  cases h with
  | ok h =>
    obtain ⟨m, hm, hof⟩ := recompile_of_assemble hfirst
    obtain ⟨m', hm', hof'⟩ := recompile_of_assemble hsecond
    exact Or.inl ⟨m, m', _, _, _, _, hm, hm', h, hof, hof'⟩
  | error =>
    exact Or.inr (Or.inl
      ⟨_, recompile_eq_error.mpr ⟨_, hfirst⟩, recompile_eq_error.mpr ⟨_, hsecond⟩⟩)
  | stopped he hok herror =>
    refine Or.inr (Or.inr ⟨_, recompile_eq_error.mpr ⟨_, hfirst⟩, he, fun m' hm' => ?_,
      fun e' he' => ?_⟩)
    · obtain ⟨b, g, hb, hof⟩ := assemble_of_recompile hm'
      exact ⟨b, g, hok b g (hsecond.symm.trans hb), hof⟩
    · obtain ⟨g, hg⟩ := recompile_eq_error.mp he'
      exact herror e' g (hsecond.symm.trans hg)

end Devirt
