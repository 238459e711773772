/-
# Registers are all alike

No register is special and no two are ever confused: if the registers of a body
are renamed by a permutation, what comes of it is renamed and is otherwise the
same (`Registry.recompile_relabel`). This is true step by step. A frame with its
registers renamed answers each step with the renamed registers as the frame
itself does, and the frames that are left are again each other's renaming
(`Lower.Equivariant`). The host code quotes no register, so it does not change;
the origins of the locals do, and so does a fault that quotes a register.

Key definitions: `Frame.relabel`, `Outcome.relabel`, `Lower.relabelEnd`,
`Lower.Equivariant`.
Key theorems: `Rule.emit_equivariant`, `Registry.lower_relabel`,
`Registry.assemble_relabel`, `Registry.recompile_relabel`.
-/
import Devirt.Proofs.Blame
import Devirt.Proofs.Renaming
import Mathlib.Logic.Equiv.Defs

namespace Devirt

open Devirt.Frame Lower HostInstr

/-! ### What names registers -/

section Data

variable (ρ : Register → Register)

def LocalOrigin.relabel : LocalOrigin → LocalOrigin
  | .register r => .register (ρ r)
  | .scratch slot => .scratch slot

def Local.relabel (l : Local) : Local := { l with origin := l.origin.relabel ρ }

/-- Only the report of a fault can quote a register. -/
def Event.relabel : Event → Event
  | .aborted index offset fault => .aborted index offset (fault.relabel ρ)
  | event => event

def Frame.relabel (f : Frame) : Frame :=
  { f with
    locals := f.locals.map (Local.relabel ρ)
    floats := f.floats.map ρ
    log := f.log.map (Event.relabel ρ) }

def Method.relabel (m : Method) : Method := { m with locals := m.locals.map (Local.relabel ρ) }

def RecompileError.relabel (e : RecompileError) : RecompileError :=
  { e with fault := e.fault.relabel ρ }

def Outcome.relabel (o : Outcome) : Outcome where
  result :=
    match o.result with
    | .ok m => .ok (m.relabel ρ)
    | .error e => .error (e.relabel ρ)
  log := o.log.map (Event.relabel ρ)

end Data

/-! ### Searching a renamed table -/

section Tables

variable {p : Equiv.Perm Register}

theorem LocalOrigin.relabel_injective (p : Equiv.Perm Register) :
    Function.Injective (LocalOrigin.relabel p) := by
  intro origin origin' h
  cases origin with
  | register r =>
    cases origin' with
    | register r' => rw [p.injective (LocalOrigin.register.inj h)]
    | scratch slot => cases h
  | scratch slot =>
    cases origin' with
    | register r => cases h
    | scratch slot' => exact h

theorem Frame.holdsFloat_relabel (f : Frame) (r : Register) :
    (f.relabel p).holdsFloat (p r) = f.holdsFloat r := by
  rw [holdsFloat, holdsFloat, Bool.eq_iff_iff, List.contains_iff_mem, List.contains_iff_mem]
  exact List.mem_map_of_injective p.injective

/-- A renamed local is where the local was. -/
theorem Frame.findLocal?_relabel (f : Frame) (origin : LocalOrigin) (t : StackType) :
    (f.relabel p).findLocal? (origin.relabel p) t = f.findLocal? origin t := by
  have hsame : ∀ l : Local, ((l.relabel p).origin = origin.relabel p ∧ (l.relabel p).type = t) ↔
      (l.origin = origin ∧ l.type = t) := fun l =>
    and_congr_left fun _ => (LocalOrigin.relabel_injective p).eq_iff
  have hsearch : ((fun l : Local => decide (l.origin = origin.relabel p) && decide (l.type = t)) ∘
      Local.relabel p) = fun l => decide (l.origin = origin) && decide (l.type = t) := by
    funext l
    rw [Function.comp_apply, ← Bool.decide_and, ← Bool.decide_and]
    exact decide_eq_decide.mpr (hsame l)
  rw [findLocal?, findLocal?, relabel, Array.find?_map, hsearch, Option.map_map]
  rfl

/-- An instruction sees the types of the locals only. -/
theorem HostInstr.effect_relabel (i : HostInstr) (limit : Nat) (ls : Array Local) (s : EvalStack) :
    i.effect limit (ls.map (Local.relabel p)) s = i.effect limit ls s := by
  by_cases h : ∃ j, i = .loadLocal j
  · obtain ⟨j, rfl⟩ := h
    rw [effect, effect, Array.getElem?_map]
    cases ls[j.val]? <;> rfl
  · exact effect_congr (fun j hj => h ⟨j, hj⟩) limit s

/-- The stack knows nothing of registers. -/
theorem Cause.relabel_of_stackRefusal {c : Cause} {ρ : Register → Register}
    (h : c.isStackRefusal = true) : c.relabel ρ = c := by
  cases c with
  | violation v =>
    cases v with
    | floatRegister r => cases h
    | _ => rfl
  | _ => rfl

end Tables

/-! ### Steps -/

/-- How a step ends, with the frame renamed and the error as `rename` says. -/
def Lower.relabelEnd {ε α : Type} (ρ : Register → Register) (rename : ε → ε) :
    EStateM.Result ε Frame α → EStateM.Result ε Frame α
  | .ok a f => .ok a (f.relabel ρ)
  | .error e f => .error (rename e) (f.relabel ρ)

/-- From a renamed frame, `y` ends as `x` does, renamed. -/
def Lower.Equivariant {α : Type} (p : Equiv.Perm Register) (x y : Lower α) : Prop :=
  ∀ f, y (f.relabel p) = Lower.relabelEnd p (Cause.relabel p) (x f)

namespace Lower.Equivariant

variable {α β : Type} {p : Equiv.Perm Register}

theorem ok {x y : Lower α} (h : Equivariant p x y) {f g : Frame} {a : α} (hx : x f = .ok a g) :
    y (f.relabel p) = .ok a (g.relabel p) := by
  rw [h f, hx]
  rfl

theorem error {x y : Lower α} (h : Equivariant p x y) {f g : Frame} {c : Cause}
    (hx : x f = .error c g) : y (f.relabel p) = .error (c.relabel p) (g.relabel p) := by
  rw [h f, hx]
  rfl

theorem bind {x y : Lower α} {k l : α → Lower β} (h : Equivariant p x y)
    (hk : ∀ a, Equivariant p (k a) (l a)) : Equivariant p (x >>= k) (y >>= l) := by
  intro f
  cases hx : x f with
  | ok a g =>
    rw [bind_of_ok hx, bind_of_ok (h.ok hx)]
    exact hk a g
  | error c g =>
    rw [bind_of_error hx, bind_of_error (h.error hx)]
    rfl

theorem peek (n : Nat) : Equivariant p (Frame.peek n) (Frame.peek n) := by
  intro f
  cases h : f.stack.types[n]? with
  | some t =>
    rw [peek_eq_ok.mpr ⟨h, rfl⟩]
    exact peek_eq_ok.mpr ⟨h, rfl⟩
  | none =>
    rw [peek_of_none h]
    exact peek_of_none h

theorem require (n : Nat) : Equivariant p (Frame.require n) (Frame.require n) := by
  intro f
  by_cases h : n ≤ f.stack.depth
  · rw [require_eq_ok.mpr ⟨h, rfl⟩]
    exact require_eq_ok.mpr ⟨h, rfl⟩
  · rw [require_of_lt (Nat.lt_of_not_le h)]
    exact require_of_lt (Nat.lt_of_not_le h)

theorem allocate (origin : LocalOrigin) (t : StackType) :
    Equivariant p (Frame.allocate origin t) (Frame.allocate (origin.relabel p) t) := by
  intro f
  have hsize : (f.relabel p).locals.size = f.locals.size := Array.size_map
  rcases Nat.lt_or_ge f.locals.size maxLocals with h | h
  · have h' : (f.relabel p).locals.size < maxLocals := hsize ▸ h
    have hadd : (f.relabel p).addLocal (origin.relabel p) t h' = (f.addLocal origin t h).relabel p := by
      unfold addLocal Frame.relabel
      simp [Array.map_push, Local.relabel]
    rw [allocate_of_lt origin t h, allocate_of_lt _ t h', hadd]
    simp only [hsize]
    rfl
  · rw [allocate_of_ge origin t h, allocate_of_ge _ t (hsize ▸ h)]
    rfl

theorem localFor (origin : LocalOrigin) (t : StackType) :
    Equivariant p (Frame.localFor origin t) (Frame.localFor (origin.relabel p) t) := by
  intro f
  have hfind := f.findLocal?_relabel (p := p) origin t
  cases h : f.findLocal? origin t with
  | some i =>
    rw [localFor_of_some h, localFor_of_some (hfind.trans h)]
    rfl
  | none =>
    rw [localFor_of_none h, localFor_of_none (hfind.trans h)]
    exact allocate origin t f

theorem scratchLocal (t : StackType) (slot : UInt8) :
    Equivariant p (Frame.scratchLocal t slot) (Frame.scratchLocal t slot) := by
  intro f
  unfold Frame.scratchLocal
  show (if f.options.reuseTemporaries then _ else _) = _
  cases f.options.reuseTemporaries with
  | true => exact localFor (.scratch slot) t f
  | false => exact allocate (.scratch slot) t f

theorem markStored (r : Register) (t : StackType) :
    Equivariant p (Frame.markStored r t) (Frame.markStored (p r) t) := by
  intro f
  have hothers : (f.floats.map p).filter (· ≠ p r) = (f.floats.filter (· ≠ r)).map p := by
    rw [List.filter_map]
    congr 2
    funext q
    simp
  unfold Frame.markStored Frame.relabel
  simp only [hothers]
  split <;> rfl

theorem storeRegister (r : Register) (t : StackType) :
    Equivariant p (Frame.storeRegister r t) (Frame.storeRegister (p r) t) :=
  (localFor (.register r) _).bind fun _ => (markStored r t).bind fun _ _ => rfl

theorem planPair : PlanPair p True fun x y => Equivariant p x y where
  pure a b hab f := by
    cases hab trivial
    rfl
  throw v _ f := rfl
  bind hx hk := hx.bind fun a => hk a a fun _ => rfl
  peek n _ _ hk := (peek n).bind hk
  require := require
  holdsFloat r k l hk f := by
    show l ((f.relabel p).holdsFloat (p r)) (f.relabel p) = _
    rw [holdsFloat_relabel]
    exact hk (f.holdsFloat r) f
  registerLocal r t := localFor (.register r) _
  scratchLocal := scratchLocal

theorem emit (code : CodeRef) (i : HostInstr) :
    Equivariant p (Frame.emit code i) (Frame.emit code i) := by
  intro f
  have heff : i.effect (f.relabel p).limit (f.relabel p).locals (f.relabel p).stack =
      i.effect f.limit f.locals f.stack := effect_relabel i _ _ _
  cases h : i.effect f.limit f.locals f.stack with
  | ok s =>
    have hafter : (f.afterEmit code i s).relabel p = (f.relabel p).afterEmit code i s := by
      unfold afterEmit Frame.relabel
      split <;> simp [Array.map_push, Event.relabel]
    rw [emit_eq_ok.mpr ⟨s, h, rfl⟩]
    exact emit_eq_ok.mpr ⟨s, heff.trans h, hafter⟩
  | error c =>
    have hcause : c.relabel p = c := Cause.relabel_of_stackRefusal (stackRefusal_of_effect h)
    rw [emit_eq_error.mpr ⟨h, rfl⟩]
    show _ = EStateM.Result.error (c.relabel p) (f.relabel p)
    rw [hcause]
    exact emit_eq_error.mpr ⟨heff.trans h, rfl⟩

theorem emitAll (code : CodeRef) : ∀ is, Equivariant p (Frame.emitAll code is) (Frame.emitAll code is)
  | [] => fun _ => rfl
  | i :: is => (emit code i).bind fun _ => emitAll code is

end Lower.Equivariant

/-! ### Rules and bodies -/

section Runs

variable (p : Equiv.Perm Register)

theorem Rule.emit_equivariant (rule : Rule) (op : Operation) :
    Equivariant p (rule.emit op) (rule.emit (op.relabel p)) := by
  have hplan : Equivariant p (rule.plan op) (rule.plan (op.relabel p)) := by
    cases hs : rule.supports op.code with
    | true => exact Equivariant.planPair.plan hs fun r _ t => .storeRegister r t
    | false =>
      have hs' : rule.supports (op.relabel p).code = false := by rwa [Operation.code_relabel]
      rw [plan_of_not_supports hs, plan_of_not_supports hs', Operation.code_relabel]
      exact fun _ => rfl
  rw [Rule.emit_eq, Rule.emit_eq, Operation.code_relabel]
  exact hplan.bind fun is => .emitAll op.code is

theorem Rule.lower_relabel (rule : Rule) (i : Instr) (f : Frame) :
    rule.lower (i.relabel p) (f.relabel p) = Lower.relabelEnd p (Fault.relabel p) (rule.lower i f) := by
  have hemit := rule.emit_equivariant p i.operation
  cases h : rule.lower i f with
  | ok code g =>
    obtain ⟨k, hk, rfl, rfl⟩ := Rule.lower_eq_ok.mp h
    exact Rule.lower_eq_ok.mpr ⟨k.relabel p, hemit.ok hk, rfl, rfl⟩
  | error fault g =>
    obtain ⟨c, hc, rfl⟩ := Rule.lower_eq_error.mp h
    refine Rule.lower_eq_error.mpr ⟨c.relabel p, hemit.error hc, ?_⟩
    rw [Instr.code_relabel]
    rfl

namespace Registry

variable (reg : Registry)

/-- Renaming the registers of an instruction and of the frame renames those of
the outcome. -/
theorem lower_relabel (i : Instr) (f : Frame) :
    reg.lower (i.relabel p) (f.relabel p) = Lower.relabelEnd p (Fault.relabel p) (reg.lower i f) := by
  have hcode : (i.relabel p).code = i.code := Instr.code_relabel i
  cases hr : reg.find? i.code with
  | some r =>
    rw [lower_of_find hr, lower_of_find (hcode.symm ▸ hr)]
    exact r.rule.lower_relabel p i f
  | none =>
    rw [lower_of_find_none hr, lower_of_find_none (hcode.symm ▸ hr), hcode]
    rfl

/-- And so do the instructions of a body, one after another. -/
theorem assemble_relabel : ∀ (body : List Instr) (a : Assembly) (f : Frame),
    reg.assemble (body.map (Instr.relabel p)) a (f.relabel p) =
      match reg.assemble body a f with
      | (.ok b, g) => (.ok b, g.relabel p)
      | (.error e, g) => (.error (e.relabel p), g.relabel p)
  | [], _, _ => rfl
  | i :: rest, a, f => by
    have hstep := reg.lower_relabel p i f
    rw [List.map_cons, assemble, assemble]
    cases h : reg.lower i f with
    | ok code g =>
      rw [h] at hstep
      rw [hstep]
      exact assemble_relabel rest _ g
    | error fault g =>
      rw [h] at hstep
      rw [hstep]
      rfl

/-- A body with its registers renamed comes to what the body comes to, with its
registers renamed. -/
theorem recompile_relabel (o : Options) (body : List Instr) :
    reg.recompile o (body.map (Instr.relabel p)) = (reg.recompile o body).relabel p := by
  have hbody := reg.assemble_relabel p body {} (.start o)
  have hstart : (Frame.start o).relabel p = Frame.start o := by simp [Frame.relabel, Frame.start]
  rw [hstart] at hbody
  unfold recompile
  rw [hbody, List.length_map]
  rcases reg.assemble body {} (.start o) with ⟨_ | _, g⟩
  · simp [Outcome.relabel, Event.relabel, RecompileError.relabel, Frame.relabel, Array.map_push]
  · simp [Outcome.relabel, Event.relabel, Method.relabel, Frame.relabel, Array.map_push, newLocals]

end Registry

end Runs

end Devirt
