/-
# Bodies and their beginnings

A body is lowered from the front, and what lowering produces only grows: the
code, the mappings and the table of locals at their ends, and the peak of the
stack (`Registry.assemble_continues`). It stops at the first instruction that
fails, and what comes behind that one is never looked at
(`Registry.assemble_eq_error`).

So the method of a body begins with the methods of the body's beginnings, and
a body that fails does so in the same way whatever it goes on with
(`recompile_append`).

Key definitions: `Continues`, `Method.IsOf`.
Key theorems: `peak_invariant`, `Registry.assemble_continues`,
`Registry.assemble_eq_error`, `Registry.recompile_of_assemble`,
`recompile_append`.
-/
import Devirt.Proofs.Slices

namespace Devirt

open Devirt.Frame Lower HostInstr

/-! ### What only grows -/

/-- The greatest depth so far is never lost. -/
theorem peak_invariant (p : Nat) :
    CodeInvariant fun _ f => f.stack.depth ≤ f.stack.peak ∧ p ≤ f.stack.peak where
  addLocal _ _ _ _ _ _ hf := hf
  markStored _ _ _ hf := hf
  emit _ f _ i s hs hf := by
    have hpeak : s.peak = max f.stack.peak s.depth := raises_effect hf.1 hs
    show s.depth ≤ s.peak ∧ p ≤ s.peak
    omega
  drain _ _ hf := hf

/-- The second assembly goes on where the first one is, and so does its
frame. -/
structure Continues (a : Assembly) (f : Frame) (a' : Assembly) (f' : Frame) : Prop where
  instructions : a.instructions.toList <+: a'.instructions.toList
  mappings : a.mappings.toList <+: a'.mappings.toList
  locals : f.locals.toList <+: f'.locals.toList
  peak : f.stack.peak ≤ f'.stack.peak

namespace Registry

variable {reg : Registry} {a a' : Assembly} {f f' g : Frame} {body : List Instr}
  {e : RecompileError}

/-- Assembling more only adds to what there is. -/
theorem assemble_continues (hf : f.stack.depth ≤ f.stack.peak)
    (h : reg.assemble body a f = (.ok a', f')) : Continues a f a' f' := by
  have hcode : a.instructions.toList <+: a'.instructions.toList ∧
      a.mappings.toList <+: a'.mappings.toList := by
    refine assemble_induction (P := fun _ b _ => a.instructions.toList <+: b.instructions.toList ∧
      a.mappings.toList <+: b.mappings.toList) ?_ body []
      ⟨List.prefix_refl _, List.prefix_refl _⟩ h
    rintro done i b g code k ⟨hi, hm⟩ -
    constructor
    · rw [Assembly.append, Array.toList_append]
      exact hi.trans (List.prefix_append _ _)
    · rw [Assembly.append, Array.toList_push]
      exact hm.trans (List.prefix_append _ _)
  have hlocals : Extends f.locals f'.locals :=
    (extends_invariant f.locals).assemble body (.refl _) h
  have hpeak : f'.stack.depth ≤ f'.stack.peak ∧ f.stack.peak ≤ f'.stack.peak :=
    (peak_invariant f.stack.peak).assemble body ⟨hf, Nat.le_refl _⟩ h
  exact ⟨hcode.1, hcode.2, hlocals.isPrefix, hpeak.2⟩

/-! ### Where a body fails -/

/-- A body fails at the first instruction that fails where those before it
lead. -/
theorem assemble_eq_error (h : reg.assemble body a f = (.error e, g)) :
    ∃ n i a' f', body[n]? = some i ∧ e.index = a.mappings.size + n ∧ e.offset = i.offset ∧
      reg.assemble (body.take n) a f = (.ok a', f') ∧ reg.lower i f' = .error e.fault g := by
  induction body generalizing a f with
  | nil => cases h
  | cons i rest ih =>
    rw [assemble] at h
    cases hl : reg.lower i f with
    | error fault k =>
      rw [hl] at h
      cases h
      exact ⟨0, i, a, f, rfl, rfl, rfl, rfl, hl⟩
    | ok code k =>
      rw [hl] at h
      obtain ⟨n, j, a', f', hj, hindex, hoffset, hfront, hfail⟩ := ih h
      refine ⟨n + 1, j, a', f', hj, ?_, hoffset, ?_, hfail⟩
      · rw [hindex, Assembly.append, Array.size_push]
        omega
      · rw [List.take_succ_cons, assemble, hl]
        exact hfront

end Registry

/-! ### Recompilation by assembly -/

/-- The method holds what was assembled on the way to the frame. -/
structure Method.IsOf (m : Method) (a : Assembly) (f : Frame) : Prop where
  instructions : m.instructions = a.instructions
  locals : m.locals = f.locals
  maxStack : m.maxStack = f.stack.peak
  mappings : m.mappings = a.mappings

theorem Method.IsOf.unique {m m' : Method} {a : Assembly} {f : Frame} (h : m.IsOf a f)
    (h' : m'.IsOf a f) : m = m' := by
  cases m
  cases m'
  rw [Method.mk.injEq]
  exact ⟨h.instructions.trans h'.instructions.symm, h.locals.trans h'.locals.symm,
    h.maxStack.trans h'.maxStack.symm, h.mappings.trans h'.mappings.symm⟩

namespace Registry

variable {reg : Registry} {o : Options} {a : Assembly} {f : Frame} {body : List Instr}
  {e : RecompileError} {m : Method}

theorem recompile_eq_error : (reg.recompile o body).result = .error e ↔
    ∃ f, reg.assemble body {} (.start o) = (.error e, f) := by
  unfold recompile
  rcases reg.assemble body {} (.start o) with ⟨e' | a, f⟩
  · simp
  · simp

/-- A method is what a body is assembled to. -/
theorem assemble_of_recompile (h : (reg.recompile o body).result = .ok m) :
    ∃ a f, reg.assemble body {} (.start o) = (.ok a, f) ∧ m.IsOf a f := by
  obtain ⟨a, f, ha, hi, hl, hs, hm⟩ := recompile_eq_ok h
  exact ⟨a, f, ha, hi, hl, hs, hm⟩

/-- A body that is assembled has a method. -/
theorem recompile_of_assemble (h : reg.assemble body {} (.start o) = (.ok a, f)) :
    ∃ m, (reg.recompile o body).result = .ok m ∧ m.IsOf a f := by
  cases hm : (reg.recompile o body).result with
  | error e =>
    obtain ⟨f', hf'⟩ := recompile_eq_error.mp hm
    rw [h] at hf'
    cases hf'
  | ok m =>
    obtain ⟨a', f', ha', hof⟩ := assemble_of_recompile hm
    rw [h] at ha'
    cases ha'
    exact ⟨m, rfl, hof⟩

end Registry

/-! ### Beginnings -/

/-- Whatever rules the registry has: if a body is recompiled, so is each of its
beginnings, and the code, the locals and the mappings of that are beginnings of
those of the whole. If a body fails, it fails in the same way whatever comes
behind it, at one of its own instructions, and what is before that one is
recompiled. -/
theorem recompile_append (reg : Registry) (o : Options) (body rest : List Instr) :
    (∀ m, (reg.recompile o (body ++ rest)).result = .ok m →
      ∃ m', (reg.recompile o body).result = .ok m' ∧
        m'.instructions.toList <+: m.instructions.toList ∧ m'.locals.toList <+: m.locals.toList ∧
        m'.mappings.toList <+: m.mappings.toList ∧ m'.maxStack ≤ m.maxStack) ∧
    ∀ e, (reg.recompile o body).result = .error e →
      (reg.recompile o (body ++ rest)).result = .error e ∧
      (∃ h : e.index < body.length, e.offset = body[e.index].offset) ∧
      ∃ m, (reg.recompile o (body.take e.index)).result = .ok m := by
  constructor
  · intro m h
    obtain ⟨a, f, ha, hof⟩ := Registry.assemble_of_recompile h
    rw [Registry.assemble_append] at ha
    cases hfront : reg.assemble body {} (.start o) with
    | mk r k =>
      cases r with
      | error e =>
        rw [hfront] at ha
        cases ha
      | ok b =>
        rw [hfront] at ha
        obtain ⟨m', hm', hof'⟩ := Registry.recompile_of_assemble hfront
        have hdepth : k.stack.depth ≤ k.stack.peak :=
          (Registry.assemble_standing hfront).2.2.depth_le_peak
        have hcont : Continues b k a f := Registry.assemble_continues hdepth ha
        refine ⟨m', hm', ?_, ?_, ?_, ?_⟩
        · rw [hof'.instructions, hof.instructions]
          exact hcont.instructions
        · rw [hof'.locals, hof.locals]
          exact hcont.locals
        · rw [hof'.mappings, hof.mappings]
          exact hcont.mappings
        · rw [hof'.maxStack, hof.maxStack]
          exact hcont.peak
  · intro e h
    obtain ⟨f, hf⟩ := Registry.recompile_eq_error.mp h
    obtain ⟨n, i, a', f', hi, hindex, hoffset, hfront, -⟩ := Registry.assemble_eq_error hf
    obtain ⟨hlt, rfl⟩ := List.getElem?_eq_some_iff.mp hi
    obtain rfl : e.index = n := by simpa using hindex
    obtain ⟨m, hm, -⟩ := Registry.recompile_of_assemble hfront
    refine ⟨Registry.recompile_eq_error.mpr ⟨f, ?_⟩, ⟨hlt, hoffset⟩, m, hm⟩
    rw [Registry.assemble_append, hf]

theorem recompile_append_narrowFloat :
    (∃ m m', (Registry.default.recompile {} (narrowFloat.take 3)).result = .ok m ∧
      (Registry.default.recompile {} (narrowFloat.take 2)).result = .ok m' ∧
      m'.instructions.toList <+: m.instructions.toList) ∧
    ∃ e, (Registry.default.recompile {} narrowFloat).result = .error e ∧ e.index = 3 ∧
      (Registry.default.recompile {} (narrowFloat ++ selfComparison)).result = .error e := by
  have haccepted : ((Registry.default.recompile {}
      (narrowFloat.take 2 ++ (narrowFloat.drop 2).take 1)).result.map
      Method.maxStack).toOption = some 1 := by decide +kernel
  have hrejected : (match (Registry.default.recompile {} narrowFloat).result with
      | .error e => some e.index
      | .ok _ => none) = some 3 := by decide +kernel
  constructor
  · obtain ⟨m, hm, -⟩ := Registry.exists_method haccepted
    obtain ⟨m', hm', hcode, -⟩ := (recompile_append Registry.default {} _ _).1 m hm
    exact ⟨m, m', hm, hm', hcode⟩
  · cases he : (Registry.default.recompile {} narrowFloat).result with
    | ok m =>
      rw [he] at hrejected
      cases hrejected
    | error e =>
      rw [he] at hrejected
      obtain ⟨hsame, -⟩ := (recompile_append Registry.default {} narrowFloat selfComparison).2 e he
      exact ⟨e, rfl, Option.some.inj hrejected, hsame⟩

end Devirt
