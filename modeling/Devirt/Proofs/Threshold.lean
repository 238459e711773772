/-
# The depth limit is a threshold

A limit on the depth of the stack is without influence until it is passed.
Under the smaller of two limits an instruction has the effect that it has under
the greater one if what it leaves fits, and is refused for want of room
otherwise (`EvalStack.cut_effect`). So two runs of a rule go in step until the
smaller limit stops one of them (`Rule.lower_cut`), and so do two runs of a
body (`Registry.assemble_cut`).

Hence the depth that a method records is the least limit that it can be
recompiled under, and every limit from there on gives the same method
(`recompile_limit`).

Key definitions: `EvalStack.Cut`, `Frame.capped`, `Frame.Cuts`, `Frame.Over`,
`Lower.CutTo`.
Key theorems: `EvalStack.cut_effect`, `Rule.lower_cut`,
`Registry.assemble_cut`, `recompile_limit`.
-/
import Devirt.Proofs.Inert
import Devirt.Proofs.InStep

namespace Devirt

open Devirt.Frame Lower

/-! ### The stack under two limits -/

namespace EvalStack

variable {L L' n : Nat} {t : StackType} {s : EvalStack}

/-- What comes of an operation under the limit `L`, beside what comes of it
under the greater limit `L'`. -/
inductive Cut (L L' : Nat) : Except Cause EvalStack → Except Cause EvalStack → Prop where
  | fits {s : EvalStack} (h : s.depth ≤ L) : Cut L L' (.ok s) (.ok s)
  | refused {s : EvalStack} (h : L < s.depth) : Cut L L' (.error (.overflow L)) (.ok s)
  | full : Cut L L' (.error (.overflow L)) (.error (.overflow L'))
  | fails (c : Cause) : Cut L L' (.error c) (.error c)

theorem cut_push (hL : L ≤ L') : Cut L L' (s.push L t) (s.push L' t) := by
  unfold push
  by_cases hlow : s.depth < L
  · have hhigh : s.depth < L' := by omega
    rw [if_pos hlow, if_pos hhigh]
    exact .fits hlow
  · rw [if_neg hlow]
    by_cases hhigh : s.depth < L'
    · rw [if_pos hhigh]
      exact .refused (show L < s.depth + 1 by omega)
    · rw [if_neg hhigh]
      exact .full

theorem cut_drop (hs : s.depth ≤ L) : Cut L L' (s.drop n) (s.drop n) := by
  cases hd : s.drop n with
  | ok r => exact .fits ((HostInstr.peak_drop hd).2.trans hs)
  | error c => exact .fails c

theorem cut_replace (hL : L ≤ L') : Cut L L' (s.replace L n t) (s.replace L' n t) := by
  unfold replace
  cases s.drop n with
  | ok r => exact cut_push hL
  | error c => exact .fails c

theorem cut_combine (hL : L ≤ L') (k : StackType → StackType → StackType) :
    Cut L L' (s.combine L k) (s.combine L' k) := by
  unfold combine
  split
  · exact cut_replace hL
  · exact .fails _

theorem cut_peek_bind {k k' : StackType → Except Cause EvalStack} (hk : ∀ t, Cut L L' (k t) (k' t)) :
    Cut L L' (s.peek n >>= k) (s.peek n >>= k') := by
  cases s.peek n with
  | ok t => exact hk t
  | error c => exact .fails c

/-- A smaller limit refuses what does not fit, and changes nothing else. -/
theorem cut_effect (hL : L ≤ L') (hs : s.depth ≤ L) (i : HostInstr) (locals : Array Local) :
    Cut L L' (i.effect L locals s) (i.effect L' locals s) := by
  cases i with
  | nop => exact .fits hs
  | loadNull | loadInt32 | loadInt64 | loadStatic => exact cut_push hL
  | loadLocal j =>
    simp only [HostInstr.effect]
    cases locals[j.val]? with
    | some l => exact cut_push hL
    | none => exact .fails _
  | storeLocal | pop | storeStatic | storeField => exact cut_drop hs
  | dup => exact cut_peek_bind fun _ => cut_push hL
  | arith | shift => exact cut_combine hL _
  | unary => exact cut_peek_bind fun _ => cut_replace hL
  | convert | compare | box | castClass | loadField => exact cut_replace hL
  | invoke how m =>
    cases how with
    | construct => exact cut_replace hL
    | direct | virtual =>
      simp only [HostInstr.effect]
      cases m.resultType? with
      | some t => exact cut_replace hL
      | none => exact cut_drop hs

end EvalStack

/-! ### Frames under two limits -/

namespace Frame

variable {L : Nat} {f g : Frame}

/-- The frame with another limit. -/
def capped (L : Nat) (f : Frame) : Frame :=
  { f with options := { f.options with maxStackDepth := L } }

/-- Finding the code of an operation does not read the limit. -/
theorem planInert_capped (L : Nat) : PlanInert (capped L) where
  stack _ := rfl
  locals _ := rfl
  floats _ := rfl
  reuse _ := rfl
  withLocals _ _ := rfl
  withFloats _ _ := rfl

/-- The first frame is the second one under the limit `L`, which is no more
than its own, and the stack has never been higher than that. -/
structure Cuts (L : Nat) (f g : Frame) : Prop where
  eq : f = g.capped L
  depth_le : g.stack.depth ≤ g.stack.peak
  peak_le : g.stack.peak ≤ L
  le_limit : L ≤ g.limit

/-- The stack has been higher than `L`. -/
def Over (L : Nat) (f : Frame) : Prop := f.stack.depth ≤ f.stack.peak ∧ L < f.stack.peak

/-- Once the stack has been higher than `L`, it has been so for good. -/
theorem keeps_over (L : Nat) (code : CodeRef) (is : List HostInstr) :
    Keeps (Over L) (emitAll code is) := by
  have hover : Emittable (CodeInvariant.Behind (fun _ f => f.Over L) []) :=
    (peak_invariant (L + 1)).emittable
  exact keeps_emitAll hover code is

end Frame

/-! ### Rules under two limits -/

/-- The two steps give the same under two limits, until the smaller one `L`
stops the first of them. -/
abbrev Lower.CutTo {ε α : Type} (stops : ε → Prop) (L : Nat) :
    EStateM.Result ε Frame α → EStateM.Result ε Frame α → Prop :=
  InStep stops (Frame.Over L) fun a f b g => a = b ∧ f.Cuts L g

section Rules

variable {L : Nat} {f g : Frame}

theorem emit_cut (hfg : f.Cuts L g) (code : CodeRef) (i : HostInstr) :
    CutTo (· = .overflow L) L (emit code i f) (emit code i g) := by
  obtain ⟨rfl, hdepth, hpeak, hlimit⟩ := hfg
  have hcut : EvalStack.Cut L g.limit (i.effect L g.locals g.stack)
      (i.effect g.limit g.locals g.stack) :=
    EvalStack.cut_effect hlimit (hdepth.trans hpeak) i g.locals
  have hraises : ∀ {s}, i.effect g.limit g.locals g.stack = .ok s →
      s.peak = max g.stack.peak s.depth := HostInstr.raises_effect hdepth
  have hlow : ∀ {c}, i.effect L g.locals g.stack = .error c →
      emit code i (g.capped L) = .error c (g.capped L) :=
    fun h => emit_eq_error.mpr ⟨h, rfl⟩
  generalize hfirst : i.effect L g.locals g.stack = r at hcut hlow
  generalize hsecond : i.effect g.limit g.locals g.stack = r' at hcut hraises
  cases hcut with
  | @fits s h =>
    have hs := hraises rfl
    have hemit : emit code i (g.capped L) = .ok () ((g.capped L).afterEmit code i s) :=
      emit_eq_ok.mpr ⟨s, hfirst, rfl⟩
    rw [hemit, emit_eq_ok.mpr ⟨s, hsecond, rfl⟩]
    exact .ok ⟨rfl, rfl, show s.depth ≤ s.peak by omega, show s.peak ≤ L by omega, hlimit⟩
  | @refused s h =>
    have hs := hraises rfl
    rw [hlow rfl, emit_eq_ok.mpr ⟨s, hsecond, rfl⟩]
    refine .stopped rfl fun b k hk => ?_
    cases hk
    exact ⟨show s.depth ≤ s.peak by omega, show L < s.peak by omega⟩
  | full =>
    rw [hlow rfl, emit_eq_error.mpr ⟨hsecond, rfl⟩]
    exact .stopped rfl fun b k hk => by cases hk
  | fails c =>
    rw [hlow rfl, emit_eq_error.mpr ⟨hsecond, rfl⟩]
    exact .error

theorem emitAll_cut (code : CodeRef) (is : List HostInstr) : ∀ {f g : Frame}, f.Cuts L g →
    CutTo (· = .overflow L) L (emitAll code is f) (emitAll code is g) := by
  induction is with
  | nil => exact fun hfg => .ok ⟨rfl, hfg⟩
  | cons i is ih =>
    intro f g hfg
    exact (emit_cut hfg code i).bind (fun _ _ _ _ h => ih h.2) fun _ => keeps_over L code is

theorem Rule.plan_cut (hfg : f.Cuts L g) (r : Rule) (op : Operation) :
    CutTo (· = .overflow L) L (r.plan op f) (r.plan op g) := by
  obtain ⟨rfl, hdepth, hpeak, hlimit⟩ := hfg
  rw [r.plan_commutes (planInert_capped L) op g]
  cases h : r.plan op g with
  | ok is k =>
    obtain ⟨ho, hs, -⟩ := Rule.plan_eq_ok h
    have hlimit' : L ≤ k.limit := by
      rw [limit, ho]
      exact hlimit
    exact .ok ⟨rfl, rfl, hs ▸ hdepth, hs ▸ hpeak, hlimit'⟩
  | error c k => exact .error

/-- A smaller limit stops the lowering of an instruction, or it has no
influence on it. -/
theorem Rule.lower_cut (hfg : f.Cuts L g) (r : Rule) (i : Instr) :
    CutTo (fun fault : Fault => fault.cause = .overflow L) L (r.lower i f) (r.lower i g) := by
  refine Rule.lower_inStep (R := fun f' g' => f'.Cuts L g') (r.plan_cut hfg i.operation) ?_ ?_
    (fun is => keeps_over L _ is) fun _ hk => hk
  · rintro is f' _ g' ⟨rfl, h⟩
    exact (emitAll_cut i.operation.code is h).mono fun _ _ _ _ h' => h'.2
  · rintro f' g' ⟨rfl, hdepth, hpeak, hlimit⟩
    exact ⟨rfl, rfl, hdepth, hpeak, hlimit⟩

theorem Registry.lower_cut (hfg : f.Cuts L g) (reg : Registry) (i : Instr) :
    CutTo (fun fault : Fault => fault.cause = .overflow L) L (reg.lower i f) (reg.lower i g) := by
  cases hr : reg.find? i.code with
  | some r =>
    rw [lower_of_find hr]
    exact r.rule.lower_cut hfg i
  | none =>
    rw [lower_of_find_none hr]
    exact .error

/-- The two runs of a body go in step until the smaller limit stops one. -/
theorem Registry.assemble_cut (reg : Registry) (body : List Instr) (hfg : f.Cuts L g) :
    InStep (· = .overflow L) (Frame.Over L) (fun a f b g => a = b ∧ f.Cuts L g)
      (reg.assemble body {} f) (reg.assemble body {} g) := by
  refine assemble_inStep ?_ ?_ ?_ body ⟨rfl, hfg⟩
  · rintro a f b g ⟨rfl, -⟩
    rfl
  · rintro i a f b g ⟨rfl, h⟩
    refine (reg.lower_cut h i).mono ?_
    rintro code f' code' g' ⟨rfl, h'⟩
    exact ⟨rfl, h'⟩
  · intro body b b' k k' hk h
    have hdepth : k'.stack.depth ≤ k'.stack.peak ∧ k.stack.peak ≤ k'.stack.peak :=
      (peak_invariant k.stack.peak).assemble body ⟨hk.1, Nat.le_refl _⟩ h
    exact ⟨hdepth.1, hk.2.trans_le hdepth.2⟩

end Rules

/-- Whatever rules the registry has, the limit is a pure threshold. A body that
is recompiled under `L₂` gives under `L₁` the same method if the method's depth
is within `L₁`, and overflows otherwise. A body that fails under `L₂` fails in
the same way under `L₁`, or overflows no later. -/
theorem recompile_limit (reg : Registry) (o : Options) (L₁ L₂ : Nat) (hle : L₁ ≤ L₂)
    (body : List Instr) :
    (∀ m, (reg.recompile { o with maxStackDepth := L₂ } body).result = .ok m →
      (m.maxStack ≤ L₁ → (reg.recompile { o with maxStackDepth := L₁ } body).result = .ok m) ∧
      (L₁ < m.maxStack → ∃ e, (reg.recompile { o with maxStackDepth := L₁ } body).result = .error e ∧
        e.fault.cause = .overflow L₁)) ∧
    ∀ e, (reg.recompile { o with maxStackDepth := L₂ } body).result = .error e →
      (reg.recompile { o with maxStackDepth := L₁ } body).result = .error e ∨
      ∃ e', (reg.recompile { o with maxStackDepth := L₁ } body).result = .error e' ∧
        e'.fault.cause = .overflow L₁ ∧ e'.index ≤ e.index := by
  have hstart : (Frame.start { o with maxStackDepth := L₁ }).Cuts L₁
      (.start { o with maxStackDepth := L₂ }) :=
    ⟨rfl, Nat.le_refl 0, Nat.zero_le L₁, hle⟩
  rcases Registry.recompile_inStep (reg.assemble_cut body hstart) with
    ⟨m, m', a, f, b, g, hm, hm', ⟨rfl, hcuts⟩, hof, hof'⟩ | ⟨e, he, he'⟩ | ⟨e, he, hcause, hok, herror⟩
  · -- the two runs went through, and their methods are the same
    obtain ⟨rfl, -, hpeak, -⟩ := hcuts
    -- a method does not hold the limit
    have hof : m.IsOf a g := ⟨hof.instructions, hof.locals, hof.maxStack, hof.mappings⟩
    have heq : m = m' := hof.unique hof'
    have hfits : m'.maxStack ≤ L₁ := hof'.maxStack.le.trans hpeak
    constructor
    · intro m₂ hm₂
      cases hm'.symm.trans hm₂
      exact ⟨fun _ => heq ▸ hm, fun hlt => absurd hlt (Nat.not_lt.mpr hfits)⟩
    · intro e he
      cases hm'.symm.trans he
  · constructor
    · intro m hm
      cases he'.symm.trans hm
    · intro e₂ he₂
      cases he'.symm.trans he₂
      exact Or.inl he
  · constructor
    · intro m hm
      obtain ⟨b, g, hover, hof⟩ := hok m hm
      have hlt : L₁ < m.maxStack := hof.maxStack ▸ hover.2
      exact ⟨fun hfits => absurd hlt (Nat.not_lt.mpr hfits), fun _ => ⟨e, he, hcause⟩⟩
    · intro e₂ he₂
      exact Or.inr ⟨e, he, hcause, herror e₂ he₂⟩

theorem recompile_limit_selfComparison :
    2 ≤ 8 ∧ 3 ≤ 8 ∧
    ∃ m, (Registry.default.recompile { maxStackDepth := 8 } selfComparison).result = .ok m ∧
      (Registry.default.recompile { maxStackDepth := 3 } selfComparison).result = .ok m ∧
      ∃ e, (Registry.default.recompile { maxStackDepth := 2 } selfComparison).result = .error e ∧
        e.fault.cause = .overflow 2 := by
  have hrun : ((Registry.default.recompile { maxStackDepth := 8 } selfComparison).result.map
      Method.maxStack).toOption = some 3 := by decide +kernel
  obtain ⟨m, hm, hpeak⟩ := Registry.exists_method hrun
  have hfits := (recompile_limit Registry.default {} 3 8 (by decide) selfComparison).1 m hm
  have hrefused := (recompile_limit Registry.default {} 2 8 (by decide) selfComparison).1 m hm
  exact ⟨by decide, by decide, m, hm, hfits.1 (by omega), hrefused.2 (by omega)⟩

end Devirt
