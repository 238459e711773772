/-
# Values underneath

What an instruction does to the stack it does to the values on top, and nothing
tells it how many there are underneath. So if a body is lowered on a new frame,
it is lowered just the same on a frame whose stack holds values already, as
long as the limit leaves the room for them: to the same host code, with the same
locals, on top of the values that were there (`lowerAll_underneath`).

A step is framed if it goes through on a frame with values underneath whenever
it goes through without them (`Lower.Framed`). It may be refused without them
and go through with them, for then it may find the operands that it lacked.

Key definitions: `EvalStack.atop`, `Frame.atop`, `Lower.Framed`,
`Registry.lowerAll`.
Key theorems: `EvalStack.effect_atop`, `Rule.emit_framed`,
`Registry.lowerAll_framed`, `lowerAll_underneath`.
-/
import Devirt.Proofs.Mirror

namespace Devirt

open Devirt.Frame Lower HostInstr

/-! ### Stacks -/

namespace EvalStack

variable {limit n : Nat} {t : StackType} {s s' : EvalStack} (U : List StackType)

/-- The stack on top of the values `U`, which are given top first. -/
def atop (U : List StackType) (s : EvalStack) : EvalStack where
  types := s.types ++ U
  depth := s.depth + U.length
  peak := s.peak + U.length
  depth_eq := by rw [s.depth_eq, List.length_append]

@[simp] theorem types_atop (s : EvalStack) : (s.atop U).types = s.types ++ U := rfl

@[simp] theorem depth_atop (s : EvalStack) : (s.atop U).depth = s.depth + U.length := rfl

@[simp] theorem peak_atop (s : EvalStack) : (s.atop U).peak = s.peak + U.length := rfl

/-- The types and the peak are all there is to a stack. -/
theorem ext_types (ht : s.types = s'.types) (hp : s.peak = s'.peak) : s = s' := by
  obtain ⟨types, depth, peak, rfl⟩ := s
  obtain ⟨types', depth', peak', rfl⟩ := s'
  cases ht
  cases hp
  rfl

theorem push_atop (h : s.push limit t = .ok s') :
    (s.atop U).push (limit + U.length) t = .ok (s'.atop U) := by
  unfold push at h ⊢
  split at h
  · rename_i hlt
    cases h
    have hlt' : (s.atop U).depth < limit + U.length := Nat.add_lt_add_right hlt _
    rw [if_pos hlt']
    refine congrArg _ (ext_types rfl ?_)
    simp only [peak_atop, depth_atop]
    omega
  · cases h

theorem drop_atop (h : s.drop n = .ok s') : (s.atop U).drop n = .ok (s'.atop U) := by
  unfold drop at h ⊢
  split at h
  · rename_i hle
    cases h
    have hle' : n ≤ (s.atop U).depth := Nat.le_add_right_of_le hle
    rw [if_pos hle']
    exact congrArg _ (ext_types (List.drop_append_of_le_length (s.depth_eq ▸ hle)) rfl)
  · cases h

theorem replace_atop (h : s.replace limit n t = .ok s') :
    (s.atop U).replace (limit + U.length) n t = .ok (s'.atop U) := by
  unfold replace at h ⊢
  cases hd : s.drop n with
  | error c =>
    rw [hd] at h
    cases h
  | ok r =>
    rw [hd] at h
    rw [drop_atop U hd]
    exact push_atop U h

theorem combine_atop {k : StackType → StackType → StackType} (h : s.combine limit k = .ok s') :
    (s.atop U).combine (limit + U.length) k = .ok (s'.atop U) := by
  unfold combine at h
  split at h
  · rename_i rhs lhs rest htypes
    have htypes' : (s.atop U).types = rhs :: lhs :: (rest ++ U) := by
      rw [types_atop, htypes, List.cons_append, List.cons_append]
    rw [combine, htypes']
    exact replace_atop U h
  · cases h

theorem peek_atop (h : s.peek n = .ok t) : (s.atop U).peek n = .ok t := by
  unfold peek at h ⊢
  cases hn : s.types[n]? with
  | none =>
    rw [hn] at h
    cases h
  | some u =>
    rw [hn] at h
    cases h
    have hlt : n < s.types.length := (List.getElem?_eq_some_iff.mp hn).1
    rw [types_atop, List.getElem?_append_left hlt, hn]

theorem peek_bind_atop {k k' : StackType → Except Cause EvalStack}
    (hk : ∀ t, k t = .ok s' → k' t = .ok (s'.atop U)) (h : s.peek n >>= k = .ok s') :
    (s.atop U).peek n >>= k' = .ok (s'.atop U) := by
  cases hp : s.peek n with
  | error c =>
    rw [hp] at h
    cases h
  | ok t =>
    rw [hp] at h
    rw [peek_atop U hp]
    exact hk t h

/-- An instruction has the effect on top that it has without the values
underneath. -/
theorem effect_atop {i : HostInstr} {locals : Array Local} (h : i.effect limit locals s = .ok s') :
    i.effect (limit + U.length) locals (s.atop U) = .ok (s'.atop U) := by
  cases i with
  | nop =>
    cases h
    rfl
  | loadNull | loadInt32 | loadInt64 | loadStatic => exact push_atop U h
  | loadLocal j =>
    simp only [effect] at h ⊢
    cases hl : locals[j.val]? with
    | none =>
      rw [hl] at h
      cases h
    | some l =>
      rw [hl] at h
      exact push_atop U h
  | storeLocal | pop | storeStatic | storeField => exact drop_atop U h
  | dup => exact peek_bind_atop U (fun _ => push_atop U) h
  | arith | shift => exact combine_atop U h
  | unary => exact peek_bind_atop U (fun _ => replace_atop U) h
  | convert | compare | box | castClass | loadField => exact replace_atop U h
  | invoke how m =>
    cases how with
    | construct => exact replace_atop U h
    | direct | virtual =>
      simp only [effect] at h ⊢
      cases hr : m.resultType? with
      | some t =>
        rw [hr] at h
        exact replace_atop U h
      | none =>
        rw [hr] at h
        exact drop_atop U h

end EvalStack

/-! ### Framed steps -/

/-- The frame with values underneath its own and the room for them, and with
the log `l`. -/
def Frame.atop (U : List StackType) (l : Array Event) (f : Frame) : Frame :=
  { f with
    options := { f.options with maxStackDepth := f.limit + U.length }
    stack := f.stack.atop U
    log := l }

/-- Whenever the step goes through, it does the same with the values
underneath, but for the depths that it logs. -/
def Lower.Framed {ε α : Type} (U : List StackType) (x : EStateM ε Frame α) : Prop :=
  ∀ f g a l, x f = .ok a g → ∃ l', x (f.atop U l) = .ok a (g.atop U l')

namespace Lower.Framed

variable {ε α β : Type} (U : List StackType)

theorem pure (a : α) : Framed U (pure a : EStateM ε Frame α) := by
  intro f g b l h
  cases h
  exact ⟨l, rfl⟩

theorem throw (e : ε) : Framed U (throw e : EStateM ε Frame α) := fun f g a l h => by cases h

variable {U}

theorem bind {x : EStateM ε Frame α} {k : α → EStateM ε Frame β} (hx : Framed U x)
    (hk : ∀ a, Framed U (k a)) : Framed U (x >>= k) := by
  intro f h b l hok
  obtain ⟨a, g, hfirst, hsecond⟩ := bind_eq_ok.mp hok
  obtain ⟨l', hfirst'⟩ := hx f g a l hfirst
  obtain ⟨l'', hsecond'⟩ := hk a g h b l' hsecond
  exact ⟨l'', (bind_of_ok hfirst').trans hsecond'⟩

variable (U)

theorem peek (n : Nat) : Framed U (Frame.peek n) := by
  intro f g t l h
  obtain ⟨hn, rfl⟩ := peek_eq_ok.mp h
  have hlt : n < g.stack.types.length := (List.getElem?_eq_some_iff.mp hn).1
  have hn' : (g.atop U l).stack.types[n]? = some t := (List.getElem?_append_left hlt).trans hn
  exact ⟨l, peek_eq_ok.mpr ⟨hn', rfl⟩⟩

theorem require (n : Nat) : Framed U (Frame.require n) := by
  intro f g u l h
  obtain ⟨hn, rfl⟩ := require_eq_ok.mp h
  exact ⟨l, require_eq_ok.mpr ⟨Nat.le_add_right_of_le hn, rfl⟩⟩

/-- Allocation does not look at the stack. -/
theorem allocInert_atop (l : Array Event) : AllocInert (Frame.atop U l) :=
  ⟨fun _ => rfl, fun _ => rfl, fun _ => rfl, fun _ _ => rfl, fun _ _ => rfl⟩

variable {U}

theorem of_commutes {x : EStateM ε Frame α} (h : ∀ l, Commutes (Frame.atop U l) x) : Framed U x :=
  fun _ _ _ l hx => ⟨l, (h l).ok hx⟩

theorem compositional : Compositional (Framed U) where
  pure := .pure U
  throw _ := .throw U _
  bind := .bind
  peek := .peek U
  require := .require U
  holdsFloat r _ hk f g a l h := hk (f.holdsFloat r) f g a l h
  registerLocal _ _ := .of_commutes fun l => (allocInert_atop U l).localFor _ _
  storeRegister r t := .of_commutes fun l => (allocInert_atop U l).storeRegister r t
  scratchLocal t slot := .of_commutes fun l => (allocInert_atop U l).scratchLocal t slot

theorem emit (code : CodeRef) (i : HostInstr) : Framed U (Frame.emit code i) := by
  intro f g u l h
  obtain ⟨s, hs, rfl⟩ := emit_eq_ok.mp h
  exact ⟨_, emit_eq_ok.mpr ⟨s.atop U, EvalStack.effect_atop U hs, rfl⟩⟩

theorem emitAll (code : CodeRef) : ∀ is, Framed U (Frame.emitAll code is)
  | [] => .pure U _
  | i :: is => (emit code i).bind fun _ => emitAll code is

end Lower.Framed

variable {U : List StackType}

theorem Rule.emit_framed (rule : Rule) (op : Operation) : Framed U (rule.emit op) := by
  rw [Rule.emit_eq]
  exact (Framed.compositional.plan rule op).bind fun is => .emitAll op.code is

theorem Rule.lower_framed (rule : Rule) (i : Instr) : Framed U (rule.lower i) := by
  intro f g code l h
  obtain ⟨_, hemit, rfl, rfl⟩ := Rule.lower_eq_ok.mp h
  obtain ⟨l', hemit'⟩ := rule.emit_framed i.operation f _ () l hemit
  exact ⟨l', Rule.lower_eq_ok.mpr ⟨_, hemit', rfl, rfl⟩⟩

theorem Registry.lower_framed (reg : Registry) (i : Instr) : Framed U (reg.lower i) := by
  cases h : reg.find? i.code with
  | some installed =>
    rw [Registry.lower_of_find h]
    exact installed.rule.lower_framed i
  | none =>
    rw [Registry.lower_of_find_none h]
    exact .throw U _

/-! ### Bodies -/

/-- Lowers a body instruction by instruction and hands out the code of each. -/
def Registry.lowerAll (reg : Registry) (body : List Instr) :
    EStateM Fault Frame (List (Array HostInstr)) :=
  body.mapM reg.lower

/-- Pushes types in their order. -/
def Frame.pushAll (S : List StackType) : Lower Unit := S.forM Frame.push

/-- A body is lowered on top of any values just as it is on its own. -/
theorem Registry.lowerAll_framed (reg : Registry) : ∀ body : List Instr, Framed U (reg.lowerAll body)
  | [] => .pure U _
  | i :: rest => by
    rw [lowerAll, List.mapM_cons]
    exact (reg.lower_framed i).bind fun _ => (lowerAll_framed reg rest).bind fun _ => .pure U _

/-- Values that there is room for are pushed onto those that were pushed
before. -/
theorem Frame.pushAll_eq_ok (f : Frame) : ∀ S U : List StackType, U.length + S.length ≤ f.limit →
    pushAll S { f with stack := EvalStack.empty.atop U } =
      .ok () { f with stack := EvalStack.empty.atop (S.reverse ++ U) }
  | [], U, _ => rfl
  | t :: S, U, h => by
    rw [List.length_cons] at h
    have hlt : (EvalStack.empty.atop U).depth < f.limit := by
      rw [EvalStack.depth_atop]
      show 0 + U.length < f.limit
      omega
    have hstack : (EvalStack.empty.atop U).push f.limit t = .ok (EvalStack.empty.atop (t :: U)) := by
      rw [EvalStack.push, if_pos hlt]
      refine congrArg _ (EvalStack.ext_types rfl ?_)
      simp only [EvalStack.peak_atop, EvalStack.depth_atop, List.length_cons]
      show max (0 + U.length) (0 + U.length + 1) = 0 + (U.length + 1)
      omega
    have hpush : Frame.push t { f with stack := EvalStack.empty.atop U } =
        .ok () { f with stack := EvalStack.empty.atop (t :: U) } := by
      rw [limit] at hstack
      rw [Frame.push, limit, hstack]
    have hrest := pushAll_eq_ok f S (t :: U) (by rw [List.length_cons]; omega)
    rw [List.reverse_cons, List.append_assoc, List.singleton_append, ← hrest]
    exact bind_of_ok hpush

/-- If a body is lowered instruction by instruction on a new frame, it is
lowered just the same on a frame that values were pushed onto first, with room
for them: to the same code, with the same locals, and on top of the values. -/
theorem lowerAll_underneath (reg : Registry) (o : Options) (body : List Instr)
    (S : List StackType) (codes : List (Array HostInstr)) (f : Frame)
    (h : reg.lowerAll body (.start o) = .ok codes f) :
    ∃ pushed g,
      pushAll S (.start { o with maxStackDepth := o.maxStackDepth + S.length }) = .ok () pushed ∧
      reg.lowerAll body pushed = .ok codes g ∧ g.locals = f.locals ∧
      g.stack.bottomUp = S ++ f.stack.bottomUp ∧ g.stack.peak = S.length + f.stack.peak := by
  obtain ⟨l, hl⟩ := reg.lowerAll_framed (U := S.reverse) body (.start o) f codes #[] h
  refine ⟨(Frame.start o).atop S.reverse #[], f.atop S.reverse l, ?_, hl, rfl, ?_, ?_⟩
  · have hroom : ([] : List StackType).length + S.length ≤
        (Frame.start { o with maxStackDepth := o.maxStackDepth + S.length }).limit := by
      show 0 + S.length ≤ o.maxStackDepth + S.length
      omega
    have hpush := pushAll_eq_ok (.start { o with maxStackDepth := o.maxStackDepth + S.length }) S [] hroom
    rw [List.append_nil] at hpush
    rw [Frame.atop, List.length_reverse]
    exact hpush
  · show (f.stack.types ++ S.reverse).reverse = S ++ f.stack.types.reverse
    rw [List.reverse_append, List.reverse_reverse]
  · show f.stack.peak + S.reverse.length = S.length + f.stack.peak
    rw [List.length_reverse, Nat.add_comm]

theorem lowerAll_underneath_selfComparison :
    ∃ codes f pushed g,
      Registry.default.lowerAll selfComparison (.start { maxStackDepth := 3 }) = .ok codes f ∧
      pushAll [.object, .float] (.start { maxStackDepth := 5 }) = .ok () pushed ∧
      Registry.default.lowerAll selfComparison pushed = .ok codes g ∧ g.locals = f.locals ∧
      g.stack.bottomUp = [.object, .float] ∧ g.stack.peak = 5 := by
  have hrun : (match Registry.default.lowerAll selfComparison (.start { maxStackDepth := 3 }) with
      | .ok _ f => some (f.stack.bottomUp, f.stack.peak)
      | .error _ _ => none) = some ([], 3) := by decide +kernel
  cases h : Registry.default.lowerAll selfComparison (.start { maxStackDepth := 3 }) with
  | error fault f =>
    rw [h] at hrun
    cases hrun
  | ok codes f =>
    rw [h, Option.some.injEq, Prod.mk.injEq] at hrun
    obtain ⟨pushed, g, hpush, hlower, hlocals, hstack, hpeak⟩ :=
      lowerAll_underneath Registry.default { maxStackDepth := 3 } selfComparison [.object, .float]
        codes f h
    rw [hrun.1] at hstack
    rw [hrun.2] at hpeak
    exact ⟨codes, f, pushed, g, rfl, hpush, hlower, hlocals, hstack, hpeak⟩

end Devirt
