/-
# Frames in order

Whatever calls were made on a new frame, and whether they went through or not,
the frame is in order (`frame_inOrder`). Its depth is within its peak and that
within the limit. Its table of locals is indexed by place and grows at the end,
and what a call was once told of it stays true: one index for each register and
storage class, and different ones for what is different. Where scratch locals
are shared, the table never holds more than there are registers, classes, types
and slots to tell locals apart, so no call ever fails for want of room in it.
And the frame is an account of the calls that went through: of the floats that
they stored and of the locals that they were handed, each of them once.

Key definitions: `Action.asks?`, `Local.key`, `InOrder`.
Key theorems: `Action.full_of_tooManyLocals`, `Frame.SoundLocals.size_le_keys`,
`frame_inOrder`.
-/
import Devirt.Proofs.Chronicle
import Devirt.Proofs.Blame
import Mathlib.Data.Fintype.Sum

namespace Devirt

open Devirt.Frame Lower HostInstr

/-! ### The peak -/

theorem peak_stackInvariant :
    StackInvariant fun _ f => f.stack.depth ≤ f.stack.peak ∧ f.stack.peak ≤ f.limit where
  addLocal _ _ _ _ _ _ hf := hf
  markStored _ _ _ hf := hf
  emit _ f _ i s hs hf := by
    have hroom : f.stack.types.length ≤ f.limit := by
      rw [← f.stack.depth_eq]
      omega
    have hdepth : s.depth ≤ f.limit := s.depth_eq ▸ (retype_of_effect hroom hs).2
    have hpeak : s.peak = max f.stack.peak s.depth := raises_effect hf.1 hs
    show s.depth ≤ s.peak ∧ s.peak ≤ f.limit
    omega
  drain _ _ hf := hf
  report _ _ _ hf := hf
  push _ f t s hs hf := by
    have hdepth : s.depth ≤ f.limit := s.depth_eq ▸ (leaves_push_iff.mp ⟨s, hs, rfl⟩).2
    have hpeak : s.peak = max f.stack.peak s.depth := raises_push hs
    show s.depth ≤ s.peak ∧ s.peak ≤ f.limit
    omega
  drop _ f n s hs hf := by
    obtain ⟨hpeak, hdepth⟩ := peak_drop hs
    show s.depth ≤ s.peak ∧ s.peak ≤ f.limit
    omega

theorem Frame.Reachable.peak {o : Options} {f : Frame} (hf : f.Reachable o) :
    f.stack.depth ≤ f.stack.peak ∧ f.stack.peak ≤ o.maxStackDepth := by
  have hpeak := hf.of_invariant peak_stackInvariant ⟨Nat.zero_le _, Nat.zero_le _⟩
  rw [limit, hf.options] at hpeak
  exact hpeak

/-! ### Locals are lacking only in a full table -/

section Calls

variable {reg : Registry} {code : CodeRef} {a : Action} {f g : Frame} {fault : Fault} {n : Nat}

theorem Rule.full_of_tooManyLocals {rule : Rule} {i : Instr} (h : rule.lower i f = .error fault g)
    (hc : fault.cause = .tooManyLocals n) : maxLocals ≤ g.locals.size := by
  obtain ⟨c, hemit, rfl⟩ := Rule.lower_eq_error.mp h
  obtain rfl : c = .tooManyLocals n := hc
  cases hs : rule.supports i.operation.code with
  | true => exact (Rule.emit_blames hs f _ g hemit).size_of_tooManyLocals
  | false =>
    rw [Rule.emit_of_not_supports hs] at hemit
    cases hemit

theorem Registry.full_of_tooManyLocals {i : Instr} (h : reg.lower i f = .error fault g)
    (hc : fault.cause = .tooManyLocals n) : maxLocals ≤ g.locals.size := by
  rcases Registry.lower_eq_error.mp h with ⟨-, rfl, -⟩ | ⟨r, -, hlower⟩
  · cases hc
  · exact Rule.full_of_tooManyLocals hlower hc

/-- A call that fails for want of a local leaves the table full. -/
theorem Action.full_of_tooManyLocals (h : a.run reg code f = .error fault g)
    (hc : fault.cause = .tooManyLocals n) : maxLocals ≤ g.locals.size := by
  have hstep : ∀ {α : Type} {x : Lower α} {k : α → Answer}, Blames x →
      (k <$> x).chargedTo code f = .error fault g → maxLocals ≤ g.locals.size := by
    intro α x k hx h
    obtain ⟨c, hmap, rfl⟩ := chargedTo_eq_error.mp h
    obtain rfl : c = .tooManyLocals n := hc
    exact (hx f _ g (map_eq_error.mp hmap)).size_of_tooManyLocals
  cases a with
  | push t => exact hstep (Blames.push t) h
  | pop m => exact hstep (Blames.pop m) h
  | peek m => exact hstep (Blames.peek m) h
  | registerLocal r t => exact hstep (Blames.localFor _ _) h
  | storeRegister r t => exact hstep (Blames.storeRegister r t) h
  | scratchLocal t slot => exact hstep (Blames.scratchLocal t slot) h
  | takeNewLocals => cases h
  | takeEmitted => cases h
  | emit i => exact hstep (Blames.emit code i) h
  | emitAll is => exact hstep (Blames.emitAll code is) h
  | lower i => exact Registry.full_of_tooManyLocals (map_eq_error.mp h) hc
  | lowerBy rule i => exact Rule.full_of_tooManyLocals (map_eq_error.mp h) hc

end Calls

/-! ### Shared tables are small -/

/-- What tells a shared local from the others. -/
def Local.key (l : Local) : (Register × StorageClass) ⊕ (StackType × Fin UInt8.size) :=
  match l.origin with
  | .register r => .inl (r, .of l.type)
  | .scratch slot => .inr (l.type, slot.toFin)

namespace Frame

variable {f : Frame}

theorem shares_of_reuse (h : f.options.reuseTemporaries = true) : ∀ origin, f.Shares origin
  | .register _ => trivial
  | .scratch _ => h

/-- A local is told apart by its key. -/
theorem SoundLocals.eq_of_key (hf : f.SoundLocals) {l l' : Local} (hl : l ∈ f.locals)
    (hl' : l' ∈ f.locals) (h : l.key = l'.key) : l.origin = l'.origin ∧ l.type = l'.type := by
  unfold Local.key at h
  cases ho : l.origin with
  | register r =>
    cases ho' : l'.origin with
    | register r' =>
      simp only [ho, ho', Sum.inl.injEq, Prod.mk.injEq] at h
      obtain ⟨c, hc⟩ := hf.slotType l hl r ho
      obtain ⟨c', hc'⟩ := hf.slotType l' hl' r' ho'
      rw [hc, hc', StorageClass.of_slotType, StorageClass.of_slotType] at h
      rw [hc, hc', h.1, h.2]
      exact ⟨rfl, rfl⟩
    | scratch slot' => simp [ho, ho'] at h
  | scratch slot =>
    cases ho' : l'.origin with
    | register r' => simp [ho, ho'] at h
    | scratch slot' =>
      simp only [ho, ho', Sum.inr.injEq, Prod.mk.injEq] at h
      exact ⟨congrArg _ (UInt8.toFin_inj.mp h.2), h.1⟩

/-- Sixteen registers have three classes of values each, and six types 256
slots. -/
theorem SoundLocals.size_le_keys (hf : f.SoundLocals) (hr : f.options.reuseTemporaries = true) :
    f.locals.size ≤ 16 * 3 + 6 * 256 := by
  have hinj : Function.Injective fun i : Fin f.locals.size => f.locals[i].key := by
    intro i j hij
    obtain ⟨ho, ht⟩ := hf.eq_of_key (Array.getElem_mem i.isLt) (Array.getElem_mem j.isLt) hij
    exact Fin.ext (hf.place_unique (Array.getElem?_eq_getElem i.isLt)
      (Array.getElem?_eq_getElem j.isLt) (shares_of_reuse hr _) ho ht)
  calc f.locals.size = Fintype.card (Fin f.locals.size) := (Fintype.card_fin _).symm
    _ ≤ Fintype.card ((Register × StorageClass) ⊕ (StackType × Fin UInt8.size)) :=
        Fintype.card_le_of_injective _ hinj
    _ = Fintype.card Register * Fintype.card StorageClass + Fintype.card StackType * 256 := by
        rw [Fintype.card_sum, Fintype.card_prod, Fintype.card_prod, Fintype.card_fin]
    _ = 16 * 3 + 6 * 256 := rfl

end Frame

/-! ### What calls are told -/

/-- The origin and type of the local that a call asks for. -/
def Action.asks? : Action → Option (LocalOrigin × StackType)
  | .registerLocal r t | .storeRegister r t => some (.register r, (StorageClass.of t).slotType)
  | .scratchLocal t slot => some (.scratch slot, t)
  | _ => none

section Answers

variable {reg : Registry} {code : CodeRef} {a : Action} {f g : Frame}

/-- The index that a call is told names a local of what it asks for. -/
theorem Action.named_of_run (hf : f.SoundLocals) {i : LocalIndex}
    (h : a.run reg code f = .ok (.index i) g) :
    ∃ origin t, a.asks? = some (origin, t) ∧ g.locals[i.val]? = some ⟨i, t, origin⟩ := by
  cases a with
  | registerLocal r t =>
    obtain ⟨j, hj, hi⟩ := map_eq_ok.mp (chargedTo_eq_ok.mp h)
    cases hi
    exact ⟨_, _, rfl, (backs_of_registerLocal hf hj).1⟩
  | storeRegister r t =>
    obtain ⟨j, hj, hi⟩ := map_eq_ok.mp (chargedTo_eq_ok.mp h)
    cases hi
    obtain ⟨j', k, hj', hmark⟩ := bind_eq_ok.mp hj
    cases hmark
    exact ⟨_, _, rfl, (backs_of_registerLocal hf hj').1⟩
  | scratchLocal t slot =>
    obtain ⟨j, hj, hi⟩ := map_eq_ok.mp (chargedTo_eq_ok.mp h)
    cases hi
    rcases scratchLocal_yields hf t slot with ⟨j', k, hok, hl, -⟩ | ⟨c, k, herr, -⟩
    · cases hok.symm.trans hj
      exact ⟨_, _, rfl, hl⟩
    · rw [hj] at herr
      cases herr
  | lower i | lowerBy rule i =>
    obtain ⟨c, -, hc⟩ := map_eq_ok.mp h
    cases hc
  | _ =>
    obtain ⟨c, -, hc⟩ := map_eq_ok.mp (chargedTo_eq_ok.mp h)
    cases hc

/-- It does so ever after. -/
theorem named_of_mem_chronicle (reg : Registry) (o : Options) (calls : List (CodeRef × Action)) :
    ∀ e ∈ (Frame.start o).chronicle reg calls, ∀ i, e.answer = .index i →
      ∃ origin t, e.action.asks? = some (origin, t) ∧
        ((Frame.start o).after reg calls).locals[i.val]? = some ⟨i, t, origin⟩ := by
  induction calls using List.reverseRecOn with
  | nil => exact fun e he => by cases he
  | append_singleton calls call ih =>
    obtain ⟨code, a⟩ := call
    intro e he i hi
    rw [after_snoc]
    rw [chronicle_snoc, List.mem_append] at he
    rcases he with he | he
    · obtain ⟨origin, t, hasks, hl⟩ := ih e he i hi
      exact ⟨origin, t, hasks, (extends_stackInvariant _).action_next reg code a (.refl _) i.val _ hl⟩
    · cases h : a.run reg code ((Frame.start o).after reg calls) with
      | error fault g =>
        rw [Action.entry?_of_error h] at he
        cases he
      | ok b g =>
        rw [Action.entry?_of_ok h, Option.toList_some, List.mem_singleton] at he
        subst he
        obtain rfl : b = .index i := hi
        rw [Action.next_of_ok h]
        exact Action.named_of_run (reachable_after reg o calls).sound h

/-- A register that has a local for a class of values is given that one. -/
theorem run_of_backs (hf : f.SoundLocals) {r : Register} {t : StackType} {i : LocalIndex}
    (h : Backs f.locals r (.of t) i) :
    (Action.registerLocal r t).run reg code f = .ok (.index i) f ∧
      ∃ g, (Action.storeRegister r t).run reg code f = .ok (.index i) g := by
  have hfind : registerLocal r t f = .ok i f :=
    localFor_of_some (hf.find_eq _ (Array.mem_of_getElem? h) trivial)
  have hstore : storeRegister r t f = .ok i (final (markStored r t) f) := bind_of_ok hfind
  exact ⟨chargedTo_of_ok (map_of_ok hfind), _, chargedTo_of_ok (map_of_ok hstore)⟩

/-- The new locals are handed out once. -/
theorem run_takeNewLocals (f : Frame) : ∃ n,
    Action.takeNewLocals.run reg code f = .ok (.locals f.newLocals) { f with reported := n } ∧
      ({ f with reported := n } : Frame).newLocals = #[] := by
  refine ⟨f.locals.size, chargedTo_of_ok (map_of_ok rfl), ?_⟩
  show f.locals.extract f.locals.size f.locals.size = #[]
  simp

end Answers

/-! ### Frames in order -/

/-- The frame is in order, and an account of the calls that went through. -/
structure InOrder (reg : Registry) (o : Options) (past : List Entry) (f : Frame) : Prop where
  depth : f.stack.depth ≤ f.stack.peak ∧ f.stack.peak ≤ o.maxStackDepth
  /-- The index of a local is its place. -/
  index : ∀ (i : Nat) (l : Local), f.locals[i]? = some l → l.index.val = i
  few : f.locals.size ≤ maxLocals
  /-- A call, whatever comes of it, adds locals at the end or none. -/
  grows : ∀ (code : CodeRef) (a : Action), f.locals.toList <+: (a.next reg code f).locals.toList
  /-- The type of a register's local is the slot type of a class. -/
  slotType : ∀ l ∈ f.locals, ∀ r, l.origin = .register r → ∃ c : StorageClass, l.type = c.slotType
  /-- A register has one local at most for each class. -/
  unique : ∀ r c i j, Backs f.locals r c i → Backs f.locals r c j → i = j
  /-- Once it has one, any value of the class is given that one. -/
  kept : ∀ r t i code, Backs f.locals r (.of t) i →
    (Action.registerLocal r t).run reg code f = .ok (.index i) f ∧
      ∃ g, (Action.storeRegister r t).run reg code f = .ok (.index i) g
  /-- What a call was told names a local of what it asked for. -/
  named : ∀ e ∈ past, ∀ i, e.answer = .index i →
    ∃ origin t, e.action.asks? = some (origin, t) ∧ f.locals[i.val]? = some ⟨i, t, origin⟩
  /-- Calls that asked for one register and class were told one index. -/
  lasting : ∀ e ∈ past, ∀ e' ∈ past, ∀ i i' r t, e.answer = .index i → e'.answer = .index i' →
    e.action.asks? = some (.register r, t) → e'.action.asks? = some (.register r, t) → i = i'
  /-- Calls that were told one index asked for the same. -/
  apart : ∀ e ∈ past, ∀ e' ∈ past, ∀ i, e.answer = .index i → e'.answer = .index i →
    e.action.asks? = e'.action.asks?
  /-- Shared scratch locals are one for each type and slot, and no call fails
  for want of locals. -/
  shared : o.reuseTemporaries = true →
    (∀ t slot i j, IsScratch f.locals slot t i → IsScratch f.locals slot t j → i = j) ∧
      f.locals.size ≤ 16 * 3 + 6 * 256 ∧
      ∀ (code : CodeRef) (a : Action) fault g n,
        a.run reg code f = .error fault g → fault.cause ≠ .tooManyLocals n
  /-- A register holds a float if a float was stored into it last. -/
  holdsFloat : ∀ r, f.holdsFloat r = true ↔ lastStored reg r past = some .float
  /-- What was handed out and what is still to be handed out are the table. -/
  reported : reports past ++ f.newLocals.toList = f.locals.toList
  /-- Asked for what is still to be handed out, the frame hands it out, and
  nothing is left; it remembers how far it has come and is the same otherwise. -/
  handsOut : ∀ (code : CodeRef), ∃ n,
    Action.takeNewLocals.run reg code f = .ok (.locals f.newLocals) { f with reported := n } ∧
      ({ f with reported := n } : Frame).newLocals = #[]

/-- Whatever calls were made on a new frame, and whether they went through or
not, the frame is in order. -/
theorem frame_inOrder (reg : Registry) (o : Options) (calls : List (CodeRef × Action)) :
    InOrder reg o ((Frame.start o).chronicle reg calls) ((Frame.start o).after reg calls) := by
  have hreach := reachable_after reg o calls
  have hsound := hreach.sound
  have hnamed := named_of_mem_chronicle reg o calls
  refine {
    depth := hreach.peak
    index := hsound.index_eq
    few := hsound.size_le
    grows := fun code a => a.locals_prefix reg code _
    slotType := hsound.slotType
    unique := fun _ _ _ _ => hsound.backs_unique
    kept := fun _ _ _ _ => run_of_backs hsound
    named := hnamed
    lasting := ?_
    apart := ?_
    shared := ?_
    holdsFloat := holdsFloat_iff reg o calls
    reported := reports_append_newLocals reg o calls
    handsOut := fun _ => run_takeNewLocals _ }
  · intro e he e' he' i i' r t hi hi' hasks hasks'
    obtain ⟨origin, u, hasked, hl⟩ := hnamed e he i hi
    obtain ⟨origin', u', hasked', hl'⟩ := hnamed e' he' i' hi'
    cases hasks.symm.trans hasked
    cases hasks'.symm.trans hasked'
    exact Fin.ext (hsound.place_unique hl hl' trivial rfl rfl)
  · intro e he e' he' i hi hi'
    obtain ⟨origin, u, hasked, hl⟩ := hnamed e he i hi
    obtain ⟨origin', u', hasked', hl'⟩ := hnamed e' he' i hi'
    cases hl.symm.trans hl'
    exact hasked.trans hasked'.symm
  · intro hr
    have hreuse : ((Frame.start o).after reg calls).options.reuseTemporaries = true :=
      hreach.options.symm ▸ hr
    refine ⟨fun t slot i j hi hj => ?_, hsound.size_le_keys hreuse, ?_⟩
    · exact Fin.ext (hsound.place_unique hi hj hreuse rfl rfl)
    · intro code a fault g n h hc
      -- the table would be full, but it is in order as well, and so far from it
      have hg : g = (Frame.start o).after reg (calls ++ [(code, a)]) := by
        rw [after_snoc, Action.next_of_error h]
      have hreach' := reachable_after reg o (calls ++ [(code, a)])
      rw [← hg] at hreach'
      have hfull := Action.full_of_tooManyLocals h hc
      have hsmall := hreach'.sound.size_le_keys (hreach'.options.symm ▸ hr)
      unfold maxLocals at hfull
      omega

end Devirt
