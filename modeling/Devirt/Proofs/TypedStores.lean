/-
# Stores of the right type

The host expects a value that it stores into a local to have the local's type
(`HostInstr.StoresTyped`). A replay does not look at the local, so nothing but
the rules sees to that.

The default table stores in two places. A value for a register is widened first
if it is narrower than the register's local, so it always fits. A comparison of
two numbers moves its operands to scratch locals of the type that they are
compared at, as they are. So its stores are of the right type just when both
operands are of that type from the start (`lower_storesTyped_iff`), and a mixed
comparison stores what the local does not expect (`lower_storesMixed`).

Key definitions: `HostInstr.StoresTyped`, `Typing.OperandsFit`.
Key theorems: `storesTyped_storeInto`, `storesTyped_signOfDifference_iff`,
`Rule.Renders.storesTyped_iff`, `lower_storesTyped_iff`.
-/
import Devirt.Proofs.Inert
import Devirt.Proofs.Reachable
import Devirt.Proofs.Scratch

namespace Devirt

open Devirt.Frame Lower HostInstr

/-- From a stack of the types `s` on, every store of the code finds on top a
value of its local's type. -/
def HostInstr.StoresTyped (types : LocalIndex → Option StackType) (is : List HostInstr)
    (s : List StackType) : Prop :=
  ∀ (p : Nat) (i : LocalIndex), is[p]? = some (.storeLocal i) →
    ∃ t rest, replay types (is.take p) s = some (t :: rest) ∧ types i = some t

/-- What is compared as two numbers is of the type that it is compared at. -/
def Typing.OperandsFit (s : Typing) (op : Operation) : Prop :=
  ∀ t, s.scratch? op = some t → s.stack.take 2 = [t, t]

/-! ### Shapes of code -/

section Shapes

variable {types : LocalIndex → Option StackType} {t u v : StackType} {rest : List StackType}

/-- A value is widened to the type of the register's local before it is stored. -/
theorem storesTyped_storeInto {home : LocalIndex}
    (hhome : types home = some (StorageClass.of u).slotType) :
    StoresTyped types (Plan.storeInto u home) (u :: rest) := by
  intro p i hp
  unfold Plan.storeInto at hp ⊢
  split at hp
  · rename_i hnarrow
    rw [if_pos hnarrow]
    rw [hnarrow.1] at hhome
    match p, hp with
    | 0, hp => cases hp
    | 1, hp =>
      cases hp
      exact ⟨.int64, rest, rfl, hhome⟩
  · rename_i hfits
    have hslot : (StorageClass.of u).slotType = u := by
      cases u <;> first | rfl | exact absurd ⟨rfl, by decide⟩ hfits
    rw [if_neg hfits]
    rw [hslot] at hhome
    match p, hp with
    | 0, hp =>
      cases hp
      exact ⟨u, rest, rfl, hhome⟩

/-- Operands that are compared as numbers are stored as they are. -/
theorem storesTyped_signOfDifference_iff {lhs rhs : LocalIndex} (hl : types lhs = some t)
    (hr : types rhs = some t) :
    StoresTyped types (Lowering.signOfDifference lhs rhs) (u :: v :: rest) ↔ u = t ∧ v = t := by
  constructor
  · intro h
    obtain ⟨u', rest', hu, hru⟩ := h 0 rhs rfl
    obtain ⟨v', rest'', hv, hlv⟩ := h 1 lhs rfl
    cases hu
    cases hv
    exact ⟨Option.some.inj (hru.symm.trans hr), Option.some.inj (hlv.symm.trans hl)⟩
  · rintro ⟨rfl, rfl⟩ p i hp
    match p, hp with
    | 0, hp =>
      cases hp
      exact ⟨v, v :: rest, rfl, hr⟩
    | 1, hp =>
      cases hp
      exact ⟨v, rest, rfl, hl⟩
    | p + 2, hp =>
      -- what follows the stores loads, compares and subtracts
      have hmem : HostInstr.storeLocal i ∈ (Lowering.signOfDifference lhs rhs).drop 2 :=
        List.mem_of_getElem? (i := p) hp
      simp [Lowering.signOfDifference] at hmem

end Shapes

/-! ### Operations -/

/-- Only a comparison compares numbers. -/
theorem Typing.scratch?_eq_none {s : Typing} {op : Operation} {rule : Rule}
    (hrule : op.code.defaultRule? = some rule) (h : rule ≠ .compare) : s.scratch? op = none := by
  unfold scratch?
  split
  all_goals first
    | exact absurd (Option.some.inj hrule).symm h
    | rfl

/-- The stores of an operation's code are of the right type where its operands
are. -/
theorem Rule.Renders.storesTyped_iff {s : Typing} {ls : Array Local} {rule : Rule}
    {op : Operation} {is : List HostInstr} (hrule : op.code.defaultRule? = some rule)
    (h : rule.Renders s ls op is) :
    StoresTyped (declared ls) is s.stack ↔ s.OperandsFit op := by
  by_cases hcompare : rule = .compare
  · subst hcompare
    cases h with
    | numbers ht hl hr =>
      obtain ⟨u, v, rest, hs⟩ := Typing.operands_of_scratch? ht
      rw [hs, storesTyped_signOfDifference_iff hl.declared hr.declared, Typing.OperandsFit, hs]
      simp [ht]
    | references hs =>
      refine iff_of_true (fun p i hp => ?_) fun t ht => ?_
      · have hmem := List.mem_of_getElem? hp
        simp [Lowering.referencesDiffer] at hmem
      · simp [Typing.scratch?, Typing.numbers?, hs] at ht
  · refine iff_of_true (fun p i hp => ?_) fun t ht => ?_
    · have hmem : .storeLocal i ∈ is := List.mem_of_getElem? hp
      rcases h.of_names hmem (Or.inr rfl) with ⟨heq, -⟩ | ⟨-, r, top, rest, -, hs, hb, rfl⟩ |
        ⟨rfl, -⟩ | ⟨ch, rfl, hseq⟩
      · cases heq
      · rw [hs]
        exact storesTyped_storeInto hb.declared p i hp
      · exact absurd rfl hcompare
      · exact absurd hseq (default_chain_names hrule i).2
    · rw [Typing.scratch?_eq_none hrule hcompare] at ht
      cases ht

/-! ### Instructions -/

/-- Whatever the default table lowers on a reachable frame, its own code, behind
what was pending, stores values of the right type, unless it compares two
numbers that are not both of the type that they are compared at. -/
theorem lower_storesTyped_iff (o : Options) (f g : Frame) (i : Instr) (code : Array HostInstr)
    (hf : f.Reachable o) (h : Registry.default.lower i f = .ok code g) :
    ∃ own, code = f.pending ++ own ∧
      (StoresTyped (declared g.locals) own.toList f.stack.types ↔
        f.typing.OperandsFit i.operation) := by
  obtain ⟨own, hcode, hown⟩ := Registry.lower_behind h
  refine ⟨own, hcode, ?_⟩
  cases hrule : i.code.defaultRule? with
  | none =>
    rw [Registry.default_lower_of_none hrule] at hown
    cases hown
  | some rule =>
    rw [Registry.default_lower hrule] at hown
    have hsound : ({ f with pending := #[] } : Frame).SoundLocals :=
      sound_invariant.drain [] f hf.sound
    obtain ⟨hrenders, -⟩ := Rule.lower_renders hsound hf.room rfl hown
    exact hrenders.storesTyped_iff hrule

/-- The frame after two numbers are pushed. -/
def twoNumbers (first second : Operation) : Frame :=
  let code := CodeRef.opcode .nop
  (Frame.start {}).after Registry.default [(code, .lower ⟨0, first⟩), (code, .lower ⟨9, second⟩)]

theorem lower_storesTyped_iff_qwords :
    let f := twoNumbers (.plain .pushiQword (.qword 1)) (.plain .pushiQword (.qword 2))
    let i : Instr := ⟨18, .plain .cmpQword .none⟩
    f.Reachable {} ∧ ∃ code g, Registry.default.lower i f = .ok code g ∧ code.size = 9 ∧
      StoresTyped (declared g.locals) code.toList f.stack.types := by
  intro f i
  have hreach : f.Reachable {} := reachable_after _ _ _
  have hpending : f.pending = #[] := by decide +kernel
  have htypes : f.stack.types = [.int64, .int64] := by decide +kernel
  have hfit : ∀ s : Typing, s.stack = [.int64, .int64] → s.OperandsFit (.plain .cmpQword .none) := by
    intro s hs t ht
    obtain ⟨-, -, rfl⟩ := Option.map_eq_some_iff.mp ht
    rw [hs]
    rfl
  have hrun : (outcome? (Registry.default.lower i) f).map (·.1.size) = some 9 := by decide +kernel
  clear_value f
  obtain ⟨code, g, h, hsize⟩ := exists_outcome hrun
  obtain ⟨own, hcode, htyped⟩ := lower_storesTyped_iff {} f g i code hreach h
  rw [hpending, Array.empty_append] at hcode
  rw [← hcode] at htyped
  exact ⟨hreach, code, g, h, hsize, htyped.mpr (hfit f.typing htypes)⟩

/-- A comparison of numbers of two types stores the 32-bit one, which is on
top, into a 64-bit local. -/
theorem lower_storesMixed :
    let f := twoNumbers (.plain .pushiQword (.qword 1)) (.plain .pushiDword (.dword 2))
    let i : Instr := ⟨14, .plain .cmp .none⟩
    f.Reachable {} ∧ f.pending = #[] ∧ f.stack.types = [.int32, .int64] ∧
      ∃ code g, Registry.default.lower i f = .ok code g ∧
        code[0]? = some (.storeLocal ⟨1, by decide⟩) ∧
        declared g.locals ⟨1, by decide⟩ = some .int64 ∧
        ¬ StoresTyped (declared g.locals) code.toList f.stack.types := by
  intro f i
  have htypes : f.stack.types = [.int32, .int64] := by decide +kernel
  have hrun : (outcome? (Registry.default.lower i) f).map
      (fun r => (r.1[0]?, declared r.2.locals ⟨1, by decide⟩)) =
        some (some (.storeLocal ⟨1, by decide⟩), some .int64) := by decide +kernel
  have hpending : f.pending = #[] := by decide +kernel
  have hreach : f.Reachable {} := reachable_after _ _ _
  clear_value f
  obtain ⟨code, g, h, hfound⟩ := exists_outcome hrun
  obtain ⟨hstore, hlocal⟩ := Prod.mk.inj hfound
  refine ⟨hreach, hpending, htypes, code, g, h, hstore, hlocal, fun htyped => ?_⟩
  obtain ⟨t, rest, hts, ht⟩ := htyped 0 _ (by rw [Array.getElem?_toList]; exact hstore)
  rw [htypes] at hts
  cases hts
  cases hlocal.symm.trans ht

end Devirt
