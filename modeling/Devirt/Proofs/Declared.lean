/-
# Declared locals

Loading a local that is not in the table is refused, so whatever a frame goes
through, the code it has produced loads locals of its table only. Storing to
one is not. The rules store to the locals they have asked for, and a chain to
those that its sequence names, whatever these are. So a recompiled method
stores to its own locals if and only if the chains of its body do
(`recompile_declares`).

Key theorems: `loads_invariant`, `Registry.declared_of_stored`,
`recompile_declares`.
-/
import Devirt.Proofs.Slices

namespace Devirt

open Devirt.Frame Lower HostInstr

/-! ### Loads -/

/-- Code loads locals of the table only. -/
theorem loads_invariant :
    TranscriptInvariant fun H f => ∀ i, .loadLocal i ∈ H → i.val < f.locals.size where
  addLocal _ f origin t h _ hf i hi := by
    have hold := hf i hi
    have hsize : (f.addLocal origin t h).locals.size = f.locals.size + 1 := Array.size_push ..
    omega
  markStored _ _ _ hf := hf
  emit H f code i s hs hf j hj := by
    rcases List.mem_append.mp hj with hj | hj
    · exact hf j hj
    · rw [List.mem_singleton] at hj
      subst hj
      -- an undeclared local would have been refused
      by_contra hn
      have hnone : f.locals[j.val]? = none := Array.getElem?_eq_none (Nat.not_lt.mp hn)
      simp only [effect, hnone] at hs
      cases hs
  drain _ _ hf := hf
  report _ _ _ hf := hf

/-! ### Stores -/

namespace Registry

variable {reg : Registry} {o : Options} {body : List Instr} {m : Method} {x : HostInstr}

/-- A store is to a local of the table, or a chain of the body names it. -/
theorem declared_of_stored (h : (reg.recompile o body).result = .ok m) {i : LocalIndex}
    (hi : .storeLocal i ∈ m.instructions) :
    i.val < m.locals.size ∨ ∃ instr ∈ body, ∃ r ch, reg.find? instr.code = some r ∧
      r.rule = .chain ch ∧ .storeLocal i ∈ ch.sequence := by
  obtain ⟨k, hmem⟩ := (mem_instructions_iff h).mp hi
  obtain ⟨instr, hk⟩ := exists_instr_of_mem_slice h hmem
  obtain ⟨a, f, r, -, hr, -, hrenders⟩ := recompile_renders h hk
  rcases hrenders.of_mem_storeLocal hmem with
    ⟨_, _, _, -, -, hbacks, -⟩ | ⟨_, _, hscratch⟩ | ⟨ch, hch, hseq⟩
  · exact Or.inl hbacks.lt_size
  · exact Or.inl hscratch.lt_size
  · exact Or.inr ⟨instr, List.mem_of_getElem? hk, r, ch, hr, hch, hseq⟩

/-- What the chains of a body store to, the method stores to. -/
theorem stored_of_chain (h : (reg.recompile o body).result = .ok m) {instr : Instr}
    (hinstr : instr ∈ body) {r : Installed} {ch : Chain} (hr : reg.find? instr.code = some r)
    (hch : r.rule = .chain ch) (hx : x ∈ ch.sequence) : x ∈ m.instructions := by
  obtain ⟨k, hk⟩ := List.getElem?_of_mem hinstr
  obtain ⟨a, f, r', -, hr', -, hrenders⟩ := recompile_renders h hk
  obtain rfl : r = r' := Option.some.inj (hr.symm.trans hr')
  rw [hch] at hrenders
  refine (mem_instructions_iff h).mpr ⟨k, ?_⟩
  rw [hrenders.of_chain]
  exact hx

end Registry

/-- Whatever rules the registry has, a recompiled method loads its own locals
only, and it stores to its own locals only if and only if the chains of the
body do. -/
theorem recompile_declares (reg : Registry) (o : Options) (body : List Instr) (m : Method)
    (h : (reg.recompile o body).result = .ok m) :
    (∀ i, .loadLocal i ∈ m.instructions → i.val < m.locals.size) ∧
    ((∀ i, .storeLocal i ∈ m.instructions → i.val < m.locals.size) ↔
      ∀ instr ∈ body, ∀ r ch, reg.find? instr.code = some r → r.rule = .chain ch →
        ∀ i, .storeLocal i ∈ ch.sequence → i.val < m.locals.size) := by
  constructor
  · intro i hi
    obtain ⟨a, f, ha, hcode, hl, -, -⟩ := Registry.recompile_eq_ok h
    have hstart : CodeInvariant.Behind
        (fun H f => ∀ i, .loadLocal i ∈ H → i.val < f.locals.size) [] (.start o) := by
      intro i hi
      cases hi
    have hall := loads_invariant.assemble body hstart ha
    rw [hl]
    rw [hcode, ← Array.mem_toList_iff] at hi
    exact hall i (List.mem_append_left _ hi)
  · constructor
    · intro hall instr hinstr r ch hr hch i hi
      exact hall i (Registry.stored_of_chain h hinstr hr hch hi)
    · intro hchains i hi
      rcases Registry.declared_of_stored h hi with hlt | ⟨instr, hinstr, r, ch, hr, hch, hseq⟩
      · exact hlt
      · exact hchains instr hinstr r ch hr hch i hseq

theorem recompile_declares_selfComparison :
    ∃ m, (Registry.default.recompile { maxStackDepth := 3 } selfComparison).result = .ok m ∧
      m.locals.size = 4 ∧ (∀ i, .loadLocal i ∈ m.instructions → i.val < 4) ∧
      ∀ i, .storeLocal i ∈ m.instructions → i.val < 4 := by
  have hrun : ((Registry.default.recompile { maxStackDepth := 3 } selfComparison).result.map
      fun m => m.locals.size).toOption = some 4 := by decide +kernel
  obtain ⟨m, hm, hsize⟩ := Registry.exists_method hrun
  obtain ⟨hloads, hstores⟩ := recompile_declares Registry.default _ selfComparison m hm
  rw [hsize] at hloads hstores
  refine ⟨m, hm, hsize, hloads, hstores.mpr ?_⟩
  -- no chain serves any of its codes
  have hrules : ∀ instr ∈ selfComparison, ∀ r, instr.code.defaultRule? = some r →
      r = .push ∨ r = .compare ∨ r = .pop := by decide
  intro instr hinstr r ch hr hch
  have hrule : instr.code.defaultRule? = some (.chain ch) := by
    rw [← Registry.default_find?, hr, Option.map_some, hch]
  rcases hrules instr hinstr _ hrule with heq | heq | heq <;> cases heq

/-- A chain that spills an operand to a local nobody has allocated. -/
def Chain.spill : Chain where
  name := "spill"
  sequence := [.storeLocal ⟨7, by decide⟩, .loadInt32 1]
  codes := [.addDword]
  operandCount := 1
  shape_eq := rfl

/-- The sequence makes a chain, the chain is registered beside the default
rules, and a body goes through with a store to the eighth of no locals. -/
theorem recompile_spill :
    Chain.ofSequence? "spill" [.storeLocal ⟨7, by decide⟩, .loadInt32 1] [.addDword] = .ok .spill ∧
    ∃ b, Builder.registerAll (defaultRules ++ [.chain .spill]) {} = .ok () b ∧
      ∃ m, (b.build.1.recompile {}
          [⟨0, .plain .pushiDword (.dword 5)⟩, ⟨1, .plain .addDword .none⟩]).result = .ok m ∧
        .storeLocal ⟨7, by decide⟩ ∈ m.instructions ∧ m.locals.size = 0 := by
  refine ⟨rfl, ?_⟩
  have hrun : (match Builder.registerAll (defaultRules ++ [.chain .spill]) {} with
      | .error _ _ => none
      | .ok _ b => ((b.build.1.recompile {}
          [⟨0, .plain .pushiDword (.dword 5)⟩, ⟨1, .plain .addDword .none⟩]).result.map
            fun m => (decide (.storeLocal ⟨7, by decide⟩ ∈ m.instructions), m.locals.size)).toOption) =
      some (true, 0) := by decide +kernel
  cases hb : Builder.registerAll (defaultRules ++ [.chain .spill]) {} with
  | error e b =>
    rw [hb] at hrun
    cases hrun
  | ok u b =>
    rw [hb] at hrun
    obtain ⟨m, hm, hfound⟩ := Registry.exists_method hrun
    rw [Prod.mk.injEq, decide_eq_true_eq] at hfound
    exact ⟨b, rfl, m, hm, hfound.1, hfound.2⟩

end Devirt
