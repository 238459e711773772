/-
# Scratch locals live within one instruction

Of the host code only the comparisons of two numbers name scratch locals. Each
of them stores both operands before it loads any, the right one to the local
of one slot and the left one to that of another, and no register is backed by
either (`ScratchDiscipline`). So whatever a scratch local holds when an
instruction is reached is never looked at, and the comparisons of a method may
share their scratch locals or not (`recompile_scratch`).

Key definitions: `ComparesAt`, `ScratchDiscipline`.
Key theorems: `Rule.Renders.of_scratch`, `Registry.default_comparison`,
`recompile_scratch`.
-/
import Devirt.Proofs.Slots

namespace Devirt

open Devirt.Frame Lower HostInstr

/-! ### Comparisons -/

theorem mem_compare_codes {code : CodeRef} :
    code ∈ Rule.compare.codes ↔ code.defaultRule? = some .compare := by
  cases code with
  | opcode c => cases c <;> decide
  | intrinsic call => cases call <;> decide

/-- A comparison of two numbers loads nothing that it has not stored. -/
theorem stored_of_loaded_signOfDifference {lhs rhs i : LocalIndex} {p : Nat}
    (h : (Lowering.signOfDifference lhs rhs)[p]? = some (.loadLocal i)) :
    ∃ q, q < p ∧ (Lowering.signOfDifference lhs rhs)[q]? = some (.storeLocal i) := by
  have hp : 2 ≤ p := by
    by_contra hlt
    obtain rfl | rfl : p = 0 ∨ p = 1 := by omega
    · cases h
    · cases h
  rcases loadLocal_mem_signOfDifference.mp (List.mem_of_getElem? h) with rfl | rfl
  · exact ⟨1, by omega, rfl⟩
  · exact ⟨0, by omega, rfl⟩

/-! ### Who names scratch locals -/

section Renders

variable {s : Typing} {ls : Array Local} {rule : Rule} {op : Operation} {is : List HostInstr}

/-- Code that names a scratch local compares two numbers, or it is the sequence
of a chain. -/
theorem Rule.Renders.of_scratch (h : rule.Renders s ls op is) {x : HostInstr} {i : LocalIndex}
    {l : Local} {slot : UInt8} (hx : x ∈ is) (hn : x.Names i) (hl : ls[i.val]? = some l)
    (ho : l.origin = .scratch slot) :
    (rule = .compare ∧ ∃ lhs rhs, is = Lowering.signOfDifference lhs rhs) ∨
      ∃ ch, rule = .chain ch ∧ x ∈ ch.sequence := by
  have hbacks : ∀ {r c}, ¬ Backs ls r c i := by
    intro r c hb
    cases hb.symm.trans hl
    cases ho
  rcases h.of_names hx hn with ⟨-, c, w, r, -, -, hb, -⟩ | ⟨-, r, top, rest, -, -, hb, -⟩ |
    ⟨hrule, -, -, lhs, rhs, -, his⟩ | hch
  · exact absurd hb hbacks
  · exact absurd hb hbacks
  · exact Or.inl ⟨hrule, lhs, rhs, his⟩
  · exact Or.inr hch

/-- A comparison finds two operands. It compares two numbers by way of two
scratch locals, or it compares two references. -/
theorem Rule.Renders.of_compare (h : Rule.Renders s ls .compare op is) :
    (∃ lhs rhs t u v rest, s.stack = u :: v :: rest ∧ IsScratch ls 0 t lhs ∧
      IsScratch ls 1 t rhs ∧ is = Lowering.signOfDifference lhs rhs) ∨
    ∃ rest, s.stack = .object :: .object :: rest ∧ is = Lowering.referencesDiffer := by
  cases h with
  | numbers ht hl hr =>
    obtain ⟨u, v, rest, hs⟩ := Typing.operands_of_scratch? ht
    exact Or.inl ⟨_, _, _, u, v, rest, hs, hl, hr, rfl⟩
  | references hs => exact Or.inr ⟨_, hs, rfl⟩

end Renders

theorem IsScratch.not_backs {ls : Array Local} {slot : UInt8} {t : StackType} {i : LocalIndex}
    (h : IsScratch ls slot t i) (r : Register) (c : StorageClass) : ¬ Backs ls r c i := by
  intro hb
  cases h.symm.trans hb

/-- A scratch local is of one slot. -/
theorem IsScratch.slot_unique {ls : Array Local} {slot slot' : UInt8} {t t' : StackType}
    {i : LocalIndex} (h : IsScratch ls slot t i) (h' : IsScratch ls slot' t' i) : slot = slot' := by
  cases h.symm.trans h'
  rfl

/-! ### Slices of comparisons -/

/-- The `k`-th instruction compares. -/
def ComparesAt (body : List Instr) (k : Nat) : Prop :=
  ∃ i, body[k]? = some i ∧ i.code ∈ Rule.compare.codes

/-- What the code of a body does with scratch locals. -/
structure ScratchDiscipline (body : List Instr) (m : Method) : Prop where
  /-- The code is cut into one slice for each instruction. -/
  tiled : m.slices.flatten = m.instructions.toList ∧ m.slices.length = body.length
  /-- A scratch local is loaded after it has been stored in the same slice. -/
  storedFirst : ∀ (k p : Nat) (i : LocalIndex) (l : Local) slot,
    (m.slice k)[p]? = some (.loadLocal i) → m.locals[i.val]? = some l →
    l.origin = .scratch slot → ∃ q, q < p ∧ (m.slice k)[q]? = some (.storeLocal i)
  /-- Only comparisons name scratch locals. -/
  compares : ∀ k x (i : LocalIndex) (l : Local) slot, x ∈ m.slice k → x.Names i →
    m.locals[i.val]? = some l → l.origin = .scratch slot → ComparesAt body k
  /-- A comparison of references stores nothing. Any other one stores first the
  right operand, which is on top, and then the left one, each to a scratch
  local of its own, which backs no register. -/
  operands : ∀ k, ComparesAt body k →
    (∃ rest, m.typesAt k = some (.object :: .object :: rest) ∧ stores (m.slice k) = []) ∨
    ∃ lhs rhs t u v rest, m.typesAt k = some (u :: v :: rest) ∧
      IsScratch m.locals 0 t lhs ∧ IsScratch m.locals 1 t rhs ∧
      (m.slice k).take 2 = [.storeLocal rhs, .storeLocal lhs] ∧
      stores (m.slice k) = [rhs, lhs] ∧ lhs ≠ rhs ∧
      ∀ r c, ¬ Backs m.locals r c lhs ∧ ¬ Backs m.locals r c rhs

section Discipline

variable {o : Options} {body : List Instr} {m : Method} {k : Nat} {i : LocalIndex} {l : Local}
  {slot : UInt8} (h : (Registry.default.recompile o body).result = .ok m)

include h

/-- A slice that names a scratch local compares two numbers. -/
theorem Registry.default_names_scratch {x : HostInstr} (hx : x ∈ m.slice k) (hn : x.Names i)
    (hl : m.locals[i.val]? = some l) (ho : l.origin = .scratch slot) :
    ComparesAt body k ∧ ∃ lhs rhs, m.slice k = Lowering.signOfDifference lhs rhs := by
  obtain ⟨instr, hinstr⟩ := exists_instr_of_mem_slice h hx
  obtain ⟨s, d, rule, -, -, hrule, hrenders⟩ := default_recompile_at h hinstr
  rcases hrenders.of_scratch hx hn hl ho with ⟨rfl, hslice⟩ | ⟨ch, rfl, hseq⟩
  · exact ⟨⟨instr, hinstr, mem_compare_codes.mpr hrule⟩, hslice⟩
  · obtain ⟨hload, hstore⟩ := default_chain_names hrule i
    rcases hn with rfl | rfl
    · exact absurd hseq hload
    · exact absurd hseq hstore

/-- A comparison of two numbers has a scratch local for each operand. -/
theorem Registry.default_comparison (hk : ComparesAt body k) :
    (∃ lhs rhs t u v rest, m.typesAt k = some (u :: v :: rest) ∧ IsScratch m.locals 0 t lhs ∧
      IsScratch m.locals 1 t rhs ∧ m.slice k = Lowering.signOfDifference lhs rhs) ∨
    ∃ rest, m.typesAt k = some (.object :: .object :: rest) ∧
      m.slice k = Lowering.referencesDiffer := by
  obtain ⟨instr, hinstr, hcode⟩ := hk
  obtain ⟨s, d, rule, -, htypes, hrule, hrenders⟩ := default_recompile_at h hinstr
  obtain rfl : rule = .compare := Option.some.inj (hrule.symm.trans (mem_compare_codes.mp hcode))
  rcases hrenders.of_compare with ⟨lhs, rhs, t, u, v, rest, hs, hl, hr, hslice⟩ | ⟨rest, hs, hslice⟩
  · exact Or.inl ⟨lhs, rhs, t, u, v, rest, by rw [htypes, hs], hl, hr, hslice⟩
  · exact Or.inr ⟨rest, by rw [htypes, hs], hslice⟩

/-- A slice names one scratch local of a slot at most. -/
theorem Registry.default_scratch_unique {x x' : HostInstr} {i' : LocalIndex} {l' : Local}
    (hx : x ∈ m.slice k) (hn : x.Names i) (hl : m.locals[i.val]? = some l)
    (ho : l.origin = .scratch slot) (hx' : x' ∈ m.slice k) (hn' : x'.Names i')
    (hl' : m.locals[i'.val]? = some l') (ho' : l'.origin = .scratch slot) : i = i' := by
  obtain ⟨hk, -⟩ := default_names_scratch h hx hn hl ho
  rcases default_comparison h hk with ⟨lhs, rhs, t, -, -, -, -, hlhs, hrhs, hslice⟩ |
    ⟨-, -, hslice⟩
  · rw [hslice] at hx hx'
    have hne : l.origin = l'.origin := ho.trans ho'.symm
    rcases names_of_mem_signOfDifference hx hn with rfl | rfl <;>
      rcases names_of_mem_signOfDifference hx' hn' with rfl | rfl
    · rfl
    · cases hlhs.symm.trans hl
      cases hrhs.symm.trans hl'
      exact absurd (LocalOrigin.scratch.inj hne) (by decide)
    · cases hrhs.symm.trans hl
      cases hlhs.symm.trans hl'
      exact absurd (LocalOrigin.scratch.inj hne) (by decide)
    · rfl
  · rw [hslice] at hx
    rcases hn with rfl | rfl <;> simp [Lowering.referencesDiffer] at hx

end Discipline

/-- No scratch local carries a value from one decoded instruction to another. -/
theorem recompile_scratch (o : Options) (body : List Instr) (m : Method)
    (h : (Registry.default.recompile o body).result = .ok m) : ScratchDiscipline body m where
  tiled := Registry.recompile_tiled h
  storedFirst k p i l slot hp hl ho := by
    have hload : .loadLocal i ∈ m.slice k := List.mem_of_getElem? hp
    obtain ⟨-, lhs, rhs, hslice⟩ := Registry.default_names_scratch h hload (Or.inl rfl) hl ho
    rw [hslice] at hp ⊢
    exact stored_of_loaded_signOfDifference hp
  compares k x i l slot hx hn hl ho := (Registry.default_names_scratch h hx hn hl ho).1
  operands k hk := by
    rcases Registry.default_comparison h hk with
      ⟨lhs, rhs, t, u, v, rest, htypes, hl, hr, hslice⟩ | ⟨rest, htypes, hslice⟩
    · right
      have hne : lhs ≠ rhs := by
        rintro rfl
        exact absurd (hl.slot_unique hr) (by decide)
      refine ⟨lhs, rhs, t, u, v, rest, htypes, hl, hr, ?_, ?_, hne, fun r c =>
        ⟨hl.not_backs r c, hr.not_backs r c⟩⟩
      · rw [hslice]
        rfl
      · rw [hslice]
        rfl
    · left
      refine ⟨rest, htypes, ?_⟩
      rw [hslice]
      rfl

theorem recompile_scratch_selfComparison :
    ∃ m, (Registry.default.recompile {} selfComparison).result = .ok m ∧
      m.locals.map Local.origin = #[.register .r1, .scratch 0, .scratch 1, .register .r2] ∧
      m.slice 2 = Lowering.signOfDifference ⟨1, by decide⟩ ⟨2, by decide⟩ ∧
      ScratchDiscipline selfComparison m := by
  have hrun : ((Registry.default.recompile {} selfComparison).result.map
      fun m => (m.locals.map Local.origin, m.slice 2)).toOption =
        some (#[.register .r1, .scratch 0, .scratch 1, .register .r2],
          Lowering.signOfDifference ⟨1, by decide⟩ ⟨2, by decide⟩) := by decide +kernel
  obtain ⟨m, hm, hfound⟩ := Registry.exists_method hrun
  rw [Prod.mk.injEq] at hfound
  exact ⟨m, hm, hfound.1, hfound.2, recompile_scratch {} selfComparison m hm⟩

end Devirt
