/-
# Coherent registries

Whether a rule serves a code is asked twice: when an instance of it is
registered for the code and when it is to lower an instruction. A registry only
finds what was accepted, so the second answer is the first one, and no rule that
a registry picks refuses its code. An instruction is unsupported just where its
code has no entry, and the frame is then left alone (`registry_coherent`).

The codes that have an entry are listed in the order of declaration. Keys that
come out of a table in any order whatever give that list when they are sorted.

Key definitions: `CodeRef.place`, `Registry.codesOf`, `Registry.keysOf`,
`Coherent`.
Key theorems: `supports_of_mem_accepted`, `Registry.mergeSort_keys`,
`registry_coherent`.
-/
import Devirt.Proofs.Registration
import Devirt.Proofs.Blame
import Devirt.DefaultTable
import Mathlib.Data.List.Basic
import Mathlib.Data.List.TakeWhile
import Mathlib.Order.Basic

namespace Devirt

/-! ### The order of declaration -/

/-- What is listed once is listed by its place. -/
theorem pairwise_idxOf {α : Type} [DecidableEq α] {l : List α} (h : l.Nodup) :
    l.Pairwise fun a b => l.idxOf a < l.idxOf b := by
  rw [List.pairwise_iff_getElem]
  intro i j hi hj hij
  rw [h.idxOf_getElem i hi, h.idxOf_getElem j hj]
  exact hij

namespace CodeRef

/-- The place of a code among the opcodes, or else among the intrinsics. -/
def place : CodeRef → Nat
  | .opcode code => code.index
  | .intrinsic call => call.index

theorem pairwise_all : all.Pairwise fun c d => c.isOpcode = d.isOpcode → c.place < d.place := by
  have hopcodes : Opcode.all.Nodup := by decide
  have hintrinsics : Intrinsic.all.Nodup := by decide
  rw [all, List.pairwise_append, List.pairwise_map, List.pairwise_map]
  refine ⟨(pairwise_idxOf hopcodes).imp ?_, (pairwise_idxOf hintrinsics).imp ?_, ?_⟩
  · exact fun h _ => h
  · exact fun h _ => h
  intro c hc d hd h
  obtain ⟨code, -, rfl⟩ := List.mem_map.mp hc
  obtain ⟨call, -, rfl⟩ := List.mem_map.mp hd
  cases h

/-- An opcode is told by its place, and so is an intrinsic. -/
theorem eq_of_place {c d : CodeRef} (hkind : c.isOpcode = d.isOpcode) (h : c.place = d.place) :
    c = d := by
  cases c with
  | opcode code =>
    cases d with
    | opcode code' => rw [(List.idxOf_inj (Opcode.mem_all code)).mp h]
    | intrinsic call => cases hkind
  | intrinsic call =>
    cases d with
    | opcode code => cases hkind
    | intrinsic call' => rw [(List.idxOf_inj (Intrinsic.mem_all call)).mp h]

end CodeRef

namespace Registry

/-- The opcodes, or else the intrinsics, that have a rule, in the order of
declaration. -/
def codesOf (reg : Registry) (opcodes : Bool) : List CodeRef :=
  reg.codes.filter (·.isOpcode == opcodes)

/-- The opcodes, or else the intrinsics, that are keys of the table. -/
def keysOf (reg : Registry) (opcodes : Bool) : List CodeRef :=
  (reg.table.entries.map Prod.fst).filter (·.isOpcode == opcodes)

variable {reg : Registry} {opcodes : Bool} {code : CodeRef}

theorem pairwise_codesOf (reg : Registry) (opcodes : Bool) :
    (reg.codesOf opcodes).Pairwise fun c d => c.place < d.place := by
  have hcodes := CodeRef.pairwise_all.filter fun c => (reg.find? c).isSome
  rw [codesOf, List.pairwise_filter]
  refine hcodes.imp fun h hc hd => h ?_
  rw [beq_iff_eq.mp hc, beq_iff_eq.mp hd]

theorem mem_codesOf : code ∈ reg.codesOf opcodes ↔
    code.isOpcode = opcodes ∧ (reg.find? code).isSome = true := by
  rw [codesOf, codes, Table.codes, List.mem_filter, List.mem_filter, beq_iff_eq, and_comm]
  exact and_congr_right fun _ => and_iff_right code.mem_all

theorem mem_keysOf : code ∈ reg.keysOf opcodes ↔
    code.isOpcode = opcodes ∧ (reg.find? code).isSome = true := by
  rw [keysOf, List.mem_filter, Table.mem_codes_iff, beq_iff_eq, and_comm]
  rfl

theorem keysOf_perm (reg : Registry) (opcodes : Bool) :
    (reg.keysOf opcodes).Perm (reg.codesOf opcodes) := by
  have hkeys : (reg.keysOf opcodes).Nodup := reg.table.nodup_codes.filter _
  have hcodes : (reg.codesOf opcodes).Nodup := by
    refine (pairwise_codesOf reg opcodes).imp fun {c d} hlt heq => ?_
    rw [heq] at hlt
    exact absurd hlt (Nat.lt_irrefl _)
  rw [List.perm_ext_iff_of_nodup hkeys hcodes]
  intro code
  rw [mem_keysOf, mem_codesOf]

/-- The keys in any order give the codes in order when they are sorted. -/
theorem mergeSort_keys {keys : List CodeRef} (h : keys.Perm (reg.keysOf opcodes)) :
    keys.mergeSort (fun c d => c.place ≤ d.place) = reg.codesOf opcodes := by
  have hsorted : (keys.mergeSort fun c d => c.place ≤ d.place).Pairwise
      fun c d => c.place ≤ d.place := by
    have hsort := @List.pairwise_mergeSort _ (fun c d : CodeRef => decide (c.place ≤ d.place))
      (fun a b c hab hbc => by
        simp only [decide_eq_true_eq] at hab hbc ⊢
        exact Nat.le_trans hab hbc)
      (fun a b => by
        simp only [Bool.or_eq_true, decide_eq_true_eq]
        exact Nat.le_total _ _) keys
    simpa only [decide_eq_true_eq] using hsort
  have hcodes : (reg.codesOf opcodes).Pairwise fun c d => c.place ≤ d.place :=
    (pairwise_codesOf reg opcodes).imp Nat.le_of_lt
  have hperm : (keys.mergeSort fun c d => c.place ≤ d.place).Perm (reg.codesOf opcodes) :=
    (List.mergeSort_perm _ _).trans (h.trans (keysOf_perm reg opcodes))
  refine hperm.eq_of_pairwise (fun c d hc hd hcd hdc => ?_) hsorted hcodes
  have hkind : c.isOpcode = d.isOpcode :=
    (mem_codesOf.mp (hperm.subset hc)).1.trans (mem_codesOf.mp hd).1.symm
  exact CodeRef.eq_of_place hkind (Nat.le_antisymm hcd hdc)

end Registry

/-! ### What is found is served -/

section Built

variable {calls calls' : List Registration} {code : CodeRef} {r : Installed}

theorem supports_of_mem_accepted (h : (code, r) ∈ accepted calls) :
    r.rule.supports code = true := by
  obtain ⟨c, -, hc⟩ := List.mem_flatMap.mp h
  obtain ⟨k, hk, he⟩ := List.mem_map.mp hc
  cases he
  exact List.mem_takeWhile_imp hk

/-- What a registry finds under a code was accepted for it. -/
theorem supports_of_find?_built (h : (built calls).1.find? code = some r) :
    r.rule.supports code = true := by
  rw [find?_built, latest_eq_some_iff] at h
  obtain ⟨before, after, hes, -⟩ := h
  have hmem : (code, r) ∈ accepted calls := by
    rw [hes]
    exact List.mem_append_right _ List.mem_cons_self
  exact supports_of_mem_accepted hmem

/-- A code has an entry if a call made one. -/
theorem isSome_find?_built (calls : List Registration) (code : CodeRef) :
    ((built calls).1.find? code).isSome = true ↔ ∃ e ∈ accepted calls, e.1 = code := by
  rw [find?_built, Option.isSome_iff_ne_none, ne_eq, latest_eq_none_iff]
  constructor
  · intro h
    by_contra hnone
    exact h fun e he hcode => hnone ⟨e, he, hcode⟩
  · rintro ⟨e, he, hcode⟩ h
    exact h e he hcode

/-- What calls accept, they accept in any order. -/
theorem codesOf_built_perm (h : calls'.Perm calls) (opcodes : Bool) :
    (built calls').1.codesOf opcodes = (built calls).1.codesOf opcodes := by
  have haccepted : ∀ e, e ∈ accepted calls' ↔ e ∈ accepted calls := fun e =>
    (h.flatMap_right Registration.accepted).mem_iff
  have hfound : ∀ code, ((built calls').1.find? code).isSome = ((built calls).1.find? code).isSome := by
    intro code
    rw [Bool.eq_iff_iff, isSome_find?_built, isSome_find?_built]
    exact exists_congr fun e => and_congr_left fun _ => haccepted e
  have hcodes : (built calls').1.codes = (built calls).1.codes :=
    List.filter_congr fun code _ => hfound code
  rw [Registry.codesOf, Registry.codesOf, hcodes]

/-- An instruction fails for want of an entry, or for what a rule that serves
it can fail for. -/
theorem blame_of_lower_built {i : Instr} {f g : Frame} {fault : Fault}
    (h : (built calls).1.lower i f = .error fault g) :
    ((built calls).1.find? i.code = none ∧ fault = ⟨i.code, .unsupported⟩ ∧ g = f) ∨
      (∃ r, (built calls).1.find? i.code = some r) ∧ Blame g fault.cause := by
  rcases Registry.lower_eq_error.mp h with hunsupported | ⟨r, hr, hlower⟩
  · exact .inl hunsupported
  · obtain ⟨c, hemit, rfl⟩ := Rule.lower_eq_error.mp hlower
    exact .inr ⟨⟨r, hr⟩, Rule.emit_blames (supports_of_find?_built hr) f c g hemit⟩

end Built

/-! ### Dispatch -/

/-- The registry that calls on a new builder come to picks rules that serve
what they are picked for, and lists what it can pick. -/
structure Coherent (calls : List Registration) : Prop where
  /-- The rule of a code serves it. -/
  serves : ∀ code r, (built calls).1.lookup code = .ok r → r.rule.supports code = true
  /-- No instruction fails because a rule does not serve its code. -/
  noRefusal : ∀ i f fault g, (built calls).1.lower i f = .error fault g →
    ∀ code rule, fault.cause ≠ .violation (.foreignCode code rule)
  /-- An instruction is unsupported if its code has no entry, and only then. -/
  unsupported : ∀ i f, (∃ fault g, (built calls).1.lower i f = .error fault g ∧
    fault.cause = .unsupported) ↔ ∀ r, (built calls).1.lookup i.code ≠ .ok r
  /-- The frame is then left alone. -/
  untouched : ∀ i f fault g, (built calls).1.lower i f = .error fault g →
    fault.cause = .unsupported → fault.code = i.code ∧ g = f
  /-- Codes are listed in the order of declaration, and none twice. -/
  increasing : ∀ opcodes, ((built calls).1.codesOf opcodes).Pairwise fun c d => c.place < d.place
  /-- A code is listed if it is found. -/
  listed : ∀ opcodes code, code ∈ (built calls).1.codesOf opcodes ↔
    code.isOpcode = opcodes ∧ ∃ r, (built calls).1.lookup code = .ok r
  /-- Keys in any order give the same list when they are sorted. -/
  sorted : ∀ opcodes (keys : List CodeRef), keys.Perm ((built calls).1.keysOf opcodes) →
    keys.mergeSort (fun c d => c.place ≤ d.place) = (built calls).1.codesOf opcodes
  /-- Calls in any order give the same list. -/
  reordered : ∀ calls', calls'.Perm calls → ∀ opcodes,
    (built calls').1.codesOf opcodes = (built calls).1.codesOf opcodes

/-- Whatever is registered, and whether it is refused or not, comes to a registry
in which the two checks agree. -/
theorem registry_coherent (calls : List Registration) : Coherent calls where
  serves _ _ h := supports_of_find?_built (Registry.lookup_eq_ok.mp h)
  noRefusal i f fault g h code rule hcause := by
    rcases blame_of_lower_built h with ⟨-, rfl, -⟩ | ⟨-, hblame⟩
    · cases hcause
    · exact hblame.ne_foreignCode hcause
  unsupported i f := by
    constructor
    · rintro ⟨fault, g, h, hcause⟩ r hr
      rcases blame_of_lower_built h with ⟨hnone, -, -⟩ | ⟨-, hblame⟩
      · cases hnone.symm.trans (Registry.lookup_eq_ok.mp hr)
      · exact absurd hcause hblame.ne_unsupported
    · intro h
      have hnone : (built calls).1.find? i.code = none :=
        Option.eq_none_iff_forall_ne_some.mpr fun r hr => h r (Registry.lookup_eq_ok.mpr hr)
      rw [Registry.lower_of_find_none hnone]
      exact ⟨_, f, rfl, rfl⟩
  untouched i f fault g h hcause := by
    rcases blame_of_lower_built h with ⟨-, rfl, rfl⟩ | ⟨-, hblame⟩
    · exact ⟨rfl, rfl⟩
    · exact absurd hcause hblame.ne_unsupported
  increasing := Registry.pairwise_codesOf _
  listed opcodes code := by
    rw [Registry.mem_codesOf, Option.isSome_iff_exists]
    exact and_congr_right fun _ => exists_congr fun r => Registry.lookup_eq_ok.symm
  sorted _ _ h := Registry.mergeSort_keys h
  reordered _ h := codesOf_built_perm h

/-- The default table is built by calls, one for each rule. -/
example :
    (built (defaultRules.zipIdx.map fun (rule, n) => ⟨⟨n, rule⟩, rule.codes⟩)).1 =
      Registry.default := by
  decide +kernel

end Devirt
