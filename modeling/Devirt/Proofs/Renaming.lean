/-
# Code up to the choice of locals

Two tables may have locals of the same type and origin in different places
(`Counterpart`). Code that differs in nothing but such locals has the same
effect on the types of the stack (`HostInstr.Renamed.effect_eq`), and what a
rule of the default table has for an operation is determined up to them
(`Rule.Renders.renamed`).

Key definitions: `Counterpart`, `HostInstr.rename`, `HostInstr.Renamed`.
Key theorems: `HostInstr.Renamed.effect_eq`, `HostInstr.eq_map_rename`,
`Rule.Renders.renamed`.
-/
import Devirt.Proofs.Scratch

namespace Devirt

open HostInstr

variable {ls ls' ks ks' : Array Local} {i j : LocalIndex}

/-! ### Counterparts -/

/-- The local `i` of the one table and the local `j` of the other have the same
type and the same origin. -/
def Counterpart (ls ls' : Array Local) (i j : LocalIndex) : Prop :=
  ∃ t origin, ls[i.val]? = some ⟨i, t, origin⟩ ∧ ls'[j.val]? = some ⟨j, t, origin⟩

theorem Counterpart.mono (h : Counterpart ls ls' i j) (hls : Extends ls ks)
    (hls' : Extends ls' ks') : Counterpart ks ks' i j := by
  obtain ⟨t, origin, hi, hj⟩ := h
  exact ⟨t, origin, hls _ _ hi, hls' _ _ hj⟩

theorem Backs.counterpart {r : Register} {c : StorageClass} (hi : Backs ls r c i)
    (hj : Backs ls' r c j) : Counterpart ls ls' i j :=
  ⟨_, _, hi, hj⟩

theorem IsScratch.counterpart {slot : UInt8} {t : StackType} (hi : IsScratch ls slot t i)
    (hj : IsScratch ls' slot t j) : Counterpart ls ls' i j :=
  ⟨_, _, hi, hj⟩

/-! ### Renamed code -/

namespace HostInstr

/-- The instruction with another local in place of each. -/
def rename (φ : LocalIndex → LocalIndex) : HostInstr → HostInstr
  | .loadLocal i => .loadLocal (φ i)
  | .storeLocal i => .storeLocal (φ i)
  | x => x

/-- The two instructions differ at most in the local that they name, and those
are related. -/
inductive Renamed (ρ : LocalIndex → LocalIndex → Prop) : HostInstr → HostInstr → Prop where
  | load {i j : LocalIndex} (h : ρ i j) : Renamed ρ (.loadLocal i) (.loadLocal j)
  | store {i j : LocalIndex} (h : ρ i j) : Renamed ρ (.storeLocal i) (.storeLocal j)
  | same {x : HostInstr} (h : ∀ i, ¬ x.Names i) : Renamed ρ x x

variable {ρ ρ' : LocalIndex → LocalIndex → Prop} {x y : HostInstr} {is js : List HostInstr}

theorem Renamed.mono (h : x.Renamed ρ y) (hρ : ∀ i j, ρ i j → ρ' i j) : x.Renamed ρ' y := by
  cases h with
  | load h => exact .load (hρ _ _ h)
  | store h => exact .store (hρ _ _ h)
  | same h => exact .same h

theorem rename_of_not_names (φ : LocalIndex → LocalIndex) (h : ∀ i, ¬ x.Names i) :
    x.rename φ = x := by
  cases x with
  | loadLocal i => exact absurd (Or.inl rfl) (h i)
  | storeLocal i => exact absurd (Or.inr rfl) (h i)
  | _ => rfl

theorem Renamed.eq_rename {φ : LocalIndex → LocalIndex} (h : x.Renamed ρ y)
    (hφ : ∀ i j, ρ i j → φ i = j) : y = x.rename φ := by
  cases h with
  | load h => rw [rename, hφ _ _ h]
  | store h => rw [rename, hφ _ _ h]
  | same h => exact (rename_of_not_names φ h).symm

/-- Where each local is related to one only, renamed code is the image of a
map. -/
theorem eq_map_rename {φ : LocalIndex → LocalIndex} (h : List.Forall₂ (Renamed ρ) is js)
    (hφ : ∀ i j, ρ i j → φ i = j) : js = is.map (rename φ) := by
  induction h with
  | nil => rfl
  | cons hx _ ih => rw [List.map_cons, ← hx.eq_rename hφ, ← ih]

theorem renamed_self (h : ∀ x ∈ is, ∀ i, ¬ x.Names i) : List.Forall₂ (Renamed ρ) is is :=
  List.forall₂_same.mpr fun x hx => .same (h x hx)

/-- An instruction that loads no local does not read the table. -/
theorem effect_congr (h : ∀ i, x ≠ .loadLocal i) (limit : Nat) (s : EvalStack) :
    x.effect limit ls s = x.effect limit ls' s := by
  cases x with
  | loadLocal i => exact absurd rfl (h i)
  | invoke how m => cases how <;> rfl
  | _ => rfl

/-- Renamed instructions move the types on the stack alike. -/
theorem Renamed.effect_eq (h : x.Renamed (Counterpart ls ls') y) (limit : Nat) (s : EvalStack) :
    x.effect limit ls s = y.effect limit ls' s := by
  cases h with
  | load h =>
    obtain ⟨t, origin, hi, hj⟩ := h
    rw [effect, effect, hi, hj]
  | store h => rfl
  | same h => exact effect_congr (fun i hx => h i (Or.inl hx)) limit s

end HostInstr

/-! ### The code of an operation -/

/-- A typing and a rule determine the code of an operation, up to the choice of
locals. -/
theorem Rule.Renders.renamed {s : Typing} {rule : Rule} {op : Operation} {is js : List HostInstr}
    (hrule : op.code.defaultRule? = some rule) (h : rule.Renders s ls op is)
    (h' : rule.Renders s ls' op js) : List.Forall₂ (Renamed (Counterpart ls ls')) is js := by
  cases h with
  | dword v | qword v | discard =>
    cases h'
    exact renamed_self (by simp [Names])
  | read hc hb hw =>
    obtain ⟨j, hb', rfl, -⟩ := h'.of_read hc
    exact .cons (.load (hb.counterpart hb')) (renamed_self fun x hx => not_names_narrowing hx)
  | store hs hb =>
    obtain ⟨top, rest, j, hs', hb', rfl⟩ := h'.of_store
    rw [hs, List.cons.injEq] at hs'
    obtain ⟨rfl, rfl⟩ := hs'
    have hstore : Renamed (Counterpart ls ls') (.storeLocal _) (.storeLocal j) :=
      .store (hb.counterpart hb')
    unfold Plan.storeInto
    split
    · exact .cons (.same (by simp [Names])) (.cons hstore .nil)
    · exact .cons hstore .nil
  | numbers ht hl hr =>
    cases h' with
    | numbers ht' hl' hr' =>
      rw [ht, Option.some.injEq] at ht'
      subst ht'
      have hlhs := hl.counterpart hl'
      have hrhs := hr.counterpart hr'
      exact .cons (.store hrhs) (.cons (.store hlhs) (.cons (.load hlhs) (.cons (.load hrhs)
        (.cons (.same (by simp [Names])) (.cons (.load hlhs) (.cons (.load hrhs)
        (renamed_self (by simp [Names]))))))))
    | references hs => simp [Typing.scratch?, Typing.numbers?, hs] at ht
  | references hs =>
    cases h' with
    | numbers ht' => simp [Typing.scratch?, Typing.numbers?, hs] at ht'
    | references => exact renamed_self (by simp [Lowering.referencesDiffer, Names])
  | chain =>
    rw [h'.of_chain]
    refine renamed_self fun x hx i hn => ?_
    rcases hn with rfl | rfl
    · exact (default_chain_names hrule i).1 hx
    · exact (default_chain_names hrule i).2 hx
  | boxed hv ht =>
    cases h' with
    | boxed => exact renamed_self (by simp [Names])
    | cast hv' ht' => simp [ht] at ht'
  | cast hv ht =>
    cases h' with
    | boxed hv' ht' => simp [ht] at ht'
    | cast => exact renamed_self (by simp [Names])
  | call =>
    cases h'
    exact renamed_self (by simp [Names])
  | loadStatic hf =>
    cases h' with
    | loadStatic => exact renamed_self (by simp [Names])
    | loadField hf' => simp [hf] at hf'
  | loadField hf =>
    cases h' with
    | loadStatic hf' => simp [hf] at hf'
    | loadField => exact renamed_self (by simp [Names])
  | storeStatic hf =>
    cases h' with
    | storeStatic => exact renamed_self (by simp [Names])
    | storeField hf' => simp [hf] at hf'
  | storeField hf =>
    cases h' with
    | storeStatic hf' => simp [hf] at hf'
    | storeField => exact renamed_self (by simp [Names])

end Devirt
