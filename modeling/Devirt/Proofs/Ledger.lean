/-
# The table of locals against what is demanded

The table of a frame has exactly the locals that the code so far demands
(`Frame.Ledger`): a home for each register and class, and two scratch locals
for each comparison of numbers or, where they are shared, for each type. So a
step that needs a local finds it, makes it, or fails because the demand no
longer fits.

Key definitions: `Frame.Ledger`.
Key theorems: `Frame.Ledger.registerLocal_yields`,
`Frame.Ledger.compareNumbers_yields`.
-/
import Devirt.Proofs.Locals
import Devirt.Proofs.Typing

namespace Devirt

open Devirt.Frame Lower HostInstr

theorem StorageClass.slotType_injective : Function.Injective StorageClass.slotType :=
  Function.LeftInverse.injective StorageClass.of_slotType

namespace Demand

variable {d : Demand}

theorem addHome_of_mem {h : Register × StorageClass} (hm : h ∈ d.homes) : d.addHome h = d := by
  rw [addHome, Finset.insert_eq_of_mem hm]

theorem locals_addHome {h : Register × StorageClass} (hm : h ∉ d.homes) (pooled : Bool) :
    (d.addHome h).locals pooled = d.locals pooled + 1 := by
  simp only [locals, addHome, Finset.card_insert_of_notMem hm]
  omega

/-- A comparison takes two locals more, unless it shares those of its type. -/
theorem locals_addCompare {t : StackType} {pooled : Bool} (hn : pooled = true → t ∉ d.scratch) :
    (d.addCompare t).locals pooled = d.locals pooled + 2 := by
  cases pooled with
  | true =>
    simp only [locals, addCompare, if_true, Finset.card_insert_of_notMem (hn rfl)]
    omega
  | false =>
    simp only [locals, addCompare, Bool.false_eq_true, if_false]
    omega

theorem locals_addCompare_of_mem {t : StackType} (hm : t ∈ d.scratch) :
    (d.addCompare t).locals true = d.locals true := by
  simp only [locals, addCompare, if_true, Finset.insert_eq_of_mem hm]

end Demand

namespace Frame

structure Ledger (o : Options) (d : Demand) (f : Frame) : Prop where
  options : f.options = o
  sound : f.SoundLocals
  size : f.locals.size = d.locals o.reuseTemporaries
  homes : ∀ r (c : StorageClass),
    (f.findLocal? (.register r) c.slotType).isSome = true ↔ (r, c) ∈ d.homes
  scratch : o.reuseTemporaries = true → ∀ slot : UInt8, slot = 0 ∨ slot = 1 → ∀ t,
    ((f.findLocal? (.scratch slot) t).isSome = true ↔ t ∈ d.scratch)

namespace Ledger

variable {o : Options} {d : Demand} {f : Frame}

theorem start (o : Options) : (Frame.start o).Ledger o {} where
  options := rfl
  sound := .start o
  size := by simp [Frame.start, Demand.locals]
  homes r c := by simp [findLocal?, Frame.start]
  scratch _ slot _ t := by simp [findLocal?, Frame.start]

theorem fits (hf : f.Ledger o d) : d.Fits o := by
  rw [Demand.fits_iff, ← hf.size]
  exact hf.sound.size_le

/-- Nothing but the options and the locals is looked at. -/
theorem congr {g : Frame} (hf : f.Ledger o d) (ho : g.options = f.options)
    (hl : g.locals = f.locals) : g.Ledger o d := by
  obtain ⟨h1, h2, h3, h4, h5⟩ := hf
  have hfind : ∀ origin t, g.findLocal? origin t = f.findLocal? origin t := by
    intro origin t
    rw [findLocal?, findLocal?, hl]
  refine ⟨ho.trans h1, ⟨?_, ?_, ?_⟩, hl ▸ h3, ?_, ?_⟩
  · exact hl ▸ h2.index_eq
  · intro l hm hs
    rw [hfind]
    refine h2.find_eq l (hl ▸ hm) ?_
    cases ho' : l.origin with
    | register r => trivial
    | scratch slot =>
      rw [ho'] at hs
      simpa only [Shares, ho] using hs
  · exact hl ▸ h2.slotType
  · intro r c
    rw [hfind]
    exact h4 r c
  · intro hr slot hslot t
    rw [hfind]
    exact h5 hr slot hslot t

/-! ### Homes -/

theorem addHome (hf : f.Ledger o d) {r : Register} {c : StorageClass}
    (hn : f.findLocal? (.register r) c.slotType = none) (h : f.locals.size < maxLocals) :
    (f.addLocal (.register r) c.slotType h).Ledger o (d.addHome (r, c)) where
  options := hf.options
  sound := hf.sound.addLocal h (.register hn)
  size := by
    have hnew : (r, c) ∉ d.homes := by
      rw [← hf.homes, hn]
      simp
    rw [Demand.locals_addHome hnew, ← hf.size]
    simp [addLocal]
  homes r' c' := by
    rw [findLocal?_addLocal, Option.isSome_or, Bool.or_eq_true, hf.homes, Demand.addHome,
      Finset.mem_insert, Prod.mk.injEq, or_comm]
    by_cases hr : r = r'
    · by_cases hc : c = c'
      · simp [hr, hc]
      · have hs : c.slotType ≠ c'.slotType := fun hs => hc (StorageClass.slotType_injective hs)
        simp [hs, Ne.symm hc]
    · simp [hr, Ne.symm hr]
  scratch hp slot hslot t := by
    rw [findLocal?_addLocal_of_ne h (by simp)]
    exact hf.scratch hp slot hslot t

/-- A register has its home in the end, unless the demand does not fit. -/
theorem registerLocal_yields (hf : f.Ledger o d) (r : Register) (t : StackType) :
    Yields (registerLocal r t) f
      (fun i g => (∃ ls, g = { f with locals := ls }) ∧ g.Ledger o (d.addHome (r, .of t)) ∧
        declared g.locals i = some (StorageClass.of t).slotType)
      (fun _ => ¬ (d.addHome (r, .of t)).Fits o) := by
  rcases localFor_cases f (.register r) (StorageClass.of t).slotType with
    ⟨i, hi, h⟩ | ⟨hn, hlt, h⟩ | ⟨hn, hge, h⟩
  · have hm : (r, StorageClass.of t) ∈ d.homes := by
      rw [← hf.homes, hi]
      rfl
    refine Or.inl ⟨i, f, h, ⟨f.locals, rfl⟩, ?_, ?_⟩
    · rw [Demand.addHome_of_mem hm]
      exact hf
    · rw [declared, hf.sound.getElem?_of_find hi, Option.map_some]
  · exact Or.inl ⟨_, _, h, ⟨_, rfl⟩, hf.addHome hn hlt, declared_addLocal hlt⟩
  · refine Or.inr ⟨_, f, h, ?_⟩
    have hnew : (r, StorageClass.of t) ∉ d.homes := by
      rw [← hf.homes, hn]
      simp
    rw [Demand.fits_iff, Demand.locals_addHome hnew, ← hf.size]
    omega

/-! ### Scratch -/

/-- No scratch local of the type may be used again. -/
def Unshared (o : Options) (f : Frame) (t : StackType) (slot : UInt8) : Prop :=
  o.reuseTemporaries = true → f.findLocal? (.scratch slot) t = none

theorem unshared (hf : f.Ledger o d) {t : StackType} (hn : o.reuseTemporaries = true → t ∉ d.scratch)
    {slot : UInt8} (hslot : slot = 0 ∨ slot = 1) : Unshared o f t slot := by
  intro hp
  rw [← Option.not_isSome_iff_eq_none, hf.scratch hp slot hslot]
  exact hn hp

theorem scratchLocal_of_lt (ho : f.options = o) {t : StackType} {slot : UInt8}
    (hu : Unshared o f t slot) (h : f.locals.size < maxLocals) :
    scratchLocal t slot f = .ok ⟨f.locals.size, h⟩ (f.addLocal (.scratch slot) t h) := by
  subst ho
  rcases scratchLocal_cases f t slot with ⟨hp, i, hi, -⟩ | ⟨-, _, heq⟩ | ⟨-, hge, -⟩
  · rw [hu hp] at hi
    cases hi
  · exact heq
  · omega

theorem scratchLocal_of_ge (ho : f.options = o) {t : StackType} {slot : UInt8}
    (hu : Unshared o f t slot) (h : maxLocals ≤ f.locals.size) :
    scratchLocal t slot f = .error (.tooManyLocals maxLocals) f := by
  subst ho
  rcases scratchLocal_cases f t slot with ⟨hp, i, hi, -⟩ | ⟨-, hlt, -⟩ | ⟨-, -, heq⟩
  · rw [hu hp] at hi
    cases hi
  · omega
  · exact heq

/-- A comparison that shares the scratch locals of an earlier one. -/
theorem addCompare_of_mem (hf : f.Ledger o d) {t : StackType} (hp : o.reuseTemporaries = true)
    (hm : t ∈ d.scratch) : f.Ledger o (d.addCompare t) where
  options := hf.options
  sound := hf.sound
  size := by
    have hsize := hf.size
    rw [hp] at hsize ⊢
    rw [Demand.locals_addCompare_of_mem hm, hsize]
  homes := hf.homes
  scratch hr slot hslot t' := by
    rw [hf.scratch hr slot hslot, Demand.addCompare, Finset.insert_eq_of_mem hm]

/-- A comparison that makes its own. -/
theorem addCompare (hf : f.Ledger o d) {t : StackType} (hn : o.reuseTemporaries = true → t ∉ d.scratch)
    (h : f.locals.size < maxLocals)
    (h' : (f.addLocal (.scratch 0) t h).locals.size < maxLocals) :
    ((f.addLocal (.scratch 0) t h).addLocal (.scratch 1) t h').Ledger o (d.addCompare t) where
  options := hf.options
  sound := by
    have hu : ∀ slot : UInt8, slot = 0 ∨ slot = 1 → f.options.reuseTemporaries = true →
        f.findLocal? (.scratch slot) t = none := fun slot hslot hp =>
      hf.unshared hn hslot (hf.options ▸ hp)
    refine (hf.sound.addLocal h (.scratch (hu 0 (Or.inl rfl)))).addLocal h' (.scratch fun hp => ?_)
    rw [findLocal?_addLocal_of_ne h (by simp)]
    exact hu 1 (Or.inr rfl) hp
  size := by
    rw [Demand.locals_addCompare hn, ← hf.size]
    simp [addLocal]
  homes r c := by
    rw [findLocal?_addLocal_of_ne h' (by simp), findLocal?_addLocal_of_ne h (by simp)]
    exact hf.homes r c
  scratch hp slot hslot t' := by
    have hold := hf.scratch hp slot hslot t'
    rw [findLocal?_addLocal, findLocal?_addLocal, Option.isSome_or, Option.isSome_or,
      Bool.or_eq_true, Bool.or_eq_true, hold, Demand.addCompare, Finset.mem_insert]
    have hcomm : t' = t ↔ t = t' := eq_comm
    rcases hslot with rfl | rfl <;> by_cases ht : t = t' <;> simp [ht, hcomm]

/-- A comparison has its two scratch locals in the end, unless the demand does
not fit. -/
theorem compareNumbers_yields (hf : f.Ledger o d) (t : StackType) :
    Yields (Plan.compareNumbers t) f
      (fun is g => (∃ ls, g = { f with locals := ls }) ∧ g.Ledger o (d.addCompare t) ∧
        ∃ lhs rhs, is = Lowering.signOfDifference lhs rhs ∧ declared g.locals lhs = some t ∧
          declared g.locals rhs = some t)
      (fun _ => ¬ (d.addCompare t).Fits o) := by
  by_cases hshare : o.reuseTemporaries = true ∧ t ∈ d.scratch
  · obtain ⟨hp, hm⟩ := hshare
    have hfound : ∀ slot : UInt8, slot = 0 ∨ slot = 1 → ∃ i, f.findLocal? (.scratch slot) t = some i ∧
        scratchLocal t slot f = .ok i f := by
      intro slot hslot
      obtain ⟨i, hi⟩ := Option.isSome_iff_exists.mp ((hf.scratch hp slot hslot t).mpr hm)
      exact ⟨i, hi, by simp [scratchLocal, localFor, hf.options, hp, hi]⟩
    obtain ⟨lhs, hl, hlok⟩ := hfound 0 (Or.inl rfl)
    obtain ⟨rhs, hr, hrok⟩ := hfound 1 (Or.inr rfl)
    refine .bind_ok hlok (.bind_ok hrok (.pure ⟨⟨f.locals, rfl⟩, hf.addCompare_of_mem hp hm, lhs, rhs,
      rfl, ?_, ?_⟩))
    · rw [declared, hf.sound.getElem?_of_find hl, Option.map_some]
    · rw [declared, hf.sound.getElem?_of_find hr, Option.map_some]
  · have hn : o.reuseTemporaries = true → t ∉ d.scratch := fun hp hm => hshare ⟨hp, hm⟩
    have hcount := Demand.locals_addCompare hn
    rw [← hf.size] at hcount
    rw [Demand.fits_iff, hcount]
    rcases Nat.lt_or_ge f.locals.size maxLocals with h | h
    · refine .bind_ok (scratchLocal_of_lt hf.options (hf.unshared hn (Or.inl rfl)) h) ?_
      have hu : Unshared o (f.addLocal (.scratch 0) t h) t 1 := fun hp => by
        rw [findLocal?_addLocal_of_ne h (by simp)]
        exact hf.unshared hn (Or.inr rfl) hp
      have hsize : (f.addLocal (.scratch 0) t h).locals.size = f.locals.size + 1 := by
        simp [addLocal]
      rcases Nat.lt_or_ge (f.addLocal (.scratch 0) t h).locals.size maxLocals with h' | h'
      · refine .bind_ok (scratchLocal_of_lt (f := f.addLocal (.scratch 0) t h) hf.options hu h') ?_
        exact .pure ⟨⟨_, rfl⟩, hf.addCompare hn h h', _, _, rfl,
          ((Extends.refl _).push _).declared (declared_addLocal h), declared_addLocal h'⟩
      · refine .bind_error (scratchLocal_of_ge (f := f.addLocal (.scratch 0) t h) hf.options hu h') ?_
        omega
    · refine .bind_error (scratchLocal_of_ge hf.options (hf.unshared hn (Or.inl rfl)) h) ?_
      omega

end Ledger

end Frame

end Devirt
