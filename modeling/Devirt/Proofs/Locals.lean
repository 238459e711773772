/-
# The table of locals

The table of locals of a frame is searched by origin and type, and only
allocation changes it, at its end. So the index of a local is its place, a
local that may be shared is the one that a search finds, and a register has
locals of the three slot types only (`Frame.SoundLocals`). Whatever a frame
goes through, its table stays sound (`sound_invariant`) and keeps the locals
it has (`extends_invariant`).

Key definitions: `Frame.Shares`, `Frame.SoundLocals`, `Extends`,
`Frame.Grows`.
Key theorems: `Frame.findLocal?_addLocal`, `sound_invariant`,
`extends_invariant`, `Frame.registerLocal_yields`,
`Frame.scratchLocal_yields`.
-/
import Devirt.Proofs.Replay
import Devirt.Proofs.Transcript

namespace Devirt

open Devirt.Frame Lower

namespace Frame

variable {f g : Frame} {origin origin' : LocalOrigin} {t t' : StackType} {i : LocalIndex}

/-! ### Searching -/

theorem findLocal?_eq_some (h : f.findLocal? origin t = some i) :
    ∃ l ∈ f.locals, l.origin = origin ∧ l.type = t ∧ l.index = i := by
  obtain ⟨l, hl, rfl⟩ := Option.map_eq_some_iff.mp h
  have hp := Array.find?_some hl
  simp only [Bool.and_eq_true, decide_eq_true_eq] at hp
  exact ⟨l, Array.mem_of_find?_eq_some hl, hp.1, hp.2, rfl⟩

/-- A search for what the table has finds something. -/
theorem findLocal?_ne_none {l : Local} (hl : l ∈ f.locals) :
    f.findLocal? l.origin l.type ≠ none := by
  rw [Ne, findLocal?, Option.map_eq_none_iff, Array.find?_eq_none]
  intro hnone
  exact hnone l hl (by simp)

/-- A new local is found last. -/
theorem findLocal?_addLocal (h : f.locals.size < maxLocals) :
    (f.addLocal origin t h).findLocal? origin' t' = (f.findLocal? origin' t').or
      (if origin = origin' ∧ t = t' then some ⟨f.locals.size, h⟩ else none) := by
  rw [findLocal?, findLocal?, addLocal, Array.find?_push, Option.map_or]
  congr 1
  by_cases ho : origin = origin' <;> by_cases ht : t = t' <;> simp [ho, ht]

theorem findLocal?_addLocal_self (h : f.locals.size < maxLocals) (hn : f.findLocal? origin t = none) :
    (f.addLocal origin t h).findLocal? origin t = some ⟨f.locals.size, h⟩ := by
  rw [findLocal?_addLocal, hn, Option.none_or, if_pos ⟨rfl, rfl⟩]

theorem findLocal?_addLocal_of_ne (h : f.locals.size < maxLocals)
    (hne : ¬ (origin = origin' ∧ t = t')) :
    (f.addLocal origin t h).findLocal? origin' t' = f.findLocal? origin' t' := by
  rw [findLocal?_addLocal, if_neg hne, Option.or_none]

/-! ### Sound tables -/

/-- Whether the options let a local of this origin serve twice. -/
def Shares (f : Frame) : LocalOrigin → Prop
  | .register _ => True
  | .scratch _ => f.options.reuseTemporaries = true

structure SoundLocals (f : Frame) : Prop where
  index_eq : ∀ (i : Nat) (l : Local), f.locals[i]? = some l → l.index.val = i
  find_eq : ∀ l ∈ f.locals, f.Shares l.origin → f.findLocal? l.origin l.type = some l.index
  slotType : ∀ l ∈ f.locals, ∀ r, l.origin = .register r → ∃ c : StorageClass, l.type = c.slotType

namespace SoundLocals

theorem start (o : Options) : (Frame.start o).SoundLocals where
  index_eq i l h := by simp [Frame.start] at h
  find_eq l h := by simp [Frame.start] at h
  slotType l h := by simp [Frame.start] at h

theorem getElem?_index (hf : f.SoundLocals) {l : Local} (hl : l ∈ f.locals) :
    f.locals[l.index.val]? = some l := by
  obtain ⟨i, hi⟩ := Array.getElem?_of_mem hl
  rw [hf.index_eq i l hi, hi]

/-- What a search finds is in the table under its index. -/
theorem getElem?_of_find (hf : f.SoundLocals) (h : f.findLocal? origin t = some i) :
    f.locals[i.val]? = some ⟨i, t, origin⟩ := by
  obtain ⟨l, hl, rfl, rfl, rfl⟩ := findLocal?_eq_some h
  exact hf.getElem?_index hl

/-- Two shared locals of one origin and type are the same. -/
theorem unique (hf : f.SoundLocals) {l l' : Local} (hl : l ∈ f.locals) (hl' : l' ∈ f.locals)
    (hs : f.Shares l.origin) (ho : l.origin = l'.origin) (ht : l.type = l'.type) : l = l' := by
  have h := hf.find_eq l hl hs
  rw [ho] at hs
  rw [ho, ht, hf.find_eq l' hl' hs, Option.some.injEq] at h
  have hi := hf.getElem?_index hl
  rw [← h, hf.getElem?_index hl', Option.some.injEq] at hi
  exact hi.symm

/-- So they are in the same place. -/
theorem place_unique (hf : f.SoundLocals) {i i' : Nat} {l l' : Local} (hi : f.locals[i]? = some l)
    (hi' : f.locals[i']? = some l') (hs : f.Shares l.origin) (ho : l.origin = l'.origin)
    (ht : l.type = l'.type) : i = i' := by
  have hl : l = l' :=
    hf.unique (Array.mem_of_getElem? hi) (Array.mem_of_getElem? hi') hs ho ht
  rw [← hf.index_eq i l hi, ← hf.index_eq i' l' hi', hl]

theorem size_le (hf : f.SoundLocals) : f.locals.size ≤ maxLocals := by
  rcases Nat.eq_zero_or_pos f.locals.size with h | h
  · omega
  · obtain ⟨last, hlast⟩ : ∃ last, f.locals[f.locals.size - 1]? = some last :=
      ⟨_, Array.getElem?_eq_getElem (Nat.sub_lt h Nat.one_pos)⟩
    have hi := hf.index_eq _ _ hlast
    have hlt := last.index.isLt
    omega

theorem addLocal (hf : f.SoundLocals) (h : f.locals.size < maxLocals) (hm : f.MayAdd origin t) :
    (f.addLocal origin t h).SoundLocals where
  index_eq i l hl := by
    rw [Frame.addLocal, Array.getElem?_push] at hl
    split at hl
    · rename_i hi
      cases hl
      exact hi.symm
    · exact hf.index_eq i l hl
  find_eq l hl hs := by
    rw [Frame.addLocal, Array.mem_push] at hl
    rcases hl with hl | rfl
    · rw [findLocal?_addLocal, hf.find_eq l hl hs, Option.some_or]
    · -- a local that may be shared is added only where none is found
      have hn : f.findLocal? origin t = none := by
        rcases hm.fresh with hn | ⟨hr, slot, rfl⟩
        · exact hn
        · exact absurd hs (by simp [Shares, Frame.addLocal, hr])
      exact findLocal?_addLocal_self h hn
  slotType l hl r hr := by
    rw [Frame.addLocal, Array.mem_push] at hl
    rcases hl with hl | rfl
    · exact hf.slotType l hl r hr
    · exact hm.slotType r hr

end SoundLocals

end Frame

/-- No step of lowering breaks the table. -/
theorem sound_invariant : TranscriptInvariant fun _ f => f.SoundLocals where
  addLocal _ _ _ _ h hm hf := hf.addLocal h hm
  markStored _ _ _ hf := ⟨hf.index_eq, hf.find_eq, hf.slotType⟩
  emit _ _ _ _ _ _ hf := ⟨hf.index_eq, hf.find_eq, hf.slotType⟩
  drain _ _ hf := ⟨hf.index_eq, hf.find_eq, hf.slotType⟩
  report _ _ _ hf := ⟨hf.index_eq, hf.find_eq, hf.slotType⟩

/-! ### Tables grow at the end -/

/-- The second table has the locals of the first, each in its place. -/
def Extends (ls ls' : Array Local) : Prop :=
  ∀ (i : Nat) (l : Local), ls[i]? = some l → ls'[i]? = some l

theorem Extends.refl (ls : Array Local) : Extends ls ls := fun _ _ h => h

theorem Extends.trans {ls ls' ls'' : Array Local} (h : Extends ls ls') (h' : Extends ls' ls'') :
    Extends ls ls'' :=
  fun i l hl => h' i l (h i l hl)

theorem Extends.push {ls ls' : Array Local} (h : Extends ls ls') (l : Local) :
    Extends ls (ls'.push l) := by
  intro i k hk
  have hk' := h i k hk
  obtain ⟨hi, -⟩ := Array.getElem?_eq_some_iff.mp hk'
  rw [Array.getElem?_push_lt hi, ← Array.getElem?_eq_getElem hi, hk']

theorem Extends.declared {ls ls' : Array Local} (h : Extends ls ls') {i : LocalIndex}
    {t : StackType} (ht : HostInstr.declared ls i = some t) : HostInstr.declared ls' i = some t := by
  obtain ⟨l, hl, rfl⟩ := Option.map_eq_some_iff.mp ht
  rw [HostInstr.declared, h i.val l hl, Option.map_some]

theorem Extends.isPrefix {ls ls' : Array Local} (h : Extends ls ls') :
    ls.toList <+: ls'.toList := by
  rw [List.prefix_iff_getElem?]
  intro i hi
  have hl : ls[i]? = some ls.toList[i] := by
    rw [← Array.getElem?_toList, List.getElem?_eq_getElem hi]
  rw [Array.getElem?_toList]
  exact h i _ hl

theorem declared_addLocal {f : Frame} {origin : LocalOrigin} {t : StackType}
    (h : f.locals.size < maxLocals) :
    HostInstr.declared (f.addLocal origin t h).locals ⟨f.locals.size, h⟩ = some t := by
  simp [HostInstr.declared, addLocal]

/-- No step of lowering takes a local back. -/
theorem extends_invariant (ls : Array Local) : TranscriptInvariant fun _ f => Extends ls f.locals where
  addLocal _ _ _ _ _ _ hf := hf.push _
  markStored _ _ _ hf := hf
  emit _ _ _ _ _ _ hf := hf
  drain _ _ hf := hf
  report _ _ _ hf := hf

/-! ### What allocation gives -/

/-- The second frame is the first one with more locals. -/
structure Frame.Grows (f g : Frame) : Prop where
  sound : g.SoundLocals
  keeps : Extends f.locals g.locals
  only : ∃ ls, g = { f with locals := ls }

namespace Frame

variable {f : Frame} {origin : LocalOrigin} {t : StackType}

theorem Grows.refl (hf : f.SoundLocals) : f.Grows f := ⟨hf, .refl _, f.locals, rfl⟩

theorem Grows.addLocal (hf : f.SoundLocals) (h : f.locals.size < maxLocals)
    (hm : f.MayAdd origin t) : f.Grows (f.addLocal origin t h) :=
  ⟨hf.addLocal h hm, (Extends.refl _).push _, _, rfl⟩

theorem getElem?_addLocal (h : f.locals.size < maxLocals) :
    (f.addLocal origin t h).locals[f.locals.size]? = some ⟨⟨f.locals.size, h⟩, t, origin⟩ :=
  Array.getElem?_push_size

/-- A register has a local in the end, unless the table is full. -/
theorem registerLocal_yields (hf : f.SoundLocals) (r : Register) (t : StackType) :
    Yields (registerLocal r t) f
      (fun i g => g.locals[i.val]? = some ⟨i, (StorageClass.of t).slotType, .register r⟩ ∧ f.Grows g)
      (· = .tooManyLocals maxLocals) := by
  rcases localFor_cases f (.register r) (StorageClass.of t).slotType with
    ⟨i, hi, h⟩ | ⟨hn, hlt, h⟩ | ⟨-, -, h⟩
  · exact Or.inl ⟨i, f, h, hf.getElem?_of_find hi, .refl hf⟩
  · exact Or.inl ⟨_, _, h, getElem?_addLocal hlt, .addLocal hf hlt (.register hn)⟩
  · exact Or.inr ⟨_, f, h, rfl⟩

/-- So does a scratch slot, shared or not. -/
theorem scratchLocal_yields (hf : f.SoundLocals) (t : StackType) (slot : UInt8) :
    Yields (scratchLocal t slot) f
      (fun i g => g.locals[i.val]? = some ⟨i, t, .scratch slot⟩ ∧ f.Grows g)
      (· = .tooManyLocals maxLocals) := by
  rcases scratchLocal_cases f t slot with ⟨-, i, hi, h⟩ | ⟨hn, hlt, h⟩ | ⟨-, -, h⟩
  · exact Or.inl ⟨i, f, h, hf.getElem?_of_find hi, .refl hf⟩
  · exact Or.inl ⟨_, _, h, getElem?_addLocal hlt, .addLocal hf hlt (.scratch hn)⟩
  · exact Or.inr ⟨_, f, h, rfl⟩

end Frame

/-- Finding the code of an operation only adds locals. -/
theorem Rule.plan_grows {r : Rule} {op : Operation} {f g : Frame} {is : List HostInstr}
    (hf : f.SoundLocals) (h : r.plan op f = .ok is g) :
    g.SoundLocals ∧ Extends f.locals g.locals :=
  ⟨(r.plan_keeps (sound_invariant.allocatable (H := [])) op).ok h hf,
    (r.plan_keeps ((extends_invariant f.locals).allocatable (H := [])) op).ok h (.refl _)⟩

end Devirt
