/-
# Recompiled integer code means what it meant

The registers of the virtual machine live in locals of the host. While the
64-bit locals of the registers hold them (`Agrees`), the code of an operation
takes the host where the operation takes the virtual machine (`Implements`):
the stacks stay equal word by word, a store into a home is a store into its
register and no other, and scratch locals are no homes.

The locals of a method are known only in the end, so the code of an operation
is followed in whatever sound table its locals end up in. What a register
holds before its home is allocated is in the home by then.

Key definitions: `Agrees`, `Implements`, `Frame.Runs`, `Follows`.
Key theorems: `Agrees.store`, `Rule.follows`, `Registry.default_lower_follows`,
`recompile_preserves_meaning`.
-/
import Devirt.Proofs.Dispatch
import Devirt.Proofs.Emission
import Devirt.Proofs.Integers
import Devirt.Proofs.Locals

namespace Devirt

open Devirt.Frame Lower HostInstr

/-! ### Registers in locals -/

/-- The 64-bit locals of registers hold them. -/
def Agrees (ls : Array Local) (registers : Register → BitVec 64) (σ : LocalIndex → Word) : Prop :=
  ∀ l ∈ ls, ∀ r, l.origin = .register r → l.type = .int64 → σ l.index = .qword (registers r)

/-- The register that a local was made for. -/
def LocalOrigin.register? : LocalOrigin → Option Register
  | .register r => some r
  | .scratch _ => none

/-- The local `i` is the 64-bit home of `r`. -/
def Frame.IsHome (F : Frame) (r : Register) (i : LocalIndex) : Prop :=
  F.locals[i.val]? = some ⟨i, .int64, .register r⟩

namespace Agrees

variable {F : Frame} {registers : Register → BitVec 64} {σ : LocalIndex → Word} {r : Register}
  {i : LocalIndex}

theorem load (hσ : Agrees F.locals registers σ) (hi : F.IsHome r i) :
    σ i = .qword (registers r) :=
  hσ _ (Array.mem_of_getElem? hi) r rfl rfl

/-- A store into the home of a register changes no other register. -/
theorem store (hF : F.SoundLocals) (hσ : Agrees F.locals registers σ) (hi : F.IsHome r i)
    (v : BitVec 64) :
    Agrees F.locals (Function.update registers r v) (Function.update σ i (.qword v)) := by
  have hmem := Array.mem_of_getElem? hi
  intro l hl r' ho ht
  by_cases hr : r' = r
  · subst hr
    have heq : l = ⟨i, .int64, .register r'⟩ := hF.unique hl hmem (by rw [ho]; trivial) ho ht
    rw [heq, Function.update_self, Function.update_self]
  · have hne : l.index ≠ i := by
      intro h
      have hl' := hF.getElem?_index hl
      rw [h, hi, Option.some.injEq] at hl'
      rw [← hl', LocalOrigin.register.injEq] at ho
      exact hr ho.symm
    rw [Function.update_of_ne hne, Function.update_of_ne hr]
    exact hσ l hl r' ho ht

/-- A store into a scratch local changes no register. -/
theorem scratch (hF : F.SoundLocals) (hσ : Agrees F.locals registers σ) {t : StackType}
    {slot : UInt8} (hi : F.locals[i.val]? = some ⟨i, t, .scratch slot⟩) (v : Word) :
    Agrees F.locals registers (Function.update σ i v) := by
  intro l hl r' ho ht
  have hne : l.index ≠ i := by
    intro h
    have hl' := hF.getElem?_index hl
    rw [h, hi, Option.some.injEq] at hl'
    rw [← hl'] at ho
    cases ho
  rw [Function.update_of_ne hne]
  exact hσ l hl r' ho ht

/-- Any registers can be put into the locals. -/
theorem exists_locals (hF : F.SoundLocals) (registers : Register → BitVec 64) :
    ∃ σ, Agrees F.locals registers σ := by
  refine ⟨fun i => ((F.locals[i.val]?).bind fun l => l.origin.register?).elim (.dword 0) fun r =>
    .qword (registers r), ?_⟩
  intro l hl r ho _
  simp [hF.getElem?_index hl, ho, LocalOrigin.register?]

end Agrees

/-! ### Code that does what the virtual machine does -/

/-- With the locals of `F`, the code takes the host along with the virtual
machine, which changes no register that has no local. -/
structure Implements (F : Frame) (is : List HostInstr) (s s' : VmState) : Prop where
  run : ∀ σ, Agrees F.locals s.registers σ → ∃ σ',
    HostState.run Word.hostOps (declared F.locals) is ⟨s.stack, σ⟩ = some ⟨s'.stack, σ'⟩ ∧
      Agrees F.locals s'.registers σ'
  untouched : ∀ r, (∀ l ∈ F.locals, l.origin ≠ .register r) → s'.registers r = s.registers r

namespace Implements

variable {F : Frame} {is js : List HostInstr} {s s' s'' : VmState}

theorem nil (F : Frame) (s : VmState) : Implements F [] s s where
  run σ hσ := ⟨σ, rfl, hσ⟩
  untouched _ _ := rfl

theorem append (h : Implements F is s s') (h' : Implements F js s' s'') :
    Implements F (is ++ js) s s'' where
  run σ hσ := by
    obtain ⟨σ', hrun, hσ'⟩ := h.run σ hσ
    obtain ⟨σ'', hrun', hσ''⟩ := h'.run σ' hσ'
    refine ⟨σ'', ?_, hσ''⟩
    rw [HostState.run_append, hrun, Option.bind_some, hrun']
  untouched r hr := (h'.untouched r hr).trans (h.untouched r hr)

/-- Code that touches no local. -/
theorem of_run (hr : s'.registers = s.registers)
    (h : ∀ σ, HostState.run Word.hostOps (declared F.locals) is ⟨s.stack, σ⟩ = some ⟨s'.stack, σ⟩) :
    Implements F is s s' where
  run σ hσ := ⟨σ, h σ, hr ▸ hσ⟩
  untouched r _ := by rw [hr]

/-- The types of the code are those of the words. -/
theorem replay (hF : F.SoundLocals) (h : Implements F is s s') :
    replay (declared F.locals) is (s.stack.map Word.type) = some (s'.stack.map Word.type) := by
  obtain ⟨σ, hσ⟩ := Agrees.exists_locals hF s.registers
  obtain ⟨σ', hrun, -⟩ := h.run σ hσ
  exact HostState.run_replay Word.hostOps_typed hrun

theorem IsHome.declared {r : Register} {i : LocalIndex} (hi : F.IsHome r i) :
    HostInstr.declared F.locals i = some .int64 := by
  rw [HostInstr.declared, hi, Option.map_some]

/-- Reading a register is loading its home. -/
theorem read {r : Register} {i : LocalIndex} (hi : F.IsHome r i) :
    Implements F [.loadLocal i] s (s.push (.qword (s.registers r))) where
  run σ hσ := by
    refine ⟨σ, ?_, hσ⟩
    have hload := hσ.load hi
    simp [HostState.run, HostState.exec, IsHome.declared hi, hload, HostState.push, VmState.push,
      Word.hostOps, Word.type]
  untouched _ _ := rfl

/-- Reading a part of a register converts what was loaded. -/
theorem readLow {r : Register} {i : LocalIndex} (hi : F.IsHome r i) {conv : Conversion} {n : Nat}
    (hconv : ∀ v, Word.convert conv (.qword v) = some (.dword (Word.low n v))) :
    Implements F [.loadLocal i, .convert conv] s (s.push (.dword (Word.low n (s.registers r)))) := by
  have hnarrow : Implements F [.convert conv] (s.push (.qword (s.registers r)))
      (s.push (.dword (Word.low n (s.registers r)))) := by
    refine .of_run rfl fun σ => ?_
    simp [HostState.run, HostState.exec, HostState.onTop, VmState.push, Word.hostOps, hconv]
  exact (Implements.read hi).append hnarrow

/-- Storing a register is storing its home, a 32-bit word widened. -/
theorem write (hF : F.SoundLocals) {r : Register} {i : LocalIndex} (hi : F.IsHome r i) {v : Word}
    {rest : List Word} (hs : s.stack = v :: rest) :
    Implements F (Plan.storeInto v.type i) s
      ⟨Function.update s.registers r v.zeroExtend, rest⟩ where
  run σ hσ := by
    refine ⟨_, ?_, hσ.store hF hi v.zeroExtend⟩
    rcases v with a | a
    · rw [show Plan.storeInto (Word.type (.dword a)) i = [.convert .u8, .storeLocal i] from rfl]
      simp [HostState.run, HostState.exec, HostState.onTop, HostState.store, hs, Word.hostOps,
        Word.convert, Word.type, IsHome.declared hi]
    · rw [show Plan.storeInto (Word.type (.qword a)) i = [.storeLocal i] from rfl]
      simp [HostState.run, HostState.exec, HostState.store, hs, Word.hostOps, Word.type,
        IsHome.declared hi, Word.zeroExtend]
  untouched r' hr' := by
    have hne : r' ≠ r := fun h => hr' _ (Array.mem_of_getElem? hi) (by rw [h])
    exact Function.update_of_ne hne _ _

theorem arith {op : ArithOp} {a b v : Word} {rest : List Word} (hs : s.stack = b :: a :: rest)
    (hv : Word.arith op a b = some v) :
    Implements F [.arith op] s { s with stack := v :: rest } := by
  refine .of_run rfl fun σ => ?_
  simp [HostState.run, HostState.exec, HostState.onTwo, hs, Word.hostOps, hv]

theorem not {a v : Word} {rest : List Word} (hs : s.stack = a :: rest)
    (hv : Word.unary .not a = some v) :
    Implements F [.unary .not] s { s with stack := v :: rest } := by
  refine .of_run rfl fun σ => ?_
  simp [HostState.run, HostState.exec, HostState.onTop, hs, Word.hostOps, hv]

/-- NOR is OR and then a complement. -/
theorem nor {a b u v : Word} {rest : List Word} (hs : s.stack = b :: a :: rest)
    (hu : Word.arith .or a b = some u) (hv : Word.unary .not u = some v) :
    Implements F [.arith .or, .unary .not] s { s with stack := v :: rest } :=
  (Implements.arith hs hu).append (Implements.not (s := { s with stack := u :: rest }) rfl hv)

/-- A comparison leaves its operands in scratch locals, which no register
lives in. -/
theorem compare (hF : F.SoundLocals) {lhs rhs : LocalIndex} {t : StackType}
    (hl : F.locals[lhs.val]? = some ⟨lhs, t, .scratch 0⟩)
    (hr : F.locals[rhs.val]? = some ⟨rhs, t, .scratch 1⟩) {a b v : Word} {rest : List Word}
    (hs : s.stack = b :: a :: rest) (ha : a.type = t) (hb : b.type = t)
    (hv : ((Word.compare .gt a b).bind fun x => (Word.compare .lt a b).bind fun y =>
      Word.arith .sub x y) = some v) :
    Implements F (Lowering.signOfDifference lhs rhs) s { s with stack := v :: rest } where
  run σ hσ := by
    have hne : lhs ≠ rhs := by
      intro h
      rw [h, hr, Option.some.injEq, Local.mk.injEq, LocalOrigin.scratch.injEq] at hl
      exact absurd hl.2.2 (by decide)
    have hla : declared F.locals lhs = some (Word.hostOps.typeOf a) := by
      rw [declared, hl, Option.map_some, ← ha]
      rfl
    have hrb : declared F.locals rhs = some (Word.hostOps.typeOf b) := by
      rw [declared, hr, Option.map_some, ← hb]
      rfl
    refine ⟨_, ?_, (hσ.scratch hF hr b).scratch hF hl a⟩
    rw [hs, HostState.run_signOfDifference hne hla hrb]
    exact congrArg (Option.map _) hv
  untouched _ _ := rfl

end Implements

/-! ### The plan of each rule -/

/-- The frame stands where the virtual machine does. -/
structure Frame.Runs (s : VmState) (f : Frame) : Prop where
  sound : f.SoundLocals
  types : f.stack.types = s.stack.map Word.type
  floats : f.floats = []
  room : f.stack.types.length ≤ f.limit
  pending : f.pending = #[]

/-- The code that is found does what the virtual machine does, whatever locals
come later, or there is no room for a local. -/
def Follows (x : Lower (List HostInstr)) (f : Frame) (s s' : VmState) : Prop :=
  Yields x f
    (fun is g => g.floats = [] ∧
      ∀ F : Frame, F.SoundLocals → Extends g.locals F.locals → Implements F is s s')
    (· = .tooManyLocals maxLocals)

theorem Follows.of_pure {f : Frame} {s s' : VmState} (hf : f.floats = []) {is : List HostInstr}
    (h : ∀ F : Frame, F.SoundLocals → Extends f.locals F.locals → Implements F is s s') :
    Follows (pure is) f s s' :=
  Yields.pure ⟨hf, h⟩

section Rules

variable {f : Frame} {s s' : VmState} (hf : f.Runs s)

include hf

theorem depth_eq_length : f.stack.depth = s.stack.length := by
  rw [f.stack.depth_eq, hf.types, List.length_map]

theorem follows_home (r : Register) {t : StackType} (ht : StorageClass.of t = .integral)
    {k : LocalIndex → List HostInstr}
    (hk : ∀ (F : Frame) (home : LocalIndex), F.IsHome r home → Implements F (k home) s s') :
    Follows (do return k (← registerLocal r t)) f s s' := by
  refine Yields.bind (registerLocal_yields hf.sound r t) fun home g ⟨hhome, hg⟩ => ?_
  obtain ⟨ls, rfl⟩ := hg.only
  rw [ht] at hhome
  exact Follows.of_pure (f := { f with locals := ls }) hf.floats fun F _ hext =>
    hk F home (hext _ _ hhome)

theorem follows_read (r : Register) {w : Width} (hw : w.isIntegral = true)
    {k : LocalIndex → List HostInstr}
    (hcode : ∀ home, k home = .loadLocal home :: (w.narrowing?.map HostInstr.convert).toList)
    (hk : ∀ (F : Frame) (home : LocalIndex), F.IsHome r home → Implements F (k home) s s') :
    Follows (Plan.pushRegister w r) f s s' := by
  refine .bind_ok (a := f) (g := f) rfl ?_
  have hfl : f.holdsFloat r = false := by simp [holdsFloat, hf.floats]
  have hclass : StorageClass.of (.ofWidth w) = .integral := by
    cases w <;> first | rfl | cases hw
  have h := follows_home hf r hclass hk
  simp only [hcode] at h
  simpa [Follows, hfl] using h

theorem follows_store (r : Register) (hstep : s.store r = some s') :
    Follows (Plan.pop (.register r)) f s s' := by
  unfold VmState.store at hstep
  split at hstep
  · rename_i v rest hs
    cases hstep
    have hpeek : peek 0 f = .ok v.type f := peek_eq_ok.mpr ⟨by simp [hf.types, hs], rfl⟩
    have hclass : StorageClass.of v.type = .integral := by cases v <;> rfl
    have hfloat : v.type ≠ .float := by cases v <;> simp [Word.type]
    refine .bind_ok hpeek ?_
    rw [storeRegister, bind_assoc]
    refine Yields.bind (registerLocal_yields hf.sound r v.type) fun home g ⟨hhome, hg⟩ => ?_
    obtain ⟨ls, rfl⟩ := hg.only
    rw [hclass] at hhome
    have hmark : markStored r v.type { f with locals := ls } = .ok () { f with locals := ls } := by
      simp [markStored, hfloat, hf.floats]
    rw [bind_assoc]
    refine .bind_ok hmark ?_
    rw [pure_bind]
    exact Follows.of_pure (f := { f with locals := ls }) hf.floats fun F hF hext =>
      .write hF (hext _ _ hhome) hs
  · cases hstep

theorem follows_chain (c : Chain) (hlen : c.operandCount ≤ s.stack.length)
    (h : ∀ F : Frame, Implements F c.sequence s s') : Follows (Plan.chain c) f s s' :=
  .bind_ok (require_eq_ok.mpr ⟨depth_eq_length hf ▸ hlen, rfl⟩)
    (Follows.of_pure hf.floats fun F _ _ => h F)

/-- The comparison of two words of type `t`, at the type that it finds. -/
theorem follows_compare (width : Option Width) {t : StackType} (hnum : t ≠ .object)
    (ht : width.elim (.binaryResult t t) .ofWidth = t) {a b v : Word} {rest : List Word}
    (hs : s.stack = b :: a :: rest) (ha : a.type = t) (hb : b.type = t)
    (hv : ((Word.compare .gt a b).bind fun x => (Word.compare .lt a b).bind fun y =>
      Word.arith .sub x y) = some v) :
    Follows (Plan.compare width) f s { s with stack := v :: rest } := by
  have htypes : f.stack.types = t :: t :: rest.map Word.type := by simp [hf.types, hs, ha, hb]
  refine Yields.congr (Plan.compare_numbers htypes hnum hnum) ?_
  rw [ht]
  refine Yields.bind (scratchLocal_yields hf.sound t 0) fun lhs g ⟨hl, hg⟩ => ?_
  refine Yields.bind (scratchLocal_yields hg.sound t 1) fun rhs g' ⟨hr, hg'⟩ => ?_
  obtain ⟨ls, rfl⟩ := hg.only
  obtain ⟨ls', rfl⟩ := hg'.only
  exact Follows.of_pure (f := { f with locals := ls' }) hf.floats fun F hF hext =>
    .compare hF (hext _ _ (hg'.keeps _ _ hl)) (hext _ _ hr) hs ha hb hv

/-- A chain on two operands of 32 bits. -/
theorem follows_dwords {k : BitVec 32 → BitVec 32 → Word} (hstep : s.dwords k = some s') (c : Chain)
    (h2 : c.operandCount = 2)
    (h : ∀ (F : Frame) a b rest, s.stack = .dword b :: .dword a :: rest →
      Implements F c.sequence s { s with stack := k a b :: rest }) :
    Follows (Plan.chain c) f s s' := by
  obtain ⟨a, b, rest, hs, rfl⟩ := VmState.dwords_eq_some hstep
  exact follows_chain hf c (by simp [h2, hs]) fun F => h F a b rest hs

/-- A chain on two operands of 64 bits. -/
theorem follows_qwords {k : BitVec 64 → BitVec 64 → Word} (hstep : s.qwords k = some s') (c : Chain)
    (h2 : c.operandCount = 2)
    (h : ∀ (F : Frame) a b rest, s.stack = .qword b :: .qword a :: rest →
      Implements F c.sequence s { s with stack := k a b :: rest }) :
    Follows (Plan.chain c) f s s' := by
  obtain ⟨a, b, rest, hs, rfl⟩ := VmState.qwords_eq_some hstep
  exact follows_chain hf c (by simp [h2, hs]) fun F => h F a b rest hs

theorem follows_compare_dwords (width : Option Width)
    (ht : width.elim (StackType.binaryResult .int32 .int32) StackType.ofWidth = .int32)
    (hstep : (s.dwords fun a b => .dword (signBits a b)) = some s') :
    Follows (Plan.compare width) f s s' := by
  obtain ⟨a, b, rest, hs, rfl⟩ := VmState.dwords_eq_some hstep
  exact follows_compare hf width (t := .int32) (by simp) ht hs rfl rfl (Word.sub_compareBits a b)

theorem follows_compare_qwords (width : Option Width)
    (ht : width.elim (StackType.binaryResult .int64 .int64) StackType.ofWidth = .int64)
    (hstep : (s.qwords fun a b => .dword (signBits a b)) = some s') :
    Follows (Plan.compare width) f s s' := by
  obtain ⟨a, b, rest, hs, rfl⟩ := VmState.qwords_eq_some hstep
  exact follows_compare hf width (t := .int64) (by simp) ht hs rfl rfl (Word.sub_compareBits a b)

theorem follows_drop (hstep : s.drop = some s') : Follows (Plan.pop .none) f s s' := by
  unfold VmState.drop at hstep
  split at hstep
  · rename_i v rest hs
    cases hstep
    refine Follows.of_pure hf.floats fun F _ _ => .of_run rfl fun σ => ?_
    simp [HostState.run, HostState.exec, hs]
  · cases hstep

theorem follows_not (hstep : s.complement = some s') : Follows (Plan.chain .not) f s s' := by
  unfold VmState.complement at hstep
  split at hstep
  · rename_i a rest hs
    cases hstep
    exact follows_chain hf .not (by simp [Chain.not, hs]) fun F => .not hs rfl
  · cases hstep

/-- Every operation of the fragment. -/
theorem Rule.follows {op : Operation} (hstep : s.step op = some s') :
    ∃ r, op.code.defaultRule? = some r ∧ Follows (r.plan op) f s s' := by
  cases op with
  | plain c arg =>
    cases c with
    | pushiDword =>
      cases arg <;> cases hstep
      exact ⟨.push, rfl, .of_pure hf.floats fun F _ _ => .of_run rfl fun σ => rfl⟩
    | pushiQword =>
      cases arg <;> cases hstep
      exact ⟨.push, rfl, .of_pure hf.floats fun F _ _ => .of_run rfl fun σ => rfl⟩
    | pushrByte =>
      cases arg <;> cases hstep
      exact ⟨.push, rfl, follows_read hf _ rfl (fun _ => rfl) fun F _ hi => .readLow hi fun _ => rfl⟩
    | pushrWord =>
      cases arg <;> cases hstep
      exact ⟨.push, rfl, follows_read hf _ rfl (fun _ => rfl) fun F _ hi => .readLow hi fun _ => rfl⟩
    | pushrDword =>
      cases arg <;> cases hstep
      exact ⟨.push, rfl, follows_read hf _ rfl (fun _ => rfl) fun F _ hi => .readLow hi fun _ => rfl⟩
    | pushrQword =>
      cases arg <;> cases hstep
      exact ⟨.push, rfl, follows_read hf _ rfl (fun _ => rfl) fun F _ hi => .read hi⟩
    | pop =>
      cases arg with
      | none => exact ⟨.pop, rfl, follows_drop hf hstep⟩
      | register r => exact ⟨.pop, rfl, follows_store hf r hstep⟩
      | dword | qword => cases hstep
    | addDword | subDword | orDword | andDword | xorDword =>
      exact ⟨_, rfl, follows_dwords hf hstep _ rfl fun F a b rest hs => .arith hs rfl⟩
    | addQword => exact ⟨_, rfl, follows_qwords hf hstep .add rfl fun F a b rest hs => .arith hs rfl⟩
    | norDword =>
      exact ⟨_, rfl, follows_dwords hf hstep .nor rfl fun F a b rest hs => .nor hs rfl rfl⟩
    | norQword =>
      exact ⟨_, rfl, follows_qwords hf hstep .nor rfl fun F a b rest hs => .nor hs rfl rfl⟩
    | notDword => exact ⟨_, rfl, follows_not hf hstep⟩
    | cmpDword => exact ⟨.compare, rfl, follows_compare_dwords hf (some .dword) rfl hstep⟩
    | cmpQword => exact ⟨.compare, rfl, follows_compare_qwords hf (some .qword) rfl hstep⟩
    | cmp =>
      rcases Option.or_eq_some_iff.mp hstep with h | ⟨-, h⟩
      · exact ⟨.compare, rfl, follows_compare_dwords hf none rfl h⟩
      · exact ⟨.compare, rfl, follows_compare_qwords hf none rfl h⟩
    | _ => cases hstep
  | intrinsic call arg => cases hstep

end Rules

/-! ### Instructions and bodies -/

/-- The only causes for which an instruction of the fragment is refused where
the virtual machine runs it. -/
def NoRoom (limit : Nat) (c : Cause) : Prop := c = .overflow limit ∨ c = .tooManyLocals maxLocals

/-- What one instruction preserves. -/
theorem Registry.default_lower_follows {f : Frame} {s s' : VmState} (hf : f.Runs s) {i : Instr}
    (hstep : s.step i.operation = some s') :
    (∃ code g, Registry.default.lower i f = .ok code g ∧ g.Runs s' ∧ g.limit = f.limit ∧
      Extends f.locals g.locals ∧
      ∀ F : Frame, F.SoundLocals → Extends g.locals F.locals → Implements F code.toList s s') ∨
    (∃ fault g, Registry.default.lower i f = .error fault g ∧ NoRoom f.limit fault.cause) := by
  obtain ⟨r, hr, hplan⟩ := Rule.follows hf hstep
  rw [default_lower hr]
  cases hlower : r.lower i f with
  | ok code g =>
    obtain ⟨f', hok', ho, hs, ⟨st, l, rfl⟩, hwithin⟩ := Rule.lower_eq_plan hf.room hf.pending hlower
    rcases hplan with ⟨is, k, hok, hfl, himpl⟩ | ⟨_, k, herr, rfl⟩
    · cases hok.symm.trans hok'
      obtain ⟨hg, hext⟩ := Rule.plan_grows hf.sound hok
      have hlimit : f'.limit = f.limit := congrArg Options.maxStackDepth ho
      have hreplay := (himpl f' hg (Extends.refl _)).replay hg
      have hroom : st.types.length ≤ f'.limit := by
        rw [hlimit]
        exact length_le_of_replayWithin hf.room hwithin
      rw [hf.types] at hwithin
      have htypes : st.types = s'.stack.map Word.type :=
        Option.some.inj ((replay_of_replayWithin hwithin).symm.trans hreplay)
      exact Or.inl ⟨code, _, rfl, ⟨⟨hg.index_eq, hg.find_eq, hg.slotType⟩, htypes, hfl, hroom, rfl⟩,
        hlimit, hext, himpl⟩
    · cases herr.symm.trans hok'
  | error fault g =>
    obtain ⟨c, hemit, rfl⟩ := Rule.lower_eq_error.mp hlower
    rw [Rule.emit_eq] at hemit
    refine Or.inr ⟨⟨i.code, c⟩, g, rfl, ?_⟩
    rcases hplan with ⟨is, k, hok, -, himpl⟩ | ⟨_, k, herr, rfl⟩
    · -- the code was found and has types, so only a full stack refuses it
      rw [bind_of_ok hok] at hemit
      obtain ⟨ho, hs, -⟩ := Rule.plan_eq_ok hok
      have hlimit : k.limit = f.limit := congrArg Options.maxStackDepth ho
      obtain ⟨hk, -⟩ := Rule.plan_grows hf.sound hok
      have hreplay := (himpl k hk (Extends.refl _)).replay hk
      rw [← hf.types, ← hs] at hreplay
      have hroom : k.stack.types.length ≤ k.limit := by
        rw [hs, hlimit]
        exact hf.room
      exact Or.inl (hlimit ▸ overflow_of_emitAll hroom hreplay hemit)
    · rw [bind_of_error herr] at hemit
      cases hemit
      exact Or.inr rfl

/-- What a whole body preserves. -/
theorem Registry.default_assemble_follows : ∀ (body : List Instr) (a : Assembly) {f : Frame}
    {s s' : VmState}, f.Runs s → VmState.run body s = some s' →
    (∃ a' g is, Registry.default.assemble body a f = (.ok a', g) ∧
      a'.instructions.toList = a.instructions.toList ++ is ∧ g.SoundLocals ∧
      Extends f.locals g.locals ∧ Implements g is s s') ∨
    (∃ e g, Registry.default.assemble body a f = (.error e, g) ∧ NoRoom f.limit e.fault.cause)
  | [], a, f, s, s', hf, hrun => by
    cases hrun
    exact Or.inl ⟨a, f, [], rfl, (List.append_nil _).symm, hf.sound, Extends.refl _, .nil f s⟩
  | i :: rest, a, f, s, s', hf, hrun => by
    obtain ⟨u, hu, hrest⟩ := Option.bind_eq_some_iff.mp hrun
    rw [assemble]
    rcases default_lower_follows hf hu with
      ⟨code, g, hok, hg, hlimit, hext, himpl⟩ | ⟨fault, g, herr, hcause⟩
    · rw [hok]
      rcases default_assemble_follows rest (a.append i.offset code) hg hrest with
        ⟨a', F, is, ha, his, hF, hext', himpl'⟩ | ⟨e, F, ha, hcause⟩
      · refine Or.inl ⟨a', F, code.toList ++ is, ha, ?_, hF, hext.trans hext',
          (himpl F hF hext').append himpl'⟩
        rw [his]
        simp [Assembly.append]
      · exact Or.inr ⟨e, F, ha, hlimit ▸ hcause⟩
    · rw [herr]
      exact Or.inr ⟨_, g, rfl, hcause⟩

/-- Wherever the virtual machine runs a body, so does the host run the method
made of it: its locals can hold the registers, and from any that do, the method
leaves the same words on the stack and the registers in their locals. A register
without a local is as it was. The body is refused for want of room at most. -/
theorem recompile_preserves_meaning (o : Options) (body : List Instr)
    (registers : Register → BitVec 64) (s : VmState)
    (hrun : VmState.run body ⟨registers, []⟩ = some s) :
    (∀ m, (Registry.default.recompile o body).result = .ok m →
      (∃ σ, Agrees m.locals registers σ) ∧
      (∀ σ, Agrees m.locals registers σ → ∃ σ',
        HostState.run Word.hostOps (declared m.locals) m.instructions.toList ⟨[], σ⟩ =
          some ⟨s.stack, σ'⟩ ∧ Agrees m.locals s.registers σ') ∧
      ∀ r, (∀ l ∈ m.locals, l.origin ≠ .register r) → s.registers r = registers r) ∧
    ∀ e, (Registry.default.recompile o body).result = .error e →
      e.fault.cause = .overflow o.maxStackDepth ∨ e.fault.cause = .tooManyLocals maxLocals := by
  have hstart : (Frame.start o).Runs ⟨registers, []⟩ := ⟨.start o, rfl, rfl, Nat.zero_le _, rfl⟩
  have hbody := Registry.default_assemble_follows body {} hstart hrun
  constructor
  · intro m hm
    obtain ⟨a, f, ha, hi, hl, -, -⟩ := Registry.recompile_eq_ok hm
    rw [ha] at hbody
    rcases hbody with ⟨a', g, is, heq, his, hg, -, himpl⟩ | ⟨e, g, heq, -⟩
    · cases heq
      rw [hi, hl, his]
      exact ⟨Agrees.exists_locals hg registers, himpl.run, himpl.untouched⟩
    · cases heq
  · intro e he
    unfold Registry.recompile at he
    rcases hbody with ⟨a', g, is, heq, -⟩ | ⟨e', g, heq, hcause⟩
    · rw [heq] at he
      cases he
    · rw [heq] at he
      cases he
      exact hcause

/-- The lowest byte of -1, zero-extended, against -1 itself. -/
def byteAgainstWhole : List Instr :=
  [⟨0, .plain .pushiDword (.dword 0xFFFFFFFF)⟩, ⟨5, .plain .pop (.register .r1)⟩,
    ⟨7, .plain .pushrByte (.register .r1)⟩, ⟨9, .plain .pushrDword (.register .r1)⟩,
    ⟨11, .plain .cmp .none⟩]

theorem recompile_preserves_meaning_byteAgainstWhole :
    ∃ s m σ σ', VmState.run byteAgainstWhole ⟨fun _ => 0, []⟩ = some s ∧ s.stack = [.dword 1] ∧
      (Registry.default.recompile {} byteAgainstWhole).result = .ok m ∧
      Agrees m.locals (fun _ => 0) σ ∧ Agrees m.locals s.registers σ' ∧
      HostState.run Word.hostOps (declared m.locals) m.instructions.toList ⟨[], σ⟩ =
        some ⟨s.stack, σ'⟩ := by
  have hok : (Registry.default.recompile {} byteAgainstWhole).result.toOption.isSome = true := by
    decide +kernel
  cases hm : (Registry.default.recompile {} byteAgainstWhole).result with
  | error e =>
    rw [hm] at hok
    cases hok
  | ok m =>
    obtain ⟨⟨σ, hσ⟩, hrun, -⟩ :=
      (recompile_preserves_meaning {} byteAgainstWhole (fun _ => 0) _ rfl).1 m hm
    obtain ⟨σ', hhost, hσ'⟩ := hrun σ hσ
    exact ⟨_, m, σ, σ', rfl, by decide, rfl, hσ, hσ', hhost⟩

end Devirt
