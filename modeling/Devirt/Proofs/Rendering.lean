/-
# What host code an operation has

A rule that succeeds has found one of few shapes of code. Which one depends on
the operation, on the types on the stack and on what the registers hold; the
locals it names are those that the table has for these (`Rule.Renders`). This
is everything a rule can do: an invariant of recompiled code is a case analysis
over the shapes, and no proof need look into a rule again.

Key definitions: `Backs`, `IsScratch`, `narrowing`, `HostInstr.Names`,
`Frame.typing`, `Rule.Renders`.
Key theorems: `Rule.plan_renders`, `Rule.lower_renders`,
`Rule.Renders.mono`, `Rule.Renders.of_read`, `Rule.Renders.of_store`,
`Rule.Renders.of_names`.
-/
import Devirt.Proofs.Emission
import Devirt.Proofs.Locals
import Devirt.Proofs.Typing

namespace Devirt

open Devirt.Frame Lower

/-! ### Locals by what they are for -/

/-- The local `i` backs `r` for values of class `c`. -/
def Backs (ls : Array Local) (r : Register) (c : StorageClass) (i : LocalIndex) : Prop :=
  ls[i.val]? = some ⟨i, c.slotType, .register r⟩

/-- The local `i` is scratch for values of type `t`. -/
def IsScratch (ls : Array Local) (slot : UInt8) (t : StackType) (i : LocalIndex) : Prop :=
  ls[i.val]? = some ⟨i, t, .scratch slot⟩

section Tables

variable {ls ls' : Array Local} {r : Register} {c : StorageClass} {i : LocalIndex}

theorem Backs.mono (h : Backs ls r c i) (hext : Extends ls ls') : Backs ls' r c i := hext _ _ h

theorem IsScratch.mono {slot : UInt8} {t : StackType} (h : IsScratch ls slot t i)
    (hext : Extends ls ls') : IsScratch ls' slot t i := hext _ _ h

theorem IsScratch.declared {slot : UInt8} {t : StackType} (h : IsScratch ls slot t i) :
    HostInstr.declared ls i = some t := by
  rw [HostInstr.declared, h, Option.map_some]

theorem Backs.declared (h : Backs ls r c i) : HostInstr.declared ls i = some c.slotType := by
  rw [HostInstr.declared, h, Option.map_some]

theorem Backs.lt_size (h : Backs ls r c i) : i.val < ls.size :=
  (Array.getElem?_eq_some_iff.mp h).1

theorem IsScratch.lt_size {slot : UInt8} {t : StackType} (h : IsScratch ls slot t i) :
    i.val < ls.size :=
  (Array.getElem?_eq_some_iff.mp h).1

/-- A local is of one class. -/
theorem Backs.class_unique {r' : Register} {c' : StorageClass} (h : Backs ls r c i)
    (h' : Backs ls r' c' i) : c = c' := by
  have hl := Option.some.inj (h.symm.trans h')
  rw [Local.mk.injEq] at hl
  have hclass := congrArg StorageClass.of hl.2.1
  rwa [StorageClass.of_slotType, StorageClass.of_slotType] at hclass

/-- Of each register and class there is one local. -/
theorem Frame.SoundLocals.backs_unique {f : Frame} (hf : f.SoundLocals) {j : LocalIndex}
    (hi : Backs f.locals r c i) (hj : Backs f.locals r c j) : i = j := by
  have h : (⟨i, c.slotType, .register r⟩ : Local) = ⟨j, c.slotType, .register r⟩ :=
    hf.unique (Array.mem_of_getElem? hi) (Array.mem_of_getElem? hj) trivial rfl rfl
  rw [Local.mk.injEq] at h
  exact h.1

end Tables

/-! ### Shapes of code -/

/-- What cuts a value of class `c` down to the width `w` that it is read at. -/
def narrowing : StorageClass → Width → List HostInstr
  | .integral, w => (w.narrowing?.map HostInstr.convert).toList
  | _, _ => []

theorem storeLocal_notMem_narrowing (c : StorageClass) (w : Width) (i : LocalIndex) :
    .storeLocal i ∉ narrowing c w := by
  cases c <;> cases w <;> simp [narrowing, Width.narrowing?]

theorem loadLocal_notMem_narrowing (c : StorageClass) (w : Width) (i : LocalIndex) :
    .loadLocal i ∉ narrowing c w := by
  cases c <;> cases w <;> simp [narrowing, Width.narrowing?]

/-- Storing a value ends with the one store there is. -/
theorem storeInto_eq (top : StackType) (home : LocalIndex) :
    ∃ widen : List Conversion, Plan.storeInto top home =
      widen.map HostInstr.convert ++ [.storeLocal home] := by
  unfold Plan.storeInto
  split
  · exact ⟨[.u8], rfl⟩
  · exact ⟨[], rfl⟩

theorem mem_storeInto {top : StackType} {home i : LocalIndex} :
    .storeLocal i ∈ Plan.storeInto top home ↔ i = home := by
  obtain ⟨widen, h⟩ := storeInto_eq top home
  simp [h]

theorem loadLocal_notMem_storeInto (top : StackType) (home i : LocalIndex) :
    .loadLocal i ∉ Plan.storeInto top home := by
  obtain ⟨widen, h⟩ := storeInto_eq top home
  simp [h]

theorem storeLocal_mem_signOfDifference {lhs rhs i : LocalIndex} :
    .storeLocal i ∈ Lowering.signOfDifference lhs rhs ↔ i = rhs ∨ i = lhs := by
  simp [Lowering.signOfDifference]

theorem loadLocal_mem_signOfDifference {lhs rhs i : LocalIndex} :
    .loadLocal i ∈ Lowering.signOfDifference lhs rhs ↔ i = lhs ∨ i = rhs := by
  simp only [Lowering.signOfDifference, List.mem_cons, List.not_mem_nil, reduceCtorEq,
    HostInstr.loadLocal.injEq, false_or, or_false]
  rw [← or_assoc, or_self]

/-- The instruction loads or stores the local. -/
def HostInstr.Names (x : HostInstr) (i : LocalIndex) : Prop :=
  x = .loadLocal i ∨ x = .storeLocal i

theorem not_names_narrowing {c : StorageClass} {w : Width} {x : HostInstr} (h : x ∈ narrowing c w)
    (i : LocalIndex) : ¬ x.Names i := by
  rintro (rfl | rfl)
  · exact loadLocal_notMem_narrowing c w i h
  · exact storeLocal_notMem_narrowing c w i h

theorem names_of_mem_storeInto {top : StackType} {home i : LocalIndex} {x : HostInstr}
    (hx : x ∈ Plan.storeInto top home) (hn : x.Names i) : x = .storeLocal i ∧ i = home := by
  rcases hn with rfl | rfl
  · exact absurd hx (loadLocal_notMem_storeInto top home i)
  · exact ⟨rfl, mem_storeInto.mp hx⟩

theorem names_of_mem_signOfDifference {lhs rhs i : LocalIndex} {x : HostInstr}
    (hx : x ∈ Lowering.signOfDifference lhs rhs) (hn : x.Names i) : i = lhs ∨ i = rhs := by
  rcases hn with rfl | rfl
  · exact loadLocal_mem_signOfDifference.mp hx
  · exact (storeLocal_mem_signOfDifference.mp hx).symm

/-- The typing of the decoded code that a frame stands at. -/
def Frame.typing (f : Frame) : Typing where
  stack := f.stack.types
  floats := Finset.univ.filter fun r => f.holdsFloat r = true

theorem Frame.mem_floats_typing {f : Frame} {r : Register} :
    r ∈ f.typing.floats ↔ f.holdsFloat r = true := by
  simp [Frame.typing]

/-- With the locals `ls`, the rule has this code for the operation that meets
the typing `s`. -/
inductive Rule.Renders (s : Typing) (ls : Array Local) :
    Rule → Operation → List HostInstr → Prop where
  | dword (v : UInt32) :
    Renders s ls .push (.plain .pushiDword (.dword v)) [.loadInt32 v.toInt32]
  | qword (v : UInt64) :
    Renders s ls .push (.plain .pushiQword (.qword v)) [.loadInt64 v.toInt64]
  /-- A register is read from the local of the class that it is read as. -/
  | read {c : Opcode} {w : Width} {r : Register} {i : LocalIndex}
      (hc : c.pushForm? = some (.register w)) (hi : Backs ls r (s.readClass w r) i)
      (hw : s.readClass w r = .float → w = .dword ∨ w = .qword) :
    Renders s ls .push (.plain c (.register r)) (.loadLocal i :: narrowing (s.readClass w r) w)
  | discard : Renders s ls .pop (.plain .pop .none) [.pop]
  /-- A register is stored to the local of the class of what is stored. -/
  | store {r : Register} {top : StackType} {rest : List StackType} {i : LocalIndex}
      (hs : s.stack = top :: rest) (hi : Backs ls r (.of top) i) :
    Renders s ls .pop (.plain .pop (.register r)) (Plan.storeInto top i)
  /-- Two numbers are compared by way of two scratch locals. -/
  | numbers {c : Opcode} {arg : Operand} {t : StackType} {lhs rhs : LocalIndex}
      (ht : s.scratch? (.plain c arg) = some t) (hl : IsScratch ls 0 t lhs)
      (hr : IsScratch ls 1 t rhs) :
    Renders s ls .compare (.plain c arg) (Lowering.signOfDifference lhs rhs)
  | references {arg : Operand} {rest : List StackType}
      (hs : s.stack = .object :: .object :: rest) :
    Renders s ls .compare (.plain .cmp arg) Lowering.referencesDiffer
  | chain {ch : Chain} {c : Opcode} {arg : Operand} (hc : c ∈ ch.codes)
      (hn : ch.operandCount ≤ s.stack.length) :
    Renders s ls (.chain ch) (.plain c arg) ch.sequence
  | boxed {t : TypeRef} (hv : t.isVoid = false) (ht : t.isValueType = true) :
    Renders s ls .box (.intrinsic .box (.type t)) [.box t]
  | cast {t : TypeRef} (hv : t.isVoid = false) (ht : t.isValueType = false) :
    Renders s ls .box (.intrinsic .box (.type t)) [.castClass t]
  | call {how : Dispatch} {m : MethodRef} (hm : how = .direct ∨ m.hasThis = true)
      (hn : (HostInstr.invoke how m).arity.pops ≤ s.stack.length) :
    Renders s ls .call (.intrinsic .ecall (.method how m)) [.invoke how m]
  | loadStatic {f : FieldRef} (hf : f.isStatic = true) :
    Renders s ls .loadField (.intrinsic .ldfld (.field f)) [.loadStatic f]
  | loadField {f : FieldRef} (hf : f.isStatic = false) (hr : s.receiver 0 = true) :
    Renders s ls .loadField (.intrinsic .ldfld (.field f)) [.loadField f]
  | storeStatic {f : FieldRef} (hf : f.isStatic = true) :
    Renders s ls .storeField (.intrinsic .stfld (.field f)) [.storeStatic f]
  | storeField {f : FieldRef} (hf : f.isStatic = false) (hr : s.receiver 1 = true) :
    Renders s ls .storeField (.intrinsic .stfld (.field f)) [.storeField f]

namespace Rule.Renders

variable {s : Typing} {ls ls' : Array Local} {rule : Rule} {op : Operation} {is : List HostInstr}

/-- Locals that come later change no code. -/
theorem mono (h : rule.Renders s ls op is) (hext : Extends ls ls') : rule.Renders s ls' op is := by
  cases h with
  | dword v => exact .dword v
  | qword v => exact .qword v
  | read hc hi hw => exact .read hc (hi.mono hext) hw
  | discard => exact .discard
  | store hs hi => exact .store hs (hi.mono hext)
  | numbers ht hl hr => exact .numbers ht (hl.mono hext) (hr.mono hext)
  | references hs => exact .references hs
  | chain hc hn => exact .chain hc hn
  | boxed hv ht => exact .boxed hv ht
  | cast hv ht => exact .cast hv ht
  | call hm hn => exact .call hm hn
  | loadStatic hf => exact .loadStatic hf
  | loadField hf hr => exact .loadField hf hr
  | storeStatic hf => exact .storeStatic hf
  | storeField hf hr => exact .storeField hf hr

/-- The code that reads a register. -/
theorem of_read {c : Opcode} {w : Width} {r : Register} (hc : c.pushForm? = some (.register w))
    (h : Rule.Renders s ls .push (.plain c (.register r)) is) :
    ∃ i, Backs ls r (s.readClass w r) i ∧ is = .loadLocal i :: narrowing (s.readClass w r) w ∧
      (s.readClass w r = .float → w = .dword ∨ w = .qword) := by
  cases h with
  | read hc' hi hw =>
    rw [hc, Option.some.injEq, PushForm.register.injEq] at hc'
    subst hc'
    exact ⟨_, hi, rfl, hw⟩

/-- The code that stores a register. -/
theorem of_store {r : Register} (h : Rule.Renders s ls .pop (.plain .pop (.register r)) is) :
    ∃ top rest i, s.stack = top :: rest ∧ Backs ls r (.of top) i ∧ is = Plan.storeInto top i := by
  cases h with
  | store hs hi => exact ⟨_, _, _, hs, hi, rfl⟩

/-- A chain has its sequence, whatever it meets. -/
theorem of_chain {ch : Chain} (h : Rule.Renders s ls (.chain ch) op is) : is = ch.sequence := by
  cases h
  rfl

/-- What names a local is the start of a register's read, the end of a
register's store, part of a comparison of two numbers, or in the sequence of a
chain. -/
theorem of_names {x : HostInstr} {i : LocalIndex} (h : rule.Renders s ls op is) (hx : x ∈ is)
    (hn : x.Names i) :
    (x = .loadLocal i ∧ ∃ c w r, op = .plain c (.register r) ∧ c.pushForm? = some (.register w) ∧
      Backs ls r (s.readClass w r) i ∧ is = .loadLocal i :: narrowing (s.readClass w r) w) ∨
    (x = .storeLocal i ∧ ∃ r top rest, op = .plain .pop (.register r) ∧ s.stack = top :: rest ∧
      Backs ls r (.of top) i ∧ is = Plan.storeInto top i) ∨
    (rule = .compare ∧ ∃ slot t lhs rhs, IsScratch ls slot t i ∧
      is = Lowering.signOfDifference lhs rhs) ∨
    ∃ ch, rule = .chain ch ∧ x ∈ ch.sequence := by
  cases h with
  | read hc hb hw =>
    rcases List.mem_cons.mp hx with rfl | hx
    · rcases hn with heq | heq
      · cases heq
        exact Or.inl ⟨rfl, _, _, _, rfl, hc, hb, rfl⟩
      · cases heq
    · exact absurd hn (not_names_narrowing hx i)
  | store hs hb =>
    obtain ⟨rfl, rfl⟩ := names_of_mem_storeInto hx hn
    exact Or.inr (Or.inl ⟨rfl, _, _, _, rfl, hs, hb, rfl⟩)
  | numbers ht hl hr =>
    refine Or.inr (Or.inr (Or.inl ⟨rfl, ?_⟩))
    rcases names_of_mem_signOfDifference hx hn with rfl | rfl
    · exact ⟨_, _, _, _, hl, rfl⟩
    · exact ⟨_, _, _, _, hr, rfl⟩
  | chain => exact Or.inr (Or.inr (Or.inr ⟨_, rfl, hx⟩))
  | references => rcases hn with rfl | rfl <;> simp [Lowering.referencesDiffer] at hx
  | dword | qword | discard | boxed | cast | call | loadStatic | loadField | storeStatic
  | storeField => rcases hn with rfl | rfl <;> simp at hx

theorem of_mem_storeLocal {i : LocalIndex} (h : rule.Renders s ls op is)
    (hi : HostInstr.storeLocal i ∈ is) :
    (∃ r top rest, op = .plain .pop (.register r) ∧ s.stack = top :: rest ∧
      Backs ls r (.of top) i ∧ is = Plan.storeInto top i) ∨
    (∃ slot t, IsScratch ls slot t i) ∨
    ∃ ch, rule = .chain ch ∧ .storeLocal i ∈ ch.sequence := by
  rcases h.of_names hi (Or.inr rfl) with ⟨heq, -⟩ | ⟨-, hstore⟩ | ⟨-, slot, t, -, -, hi, -⟩ | hch
  · cases heq
  · exact Or.inl hstore
  · exact Or.inr (Or.inl ⟨slot, t, hi⟩)
  · exact Or.inr (Or.inr hch)

theorem of_mem_loadLocal {i : LocalIndex} (h : rule.Renders s ls op is)
    (hi : HostInstr.loadLocal i ∈ is) :
    (∃ c w r, op = .plain c (.register r) ∧ c.pushForm? = some (.register w) ∧
      Backs ls r (s.readClass w r) i ∧ is = .loadLocal i :: narrowing (s.readClass w r) w) ∨
    (∃ slot t, IsScratch ls slot t i) ∨
    ∃ ch, rule = .chain ch ∧ .loadLocal i ∈ ch.sequence := by
  rcases h.of_names hi (Or.inl rfl) with ⟨-, hread⟩ | ⟨heq, -⟩ | ⟨-, slot, t, -, -, hi, -⟩ | hch
  · exact Or.inl hread
  · cases heq
  · exact Or.inr (Or.inl ⟨slot, t, hi⟩)
  · exact Or.inr (Or.inr hch)

end Rule.Renders

/-! ### What a plan finds -/

section Plans

variable {f g : Frame} {is : List HostInstr} (hf : f.SoundLocals)

include hf

/-- A step that asks for the local of a register and succeeds has it. -/
theorem backs_of_registerLocal {r : Register} {t : StackType} {i : LocalIndex}
    (h : registerLocal r t f = .ok i g) : Backs g.locals r (.of t) i ∧ g.floats = f.floats := by
  rcases registerLocal_yields hf r t with ⟨j, k, hok, hj, hgrows⟩ | ⟨c, k, herr, -⟩
  · cases hok.symm.trans h
    obtain ⟨ls, rfl⟩ := hgrows.only
    exact ⟨hj, rfl⟩
  · rw [h] at herr
    cases herr

theorem renders_home {r : Register} {t : StackType} {k : LocalIndex → List HostInstr}
    (h : (do return k (← registerLocal r t) : Lower _) f = .ok is g) :
    ∃ i, Backs g.locals r (.of t) i ∧ is = k i := by
  obtain ⟨i, g', hi, hk⟩ := bind_eq_ok.mp h
  cases hk
  exact ⟨i, (backs_of_registerLocal hf hi).1, rfl⟩

theorem renders_read {c : Opcode} {w : Width} {r : Register}
    (hc : c.pushForm? = some (.register w)) (h : Plan.pushRegister w r f = .ok is g) :
    Rule.Renders f.typing g.locals .push (.plain c (.register r)) is := by
  have hw : w = .object ∨ w.isIntegral = true := by
    cases c <;> cases hc <;> simp [Width.isIntegral]
  obtain ⟨f', _, hget, h⟩ := bind_eq_ok.mp h
  cases hget
  by_cases hobj : w = .object
  · subst hobj
    have hclass : f.typing.readClass .object r = .object := rfl
    rw [if_neg (by simp)] at h
    obtain ⟨i, hi, rfl⟩ := renders_home hf h
    have hread : Rule.Renders f.typing g.locals .push (.plain c (.register r))
        (.loadLocal i :: narrowing (f.typing.readClass .object r) .object) :=
      .read hc hi (by simp [hclass])
    simpa [hclass, narrowing, Width.narrowing?] using hread
  · have hint : w.isIntegral = true := hw.resolve_left hobj
    have hof : StorageClass.of (.ofWidth w) = .integral := by
      cases w <;> first | rfl | cases hint
    by_cases hfl : f.holdsFloat r = true
    · -- the register holds a float, which is read whole
      have hclass : f.typing.readClass w r = .float := by
        rw [Typing.readClass, if_neg hobj, if_pos (mem_floats_typing.mpr hfl)]
      rw [if_pos ⟨hobj, hfl⟩] at h
      by_cases hwhole : w = .dword ∨ w = .qword
      · rw [if_pos hwhole] at h
        obtain ⟨i, hi, rfl⟩ := renders_home (k := fun i => [.loadLocal i]) hf h
        have hread : Rule.Renders f.typing g.locals .push (.plain c (.register r))
            (.loadLocal i :: narrowing (f.typing.readClass w r) w) :=
          .read hc (by rw [hclass]; exact hi) fun _ => hwhole
        simpa [hclass, narrowing] using hread
      · rw [if_neg hwhole] at h
        cases h
    · have hclass : f.typing.readClass w r = .integral := by
        rw [Typing.readClass, if_neg hobj, if_neg fun hm => hfl (mem_floats_typing.mp hm)]
      rw [if_neg fun h => hfl h.2] at h
      obtain ⟨i, hi, rfl⟩ := renders_home hf h
      have hread : Rule.Renders f.typing g.locals .push (.plain c (.register r))
          (.loadLocal i :: narrowing (f.typing.readClass w r) w) :=
        .read hc (by rw [hclass, ← hof]; exact hi) (by simp [hclass])
      simpa [hclass, narrowing] using hread

theorem renders_push {c : Opcode} {form : PushForm} {arg : Operand} (hc : c.pushForm? = some form)
    (h : Plan.push form arg f = .ok is g) :
    Rule.Renders f.typing g.locals .push (.plain c arg) is := by
  cases form with
  | dword =>
    have hcode : c = .pushiDword := by cases c <;> first | rfl | cases hc
    subst hcode
    cases arg <;> cases h
    exact .dword _
  | qword =>
    have hcode : c = .pushiQword := by cases c <;> first | rfl | cases hc
    subst hcode
    cases arg <;> cases h
    exact .qword _
  | register w =>
    cases arg with
    | register r => exact renders_read hf hc h
    | none | dword | qword => cases h

theorem renders_pop {arg : Operand} (h : Plan.pop arg f = .ok is g) :
    Rule.Renders f.typing g.locals .pop (.plain .pop arg) is := by
  cases arg with
  | none =>
    cases h
    exact .discard
  | register r =>
    obtain ⟨top, f', hpeek, hrest⟩ := bind_eq_ok.mp h
    obtain ⟨htop, rfl⟩ := peek_eq_ok.mp hpeek
    obtain ⟨i, f₁, hstore, hcode⟩ := bind_eq_ok.mp hrest
    cases hcode
    obtain ⟨j, f₂, hlocal, hmark⟩ := bind_eq_ok.mp hstore
    obtain ⟨u, f₃, hmarked, hret⟩ := bind_eq_ok.mp hmark
    cases hret
    cases hmarked
    obtain ⟨rest, hs⟩ := List.head?_eq_some_iff.mp (List.head?_eq_getElem? ▸ htop)
    exact .store (s := f'.typing) hs (backs_of_registerLocal hf hlocal).1
  | dword | qword => cases h

/-- A comparison that succeeds has two scratch locals. -/
theorem renders_compareNumbers {t : StackType} (h : Plan.compareNumbers t f = .ok is g) :
    ∃ lhs rhs, IsScratch g.locals 0 t lhs ∧ IsScratch g.locals 1 t rhs ∧
      is = Lowering.signOfDifference lhs rhs := by
  obtain ⟨lhs, g₁, hlhs, h⟩ := bind_eq_ok.mp h
  obtain ⟨rhs, g₂, hrhs, h⟩ := bind_eq_ok.mp h
  cases h
  rcases scratchLocal_yields hf t 0 with ⟨_, _, hok, hl, hg₁⟩ | ⟨_, _, herr, -⟩
  · cases hok.symm.trans hlhs
    rcases scratchLocal_yields hg₁.sound t 1 with ⟨_, _, hok', hr, hg₂⟩ | ⟨_, _, herr, -⟩
    · cases hok'.symm.trans hrhs
      exact ⟨lhs, rhs, hg₂.keeps _ _ hl, hr, rfl⟩
    · rw [hrhs] at herr
      cases herr
  · rw [hlhs] at herr
    cases herr

omit hf in
theorem opcode_of_compare {c : Opcode} (h : Rule.compare.supports (.opcode c) = true) :
    c = .cmp ∨ c = .cmpDword ∨ c = .cmpQword ∨ c = .cmpR32 ∨ c = .cmpR64 := by
  simpa [Rule.supports, Rule.codes] using h

omit hf in
theorem scratch?_of_numbers {s : Typing} {c : Opcode} {arg : Operand} {lhs rhs : StackType}
    (hc : Rule.compare.supports (.opcode c) = true) (hn : s.numbers? = some (lhs, rhs)) :
    s.scratch? (.plain c arg) = some (c.width.elim (.binaryResult lhs rhs) .ofWidth) := by
  rcases opcode_of_compare hc with rfl | rfl | rfl | rfl | rfl <;>
    simp [Typing.scratch?, hn, Opcode.width, Opcode.spec, StackType.ofWidth]

theorem renders_compare {c : Opcode} {arg : Operand} (hc : Rule.compare.supports (.opcode c) = true)
    (h : Plan.compare c.width f = .ok is g) :
    Rule.Renders f.typing g.locals .compare (.plain c arg) is := by
  have hdepth : f.stack.depth = f.stack.types.length := f.stack.depth_eq
  rcases hst : f.stack.types with _ | ⟨rhs, _ | ⟨lhs, rest⟩⟩
  · rw [Plan.compare_of_lt (by simp [hdepth, hst])] at h
    cases h
  · rw [Plan.compare_of_lt (by simp [hdepth, hst])] at h
    cases h
  · by_cases hnum : lhs ≠ .object ∧ rhs ≠ .object
    · rw [Plan.compare_numbers hst hnum.1 hnum.2] at h
      obtain ⟨l, r, hl, hr, rfl⟩ := renders_compareNumbers hf h
      have hnumbers : f.typing.numbers? = some (lhs, rhs) := by
        simp [Typing.numbers?, Frame.typing, hst, hnum]
      exact .numbers (scratch?_of_numbers hc hnumbers) hl hr
    · by_cases href : c.width = none ∧ lhs = .object ∧ rhs = .object
      · obtain ⟨hwidth, rfl, rfl⟩ := href
        have hcmp : c = .cmp := by
          rcases opcode_of_compare hc with rfl | rfl | rfl | rfl | rfl <;>
            first | rfl | cases hwidth
        subst hcmp
        rw [hwidth, Plan.compare_references hst] at h
        cases h
        exact .references (s := f.typing) hst
      · rw [Plan.compare_incomparable hst hnum href] at h
        cases h

omit hf in
/-- A receiver that is asked for and found is one in the typing. -/
theorem receiver_of_requireReceiver {n : Nat} {u : Unit}
    (h : Lowering.requireReceiver n f = .ok u g) : g = f ∧ f.typing.receiver n = true := by
  obtain ⟨t, f', hpeek, hcase⟩ := bind_eq_ok.mp h
  obtain ⟨ht, rfl⟩ := peek_eq_ok.mp hpeek
  have hstack : f'.typing.stack[n]? = some t := ht
  cases t <;> cases hcase <;> exact ⟨rfl, by simp [Typing.receiver, hstack]⟩

omit hf in
theorem renders_box {arg : IntrinsicOperand} (h : Plan.box arg f = .ok is g) :
    Rule.Renders f.typing g.locals .box (.intrinsic .box arg) is := by
  cases arg with
  | type t =>
    simp only [Plan.box] at h
    by_cases hv : t.isVoid = true
    · rw [if_pos hv] at h
      cases h
    · rw [if_neg hv] at h
      by_cases ht : t.isValueType = true
      · rw [if_pos ht] at h
        cases h
        exact .boxed (Bool.eq_false_iff.mpr hv) ht
      · rw [if_neg ht] at h
        cases h
        exact .cast (Bool.eq_false_iff.mpr hv) (Bool.eq_false_iff.mpr ht)
  | none | field | method => cases h

omit hf in
theorem renders_call {arg : IntrinsicOperand} (h : Plan.call arg f = .ok is g) :
    Rule.Renders f.typing g.locals .call (.intrinsic .ecall arg) is := by
  cases arg with
  | method how m =>
    simp only [Plan.call] at h
    by_cases hthis : how ≠ .direct ∧ ¬ m.hasThis = true
    · rw [if_pos hthis] at h
      cases h
    · rw [if_neg hthis] at h
      obtain ⟨u, f', hreq, hcode⟩ := bind_eq_ok.mp h
      obtain ⟨hn, rfl⟩ := require_eq_ok.mp hreq
      cases hcode
      refine .call ?_ (g.stack.depth_eq ▸ hn)
      by_cases hd : how = .direct
      · exact Or.inl hd
      · exact Or.inr (by_contra fun hm => hthis ⟨hd, hm⟩)
  | none | field | type => cases h

omit hf in
theorem renders_loadField {arg : IntrinsicOperand} (h : Plan.loadField arg f = .ok is g) :
    Rule.Renders f.typing g.locals .loadField (.intrinsic .ldfld arg) is := by
  cases arg with
  | field fld =>
    simp only [Plan.loadField] at h
    by_cases hs : fld.isStatic = true
    · rw [if_pos hs] at h
      cases h
      exact .loadStatic hs
    · rw [if_neg hs] at h
      obtain ⟨u, f', hrec, hcode⟩ := bind_eq_ok.mp h
      obtain ⟨rfl, hr⟩ := receiver_of_requireReceiver hrec
      cases hcode
      exact .loadField (Bool.eq_false_iff.mpr hs) hr
  | none | type | method => cases h

omit hf in
theorem renders_storeField {arg : IntrinsicOperand} (h : Plan.storeField arg f = .ok is g) :
    Rule.Renders f.typing g.locals .storeField (.intrinsic .stfld arg) is := by
  cases arg with
  | field fld =>
    simp only [Plan.storeField] at h
    by_cases hs : fld.isStatic = true
    · rw [if_pos hs] at h
      cases h
      exact .storeStatic hs
    · rw [if_neg hs] at h
      obtain ⟨u, f', hrec, hcode⟩ := bind_eq_ok.mp h
      obtain ⟨rfl, hr⟩ := receiver_of_requireReceiver hrec
      cases hcode
      exact .storeField (Bool.eq_false_iff.mpr hs) hr
  | none | type | method => cases h

/-- Whatever rule plans an operation finds one of the shapes of code. -/
theorem Rule.plan_renders {rule : Rule} {op : Operation} (h : rule.plan op f = .ok is g) :
    rule.Renders f.typing g.locals op is := by
  unfold Rule.plan at h
  by_cases hs : rule.supports op.code = true
  · simp only [hs, if_true] at h
    cases rule with
    | push =>
      cases op with
      | plain c arg =>
        cases hc : c.pushForm? with
        | some form =>
          simp only [hc] at h
          exact renders_push hf hc h
        | none =>
          simp only [hc] at h
          cases h
      | intrinsic call arg => cases h
    | pop =>
      cases op with
      | plain c arg =>
        have hcode : c = .pop := by simpa [Rule.supports, Rule.codes, Operation.code] using hs
        subst hcode
        exact renders_pop hf h
      | intrinsic call arg => cases h
    | compare =>
      cases op with
      | plain c arg => exact renders_compare hf hs h
      | intrinsic call arg => cases h
    | chain ch =>
      cases op with
      | plain c arg =>
        obtain ⟨u, f', hreq, hseq⟩ := bind_eq_ok.mp h
        obtain ⟨hn, rfl⟩ := require_eq_ok.mp hreq
        cases hseq
        have hcode : c ∈ ch.codes := by simpa [Rule.supports, Rule.codes, Operation.code] using hs
        exact .chain hcode (g.stack.depth_eq ▸ hn)
      | intrinsic call arg => cases h
    | box =>
      cases op with
      | plain c arg => cases h
      | intrinsic call arg =>
        have hcall : call = .box := by simpa [Rule.supports, Rule.codes, Operation.code] using hs
        subst hcall
        exact renders_box h
    | call =>
      cases op with
      | plain c arg => cases h
      | intrinsic call arg =>
        have hcall : call = .ecall := by simpa [Rule.supports, Rule.codes, Operation.code] using hs
        subst hcall
        exact renders_call h
    | loadField =>
      cases op with
      | plain c arg => cases h
      | intrinsic call arg =>
        have hcall : call = .ldfld := by simpa [Rule.supports, Rule.codes, Operation.code] using hs
        subst hcall
        exact renders_loadField h
    | storeField =>
      cases op with
      | plain c arg => cases h
      | intrinsic call arg =>
        have hcall : call = .stfld := by simpa [Rule.supports, Rule.codes, Operation.code] using hs
        subst hcall
        exact renders_storeField h
  · simp only [hs] at h
    cases h

/-- So an instruction that is lowered with nothing pending has one of the shapes
of code, and a replay of it leaves the types that lowering leaves. -/
theorem Rule.lower_renders {rule : Rule} {i : Instr} {code : Array HostInstr}
    (hroom : f.stack.types.length ≤ f.limit) (hp : f.pending = #[])
    (h : rule.lower i f = .ok code g) :
    rule.Renders f.typing g.locals i.operation code.toList ∧
      HostInstr.replay (HostInstr.declared g.locals) code.toList f.stack.types =
        some g.stack.types := by
  obtain ⟨f', hplan, -, -, ⟨s, l, rfl⟩, hwithin⟩ := Rule.lower_eq_plan hroom hp h
  have hrenders : rule.Renders f.typing f'.locals i.operation code.toList :=
    Rule.plan_renders hf hplan
  exact ⟨hrenders, HostInstr.replay_of_replayWithin hwithin⟩

end Plans

end Devirt
