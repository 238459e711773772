/-
# Objects and comparisons are used as they should be

Some host instructions make sense for some operands only: a field is reached
through a reference or a pointer, or without one if it is static; a call that
dispatches needs a method with a receiver; boxing is for value types; numbers
are compared with numbers of their own type and references with references
(`HostInstr.Proper`).

The rules check this on the abstract stack before they emit, and what they emit
before the instruction in question may move the operands through scratch
locals. In the code of an accepted method every instruction finds what it needs
all the same, where a replay of the code from the empty stack reaches it
(`recompile_proper`).

Key definitions: `StackType.IsReceiver`, `StackType.IsNumber`,
`HostInstr.Proper`.
Key theorems: `Rule.Renders.proper`, `recompile_proper`.
-/
import Devirt.Proofs.Scratch

namespace Devirt

open Devirt.Frame Lower HostInstr

/-! ### What an instruction needs -/

/-- A field can be reached through a value of this type. -/
def StackType.IsReceiver (t : StackType) : Prop := t = .object ∨ t = .nativeInt ∨ t = .pointer

/-- Values of this type are numbers. -/
def StackType.IsNumber (t : StackType) : Prop := t ≠ .object ∧ t ≠ .pointer

/-- The instruction carries what it should and finds on the stack, whose types
are `s`, what it works on. -/
def HostInstr.Proper (s : List StackType) : HostInstr → Prop
  | .loadField f => f.isStatic = false ∧ ∃ t, s[0]? = some t ∧ t.IsReceiver
  | .storeField f => f.isStatic = false ∧ ∃ t, s[1]? = some t ∧ t.IsReceiver
  | .loadStatic f | .storeStatic f => f.isStatic = true
  | .invoke how m => how = .direct ∨ m.hasThis = true
  | .box t => t.isValueType = true
  | .castClass t => t.isVoid = false ∧ t.isValueType = false
  | .compare .eq => ∃ rest, s = .object :: .object :: rest
  | .compare .gt | .compare .lt => ∃ t rest, t ≠ .object ∧ s = t :: t :: rest
  | _ => True

/-! ### What the type system has checked -/

namespace Typing

variable {s : Typing} {n : Nat} {op : Operation} {t : StackType}

theorem isReceiver_of_receiver (h : s.receiver n = true) :
    ∃ t, s.stack[n]? = some t ∧ t.IsReceiver := by
  unfold receiver at h
  split at h
  · exact ⟨_, ‹_›, Or.inl rfl⟩
  · exact ⟨_, ‹_›, Or.inr (Or.inl rfl)⟩
  · exact ⟨_, ‹_›, Or.inr (Or.inr rfl)⟩
  · cases h

/-- The common type of two operands that are no references is that of a number. -/
theorem isNumber_binaryResult {lhs rhs : StackType} (hl : lhs ≠ .object) (hr : rhs ≠ .object) :
    (StackType.binaryResult lhs rhs).IsNumber := by
  cases lhs <;> cases rhs <;> first | contradiction | exact ⟨by decide, by decide⟩

/-- Numbers are compared as numbers. -/
theorem isNumber_of_scratch? (h : s.scratch? op = some t) : t.IsNumber := by
  unfold scratch? at h
  split at h
  · obtain ⟨⟨lhs, rhs⟩, hnumbers, rfl⟩ := Option.map_eq_some_iff.mp h
    unfold numbers? at hnumbers
    split at hnumbers
    · split at hnumbers
      · rename_i hne
        cases hnumbers
        exact isNumber_binaryResult hne.1 hne.2
      · cases hnumbers
    · cases hnumbers
  all_goals first
    | (obtain ⟨p, -, rfl⟩ := Option.map_eq_some_iff.mp h; exact ⟨by decide, by decide⟩)
    | cases h

end Typing

/-! ### Code that needs nothing -/

section Sequences

variable {x : HostInstr} {ts : List StackType}

theorem proper_of_mem_narrowing {c : StorageClass} {w : Width} (h : x ∈ narrowing c w) :
    x.Proper ts := by
  cases c <;> cases w <;> simp [narrowing, Width.narrowing?] at h <;> subst h <;> trivial

theorem proper_of_mem_storeInto {top : StackType} {home : LocalIndex}
    (h : x ∈ Plan.storeInto top home) : x.Proper ts := by
  obtain ⟨widen, heq⟩ := storeInto_eq top home
  rw [heq, List.mem_append, List.mem_map, List.mem_singleton] at h
  rcases h with ⟨conv, -, rfl⟩ | rfl <;> trivial

/-- The sequences of the default table work on any values. -/
theorem proper_of_mem_chain {code : CodeRef} {ch : Chain}
    (hch : code.defaultRule? = some (.chain ch)) (h : x ∈ ch.sequence) : x.Proper ts := by
  rcases default_chain_cases hch with ⟨op, hseq⟩ | ⟨op, hseq⟩ | rfl
  · rw [hseq, List.mem_singleton] at h
    subst h
    trivial
  · rw [hseq, List.mem_singleton] at h
    subst h
    trivial
  · rw [Chain.nor, List.mem_cons, List.mem_singleton] at h
    rcases h with rfl | rfl <;> trivial

end Sequences

/-! ### Comparisons -/

section Comparisons

variable {types : LocalIndex → Option StackType} {x : HostInstr} {p : Nat}
  {u v t : StackType} {rest ts : List StackType}

/-- Where a comparison of two numbers reaches a verdict, both operands are on
top, of the type that they are compared at. -/
theorem proper_of_signOfDifference {lhs rhs : LocalIndex} (hl : types lhs = some t)
    (hr : types rhs = some t) (ht : t ≠ .object)
    (hx : (Lowering.signOfDifference lhs rhs)[p]? = some x)
    (hts : replay types ((Lowering.signOfDifference lhs rhs).take p) (u :: v :: rest) = some ts) :
    x.Proper ts := by
  -- the operands when the first and the second verdict are reached
  have hfirst : replay types ((Lowering.signOfDifference lhs rhs).take 4) (u :: v :: rest) =
      some (t :: t :: rest) := by
    simp [Lowering.signOfDifference, replay, retype, takeMany, hl, hr]
  have hsecond : replay types ((Lowering.signOfDifference lhs rhs).take 7) (u :: v :: rest) =
      some (t :: t :: .int32 :: rest) := by
    simp [Lowering.signOfDifference, replay, retype, takeMany, hl, hr]
  by_cases h4 : p = 4
  · subst h4
    cases hx
    exact ⟨t, rest, ht, Option.some.inj (hts.symm.trans hfirst)⟩
  by_cases h7 : p = 7
  · subst h7
    cases hx
    exact ⟨t, .int32 :: rest, ht, Option.some.inj (hts.symm.trans hsecond)⟩
  -- the others work on any values
  obtain rfl | rfl | rfl | rfl | rfl | rfl | rfl :
      p = 0 ∨ p = 1 ∨ p = 2 ∨ p = 3 ∨ p = 5 ∨ p = 6 ∨ p = 8 := by
    have hlt : p < 9 := (List.getElem?_eq_some_iff.mp hx).1
    omega
  all_goals
    cases hx
    trivial

theorem proper_of_referencesDiffer (hx : Lowering.referencesDiffer[p]? = some x)
    (hts : replay types (Lowering.referencesDiffer.take p) (.object :: .object :: rest) = some ts) :
    x.Proper ts := by
  match p, hx with
  | 0, hx =>
    cases hx
    exact ⟨rest, (Option.some.inj hts).symm⟩
  | 1, hx | 2, hx =>
    cases hx
    trivial

end Comparisons

/-! ### Operations and methods -/

/-- The code of an operation finds what it needs where it is reached from a
stack of the operation's typing. -/
theorem Rule.Renders.proper {s : Typing} {ls : Array Local} {rule : Rule} {op : Operation}
    {is : List HostInstr} (h : rule.Renders s ls op is) (hrule : op.code.defaultRule? = some rule)
    {p : Nat} {x : HostInstr} {ts : List StackType} (hx : is[p]? = some x)
    (hts : replay (declared ls) (is.take p) s.stack = some ts) : x.Proper ts := by
  have hmem : x ∈ is := List.mem_of_getElem? hx
  -- an instruction on its own meets the stack of the typing
  have hone : ∀ y, is = [y] → x = y ∧ ts = s.stack := by
    rintro y rfl
    obtain rfl : p = 0 := by
      have hlt := (List.getElem?_eq_some_iff.mp hx).1
      simpa using hlt
    cases hx
    exact ⟨rfl, (Option.some.inj hts).symm⟩
  cases h with
  | dword | qword | discard =>
    obtain ⟨rfl, -⟩ := hone _ rfl
    trivial
  | read =>
    rcases List.mem_cons.mp hmem with rfl | hmem
    · trivial
    · exact proper_of_mem_narrowing hmem
  | store => exact proper_of_mem_storeInto hmem
  | numbers ht hl hr =>
    obtain ⟨u, v, rest, hs⟩ := Typing.operands_of_scratch? ht
    rw [hs] at hts
    exact proper_of_signOfDifference hl.declared hr.declared (Typing.isNumber_of_scratch? ht).1 hx hts
  | references hs =>
    rw [hs] at hts
    exact proper_of_referencesDiffer hx hts
  | chain => exact proper_of_mem_chain hrule hmem
  | boxed hv ht =>
    obtain ⟨rfl, -⟩ := hone _ rfl
    exact ht
  | cast hv ht =>
    obtain ⟨rfl, -⟩ := hone _ rfl
    exact ⟨hv, ht⟩
  | call hm =>
    obtain ⟨rfl, -⟩ := hone _ rfl
    exact hm
  | loadStatic hf | storeStatic hf =>
    obtain ⟨rfl, -⟩ := hone _ rfl
    exact hf
  | loadField hf hr | storeField hf hr =>
    obtain ⟨rfl, rfl⟩ := hone _ rfl
    exact ⟨hf, Typing.isReceiver_of_receiver hr⟩

/-- Whatever an accepted body is, every instruction of its host code finds on
the stack what it works on: a replay from the empty stack reaches it, with
types that it is proper for. -/
theorem recompile_proper (o : Options) (body : List Instr) (m : Method)
    (h : (Registry.default.recompile o body).result = .ok m) (n : Nat) (x : HostInstr)
    (hx : m.instructions[n]? = some x) :
    ∃ s, replay (declared m.locals) (m.instructions.toList.take n) [] = some s ∧ x.Proper s := by
  obtain ⟨k, p, hslice, htake⟩ := Registry.position_of_getElem? h hx
  obtain ⟨ts, hts⟩ := Registry.replay_take h n
  refine ⟨ts, hts, ?_⟩
  obtain ⟨i, hi⟩ := Registry.exists_instr_of_mem_slice h (List.mem_of_getElem? hslice)
  obtain ⟨s, d, rule, -, htypes, hrule, hrenders⟩ := Registry.default_recompile_at h hi
  rw [htake, replay_append] at hts
  have hbefore : replay (declared m.locals) (m.before k) [] = some s.stack := htypes
  rw [hbefore, Option.bind_some] at hts
  exact hrenders.proper hrule hslice hts

/-- A field is read through a register and compared, as a reference, with what
it was read through; and two numbers are compared. -/
def boxedField : List Instr :=
  let field : FieldRef := ⟨⟨"T", .classType⟩, "x", ⟨"System.Int32", .i4⟩, false⟩
  [⟨0, .plain .pushrObject (.register .r1)⟩, ⟨1, .intrinsic .ldfld (.field field)⟩,
    ⟨2, .intrinsic .box (.type field.type)⟩, ⟨3, .plain .pushrObject (.register .r1)⟩,
    ⟨4, .plain .cmp .none⟩, ⟨5, .plain .pushiDword (.dword 1)⟩,
    ⟨6, .plain .pushiDword (.dword 2)⟩, ⟨7, .plain .cmpDword .none⟩]

theorem recompile_proper_boxedField :
    ∃ m field, (Registry.default.recompile {} boxedField).result = .ok m ∧
      m.instructions[1]? = some (.loadField field) ∧ m.instructions[4]? = some (.compare .eq) ∧
      m.instructions[13]? = some (.compare .gt) ∧ m.instructions[16]? = some (.compare .lt) ∧
      (∃ s t, replay (declared m.locals) (m.instructions.toList.take 1) [] = some s ∧
        s[0]? = some t ∧ t.IsReceiver) ∧
      (∃ rest, replay (declared m.locals) (m.instructions.toList.take 4) [] =
        some (.object :: .object :: rest)) ∧
      (∃ t rest, t ≠ .object ∧ replay (declared m.locals) (m.instructions.toList.take 13) [] =
        some (t :: t :: rest)) ∧
      ∃ t rest, t ≠ .object ∧ replay (declared m.locals) (m.instructions.toList.take 16) [] =
        some (t :: t :: rest) := by
  have hrun : ((Registry.default.recompile {} boxedField).result.map fun m =>
      (m.instructions[1]?, m.instructions[4]?, m.instructions[13]?, m.instructions[16]?)).toOption =
        some (some (.loadField ⟨⟨"T", .classType⟩, "x", ⟨"System.Int32", .i4⟩, false⟩),
          some (.compare .eq), some (.compare .gt), some (.compare .lt)) := by decide +kernel
  obtain ⟨m, hm, hcode⟩ := Registry.exists_method hrun
  simp only [Prod.mk.injEq] at hcode
  obtain ⟨hfield, heq, hgt, hlt⟩ := hcode
  obtain ⟨s, hs, -, t, ht, hreceiver⟩ := recompile_proper {} boxedField m hm 1 _ hfield
  obtain ⟨s₁, hs₁, rest₁, rfl⟩ := recompile_proper {} boxedField m hm 4 _ heq
  obtain ⟨s₂, hs₂, t₂, rest₂, hne₂, rfl⟩ := recompile_proper {} boxedField m hm 13 _ hgt
  obtain ⟨s₃, hs₃, t₃, rest₃, hne₃, rfl⟩ := recompile_proper {} boxedField m hm 16 _ hlt
  exact ⟨m, _, hm, hfield, heq, hgt, hlt, ⟨s, t, hs, ht, hreceiver⟩, ⟨rest₁, hs₁⟩,
    ⟨t₂, rest₂, hne₂, hs₂⟩, t₃, rest₃, hne₃, hs₃⟩

end Devirt
