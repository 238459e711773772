/-
# Registers and their slots

A register has one local for each storage class, and of the host code only
pushes and pops of the register touch them. A pop ends with the store to the
local of the class of what it found. A push starts with the load of the local
of the class that it reads: references for a push of a reference, and floats or
integers otherwise, as the last store has it (`recompile_slots`).

So what a push loads is what the last pop stored exactly if both or none of them
are about a reference (`recompile_reads_latest_store`). Nothing refuses the
other reads, which load a stale local.

Key definitions: `HostInstr.loads`, `HostInstr.stores`, `LastStoredFloat`,
`SlotDiscipline`.
Key theorems: `Registry.default_read`, `Registry.default_store`,
`recompile_slots`, `recompile_reads_latest_store`.
-/
import Devirt.Proofs.History
import Devirt.Proofs.Slices

namespace Devirt

open Devirt.Frame Lower HostInstr

/-! ### The locals that code names -/

namespace HostInstr

/-- The local that an instruction loads. -/
def loaded? : HostInstr → Option LocalIndex
  | .loadLocal i => some i
  | _ => none

/-- The local that an instruction stores. -/
def stored? : HostInstr → Option LocalIndex
  | .storeLocal i => some i
  | _ => none

/-- The locals that code loads, in order. -/
def loads (is : List HostInstr) : List LocalIndex := is.filterMap loaded?

/-- The locals that code stores, in order. -/
def stores (is : List HostInstr) : List LocalIndex := is.filterMap stored?

theorem loads_read (i : LocalIndex) (c : StorageClass) (w : Width) :
    loads (.loadLocal i :: narrowing c w) = [i] := by
  cases c <;> cases w <;> rfl

theorem stores_storeInto (top : StackType) (home : LocalIndex) :
    stores (Plan.storeInto top home) = [home] := by
  unfold Plan.storeInto
  split <;> rfl

/-- A store ends the code of a pop, and there the value on top has the type of
the local. -/
theorem storeInto_at (types : LocalIndex → Option StackType) (rest : List StackType)
    {top : StackType} {home i : LocalIndex} {p : Nat}
    (h : (Plan.storeInto top home)[p]? = some (.storeLocal i)) :
    p + 1 = (Plan.storeInto top home).length ∧
      replay types ((Plan.storeInto top home).take p) (top :: rest) =
        some ((StorageClass.of top).slotType :: rest) := by
  unfold Plan.storeInto at h ⊢
  split
  · rename_i hwiden
    rw [if_pos hwiden] at h
    -- an integer is widened first
    match p, h with
    | 1, _ =>
      rw [hwiden.1]
      exact ⟨rfl, rfl⟩
  · rename_i hplain
    rw [if_neg hplain] at h
    match p, h with
    | 0, _ =>
      refine ⟨rfl, ?_⟩
      cases top <;> first | rfl | exact absurd ⟨rfl, by decide⟩ hplain

end HostInstr

/-- The sequences of the default table name no locals. -/
theorem default_chain_names {code : CodeRef} {ch : Chain}
    (h : code.defaultRule? = some (.chain ch)) (i : LocalIndex) :
    .loadLocal i ∉ ch.sequence ∧ .storeLocal i ∉ ch.sequence := by
  rcases default_chain_cases h with ⟨op, hseq⟩ | ⟨op, hseq⟩ | rfl
  · simp [hseq]
  · simp [hseq]
  · simp [Chain.nor]

/-! ### Slices of pushes and pops -/

/-- The last store of `r` before `j` met a float. -/
def LastStoredFloat (body : List Instr) (m : Method) (r : Register) (j : Nat) : Prop :=
  ∃ k rest, LastStore body r j k ∧ m.typesAt k = some (.float :: rest)

section Slices

variable {o : Options} {body : List Instr} {m : Method} {r : Register} {j k : Nat}
  (h : (Registry.default.recompile o body).result = .ok m)

include h

/-- The type system knows of a register whether its last store met a float. -/
theorem lastStoredFloat_iff {s : Typing} {d : Demand} (hj : j ≤ body.length)
    (hs : Typing.check o.maxStackDepth (body.take j) {} {} = some (s, d)) :
    r ∈ s.floats ↔ LastStoredFloat body m r j := by
  rw [Typing.mem_floats_iff hj hs]
  -- the typing at a store and the types that a replay finds there are the same
  have htypes : ∀ {k rest}, LastStore body r j k →
      ((∃ u e, Typing.check o.maxStackDepth (body.take k) {} {} = some (u, e) ∧
        u.stack = .float :: rest) ↔ m.typesAt k = some (.float :: rest)) := by
    intro k rest hk
    obtain ⟨offset, hinstr⟩ := hk.stores
    obtain ⟨u, e, _, hu, ht, -, -⟩ := Registry.default_recompile_at h hinstr
    rw [ht, Option.some.injEq, hu]
    constructor
    · rintro ⟨u', e', heq, hstack⟩
      cases heq
      exact hstack
    · intro hstack
      exact ⟨u, e, rfl, hstack⟩
  constructor
  · rintro ⟨k, u, e, rest, hk, hu, hstack⟩
    exact ⟨k, rest, hk, (htypes hk).mp ⟨u, e, hu, hstack⟩⟩
  · rintro ⟨k, rest, hk, ht⟩
    obtain ⟨u, e, hu, hstack⟩ := (htypes hk).mpr ht
    exact ⟨k, u, e, rest, hk, hu, hstack⟩

/-- A pop stores what it finds to the local of its class. -/
theorem Registry.default_store (hk : StoresAt body k r) :
    ∃ top rest i, m.typesAt k = some (top :: rest) ∧ Backs m.locals r (.of top) i ∧
      m.slice k = Plan.storeInto top i := by
  obtain ⟨offset, hinstr⟩ := hk
  obtain ⟨s, d, rule, -, ht, hrule, hrenders⟩ := default_recompile_at h hinstr
  cases hrule
  obtain ⟨top, rest, i, hs, hi, hslice⟩ := hrenders.of_store
  exact ⟨top, rest, i, by rw [ht, hs], hi, hslice⟩

/-- A push of a reference loads the reference; any other one loads the float or
the integer, as the last store has it. -/
theorem Registry.default_read {w : Width} (hj : ReadsAt body j w r) :
    ∃ i, (w = .object ∧ Backs m.locals r .object i ∧ m.slice j = [.loadLocal i]) ∨
      ((w = .dword ∨ w = .qword) ∧ LastStoredFloat body m r j ∧ Backs m.locals r .float i ∧
        m.slice j = [.loadLocal i]) ∨
      (w ≠ .object ∧ ¬ LastStoredFloat body m r j ∧ Backs m.locals r .integral i ∧
        m.slice j = .loadLocal i :: narrowing .integral w) := by
  obtain ⟨offset, code, hinstr, hform⟩ := hj
  obtain ⟨s, d, rule, hs, -, hrule, hrenders⟩ := default_recompile_at h hinstr
  obtain rfl : rule = .push := by
    have hpush := hrule.symm.trans (defaultRule?_of_pushForm? hform)
    exact Option.some.inj hpush
  obtain ⟨i, hi, hslice, hwhole⟩ := hrenders.of_read hform
  have hlt : j < body.length := (List.getElem?_eq_some_iff.mp hinstr).1
  have hfloats : r ∈ s.floats ↔ LastStoredFloat body m r j :=
    lastStoredFloat_iff h (Nat.le_of_lt hlt) hs
  refine ⟨i, ?_⟩
  by_cases hw : w = .object
  · have hclass : s.readClass w r = .object := by rw [Typing.readClass, if_pos hw]
    rw [hclass] at hi hslice
    exact Or.inl ⟨hw, hi, hslice⟩
  · by_cases hr : r ∈ s.floats
    · have hclass : s.readClass w r = .float := by rw [Typing.readClass, if_neg hw, if_pos hr]
      rw [hclass] at hi hslice
      exact Or.inr (Or.inl ⟨hwhole hclass, hfloats.mp hr, hi, hslice⟩)
    · have hclass : s.readClass w r = .integral := by
        rw [Typing.readClass, if_neg hw, if_neg hr]
      rw [hclass] at hi hslice
      exact Or.inr (Or.inr ⟨hw, fun hf => hr (hfloats.mpr hf), hi, hslice⟩)

end Slices

/-! ### Slots -/

/-- What the code of a body does with the locals of registers. -/
structure SlotDiscipline (body : List Instr) (m : Method) : Prop where
  /-- The code is cut into one slice for each instruction. -/
  tiled : m.slices.flatten = m.instructions.toList ∧ m.slices.length = body.length
  /-- Of each register and class there is one local. -/
  unique : ∀ r c i i', Backs m.locals r c i → Backs m.locals r c i' → i = i'
  /-- A register's local is stored at the end of a pop of the register, by a
  value of the local's own type. -/
  stored : ∀ k p i l r, (m.slice k)[p]? = some (.storeLocal i) → m.locals[i.val]? = some l →
    l.origin = .register r →
    StoresAt body k r ∧ p + 1 = (m.slice k).length ∧
      ∃ rest, replay (declared m.locals) (m.before k ++ (m.slice k).take p) [] =
        some (l.type :: rest)
  /-- It is loaded at the start of a push of the register. -/
  loaded : ∀ k p i l r, (m.slice k)[p]? = some (.loadLocal i) → m.locals[i.val]? = some l →
    l.origin = .register r → p = 0 ∧ ∃ w, ReadsAt body k w r
  /-- A push of 32 or 64 bits loads the float, unconverted, exactly if the last
  store met one, and otherwise the integer, cut down to its width. -/
  whole : ∀ k w r, ReadsAt body k w r → w = .dword ∨ w = .qword →
    (LastStoredFloat body m r k ↔ ∃ i, Backs m.locals r .float i ∧ m.slice k = [.loadLocal i]) ∧
    (¬ LastStoredFloat body m r k →
      ∃ i, Backs m.locals r .integral i ∧ m.slice k = .loadLocal i :: narrowing .integral w)
  /-- A push of fewer bits loads the integer, and the last store met no float. -/
  narrow : ∀ k w r, ReadsAt body k w r → w = .byte ∨ w = .word →
    ¬ LastStoredFloat body m r k ∧
      ∃ i, Backs m.locals r .integral i ∧ m.slice k = .loadLocal i :: narrowing .integral w
  /-- A push of a reference loads the reference. -/
  reference : ∀ k r, ReadsAt body k .object r →
    ∃ i, Backs m.locals r .object i ∧ m.slice k = [.loadLocal i]
  /-- Nothing but a pop of the register stores any of its locals. -/
  kept : ∀ k r c i, ¬ StoresAt body k r → Backs m.locals r c i → .storeLocal i ∉ m.slice k

section Discipline

variable {o : Options} {body : List Instr} {m : Method} {r : Register} {k p : Nat}
  {i : LocalIndex} {l : Local}

variable (h : (Registry.default.recompile o body).result = .ok m)

include h

theorem backs_unique {c : StorageClass} {i' : LocalIndex} (hi : Backs m.locals r c i)
    (hi' : Backs m.locals r c i') : i = i' := by
  obtain ⟨f, hf, hl⟩ := Registry.recompile_sound h
  rw [hl] at hi hi'
  exact hf.backs_unique hi hi'

/-- The store to a local of a register is the end of a pop. -/
theorem stored_register (hp : (m.slice k)[p]? = some (.storeLocal i))
    (hl : m.locals[i.val]? = some l) (hr : l.origin = .register r) :
    StoresAt body k r ∧ p + 1 = (m.slice k).length ∧
      ∃ rest, replay (declared m.locals) (m.before k ++ (m.slice k).take p) [] =
        some (l.type :: rest) := by
  have hmem : .storeLocal i ∈ m.slice k := List.mem_of_getElem? hp
  obtain ⟨instr, hinstr⟩ := Registry.exists_instr_of_mem_slice h hmem
  obtain ⟨s, d, rule, -, ht, hrule, hrenders⟩ := Registry.default_recompile_at h hinstr
  rcases hrenders.of_mem_storeLocal hmem with
    ⟨r', top, rest, hop, hs, hi, hslice⟩ | ⟨slot, t, hi⟩ | ⟨ch, rfl, hseq⟩
  · cases hi.symm.trans hl
    cases hr
    rw [hslice] at hp
    obtain ⟨hlast, htypes⟩ := storeInto_at (declared m.locals) rest hp
    refine ⟨⟨instr.offset, by rw [hinstr, ← hop]⟩, by rw [hslice]; exact hlast, rest, ?_⟩
    calc replay (declared m.locals) (m.before k ++ (m.slice k).take p) []
        = (m.typesAt k).bind (replay (declared m.locals) ((m.slice k).take p)) := replay_append _ _
      _ = some ((StorageClass.of top).slotType :: rest) := by
          rw [ht, hs, Option.bind_some, hslice, htypes]
  · cases hi.symm.trans hl
    cases hr
  · exact absurd hseq (default_chain_names hrule i).2

/-- The load of a local of a register is the start of a push. -/
theorem loaded_register (hp : (m.slice k)[p]? = some (.loadLocal i))
    (hl : m.locals[i.val]? = some l) (hr : l.origin = .register r) :
    p = 0 ∧ ∃ w, ReadsAt body k w r := by
  have hmem : .loadLocal i ∈ m.slice k := List.mem_of_getElem? hp
  obtain ⟨instr, hinstr⟩ := Registry.exists_instr_of_mem_slice h hmem
  obtain ⟨s, d, rule, -, -, hrule, hrenders⟩ := Registry.default_recompile_at h hinstr
  rcases hrenders.of_mem_loadLocal hmem with
    ⟨c, w, r', hop, hform, hi, hslice⟩ | ⟨slot, t, hi⟩ | ⟨ch, rfl, hseq⟩
  · cases hi.symm.trans hl
    cases hr
    refine ⟨?_, w, instr.offset, c, by rw [hinstr, ← hop], hform⟩
    cases p with
    | zero => rfl
    | succ q =>
      rw [hslice, List.getElem?_cons_succ] at hp
      exact absurd (List.mem_of_getElem? hp) (loadLocal_notMem_narrowing _ _ i)
  · cases hi.symm.trans hl
    cases hr
  · exact absurd hseq (default_chain_names hrule i).1

end Discipline

/-- Whatever a recompiled method does with the locals of registers, it does at
the end of a pop and at the start of a push. -/
theorem recompile_slots (o : Options) (body : List Instr) (m : Method)
    (h : (Registry.default.recompile o body).result = .ok m) : SlotDiscipline body m where
  tiled := Registry.recompile_tiled h
  unique _ _ _ _ hi hi' := backs_unique h hi hi'
  stored _ _ _ _ _ hp hl hr := stored_register h hp hl hr
  loaded _ _ _ _ _ hp hl hr := loaded_register h hp hl hr
  whole k w r hk hw := by
    have hne : w ≠ .object := by
      rintro rfl
      simp at hw
    obtain ⟨i, ⟨hobj, -⟩ | ⟨-, hfloat, hi, hslice⟩ | ⟨-, hint, hi, hslice⟩⟩ :=
      Registry.default_read h hk
    · exact absurd hobj hne
    · exact ⟨⟨fun _ => ⟨i, hi, hslice⟩, fun _ => hfloat⟩, fun hn => absurd hfloat hn⟩
    · refine ⟨⟨fun hf => absurd hf hint, ?_⟩, fun _ => ⟨i, hi, hslice⟩⟩
      rintro ⟨i', hi', hslice'⟩
      -- the slice starts with the integer, which is not the float
      rw [hslice] at hslice'
      obtain rfl : i = i' := HostInstr.loadLocal.inj (List.cons.inj hslice').1
      exact absurd (hi.class_unique hi') (by decide)
  narrow k w r hk hw := by
    obtain ⟨i, ⟨rfl, -⟩ | ⟨hwhole, -⟩ | ⟨-, hint, hi, hslice⟩⟩ := Registry.default_read h hk
    · simp at hw
    · rcases hw with rfl | rfl <;> simp at hwhole
    · exact ⟨hint, i, hi, hslice⟩
  reference k r hk := by
    obtain ⟨i, ⟨-, hi, hslice⟩ | ⟨hwhole, -⟩ | ⟨hne, -⟩⟩ := Registry.default_read h hk
    · exact ⟨i, hi, hslice⟩
    · simp at hwhole
    · exact absurd rfl hne
  kept k r c i hk hi hmem := by
    obtain ⟨p, hp⟩ := List.getElem?_of_mem hmem
    exact hk (stored_register h hp hi rfl).1

/-- A float goes through a register, and an integer takes its place. -/
def floatThenInteger : List Instr :=
  let field : FieldRef := ⟨⟨"T", .classType⟩, "x", ⟨"System.Double", .r8⟩, true⟩
  [⟨0, .intrinsic .ldfld (.field field)⟩, ⟨1, .plain .pop (.register .r3)⟩,
    ⟨2, .plain .pushrQword (.register .r3)⟩, ⟨3, .plain .pop .none⟩,
    ⟨4, .plain .pushiDword (.dword 7)⟩, ⟨5, .plain .pop (.register .r3)⟩,
    ⟨6, .plain .pushrByte (.register .r3)⟩]

theorem recompile_slots_floatThenInteger :
    ∃ m, (Registry.default.recompile {} floatThenInteger).result = .ok m ∧
      m.slice 2 = [.loadLocal ⟨0, by decide⟩] ∧
      m.slice 6 = [.loadLocal ⟨1, by decide⟩, .convert .u1] ∧
      SlotDiscipline floatThenInteger m := by
  have hrun : ((Registry.default.recompile {} floatThenInteger).result.map
      fun m => (m.slice 2, m.slice 6)).toOption =
        some ([.loadLocal ⟨0, by decide⟩], [.loadLocal ⟨1, by decide⟩, .convert .u1]) := by
    decide +kernel
  obtain ⟨m, hm, hslices⟩ := Registry.exists_method hrun
  rw [Prod.mk.injEq] at hslices
  exact ⟨m, hm, hslices.1, hslices.2, recompile_slots {} floatThenInteger m hm⟩

/-! ### What a push reads -/

section Reads

variable {o : Options} {body : List Instr} {m : Method} {r : Register} {w : Width} {j k : Nat}

/-- A push loads what the last pop stored exactly if both or none of them are
about a reference. -/
theorem latest_store_read (h : (Registry.default.recompile o body).result = .ok m)
    (hj : ReadsAt body j w r) (hk : LastStore body r j k) :
    ∃ i i' t rest, loads (m.slice j) = [i] ∧ stores (m.slice k) = [i'] ∧
      m.typesAt k = some (t :: rest) ∧ ((w = .object ↔ t = .object) ↔ i = i') := by
  obtain ⟨t, rest, i', ht, hi', hstore⟩ := Registry.default_store h hk.stores
  -- a local of another class is another local
  have hsame : ∀ {c i}, Backs m.locals r c i → (c = .of t ↔ i = i') := by
    intro c i hi
    constructor
    · rintro rfl
      exact backs_unique h hi hi'
    · rintro rfl
      exact hi.class_unique hi'
  have hfloat : LastStoredFloat body m r j ↔ t = .float := by
    constructor
    · rintro ⟨k', rest', hk', ht'⟩
      rw [hk'.unique hk, ht] at ht'
      exact (List.cons.inj (Option.some.inj ht')).1
    · rintro rfl
      exact ⟨k, rest, hk, ht⟩
  have hstores : stores (m.slice k) = [i'] := by rw [hstore, stores_storeInto]
  obtain ⟨i, ⟨rfl, hi, hread⟩ | ⟨hwhole, hlast, hi, hread⟩ | ⟨hne, hlast, hi, hread⟩⟩ :=
    Registry.default_read h hj
  · refine ⟨i, i', t, rest, by rw [hread]; rfl, hstores, ht, ?_⟩
    rw [← hsame hi]
    cases t <;> decide
  · refine ⟨i, i', t, rest, by rw [hread]; rfl, hstores, ht, ?_⟩
    obtain rfl : t = .float := hfloat.mp hlast
    rw [← hsame hi]
    rcases hwhole with rfl | rfl <;> decide
  · refine ⟨i, i', t, rest, by rw [hread, loads_read], hstores, ht, ?_⟩
    have hflt : t ≠ .float := fun ht => hlast (hfloat.mpr ht)
    rw [← hsame hi, iff_false_left hne]
    cases t <;> first | decide | contradiction

/-- Fewer than 32 bits of a float are refused. -/
theorem lower_of_narrow_float {f : Frame} {offset : UInt64} {c : Opcode}
    (hc : c.pushForm? = some (.register w)) (hw : w = .byte ∨ w = .word)
    (hr : f.holdsFloat r = true) :
    Registry.default.lower ⟨offset, .plain c (.register r)⟩ f =
      .error ⟨.opcode c, .violation (.floatRegister r)⟩ f := by
  have hplan : Plan.pushRegister w r f = .error (.violation (.floatRegister r)) f := by
    have hget : (get : Lower Frame) f = .ok f f := rfl
    unfold Plan.pushRegister
    rw [bind_of_ok hget]
    rcases hw with rfl | rfl <;> simp only [hr] <;> rfl
  have hrule : (Instr.mk offset (.plain c (.register r))).code.defaultRule? = some .push :=
    defaultRule?_of_pushForm? hc
  rw [Registry.default_lower hrule]
  refine Rule.lower_eq_error.mpr ⟨_, ?_, rfl⟩
  rw [Rule.emit_eq]
  refine bind_of_error ?_
  have hs : Rule.push.supports (.opcode c) = true := by
    cases c <;> first | rfl | cases hc
  simp only [Rule.plan, Operation.code, hs, if_true, hc]
  exact hplan

/-- A body that goes well up to such a read is refused there. -/
theorem recompile_of_narrow_float {i : Instr} {fault : Fault}
    (h : (Registry.default.recompile o (body.take j)).result = .ok m) (hj : body[j]? = some i)
    (hk : LastStoredFloat (body.take j) m r j)
    (hlower : ∀ f : Frame, f.holdsFloat r = true → Registry.default.lower i f = .error fault f) :
    (Registry.default.recompile o body).result = .error ⟨j, i.offset, fault⟩ := by
  have hlt : j < body.length := (List.getElem?_eq_some_iff.mp hj).1
  have hlen : (body.take j).length = j := by
    rw [List.length_take]
    omega
  obtain ⟨a, f, hfront, -⟩ := Registry.recompile_eq_ok h
  obtain ⟨s, d, hcheck, hf⟩ := Registry.default_assemble_tracks hfront
  have hagain : Typing.check o.maxStackDepth ((body.take j).take j) {} {} = some (s, d) := by
    rw [List.take_take, Nat.min_self]
    exact hcheck
  have hmem : r ∈ s.floats := (lastStoredFloat_iff h hlen.ge hagain).mpr hk
  have hindex : a.mappings.size = j := by
    rw [Registry.size_mappings_of_assemble hfront, hlen]
  rw [Registry.recompile, Registry.assemble_at hj, hfront]
  simp only [Registry.assemble, hlower f ((hf.floats r).mpr hmem), hindex]

end Reads

/-- A push loads the very local that the last pop of its register stored
exactly if both or none of them are about a reference; and of a register that
was last stored with a float, fewer than 32 bits are refused. -/
theorem recompile_reads_latest_store (o : Options) (body : List Instr) :
    (∀ m j w r, (Registry.default.recompile o body).result = .ok m → ReadsAt body j w r →
      (∃ n, n < j ∧ StoresAt body n r) →
      ∃ k i i' t rest, LastStore body r j k ∧ loads (m.slice j) = [i] ∧
        stores (m.slice k) = [i'] ∧ m.typesAt k = some (t :: rest) ∧
        ((w = .object ↔ t = .object) ↔ i = i')) ∧
    ∀ m j offset c w r, (Registry.default.recompile o (body.take j)).result = .ok m →
      body[j]? = some ⟨offset, .plain c (.register r)⟩ → c.pushForm? = some (.register w) →
      w = .byte ∨ w = .word → LastStoredFloat body m r j →
      (Registry.default.recompile o body).result =
        .error ⟨j, offset, ⟨.opcode c, .violation (.floatRegister r)⟩⟩ := by
  constructor
  · intro m j w r h hj hstore
    obtain ⟨k, hk⟩ := exists_lastStore hstore
    obtain ⟨i, i', t, rest, hload, hs, ht, heq⟩ := latest_store_read h hj hk
    exact ⟨k, i, i', t, rest, hk, hload, hs, ht, heq⟩
  · intro m j offset c w r h hj hc hw hlast
    obtain ⟨k, rest, hk, ht⟩ := hlast
    have hlast' : LastStoredFloat (body.take j) m r j := ⟨k, rest, LastStore.take_iff.mpr hk, ht⟩
    exact recompile_of_narrow_float h hj hlast' fun f hr => lower_of_narrow_float hc hw hr

theorem recompile_reads_latest_store_narrowFloat :
    (∃ m i i', (Registry.default.recompile {} (narrowFloat.take 3)).result = .ok m ∧
      loads (m.slice 2) = [i] ∧ stores (m.slice 1) = [i'] ∧ i = i') ∧
    (Registry.default.recompile {} narrowFloat).result =
      .error ⟨3, 3, ⟨.opcode .pushrByte, .violation (.floatRegister .r3)⟩⟩ := by
  have hrun : ((Registry.default.recompile {} (narrowFloat.take 3)).result.map
      fun m => m.typesAt 1).toOption = some (some [.float]) := by decide +kernel
  obtain ⟨m, hm, htypes⟩ := Registry.exists_method hrun
  have hstore : StoresAt narrowFloat 1 .r3 := ⟨1, rfl⟩
  have hlast : LastStore narrowFloat .r3 2 1 := .of_storesAt hstore
  have hlast' : LastStore narrowFloat .r3 3 1 := by
    refine (LastStore.succ_iff ?_).mpr hlast
    rintro ⟨offset, h⟩
    cases h
  constructor
  · obtain ⟨k, i, i', t, rest, hk, hload, hs, ht, heq⟩ :=
      (recompile_reads_latest_store {} (narrowFloat.take 3)).1 m 2 .qword .r3 hm
        ⟨2, .pushrQword, rfl, rfl⟩ ⟨1, by decide, 1, rfl⟩
    obtain rfl : k = 1 := hk.unique (LastStore.of_storesAt ⟨1, rfl⟩)
    rw [htypes] at ht
    cases ht
    exact ⟨m, i, i', hm, hload, hs, heq.mp (by decide)⟩
  · exact (recompile_reads_latest_store {} narrowFloat).2 m 3 3 .pushrByte .byte .r3 hm rfl rfl
      (Or.inl rfl) ⟨1, [], hlast', htypes⟩

/-- A register is stored with a reference and read as an integer, and another
one the other way round. -/
def readsOfAnotherClass : List Instr :=
  [⟨0, .plain .pushrObject (.register .r0)⟩, ⟨1, .plain .pop (.register .r1)⟩,
    ⟨2, .plain .pushrQword (.register .r1)⟩, ⟨3, .plain .pop (.register .r2)⟩,
    ⟨4, .plain .pushrObject (.register .r2)⟩]

/-- Both reads load another local of their register than the last store went
to. -/
theorem recompile_readsOfAnotherClass :
    ReadsAt readsOfAnotherClass 2 .qword .r1 ∧ LastStore readsOfAnotherClass .r1 2 1 ∧
    ReadsAt readsOfAnotherClass 4 .object .r2 ∧ LastStore readsOfAnotherClass .r2 4 3 ∧
    ∃ m, (Registry.default.recompile {} readsOfAnotherClass).result = .ok m ∧
      loads (m.slice 2) ≠ stores (m.slice 1) ∧ loads (m.slice 4) ≠ stores (m.slice 3) := by
  have hrun : ((Registry.default.recompile {} readsOfAnotherClass).result.map fun m =>
      (decide (loads (m.slice 2) = stores (m.slice 1)),
        decide (loads (m.slice 4) = stores (m.slice 3)))).toOption = some (false, false) := by
    decide +kernel
  obtain ⟨m, hm, hne⟩ := Registry.exists_method hrun
  simp only [Prod.mk.injEq, decide_eq_false_iff_not] at hne
  exact ⟨⟨2, .pushrQword, rfl, rfl⟩, .of_storesAt ⟨1, rfl⟩, ⟨4, .pushrObject, rfl, rfl⟩,
    .of_storesAt ⟨3, rfl⟩, m, hm, hne⟩

end Devirt
