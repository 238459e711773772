/-
# Mappings tile the code

A method records for each decoded instruction the stretch of its code that the
instruction was lowered to. The stretches follow one another without a gap from
the start of the code to its end, in the order of the instructions, and each
holds what its instruction is lowered to on the frame that those before it lead
to from a new one (`recompile_mapped`).

Nothing is pending between two instructions, so none is handed out with the code
of another. Every rule has code for what it serves, so no stretch is empty; with
the default table the longest is the comparison of two numbers.

Key definitions: `Mapping.stop`, `Method.Mapped`.
Key theorems: `Rule.Renders.length_pos`, `Rule.Renders.length_le`,
`Registry.mapping_at`, `recompile_mapped`.
-/
import Devirt.Proofs.Beginnings
import Devirt.Proofs.Underneath

namespace Devirt

open Devirt.Frame Lower HostInstr

/-! ### How much code an instruction has -/

theorem Chain.length_pos (c : Chain) : 0 < c.sequence.length := by
  rw [List.length_pos_iff]
  intro hnil
  have hshape : (⟨0, 0⟩ : Shape) = ⟨c.operandCount, 1⟩ := by
    rw [← c.shape_eq, hnil]
    rfl
  rw [Shape.mk.injEq] at hshape
  omega

theorem length_narrowing_le (c : StorageClass) (w : Width) : (narrowing c w).length ≤ 1 := by
  cases c <;> cases w <;> decide

theorem length_storeInto (top : StackType) (home : LocalIndex) :
    0 < (Plan.storeInto top home).length ∧ (Plan.storeInto top home).length ≤ 2 := by
  unfold Plan.storeInto
  split <;> simp

namespace Rule.Renders

variable {s : Typing} {ls : Array Local} {rule : Rule} {op : Operation} {is : List HostInstr}

/-- No operation is rendered to nothing. -/
theorem length_pos (h : rule.Renders s ls op is) : 0 < is.length := by
  cases h with
  | chain => exact Chain.length_pos _
  | store => exact (length_storeInto _ _).1
  | _ => exact Nat.succ_pos _

/-- Chains apart, no code is longer than that of a comparison of two numbers. -/
theorem length_le (h : rule.Renders s ls op is)
    (hchain : ∀ ch, rule = .chain ch → ch.sequence.length ≤ 9) : is.length ≤ 9 := by
  cases h with
  | chain => exact hchain _ rfl
  | store => exact (length_storeInto _ _).2.trans (by omega)
  | @read _ w r =>
    have hlen : (narrowing (s.readClass w r) w).length ≤ 1 := length_narrowing_le _ _
    rw [List.length_cons]
    omega
  | numbers => exact Nat.le_refl 9
  | _ => simp [Lowering.referencesDiffer]

end Rule.Renders

theorem default_chain_length_le {code : CodeRef} {ch : Chain}
    (h : code.defaultRule? = some (.chain ch)) : ch.sequence.length ≤ 9 := by
  rcases default_chain_cases h with ⟨op, hseq⟩ | ⟨op, hseq⟩ | rfl
  · simp [hseq]
  · simp [hseq]
  · decide

/-! ### Bodies, one instruction further -/

namespace Registry

variable {reg : Registry} {o : Options} {body : List Instr} {m : Method} {k : Nat} {i : Instr}

/-- What is assembled is lowered, instruction by instruction. -/
theorem lowerAll_of_assemble : ∀ (body : List Instr) {a a' : Assembly} {f g : Frame},
    reg.assemble body a f = (.ok a', g) → ∃ codes, reg.lowerAll body f = .ok codes g
  | [], a, a', f, g, h => by
    cases h
    exact ⟨[], rfl⟩
  | i :: rest, a, a', f, g, h => by
    rw [assemble] at h
    cases hlower : reg.lower i f with
    | error fault f' =>
      rw [hlower] at h
      cases h
    | ok code f' =>
      rw [hlower] at h
      obtain ⟨codes, hcodes⟩ := lowerAll_of_assemble rest h
      have hrest : (rest.mapM reg.lower) f' = .ok codes g := hcodes
      refine ⟨code :: codes, ?_⟩
      rw [lowerAll, List.mapM_cons, bind_of_ok hlower, bind_of_ok hrest]
      rfl

/-- The method of a body begins with what its first `k` instructions and the one
behind them are assembled to. -/
theorem mapping_at (h : (reg.recompile o body).result = .ok m) (hk : body[k]? = some i) :
    ∃ a f code g, reg.assemble (body.take k) {} (.start o) = (.ok a, f) ∧
      reg.lower i f = .ok code g ∧
      reg.assemble (body.take (k + 1)) {} (.start o) = (.ok (a.append i.offset code), g) ∧
      m.mappings[k]? = some ⟨i.offset, a.instructions.size, code.size⟩ ∧
      a.instructions.toList ++ code.toList <+: m.instructions.toList := by
  obtain ⟨a, f, code, g, hfront, hlower, -⟩ := recompile_at h hk
  have hnext : reg.assemble (body.take (k + 1)) {} (.start o) = (.ok (a.append i.offset code), g) := by
    rw [List.take_add_one, hk, Option.toList_some]
    exact assemble_snoc hfront hlower
  obtain ⟨a', f', hall, hof⟩ := assemble_of_recompile h
  rw [← List.take_append_drop (k + 1) body, assemble_append, hnext] at hall
  have hdepth : g.stack.depth ≤ g.stack.peak := (assemble_standing hnext).2.2.depth_le_peak
  have hcont : Continues (a.append i.offset code) g a' f' := assemble_continues hdepth hall
  refine ⟨a, f, code, g, hfront, hlower, hnext, ?_, ?_⟩
  · have hlt : k < body.length := (List.getElem?_eq_some_iff.mp hk).1
    have hcount : a.mappings.toList.length = k := by
      rw [Array.length_toList, size_mappings_of_assemble hfront, List.length_take]
      omega
    have hmappings : a.mappings.toList ++ [⟨i.offset, a.instructions.size, code.size⟩] <+:
        a'.mappings.toList := by
      have hm := hcont.mappings
      rwa [Assembly.append, Array.toList_push] at hm
    obtain ⟨later, hlater⟩ := hmappings
    rw [hof.mappings, ← Array.getElem?_toList, ← hlater, List.append_assoc,
      List.getElem?_append_right hcount.le, hcount, Nat.sub_self]
    rfl
  · have hcode := hcont.instructions
    rwa [Assembly.append, Array.toList_append, ← hof.instructions] at hcode

end Registry

/-! ### The mappings of a method -/

/-- Where the stretch of a mapping ends. -/
def Mapping.stop (e : Mapping) : Nat := e.start + e.length

/-- The mappings are those of the body: they cut the code, from its start to its
end, into what each instruction is lowered to. -/
structure Method.Mapped (reg : Registry) (o : Options) (body : List Instr) (m : Method) : Prop where
  /-- There is one for each instruction, with its offset. -/
  offsets : m.mappings.toList.map Mapping.offset = body.map Instr.offset
  first : ∀ e, m.mappings[0]? = some e → e.start = 0
  next : ∀ k e e', m.mappings[k]? = some e → m.mappings[k + 1]? = some e' → e.stop = e'.start
  /-- The last one ends with the code; without any there is none. -/
  last : m.mappings.back?.elim 0 Mapping.stop = m.instructions.size
  /-- The code of each is what its instruction is lowered to, on the frame that
  those before it lead to from a new one. -/
  lowered : ∀ k i, body[k]? = some i → ∃ e codes f g, m.mappings[k]? = some e ∧
    reg.lowerAll (body.take k) (.start o) = .ok codes f ∧
    reg.lower i f = .ok (m.instructions.extract e.start e.stop) g
  pos : ∀ e ∈ m.mappings, 1 ≤ e.length

namespace Registry

variable {reg : Registry} {o : Options} {body : List Instr} {m : Method}

theorem size_mappings (h : (reg.recompile o body).result = .ok m) : m.mappings.size = body.length := by
  obtain ⟨a, f, ha, hof⟩ := assemble_of_recompile h
  rw [hof.mappings]
  exact size_mappings_of_assemble ha

/-- A stretch of code that begins the rest of it. -/
theorem extract_of_prefix {code rest before : Array HostInstr}
    (h : before.toList ++ code.toList <+: rest.toList) :
    rest.extract before.size (before.size + code.size) = code := by
  obtain ⟨later, hlater⟩ := h
  have hdrop : rest.toList.drop before.size = code.toList ++ later := by
    rw [← hlater, List.append_assoc, List.drop_left' Array.length_toList]
  apply Array.toList_inj.mp
  calc (rest.extract before.size (before.size + code.size)).toList
      = (rest.toList.drop before.size).take code.size := by
        rw [Array.toList_extract, List.extract_eq_take_drop, Nat.add_sub_cancel_left]
    _ = code.toList := by rw [hdrop, List.take_left' Array.length_toList]

/-- The instruction of a mapping. -/
theorem exists_instr_of_mapping (h : (reg.recompile o body).result = .ok m) {k : Nat} {e : Mapping}
    (he : m.mappings[k]? = some e) : ∃ i, body[k]? = some i := by
  have hlt : k < m.mappings.size := (Array.getElem?_eq_some_iff.mp he).1
  rw [size_mappings h] at hlt
  exact ⟨body[k], List.getElem?_eq_getElem hlt⟩

/-- A stretch starts where the code of the instructions before its own ends, and
with its own instruction it goes on to its end. -/
theorem bounds_of_mapping (h : (reg.recompile o body).result = .ok m) {k : Nat} {e : Mapping}
    (he : m.mappings[k]? = some e) : ∃ a b f g,
      reg.assemble (body.take k) {} (.start o) = (.ok a, f) ∧ e.start = a.instructions.size ∧
      reg.assemble (body.take (k + 1)) {} (.start o) = (.ok b, g) ∧ e.stop = b.instructions.size := by
  obtain ⟨i, hi⟩ := exists_instr_of_mapping h he
  obtain ⟨a, f, code, g, hfront, -, hnext, hmap, -⟩ := mapping_at h hi
  rw [he, Option.some.injEq] at hmap
  subst hmap
  refine ⟨a, a.append i.offset code, f, g, hfront, rfl, hnext, ?_⟩
  show a.instructions.size + code.size = (a.instructions ++ code).size
  rw [Array.size_append]

/-- The length of a mapping is that of the code of its instruction. -/
theorem renders_of_mapping (h : (reg.recompile o body).result = .ok m) {k : Nat} {e : Mapping}
    (he : m.mappings[k]? = some e) : ∃ i r s ls is, body[k]? = some i ∧ reg.find? i.code = some r ∧
      r.rule.Renders s ls i.operation is ∧ e.length = is.length := by
  obtain ⟨i, hi⟩ := exists_instr_of_mapping h he
  obtain ⟨a, f, code, g, hfront, hlower, -, hmap, -⟩ := mapping_at h hi
  rw [he, Option.some.injEq] at hmap
  obtain ⟨hsound, hpending, hmirrors⟩ := assemble_standing hfront
  obtain ⟨r, hr, hrule⟩ := lower_eq_ok.mp hlower
  have hrenders := (Rule.lower_renders hsound hmirrors.room hpending hrule).1
  refine ⟨i, r, _, _, _, hi, hr, hrenders, ?_⟩
  rw [hmap, Array.length_toList]

theorem offsets_of_mappings (h : (reg.recompile o body).result = .ok m) :
    m.mappings.toList.map Mapping.offset = body.map Instr.offset := by
  apply List.ext_getElem?
  intro k
  rw [List.getElem?_map, List.getElem?_map, Array.getElem?_toList]
  by_cases hk : k < body.length
  · have hi : body[k]? = some body[k] := List.getElem?_eq_getElem hk
    obtain ⟨a, f, code, g, -, -, -, hmap, -⟩ := mapping_at h hi
    rw [hi, hmap]
    rfl
  · have hmap : m.mappings[k]? = none := by
      rw [Array.getElem?_eq_none_iff, size_mappings h]
      omega
    rw [hmap, List.getElem?_eq_none (by omega)]
    rfl

/-- The last stretch ends where the code does. -/
theorem stop_of_last (h : (reg.recompile o body).result = .ok m) :
    m.mappings.back?.elim 0 Mapping.stop = m.instructions.size := by
  have hcount : m.mappings.size = body.length := size_mappings h
  obtain ⟨a, f, ha, hof⟩ := assemble_of_recompile h
  rw [Array.back?_eq_getElem?]
  cases hlast : m.mappings[m.mappings.size - 1]? with
  | none =>
    have hle : m.mappings.size ≤ m.mappings.size - 1 := Array.getElem?_eq_none_iff.mp hlast
    have hempty : body = [] := List.length_eq_zero_iff.mp (by omega)
    subst hempty
    cases ha
    rw [hof.instructions]
    rfl
  | some e =>
    have hlt : m.mappings.size - 1 < m.mappings.size := (Array.getElem?_eq_some_iff.mp hlast).1
    obtain ⟨-, b, -, g, -, -, hb, hstop⟩ := bounds_of_mapping h hlast
    rw [List.take_of_length_le (by omega), ha] at hb
    cases hb
    rw [hof.instructions]
    exact hstop

end Registry

/-- Whatever rules the registry has, the mappings of a recompiled method tile its
code. No stretch is empty, and with the default table none is longer than nine
instructions. -/
theorem recompile_mapped (reg : Registry) (o : Options) (body : List Instr) (m : Method)
    (h : (reg.recompile o body).result = .ok m) :
    m.Mapped reg o body ∧ (reg = .default → ∀ e ∈ m.mappings, e.length ≤ 9) := by
  constructor
  · refine { offsets := Registry.offsets_of_mappings h, first := ?_, next := ?_,
             last := Registry.stop_of_last h, lowered := ?_, pos := ?_ }
    · intro e he
      obtain ⟨a, -, f, -, ha, hstart, -, -⟩ := Registry.bounds_of_mapping h he
      cases ha
      exact hstart
    · intro k e e' he he'
      obtain ⟨-, b, -, g, -, -, hb, hstop⟩ := Registry.bounds_of_mapping h he
      obtain ⟨a, -, f, -, ha, hstart, -, -⟩ := Registry.bounds_of_mapping h he'
      rw [hb] at ha
      cases ha
      rw [hstop, hstart]
    · intro k i hi
      obtain ⟨a, f, code, g, hfront, hlower, -, hmap, hcode⟩ := Registry.mapping_at h hi
      obtain ⟨codes, hcodes⟩ := Registry.lowerAll_of_assemble _ hfront
      refine ⟨_, codes, f, g, hmap, hcodes, ?_⟩
      rw [Mapping.stop, Registry.extract_of_prefix hcode]
      exact hlower
    · intro e he
      obtain ⟨k, hk⟩ := Array.getElem?_of_mem he
      obtain ⟨i, r, s, ls, is, -, -, hrenders, hlen⟩ := Registry.renders_of_mapping h hk
      rw [hlen]
      exact hrenders.length_pos
  · rintro rfl e he
    obtain ⟨k, hk⟩ := Array.getElem?_of_mem he
    obtain ⟨i, r, s, ls, is, -, hr, hrenders, hlen⟩ := Registry.renders_of_mapping h hk
    rw [hlen]
    apply hrenders.length_le
    intro ch hch
    have hdefault : i.code.defaultRule? = some (.chain ch) := by
      rw [← Registry.default_find?, hr, Option.map_some, hch]
    exact default_chain_length_le hdefault

/-- The same comparison twice, so that every offset occurs twice. -/
theorem recompile_mapped_repeatedOffsets :
    ∃ m, (Registry.default.recompile { maxStackDepth := 3 }
        (selfComparison ++ selfComparison)).result = .ok m ∧
      m.Mapped .default { maxStackDepth := 3 } (selfComparison ++ selfComparison) ∧
      m.mappings.toList.map Mapping.offset = [0, 1, 2, 3, 0, 1, 2, 3] ∧
      m.mappings[6]? = some ⟨2, 19, 9⟩ ∧ ∀ e ∈ m.mappings, e.length ≤ 9 := by
  have hrun : ((Registry.default.recompile { maxStackDepth := 3 }
      (selfComparison ++ selfComparison)).result.map fun m => m.mappings[6]?).toOption =
        some (some ⟨2, 19, 9⟩) := by decide +kernel
  obtain ⟨m, hm, hmap⟩ := Registry.exists_method hrun
  obtain ⟨hmapped, hlen⟩ := recompile_mapped Registry.default _ _ m hm
  exact ⟨m, hm, hmapped, hmapped.offsets, hmap, hlen rfl⟩

end Devirt
