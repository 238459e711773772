/-
# A method, instruction by instruction

The mappings of a method cut its code into slices, one for each decoded
instruction. The slices in order are the code, and the slice of an instruction
is the code that its rule has for it on the frame that the instructions before
it led to (`Registry.recompile_renders`). With the default table that frame
stands at a typing of the decoded code (`Registry.default_recompile_at`).

Key definitions: `Method.slices`, `Method.slice`, `Method.before`,
`Method.typesAt`, `Assembly.Tiled`.
Key theorems: `Registry.assembled_induction`, `Registry.recompile_tiled`,
`Registry.recompile_renders`, `Registry.default_recompile_at`.
-/
import Devirt.Proofs.Acceptance
import Devirt.Proofs.Mirror
import Devirt.Proofs.Rendering

namespace Devirt

open Devirt.Frame Lower HostInstr

/-! ### Slices -/

/-- The stretch of code that a mapping points to. -/
def Mapping.codeIn (is : List HostInstr) (e : Mapping) : List HostInstr :=
  (is.drop e.start).take e.length

/-- The code of each decoded instruction so far. -/
def Assembly.slices (a : Assembly) : List (List HostInstr) :=
  a.mappings.toList.map (Mapping.codeIn a.instructions.toList)

namespace Method

/-- The code of each decoded instruction. -/
def slices (m : Method) : List (List HostInstr) :=
  m.mappings.toList.map (Mapping.codeIn m.instructions.toList)

/-- The code of the `k`-th decoded instruction. -/
def slice (m : Method) (k : Nat) : List HostInstr := m.slices[k]?.getD []

/-- The code of the decoded instructions before the `k`-th. -/
def before (m : Method) (k : Nat) : List HostInstr := (m.slices.take k).flatten

/-- The types on the stack when the `k`-th decoded instruction is reached, by
a replay of the code before it. -/
def typesAt (m : Method) (k : Nat) : Option (List StackType) :=
  replay (declared m.locals) (m.before k) []

end Method

/-! ### Bodies, from the front -/

namespace Registry

variable {reg : Registry}

/-- What lowering one more instruction preserves, assembling a body does. -/
theorem assemble_induction {P : List Instr → Assembly → Frame → Prop}
    (hstep : ∀ done i a f code g, P done a f → reg.lower i f = .ok code g →
      P (done ++ [i]) (a.append i.offset code) g) :
    ∀ (body done : List Instr) {a a' : Assembly} {f f' : Frame}, P done a f →
      reg.assemble body a f = (.ok a', f') → P (done ++ body) a' f'
  | [], done, a, a', f, f', hP, h => by
    cases h
    rw [List.append_nil]
    exact hP
  | i :: rest, done, a, a', f, f', hP, h => by
    unfold assemble at h
    cases hl : reg.lower i f with
    | error fault g => simp [hl] at h
    | ok code g =>
      simp only [hl] at h
      have hrest := assemble_induction hstep rest (done ++ [i]) (hstep done i a f code g hP hl) h
      rw [List.append_assoc, List.singleton_append] at hrest
      exact hrest

/-- The rest of a body is assembled where its beginning ends. -/
theorem assemble_append {rest : List Instr} : ∀ (body : List Instr) (a : Assembly) (f : Frame),
    reg.assemble (body ++ rest) a f =
      match reg.assemble body a f with
      | (.ok a', f') => reg.assemble rest a' f'
      | (.error e, f') => (.error e, f')
  | [], a, f => rfl
  | i :: body, a, f => by
    rw [List.cons_append, assemble, assemble]
    cases reg.lower i f with
    | ok code g => exact assemble_append body (a.append i.offset code) g
    | error fault g => rfl

/-- One more instruction is assembled where those before it lead to. -/
theorem assemble_snoc {body : List Instr} {i : Instr} {a a' : Assembly} {f f' g : Frame}
    {code : Array HostInstr} (hfront : reg.assemble body a f = (.ok a', f'))
    (hlower : reg.lower i f' = .ok code g) :
    reg.assemble (body ++ [i]) a f = (.ok (a'.append i.offset code), g) := by
  rw [assemble_append, hfront]
  simp only [assemble, hlower]

/-- What each instruction preserves where those before it lead to is so where a
whole body leads to. -/
theorem assembled_induction {P : List Instr → Assembly → Frame → Prop} {body : List Instr}
    {a a' : Assembly} {f f' : Frame} (h : reg.assemble body a f = (.ok a', f')) (hnil : P [] a f)
    (hsnoc : ∀ done i b g code k, reg.assemble done a f = (.ok b, g) → P done b g →
      reg.lower i g = .ok code k → P (done ++ [i]) (b.append i.offset code) k) :
    P body a' f' := by
  have hrun := assemble_induction (P := fun done b g => reg.assemble done a f = (.ok b, g) ∧ P done b g)
    ?_ body [] ⟨rfl, hnil⟩ h
  · exact hrun.2
  · rintro done i b g code k ⟨hdone, hP⟩ hlower
    exact ⟨assemble_snoc hdone hlower, hsnoc done i b g code k hdone hP hlower⟩

/-- An instruction is lowered where the instructions before it lead to. -/
theorem assemble_at {body : List Instr} {k : Nat} {i : Instr} (hk : body[k]? = some i)
    (a : Assembly) (f : Frame) :
    reg.assemble body a f =
      match reg.assemble (body.take k) a f with
      | (.ok a', f') => reg.assemble (i :: body.drop (k + 1)) a' f'
      | (.error e, f') => (.error e, f') := by
  obtain ⟨hlt, rfl⟩ := List.getElem?_eq_some_iff.mp hk
  have hbody : body.take k ++ body[k] :: body.drop (k + 1) = body := by
    rw [← List.drop_eq_getElem_cons hlt, List.take_append_drop]
  rw [← assemble_append, hbody]

/-- What a computation finds about the method of a body is so of the method. -/
theorem exists_method {o : Options} {body : List Instr} {α : Type} {k : Method → α} {a : α}
    (h : ((reg.recompile o body).result.map k).toOption = some a) :
    ∃ m, (reg.recompile o body).result = .ok m ∧ k m = a := by
  cases hm : (reg.recompile o body).result with
  | error e =>
    rw [hm] at h
    cases h
  | ok m =>
    rw [hm] at h
    exact ⟨m, rfl, Option.some.inj h⟩

end Registry

/-! ### The slices of an assembly -/

/-- The slices make up the code, and each lies in it. -/
structure Assembly.Tiled (a : Assembly) : Prop where
  flatten : a.slices.flatten = a.instructions.toList
  within : ∀ e ∈ a.mappings.toList, e.start + e.length ≤ a.instructions.toList.length

theorem Mapping.codeIn_append {is : List HostInstr} {e : Mapping} (js : List HostInstr)
    (h : e.start + e.length ≤ is.length) : e.codeIn (is ++ js) = e.codeIn is := by
  have hstart : e.start ≤ is.length := by omega
  have hlen : e.length ≤ (is.drop e.start).length := by
    rw [List.length_drop]
    omega
  rw [codeIn, codeIn, List.drop_append_of_le_length hstart, List.take_append_of_le_length hlen]

namespace Assembly

variable {a : Assembly}

theorem Tiled.empty : ({} : Assembly).Tiled := ⟨rfl, fun _ h => by cases h⟩

theorem length_slices (a : Assembly) : a.slices.length = a.mappings.size := by
  rw [slices, List.length_map, Array.length_toList]

theorem slices_append (ha : a.Tiled) (offset : UInt64) (code : Array HostInstr) :
    (a.append offset code).slices = a.slices ++ [code.toList] := by
  have hcode : (a.append offset code).instructions.toList =
      a.instructions.toList ++ code.toList := by
    simp [append]
  have hold : ∀ e ∈ a.mappings.toList,
      Mapping.codeIn (a.instructions.toList ++ code.toList) e =
        Mapping.codeIn a.instructions.toList e :=
    fun e he => Mapping.codeIn_append code.toList (ha.within e he)
  have hnew : Mapping.codeIn (a.instructions.toList ++ code.toList)
      ⟨offset, a.instructions.size, code.size⟩ = code.toList := by
    rw [Mapping.codeIn, ← Array.length_toList, List.drop_left, ← Array.length_toList,
      List.take_length]
  calc (a.append offset code).slices
      = (a.mappings.push ⟨offset, a.instructions.size, code.size⟩).toList.map
          (Mapping.codeIn (a.instructions.toList ++ code.toList)) := by rw [slices, hcode]; rfl
    _ = a.slices ++ [code.toList] := by
        rw [Array.toList_push, List.map_append, List.map_congr_left hold, List.map_singleton, hnew]
        rfl

theorem Tiled.append (ha : a.Tiled) (offset : UInt64) (code : Array HostInstr) :
    (a.append offset code).Tiled where
  flatten := by
    rw [slices_append ha, List.flatten_append, ha.flatten]
    simp [Assembly.append]
  within e he := by
    have hlen : (a.append offset code).instructions.toList.length =
        a.instructions.toList.length + code.size := by
      simp [Assembly.append]
    rw [Assembly.append, Array.toList_push, List.mem_append, List.mem_singleton] at he
    rw [hlen]
    rcases he with he | rfl
    · have := ha.within e he
      omega
    · simp

end Assembly

namespace Registry

variable {reg : Registry} {o : Options} {body : List Instr} {m : Method}

/-- Assembling a body adds a slice for each of its instructions. -/
theorem assemble_slices {a a' : Assembly} {f f' : Frame} (ha : a.Tiled)
    (h : reg.assemble body a f = (.ok a', f')) :
    a'.Tiled ∧ ∃ codes, a'.slices = a.slices ++ codes ∧ codes.length = body.length := by
  have hrun := assemble_induction
    (P := fun done b _ =>
      b.Tiled ∧ ∃ codes, b.slices = a.slices ++ codes ∧ codes.length = done.length)
    ?_ body [] ⟨ha, [], (List.append_nil _).symm, rfl⟩ h
  · exact hrun
  · rintro done i b g code k ⟨hb, codes, hcodes, hlen⟩ -
    refine ⟨hb.append i.offset code, codes ++ [code.toList], ?_, ?_⟩
    · rw [Assembly.slices_append hb, hcodes, List.append_assoc]
    · rw [List.length_append, List.length_append, hlen]
      rfl

/-- It records a mapping for each of them. -/
theorem size_mappings_of_assemble {a : Assembly} {f f' : Frame}
    (h : reg.assemble body {} f = (.ok a, f')) : a.mappings.size = body.length := by
  obtain ⟨-, codes, hcodes, hlen⟩ := assemble_slices .empty h
  have hall : a.slices = codes := by simpa [Assembly.slices] using hcodes
  rw [← Assembly.length_slices, hall, hlen]

/-- The slices of a method, one for each instruction, are its code. -/
theorem recompile_tiled (h : (reg.recompile o body).result = .ok m) :
    m.slices.flatten = m.instructions.toList ∧ m.slices.length = body.length := by
  obtain ⟨a, f, ha, hi, -, -, hm⟩ := recompile_eq_ok h
  have htiled : a.Tiled := (assemble_slices .empty ha).1
  have hslices : m.slices = a.slices := by
    rw [Method.slices, hi, hm]
    rfl
  constructor
  · rw [hslices, hi, htiled.flatten]
  · rw [hslices, Assembly.length_slices, size_mappings_of_assemble ha]

/-- Where a slice has an instruction, the body has one. -/
theorem exists_instr_of_mem_slice (h : (reg.recompile o body).result = .ok m) {k : Nat}
    {x : HostInstr} (hx : x ∈ m.slice k) : ∃ i, body[k]? = some i := by
  by_cases hk : k < body.length
  · exact ⟨body[k], List.getElem?_eq_getElem hk⟩
  · have hlen : m.slices.length ≤ k := by
      rw [(recompile_tiled h).2]
      omega
    rw [Method.slice, List.getElem?_eq_none hlen] at hx
    cases hx

/-- The code of a method is the code of its slices. -/
theorem mem_instructions_iff (h : (reg.recompile o body).result = .ok m) {x : HostInstr} :
    x ∈ m.instructions ↔ ∃ k, x ∈ m.slice k := by
  rw [← Array.mem_toList_iff, ← (recompile_tiled h).1, List.mem_flatten]
  constructor
  · rintro ⟨slice, hslice, hx⟩
    obtain ⟨k, hk, rfl⟩ := List.getElem_of_mem hslice
    refine ⟨k, ?_⟩
    rw [Method.slice, List.getElem?_eq_getElem hk]
    exact hx
  · rintro ⟨k, hx⟩
    rw [Method.slice] at hx
    cases hk : m.slices[k]? with
    | none =>
      rw [hk] at hx
      cases hx
    | some slice =>
      rw [hk] at hx
      exact ⟨slice, List.mem_of_getElem? hk, hx⟩

theorem exists_of_getElem?_flatten {x : HostInstr} : ∀ {L : List (List HostInstr)} {n : Nat},
    L.flatten[n]? = some x → ∃ k p l, L[k]? = some l ∧ l[p]? = some x ∧
      L.flatten.take n = (L.take k).flatten ++ l.take p
  | [], n, h => by
    rw [List.flatten_nil, List.getElem?_nil] at h
    cases h
  | l :: L, n, h => by
    rw [List.flatten_cons] at h ⊢
    rcases Nat.lt_or_ge n l.length with hlt | hge
    · rw [List.getElem?_append_left hlt] at h
      exact ⟨0, n, l, rfl, h, List.take_append_of_le_length hlt.le⟩
    · rw [List.getElem?_append_right hge] at h
      obtain ⟨k, p, l', hk, hp, htake⟩ := exists_of_getElem?_flatten h
      refine ⟨k + 1, p, l', hk, hp, ?_⟩
      rw [List.take_append, htake, List.take_of_length_le hge, List.take_succ_cons,
        List.flatten_cons, List.append_assoc]

/-- An instruction of the code is one of a slice, and the code before it is that
of the slices before and of the slice up to it. -/
theorem position_of_getElem? (h : (reg.recompile o body).result = .ok m) {n : Nat} {x : HostInstr}
    (hx : m.instructions[n]? = some x) :
    ∃ k p, (m.slice k)[p]? = some x ∧
      m.instructions.toList.take n = m.before k ++ (m.slice k).take p := by
  rw [← Array.getElem?_toList, ← (recompile_tiled h).1] at hx
  obtain ⟨k, p, l, hk, hp, htake⟩ := exists_of_getElem?_flatten hx
  have hslice : m.slice k = l := by
    rw [Method.slice, hk, Option.getD_some]
  refine ⟨k, p, hslice.symm ▸ hp, ?_⟩
  rw [← (recompile_tiled h).1, htake, hslice, Method.before]

/-- The frame that has assembled a body has a sound table, nothing pending and
the stack of the code so far. -/
theorem assemble_standing {a : Assembly} {f : Frame}
    (h : reg.assemble body {} (.start o) = (.ok a, f)) :
    f.SoundLocals ∧ f.pending = #[] ∧ f.Mirrors o a.instructions.toList := by
  have hsound : CodeInvariant.Behind (fun _ f => f.SoundLocals) [] (.start o) := .start o
  have hstart : CodeInvariant.Behind (Frame.Mirrors o) [] (.start o) := .start o
  have hpending : f.pending = #[] := assemble_pending body rfl h
  have hmirrors := (mirrors_invariant o).assemble body hstart h
  rw [CodeInvariant.Behind, hpending, List.append_nil] at hmirrors
  exact ⟨sound_invariant.assemble body hsound h, hpending, hmirrors⟩

/-- The table of locals of a method is that of a frame. -/
theorem recompile_sound (h : (reg.recompile o body).result = .ok m) :
    ∃ f : Frame, f.SoundLocals ∧ m.locals = f.locals := by
  obtain ⟨a, f, ha, -, hl, -, -⟩ := recompile_eq_ok h
  exact ⟨f, (assemble_standing ha).1, hl⟩

/-- The code of a method can be replayed up to any place. -/
theorem replay_take (h : (reg.recompile o body).result = .ok m) (n : Nat) :
    ∃ ts, replay (declared m.locals) (m.instructions.toList.take n) [] = some ts := by
  obtain ⟨a, f, ha, hi, hl, -, -⟩ := recompile_eq_ok h
  obtain ⟨d, hd, -⟩ := (assemble_standing ha).2.2.peak.le n
  obtain ⟨ts, hts, -⟩ := Option.map_eq_some_iff.mp hd
  rw [hi, hl]
  exact ⟨ts, hts⟩

/-- Each slice is what lowering its instruction handed out on the frame that
the instructions before it led to. -/
theorem recompile_at (h : (reg.recompile o body).result = .ok m) {k : Nat} {i : Instr}
    (hk : body[k]? = some i) :
    ∃ a f code g, reg.assemble (body.take k) {} (.start o) = (.ok a, f) ∧
      reg.lower i f = .ok code g ∧ m.before k = a.instructions.toList ∧
      m.slice k = code.toList ∧ Extends g.locals m.locals := by
  obtain ⟨a', f', ha', hi, hl, -, hm⟩ := recompile_eq_ok h
  have hlt : k < body.length := (List.getElem?_eq_some_iff.mp hk).1
  rw [assemble_at hk] at ha'
  cases hfront : reg.assemble (body.take k) {} (.start o) with
  | mk r f =>
    cases r with
    | error e =>
      rw [hfront] at ha'
      cases ha'
    | ok a =>
      rw [hfront] at ha'
      simp only [assemble] at ha'
      cases hlower : reg.lower i f with
      | error fault g => simp [hlower] at ha'
      | ok code g =>
        simp only [hlower] at ha'
        have htiled : a.Tiled := (assemble_slices .empty hfront).1
        obtain ⟨-, later, hlater, -⟩ := assemble_slices (htiled.append i.offset code) ha'
        have hcount : a.slices.length = k := by
          rw [Assembly.length_slices, size_mappings_of_assemble hfront, List.length_take]
          omega
        have hslices : m.slices = a.slices ++ [code.toList] ++ later := by
          rw [← Assembly.slices_append htiled i.offset, ← hlater, Method.slices, hi, hm]
          rfl
        refine ⟨a, f, code, g, rfl, hlower, ?_, ?_, ?_⟩
        · rw [Method.before, hslices, List.append_assoc, List.take_append_of_le_length hcount.ge,
            ← hcount, List.take_length, htiled.flatten]
        · rw [Method.slice, hslices, List.append_assoc, List.getElem?_append_right hcount.le, hcount]
          simp
        · rw [hl]
          exact (extends_invariant g.locals).assemble _ (.refl _) ha'

/-- Each slice is the code that the rule of its instruction has for it on that
frame. -/
theorem recompile_renders (h : (reg.recompile o body).result = .ok m) {k : Nat} {i : Instr}
    (hk : body[k]? = some i) :
    ∃ a f r, reg.assemble (body.take k) {} (.start o) = (.ok a, f) ∧ reg.find? i.code = some r ∧
      m.typesAt k = some f.stack.types ∧ r.rule.Renders f.typing m.locals i.operation (m.slice k) := by
  obtain ⟨a, f, code, g, hfront, hlower, hbefore, hslice, hext⟩ := recompile_at h hk
  obtain ⟨hsound, hpending, hmirrors⟩ := assemble_standing hfront
  obtain ⟨r, hr, hrule⟩ := lower_eq_ok.mp hlower
  obtain ⟨f', hplan, -, -, ⟨s', l, rfl⟩, -⟩ := Rule.lower_eq_plan hmirrors.room hpending hrule
  have hgrows : Extends f.locals m.locals := (Rule.plan_grows hsound hplan).2.trans hext
  refine ⟨a, f, r, hfront, hr, ?_, ?_⟩
  · rw [Method.typesAt, hbefore]
    exact replay_mono (fun _ _ => hgrows.declared) _ hmirrors.types
  · rw [hslice]
    exact (Rule.plan_renders hsound hplan).mono hext

end Registry

/-! ### The default table -/

theorem Frame.Tracks.typing_eq {o : Options} {s : Typing} {d : Demand} {f : Frame}
    (hf : f.Tracks o s d) : f.typing = s := by
  have hfloats : f.typing.floats = s.floats := by
    ext r
    rw [mem_floats_typing, hf.floats]
  have hstack : f.typing.stack = s.stack := hf.types
  cases s
  simp only at hfloats hstack
  rw [← hfloats, ← hstack]

namespace Registry

variable {o : Options} {body : List Instr} {m : Method}

/-- A frame that has assembled a body stands where the type system does. -/
theorem default_assemble_tracks {a : Assembly} {f : Frame}
    (h : Registry.default.assemble body {} (.start o) = (.ok a, f)) :
    ∃ s d, Typing.check o.maxStackDepth body {} {} = some (s, d) ∧ f.Tracks o s d := by
  refine assemble_induction (P := fun done _ f =>
    ∃ s d, Typing.check o.maxStackDepth done {} {} = some (s, d) ∧ f.Tracks o s d)
    ?_ body [] ⟨{}, {}, rfl, .start o⟩ h
  rintro done i a f code g ⟨s, d, hcheck, hf⟩ hlower
  rcases default_lower_cases hf i with ⟨s', code', g', hok, hstep, hg⟩ | ⟨⟨fault, g', herr⟩, -⟩
  · cases hok.symm.trans hlower
    exact ⟨s', _, Typing.check_snoc_eq_some.mpr ⟨s, d, hcheck, hstep, rfl⟩, hg⟩
  · cases herr.symm.trans hlower

/-- The slice of an instruction is the code that its rule has for it at the
typing that the instructions before it lead to. -/
theorem default_recompile_at (h : (Registry.default.recompile o body).result = .ok m) {k : Nat}
    {i : Instr} (hk : body[k]? = some i) :
    ∃ s d r, Typing.check o.maxStackDepth (body.take k) {} {} = some (s, d) ∧
      m.typesAt k = some s.stack ∧ i.code.defaultRule? = some r ∧
      r.Renders s m.locals i.operation (m.slice k) := by
  obtain ⟨a, f, r, hfront, hr, htypes, hrenders⟩ := recompile_renders h hk
  obtain ⟨s, d, hcheck, hf⟩ := default_assemble_tracks hfront
  refine ⟨s, d, r.rule, hcheck, ?_, ?_, ?_⟩
  · rw [htypes, hf.types]
  · rw [← default_find?, hr, Option.map_some]
  · rw [← hf.typing_eq]
    exact hrenders

end Registry

end Devirt
