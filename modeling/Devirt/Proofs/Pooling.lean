/-
# Pooling scratch locals

The options let comparisons share their scratch locals. A body is lowered with
and without that in step, until the run without it has no local left: the
stacks and the registers are the same, each table has a local of a type and
origin if the other one has, and the code differs in nothing but the locals it
names (`Frame.Pools`, `Registry.default_assemble_pooled`).

So pooling renames scratch locals and does nothing else. The map takes each
local to the one that has its type and origin. Registers keep locals of their
own, and so do the two operands of a comparison (`Pooling`,
`recompile_pooling`).

Key definitions: `Frame.Pools`, `Lower.Pooled`, `counterpart`, `Pooling`.
Key theorems: `pooled_compositional`, `Rule.plan_pooled`,
`Registry.default_assemble_pooled`, `recompile_pooling`.
-/
import Devirt.Proofs.InStep
import Devirt.Proofs.Renaming

namespace Devirt

open Devirt.Frame Lower HostInstr

/-! ### Frames with and without pooling -/

/-- The two frames are where two runs are that have produced `H` and `H'`, the
second one with pooling and the first one without. -/
structure Frame.Pools (H H' : List HostInstr) (f g : Frame) : Prop where
  plain : f.options.reuseTemporaries = false
  options : g.options = { f.options with reuseTemporaries := true }
  stack : f.stack = g.stack
  floats : f.floats = g.floats
  sound_plain : f.SoundLocals
  sound_pooled : g.SoundLocals
  kinds : ∀ origin t, f.findLocal? origin t = none ↔ g.findLocal? origin t = none
  size_le : g.locals.size ≤ f.locals.size
  code : List.Forall₂ (Renamed (Counterpart f.locals g.locals)) (H ++ f.pending.toList)
    (H' ++ g.pending.toList)

namespace Frame.Pools

variable {H H' : List HostInstr} {f g : Frame} {origin : LocalOrigin} {t : StackType}

theorem start (o : Options) : Pools [] [] (.start { o with reuseTemporaries := false })
    (.start { o with reuseTemporaries := true }) where
  plain := rfl
  options := rfl
  stack := rfl
  floats := rfl
  sound_plain := .start _
  sound_pooled := .start _
  kinds _ _ := Iff.rfl
  size_le := Nat.le_refl _
  code := .nil

variable (hfg : f.Pools H H' g)

include hfg

theorem reuse : g.options.reuseTemporaries = true := by rw [hfg.options]

theorem limit_eq : f.limit = g.limit := by rw [limit, limit, hfg.options]

theorem holdsFloat_eq (r : Register) : f.holdsFloat r = g.holdsFloat r := by
  rw [holdsFloat, holdsFloat, hfg.floats]

theorem typing_eq : f.typing = g.typing := by
  simp only [typing, hfg.stack, hfg.holdsFloat_eq]

/-- The second run finds what the first one finds. -/
theorem found {i : LocalIndex} (h : f.findLocal? origin t = some i) :
    ∃ j, g.findLocal? origin t = some j := by
  rw [← Option.ne_none_iff_exists', Ne, ← hfg.kinds, h]
  exact Option.some_ne_none i

/-- Locals that come later leave the code what it is. -/
theorem code_mono {ks ks' : Array Local} (hf : Extends f.locals ks) (hg : Extends g.locals ks') :
    List.Forall₂ (Renamed (Counterpart ks ks')) (H ++ f.pending.toList) (H' ++ g.pending.toList) :=
  hfg.code.imp fun _ _ hx => hx.mono fun _ _ hij => hij.mono hf hg

theorem addBoth (hf : f.locals.size < maxLocals) (hg : g.locals.size < maxLocals)
    (hm : f.MayAdd origin t) (hm' : g.MayAdd origin t) :
    (f.addLocal origin t hf).Pools H H' (g.addLocal origin t hg) where
  plain := hfg.plain
  options := hfg.options
  stack := hfg.stack
  floats := hfg.floats
  sound_plain := hfg.sound_plain.addLocal hf hm
  sound_pooled := hfg.sound_pooled.addLocal hg hm'
  kinds origin' t' := by
    rw [findLocal?_addLocal hf, findLocal?_addLocal hg]
    by_cases h : origin = origin' ∧ t = t'
    · simp [h]
    · simp [h, hfg.kinds]
  size_le := by
    have hle := hfg.size_le
    simp only [addLocal, Array.size_push]
    omega
  code := hfg.code_mono ((Extends.refl _).push _) ((Extends.refl _).push _)

/-- The run without pooling adds a local that the other one has. -/
theorem addPlain {j : LocalIndex} (hf : f.locals.size < maxLocals) (hm : f.MayAdd origin t)
    (hj : g.findLocal? origin t = some j) : (f.addLocal origin t hf).Pools H H' g where
  plain := hfg.plain
  options := hfg.options
  stack := hfg.stack
  floats := hfg.floats
  sound_plain := hfg.sound_plain.addLocal hf hm
  sound_pooled := hfg.sound_pooled
  kinds origin' t' := by
    rw [findLocal?_addLocal hf]
    by_cases h : origin = origin' ∧ t = t'
    · obtain ⟨rfl, rfl⟩ := h
      simp [hj]
    · simp [h, hfg.kinds]
  size_le := by
    have hle := hfg.size_le
    simp only [addLocal, Array.size_push]
    omega
  code := hfg.code_mono ((Extends.refl _).push _) (.refl _)

theorem withFloats (fs : List Register) :
    ({ f with floats := fs } : Frame).Pools H H' { g with floats := fs } where
  plain := hfg.plain
  options := hfg.options
  stack := hfg.stack
  floats := rfl
  sound_plain := sound_invariant.markStored H f fs hfg.sound_plain
  sound_pooled := sound_invariant.markStored H' g fs hfg.sound_pooled
  kinds := hfg.kinds
  size_le := hfg.size_le
  code := hfg.code

theorem afterEmit {x y : HostInstr} (hxy : x.Renamed (Counterpart f.locals g.locals) y)
    (code : CodeRef) (s : EvalStack) : (f.afterEmit code x s).Pools H H' (g.afterEmit code y s) where
  plain := hfg.plain
  options := hfg.options
  stack := rfl
  floats := hfg.floats
  sound_plain := ⟨hfg.sound_plain.index_eq, hfg.sound_plain.find_eq, hfg.sound_plain.slotType⟩
  sound_pooled := ⟨hfg.sound_pooled.index_eq, hfg.sound_pooled.find_eq, hfg.sound_pooled.slotType⟩
  kinds := hfg.kinds
  size_le := hfg.size_le
  code := by
    simp only [Frame.afterEmit, Array.toList_push, ← List.append_assoc]
    exact List.rel_append hfg.code (.cons hxy .nil)

/-- Both runs hand out what is pending. -/
theorem drain : ({ f with pending := #[] } : Frame).Pools (H ++ f.pending.toList)
    (H' ++ g.pending.toList) { g with pending := #[] } where
  plain := hfg.plain
  options := hfg.options
  stack := hfg.stack
  floats := hfg.floats
  sound_plain := sound_invariant.drain H f hfg.sound_plain
  sound_pooled := sound_invariant.drain H' g hfg.sound_pooled
  kinds := hfg.kinds
  size_le := hfg.size_le
  code := by
    simp only [List.append_nil]
    exact hfg.code

end Frame.Pools

/-! ### Steps with and without pooling -/

/-- How a step without pooling and one with it end together: as `Q` says, or
alike, or else the first one stops. -/
abbrev Lower.EndPooled {ε α β : Type} (stops : ε → Prop)
    (Q : α → Frame → β → Frame → Prop) :
    EStateM.Result ε Frame α → EStateM.Result ε Frame β → Prop :=
  InStep stops (fun _ => True) Q

/-- From any two frames, the first step does without pooling what the second
one does with it, until it has no local left. -/
def Lower.Pooled (H H' : List HostInstr) {α : Type} (x y : Lower α) : Prop :=
  ∀ f g, f.Pools H H' g →
    EndPooled (· = .tooManyLocals maxLocals) (fun _ f' _ g' => f'.Pools H H' g') (x f) (y g)

section Steps

variable {H H' : List HostInstr}

theorem pooled_registerLocal (r : Register) (t : StackType) :
    Pooled H H' (registerLocal r t) (registerLocal r t) := by
  intro f g hfg
  unfold registerLocal
  cases hi : f.findLocal? (.register r) (StorageClass.of t).slotType with
  | some i =>
    obtain ⟨j, hj⟩ := hfg.found hi
    rw [localFor_of_some hi, localFor_of_some hj]
    exact .ok hfg
  | none =>
    have hj : g.findLocal? (.register r) (StorageClass.of t).slotType = none :=
      (hfg.kinds _ _).mp hi
    rw [localFor_of_none hi, localFor_of_none hj]
    rcases Nat.lt_or_ge f.locals.size maxLocals with hlt | hge
    · have hlt' : g.locals.size < maxLocals := hfg.size_le.trans_lt hlt
      rw [allocate_of_lt _ _ hlt, allocate_of_lt _ _ hlt']
      exact .ok (hfg.addBoth hlt hlt' (.register hi) (.register hj))
    · rw [allocate_of_ge _ _ hge]
      exact .stopped rfl fun _ _ _ => trivial

theorem pooled_scratchLocal (t : StackType) (slot : UInt8) :
    Pooled H H' (scratchLocal t slot) (scratchLocal t slot) := by
  intro f g hfg
  have hplain : scratchLocal t slot f = allocate (.scratch slot) t f := by
    simp [scratchLocal, hfg.plain]
  have hpooled : scratchLocal t slot g = localFor (.scratch slot) t g := by
    simp [scratchLocal, hfg.reuse]
  have hm : f.MayAdd (.scratch slot) t := .scratch fun hr => by simp [hfg.plain] at hr
  rw [hplain, hpooled]
  rcases Nat.lt_or_ge f.locals.size maxLocals with hlt | hge
  · rw [allocate_of_lt _ t hlt]
    cases hj : g.findLocal? (.scratch slot) t with
    | some j =>
      rw [localFor_of_some hj]
      exact .ok (hfg.addPlain hlt hm hj)
    | none =>
      have hlt' : g.locals.size < maxLocals := hfg.size_le.trans_lt hlt
      rw [localFor_of_none hj, allocate_of_lt _ t hlt']
      exact .ok (hfg.addBoth hlt hlt' hm (.scratch fun _ => hj))
  · rw [allocate_of_ge _ t hge]
    exact .stopped rfl fun _ _ _ => trivial

theorem pooled_pure {α : Type} (a b : α) : Pooled H H' (pure a) (pure b) := fun _ _ hfg => .ok hfg

theorem pooled_bind {α β : Type} {x y : Lower α} {k l : α → Lower β} (hx : Pooled H H' x y)
    (hk : ∀ a b, Pooled H H' (k a) (l b)) : Pooled H H' (x >>= k) (y >>= l) :=
  fun f g hfg => (hx f g hfg).bind (fun a f' b g' h => hk a b f' g' h) fun _ _ _ => trivial

theorem pooled_markStored (r : Register) (t : StackType) :
    Pooled H H' (markStored r t) (markStored r t) := by
  intro f g hfg
  unfold markStored
  rw [hfg.floats]
  exact .ok (hfg.withFloats _)

theorem pooled_peek {α : Type} (n : Nat) {k l : StackType → Lower α}
    (hk : ∀ t, Pooled H H' (k t) (l t)) : Pooled H H' (peek n >>= k) (peek n >>= l) := by
  intro f g hfg
  cases hp : f.stack.peek n with
  | ok t =>
    have hf : peek n f = .ok t f := by rw [peek, hp]
    have hg : peek n g = .ok t g := by rw [peek, ← hfg.stack, hp]
    rw [bind_of_ok hf, bind_of_ok hg]
    exact hk t f g hfg
  | error c =>
    have hf : peek n f = .error c f := by rw [peek, hp]
    have hg : peek n g = .error c g := by rw [peek, ← hfg.stack, hp]
    rw [bind_of_error hf, bind_of_error hg]
    exact .error

theorem pooled_require (n : Nat) : Pooled H H' (require n) (require n) := by
  intro f g hfg
  unfold require
  rw [hfg.stack]
  split
  · exact .ok hfg
  · exact .error

/-- So finding the code of an operation takes the same way with pooling and
without. -/
theorem pooled_compositional (H H' : List HostInstr) : CompositionalPair (Pooled H H') where
  pure := pooled_pure
  throw _ := fun _ _ _ => .error
  bind := pooled_bind
  peek := pooled_peek
  require := pooled_require
  holdsFloat r k l hk f g hfg := by
    show EndPooled _ _ (k (f.holdsFloat r) f) (l (g.holdsFloat r) g)
    rw [hfg.holdsFloat_eq r]
    exact hk _ f g hfg
  registerLocal := pooled_registerLocal
  storeRegister r t := pooled_bind (pooled_registerLocal r t) fun _ _ =>
    pooled_bind (pooled_markStored r t) fun _ _ => pooled_pure _ _
  scratchLocal := pooled_scratchLocal

end Steps

/-! ### Rules with and without pooling -/

section Rules

variable {H H' : List HostInstr} {f g : Frame} {r : Rule}

/-- What is found for an operation differs in nothing but the locals. -/
theorem Rule.plan_pooled {op : Operation} (hrule : op.code.defaultRule? = some r)
    (hfg : f.Pools H H' g) : EndPooled (· = .tooManyLocals maxLocals)
      (fun is f' js g' => f'.Pools H H' g' ∧
        List.Forall₂ (Renamed (Counterpart f'.locals g'.locals)) is js)
      (r.plan op f) (r.plan op g) := by
  refine (((pooled_compositional H H').plan r op f g hfg).and_eq).mono ?_
  rintro is f' js g' ⟨h, hf', hg'⟩
  have hplain : r.Renders f.typing f'.locals op is := Rule.plan_renders hfg.sound_plain hf'
  have hpooled : r.Renders f.typing g'.locals op js :=
    hfg.typing_eq ▸ Rule.plan_renders hfg.sound_pooled hg'
  exact ⟨h, hplain.renamed hrule hpooled⟩

theorem emit_pooled {x y : HostInstr} (hfg : f.Pools H H' g)
    (hxy : x.Renamed (Counterpart f.locals g.locals) y) (code : CodeRef) :
    EndPooled (· = .tooManyLocals maxLocals)
      (fun _ f' _ g' => f'.Pools H H' g' ∧ f'.locals = f.locals ∧ g'.locals = g.locals)
      (emit code x f) (emit code y g) := by
  have heff : x.effect f.limit f.locals f.stack = y.effect g.limit g.locals g.stack := by
    rw [hfg.limit_eq, hfg.stack]
    exact hxy.effect_eq _ _
  cases hs : x.effect f.limit f.locals f.stack with
  | ok s =>
    rw [emit_eq_ok.mpr ⟨s, hs, rfl⟩, emit_eq_ok.mpr ⟨s, heff ▸ hs, rfl⟩]
    exact .ok ⟨hfg.afterEmit hxy code s, rfl, rfl⟩
  | error c =>
    rw [emit_eq_error.mpr ⟨hs, rfl⟩, emit_eq_error.mpr ⟨heff ▸ hs, rfl⟩]
    exact .error

theorem emitAll_pooled (code : CodeRef) (is : List HostInstr) : ∀ {js : List HostInstr}
    {f g : Frame}, f.Pools H H' g → List.Forall₂ (Renamed (Counterpart f.locals g.locals)) is js →
    EndPooled (· = .tooManyLocals maxLocals) (fun _ f' _ g' => f'.Pools H H' g')
      (emitAll code is f) (emitAll code js g) := by
  induction is with
  | nil =>
    intro js f g hfg hcode
    cases hcode
    exact .ok hfg
  | cons x is ih =>
    intro js f g hfg hcode
    cases hcode with
    | cons hxy hrest =>
      refine (emit_pooled hfg hxy code).bind ?_ fun _ _ _ => trivial
      rintro _ f' _ g' ⟨h, hf, hg⟩
      exact ih h (by rw [hf, hg]; exact hrest)

/-- Lowering an instruction with pooling and without takes the same way, until
there is no local left, and hands out the same code but for the locals. -/
theorem Rule.lower_pooled {i : Instr} (hrule : i.code.defaultRule? = some r)
    (hfg : f.Pools H H' g) : EndPooled (fun fault : Fault => fault.cause = .tooManyLocals maxLocals)
      (fun code f' code' g' => f'.Pools (H ++ code.toList) (H' ++ code'.toList) g' ∧
        f'.pending = #[] ∧ g'.pending = #[])
      (r.lower i f) (r.lower i g) := by
  refine Rule.lower_inStep (R := fun f' g' => f'.Pools H H' g') (Rule.plan_pooled hrule hfg) ?_ ?_
    (fun _ _ _ => trivial) fun _ _ => trivial
  · rintro is f' js g' ⟨h, hcode⟩
    exact emitAll_pooled i.operation.code is h hcode
  · intro f' g' h
    exact ⟨h.drain, rfl, rfl⟩

end Rules

namespace Registry

/-! ### Bodies with and without pooling -/

/-- The two runs of a body have come to the same place. -/
structure Pools (a : Assembly) (f : Frame) (b : Assembly) (g : Frame) : Prop where
  mappings : a.mappings = b.mappings
  frames : f.Pools a.instructions.toList b.instructions.toList g
  pending_plain : f.pending = #[]
  pending_pooled : g.pending = #[]

variable {a b : Assembly} {f g : Frame}

theorem Pools.code (h : Pools a f b g) : List.Forall₂ (Renamed (Counterpart f.locals g.locals))
    a.instructions.toList b.instructions.toList := by
  have hcode := h.frames.code
  simpa only [h.pending_plain, h.pending_pooled, Array.toList_empty, List.append_nil] using hcode

theorem Pools.size_eq (h : Pools a f b g) : a.instructions.size = b.instructions.size :=
  h.code.length_eq

theorem Pools.append (h : Pools a f b g) (i : Instr) {code code' : Array HostInstr} {f' g' : Frame}
    (hframes : f'.Pools (a.instructions.toList ++ code.toList)
      (b.instructions.toList ++ code'.toList) g')
    (hf : f'.pending = #[]) (hg : g'.pending = #[]) :
    Pools (a.append i.offset code) f' (b.append i.offset code') g' where
  mappings := by
    have hlen := hframes.code.length_eq
    have hsize := h.size_eq
    simp only [hf, hg, List.length_append, Array.length_toList] at hlen
    have hcode : code.size = code'.size := by omega
    rw [Assembly.append, Assembly.append, h.mappings, hsize, hcode]
  frames := by
    simpa only [Assembly.append, Array.toList_append] using hframes
  pending_plain := hf
  pending_pooled := hg

/-- The run with pooling and the one without go in step until the latter has
no local left. -/
theorem default_assemble_pooled (o : Options) (body : List Instr) :
    InStep (· = .tooManyLocals maxLocals) (fun _ => True) Pools
      (Registry.default.assemble body {} (.start { o with reuseTemporaries := false }))
      (Registry.default.assemble body {} (.start { o with reuseTemporaries := true })) := by
  refine assemble_inStep (fun a f b g h => ?_) ?_ (fun _ _ _ _ _ _ _ => trivial) body
    ⟨rfl, .start o, rfl, rfl⟩
  · rw [h.mappings]
  · intro i a f b g h
    cases hrule : i.code.defaultRule? with
    | none =>
      rw [default_lower_of_none hrule]
      exact .error
    | some r =>
      rw [default_lower hrule]
      refine (Rule.lower_pooled hrule h.frames).mono ?_
      rintro code f' code' g' ⟨hframes, hf, hg⟩
      exact h.append i hframes hf hg

end Registry

/-! ### The map -/

/-- The local of the second table that has the type and the origin of the local
`i` of the first one. -/
def counterpart (ls ls' : Array Local) (i : LocalIndex) : LocalIndex :=
  (ls[i.val]?.bind fun l =>
    (ls'.find? fun l' => l'.origin = l.origin && l'.type = l.type).map Local.index).getD i

/-- The second method is the first one with its scratch locals pooled, and `φ`
takes each local of the first one to the local of the second one that it
becomes. -/
structure Pooling (m m' : Method) (φ : LocalIndex → LocalIndex) : Prop where
  maxStack : m'.maxStack = m.maxStack
  mappings : m'.mappings = m.mappings
  size_le : m'.locals.size ≤ m.locals.size
  /-- Nothing but the locals is changed in the code. -/
  code : m'.instructions = m.instructions.map (rename φ)
  /-- A local becomes one of its type and origin. -/
  keeps : ∀ (i : LocalIndex) (l : Local), m.locals[i.val]? = some l →
    ∃ l', m'.locals[(φ i).val]? = some l' ∧ l'.type = l.type ∧ l'.origin = l.origin
  /-- No local comes from nowhere. -/
  onto : ∀ j : LocalIndex, j.val < m'.locals.size → ∃ i : LocalIndex, i.val < m.locals.size ∧ φ i = j
  /-- The locals of registers stay apart. -/
  registers : ∀ (i i' : LocalIndex) (l l' : Local) r r', m.locals[i.val]? = some l →
    m.locals[i'.val]? = some l' → l.origin = .register r → l'.origin = .register r' →
    φ i = φ i' → i = i'
  /-- So do the scratch locals of one decoded instruction. -/
  apart : ∀ (k : Nat) (i i' : LocalIndex) (l l' : Local) slot slot', m.locals[i.val]? = some l →
    m.locals[i'.val]? = some l' → l.origin = .scratch slot → l'.origin = .scratch slot' →
    (∃ x ∈ m.slice k, x.Names i) → (∃ x ∈ m.slice k, x.Names i') → φ i = φ i' → i = i'

section Map

variable {H H' : List HostInstr} {f g : Frame} {i j : LocalIndex} {l : Local}

theorem counterpart_of_getElem? (h : f.locals[i.val]? = some l) :
    counterpart f.locals g.locals i = (g.findLocal? l.origin l.type).getD i := by
  rw [counterpart, h]
  rfl

variable (hfg : f.Pools H H' g)

include hfg

theorem counterpart_eq (h : Counterpart f.locals g.locals i j) :
    counterpart f.locals g.locals i = j := by
  obtain ⟨t, origin, hi, hj⟩ := h
  have hshares : g.Shares origin := by
    cases origin with
    | register r => trivial
    | scratch slot => exact hfg.reuse
  have hfind : g.findLocal? origin t = some j :=
    hfg.sound_pooled.find_eq _ (Array.mem_of_getElem? hj) hshares
  rw [counterpart_of_getElem? hi, hfind, Option.getD_some]

/-- Each local has a counterpart. -/
theorem counterpart_spec (h : f.locals[i.val]? = some l) :
    g.locals[(counterpart f.locals g.locals i).val]? =
      some ⟨counterpart f.locals g.locals i, l.type, l.origin⟩ := by
  have hsome : g.findLocal? l.origin l.type ≠ none := by
    rw [Ne, ← hfg.kinds]
    exact findLocal?_ne_none (Array.mem_of_getElem? h)
  obtain ⟨j, hj⟩ := Option.ne_none_iff_exists'.mp hsome
  rw [counterpart_of_getElem? h, hj, Option.getD_some]
  exact hfg.sound_pooled.getElem?_of_find hj

/-- Each local of the second table is one. -/
theorem counterpart_onto (h : j.val < g.locals.size) :
    ∃ i : LocalIndex, i.val < f.locals.size ∧ counterpart f.locals g.locals i = j := by
  obtain ⟨⟨index, t, origin⟩, hj⟩ : ∃ l, g.locals[j.val]? = some l :=
    ⟨_, Array.getElem?_eq_getElem h⟩
  obtain rfl : index = j := Fin.ext (hfg.sound_pooled.index_eq _ _ hj)
  have hsome : f.findLocal? origin t ≠ none := by
    rw [Ne, hfg.kinds]
    exact findLocal?_ne_none (Array.mem_of_getElem? hj)
  obtain ⟨i, hi⟩ := Option.ne_none_iff_exists'.mp hsome
  have hlocal := hfg.sound_plain.getElem?_of_find hi
  exact ⟨i, (Array.getElem?_eq_some_iff.mp hlocal).1, counterpart_eq hfg ⟨t, origin, hlocal, hj⟩⟩

end Map

/-! ### Methods with and without pooling -/

/-- What a body is recompiled to without pooling becomes, by the map of the
locals, what it is recompiled to with pooling. -/
theorem Registry.Pools.pooling {o : Options} {body : List Instr} {a b : Assembly} {f g : Frame}
    {m m' : Method} (h : Registry.Pools a f b g)
    (hm : (Registry.default.recompile o body).result = .ok m)
    (hplain : m.IsOf a f) (hpooled : m'.IsOf b g) :
    Pooling m m' (counterpart m.locals m'.locals) := by
  obtain ⟨hi, hl, hs, hmap⟩ := hplain
  obtain ⟨hi', hl', hs', hmap'⟩ := hpooled
  have hspec : ∀ {i : LocalIndex} {l : Local}, m.locals[i.val]? = some l →
      m'.locals[(counterpart m.locals m'.locals i).val]? =
        some ⟨counterpart m.locals m'.locals i, l.type, l.origin⟩ := by
    rw [hl, hl']
    exact counterpart_spec h.frames
  -- locals that become the same one have the same type and origin
  have hsame : ∀ {i i' : LocalIndex} {l l' : Local}, m.locals[i.val]? = some l →
      m.locals[i'.val]? = some l' →
      counterpart m.locals m'.locals i = counterpart m.locals m'.locals i' →
      l.type = l'.type ∧ l.origin = l'.origin := by
    intro i i' l l' hil hil' heq
    have hboth := hspec hil
    rw [heq, hspec hil', Option.some.injEq, Local.mk.injEq] at hboth
    exact ⟨hboth.2.1.symm, hboth.2.2.symm⟩
  refine
    { maxStack := ?maxStack, mappings := ?mappings, size_le := ?size_le, code := ?code
      keeps := ?keeps, onto := ?onto, registers := ?registers, apart := ?apart }
  case maxStack => rw [hs', hs, h.frames.stack]
  case mappings => rw [hmap', hmap, h.mappings]
  case size_le =>
    rw [hl', hl]
    exact h.frames.size_le
  case code =>
    have hcode : b.instructions.toList =
        a.instructions.toList.map (rename (counterpart f.locals g.locals)) :=
      eq_map_rename h.code fun i j hij => counterpart_eq h.frames hij
    apply Array.toList_inj.mp
    rw [hi', hi, hl, hl', Array.toList_map, hcode]
  case keeps =>
    intro i l hil
    exact ⟨_, hspec hil, rfl, rfl⟩
  case onto =>
    rw [hl, hl']
    intro j hj
    exact counterpart_onto h.frames hj
  case registers =>
    intro i i' l l' r r' hil hil' hr hr' heq
    obtain ⟨htype, horigin⟩ := hsame hil hil' heq
    rw [hl] at hil hil'
    have hshares : f.Shares l.origin := by
      rw [hr]
      trivial
    exact Fin.ext (h.frames.sound_plain.place_unique hil hil' hshares horigin htype)
  case apart =>
    rintro k i i' l l' slot slot' hil hil' ho ho' ⟨x, hx, hn⟩ ⟨x', hx', hn'⟩ heq
    obtain ⟨-, horigin⟩ := hsame hil hil' heq
    exact Registry.default_scratch_unique hm hx hn hil ho hx' hn' hil' (horigin ▸ ho)

/-- Pooling is a renaming of scratch locals and nothing else. Without it a body
may run out of locals that is recompiled with it, and in no other way do the
two differ in which bodies they accept or in what they report. -/
theorem recompile_pooling (o : Options) (body : List Instr) :
    (∀ m, (Registry.default.recompile { o with reuseTemporaries := false } body).result = .ok m →
      ∃ m' φ, (Registry.default.recompile { o with reuseTemporaries := true } body).result = .ok m' ∧
        Pooling m m' φ) ∧
    (∀ m', (Registry.default.recompile { o with reuseTemporaries := true } body).result = .ok m' →
      (∃ m, (Registry.default.recompile { o with reuseTemporaries := false } body).result = .ok m) ∨
      ∃ e, (Registry.default.recompile { o with reuseTemporaries := false } body).result = .error e ∧
        e.fault.cause = .tooManyLocals maxLocals) ∧
    ∀ e', (Registry.default.recompile { o with reuseTemporaries := true } body).result = .error e' →
      (Registry.default.recompile { o with reuseTemporaries := false } body).result = .error e' ∨
      ∃ e, (Registry.default.recompile { o with reuseTemporaries := false } body).result = .error e ∧
        e.fault.cause = .tooManyLocals maxLocals ∧ e.index ≤ e'.index := by
  rcases Registry.recompile_inStep (Registry.default_assemble_pooled o body) with
    ⟨m, m', a, f, b, g, hm, hm', h, hof, hof'⟩ | ⟨e, he, he'⟩ | ⟨e, he, hcause, -, herror⟩
  · refine ⟨fun m₀ hm₀ => ?_, fun _ _ => Or.inl ⟨m, hm⟩, fun e' he' => ?_⟩
    · cases hm.symm.trans hm₀
      exact ⟨m', _, hm', h.pooling hm hof hof'⟩
    · cases hm'.symm.trans he'
  · refine ⟨fun m hm => ?_, fun m' hm' => ?_, fun e₁ he₁ => ?_⟩
    · cases he.symm.trans hm
    · cases he'.symm.trans hm'
    · cases he'.symm.trans he₁
      exact Or.inl he
  · refine ⟨fun m hm => ?_, fun _ _ => Or.inr ⟨e, he, hcause⟩, fun e' he' => ?_⟩
    · cases he.symm.trans hm
    · exact Or.inr ⟨e, he, hcause, herror e' he'⟩

theorem recompile_pooling_comparedTwice :
    ∃ m m' φ, (Registry.default.recompile { reuseTemporaries := false }
        (selfComparison ++ selfComparison)).result = .ok m ∧
      (Registry.default.recompile {} (selfComparison ++ selfComparison)).result = .ok m' ∧
      m.locals.size = 6 ∧ m'.locals.size = 4 ∧ Pooling m m' φ := by
  have hplain : ((Registry.default.recompile { reuseTemporaries := false }
      (selfComparison ++ selfComparison)).result.map fun m => m.locals.size).toOption = some 6 := by
    decide +kernel
  have hpooled : ((Registry.default.recompile {} (selfComparison ++ selfComparison)).result.map
      fun m => m.locals.size).toOption = some 4 := by
    decide +kernel
  obtain ⟨m, hm, hsize⟩ := Registry.exists_method hplain
  obtain ⟨m₁, hm₁, hsize'⟩ := Registry.exists_method hpooled
  obtain ⟨m', φ, hm', hpooling⟩ := (recompile_pooling {} (selfComparison ++ selfComparison)).1 m hm
  obtain rfl : m₁ = m' := Except.ok.inj (hm₁.symm.trans hm')
  exact ⟨m, m₁, φ, hm, hm₁, hsize, hsize', hpooling⟩

end Devirt
