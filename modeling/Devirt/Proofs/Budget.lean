/-
# As many locals as the body needs

The type system of the decoded code says what a body touches: which registers
with values of which classes, and the types that numbers are compared at
(`Typing.along`). A method has one local for each register and class, and two
for each comparison or, where scratch locals are shared, for each type. So
shared tables are small, and a method without sharing is refused only if it
would have more locals than there is room for.

None of the locals is idle. A plan that adds a local finds code that names it
(`Rule.plan_namesNew`), so all locals of the table are named by the code that
was assembled, and nothing else is (`Registry.names_iff`).

Key definitions: `Typing.along`, `Typing.touched`, `Typing.compared`,
`Lower.NamesNew`.
Key theorems: `Typing.demand_of_check`, `Rule.plan_namesNew`,
`Registry.names_iff`, `recompile_budget`.
-/
import Devirt.Proofs.Operands
import Devirt.Proofs.Pooling
import Devirt.Proofs.Representation

namespace Devirt

open Devirt.Frame Lower HostInstr

/-! ### What a body touches -/

namespace Demand

variable (d : Demand) (s : Typing) (op : Operation)

theorem homes_after : (d.after s op).homes = d.homes ∪ (s.home? op).toList.toFinset := by
  unfold after
  cases s.home? op <;> cases s.scratch? op <;> simp [addHome, addCompare]

theorem scratch_after : (d.after s op).scratch = d.scratch ∪ (s.scratch? op).toList.toFinset := by
  unfold after
  cases s.home? op <;> cases s.scratch? op <;> simp [addHome, addCompare]

theorem comparisons_after :
    (d.after s op).comparisons = d.comparisons + (s.scratch? op).toList.length := by
  unfold after
  cases s.home? op <;> cases s.scratch? op <;> rfl

end Demand

namespace Typing

variable {α : Type} {limit : Nat}

/-- What the operations of a body have of a kind, each where it stands. -/
def along (limit : Nat) (pick : Typing → Operation → Option α) : List Instr → Typing → List α
  | [], _ => []
  | i :: rest, s =>
    (pick s i.operation).toList ++ (s.step limit i.operation).elim [] (along limit pick rest)

/-- The registers that a body reads and stores, each time with the class of the
value. -/
def touched (limit : Nat) (body : List Instr) : List (Register × StorageClass) :=
  along limit home? body {}

/-- The types that a body compares numbers at, one for each comparison. -/
def compared (limit : Nat) (body : List Instr) : List StackType := along limit scratch? body {}

/-- A body demands what it touches on its way. -/
theorem demand_of_along : ∀ (body : List Instr) {s s' : Typing} {d d' : Demand},
    check limit body s d = some (s', d') →
    d'.homes = d.homes ∪ (along limit home? body s).toFinset ∧
    d'.scratch = d.scratch ∪ (along limit scratch? body s).toFinset ∧
    d'.comparisons = d.comparisons + (along limit scratch? body s).length
  | [], s, s', d, d', h => by
    cases h
    simp [along]
  | i :: rest, s, s', d, d', h => by
    obtain ⟨u, hu, hrest⟩ := Option.bind_eq_some_iff.mp h
    obtain ⟨hhomes, hscratch, hcomparisons⟩ := demand_of_along rest hrest
    rw [Demand.homes_after] at hhomes
    rw [Demand.scratch_after] at hscratch
    rw [Demand.comparisons_after] at hcomparisons
    rw [along, along, hu, Option.elim_some, Option.elim_some, List.toFinset_append,
      List.toFinset_append, List.length_append, ← Finset.union_assoc, ← Finset.union_assoc,
      ← Nat.add_assoc]
    exact ⟨hhomes, hscratch, hcomparisons⟩

/-- What a whole body demands is what it touches. -/
theorem demand_of_check {body : List Instr} {s : Typing} {d : Demand}
    (h : check limit body {} {} = some (s, d)) :
    d.homes = (touched limit body).toFinset ∧ d.scratch = (compared limit body).toFinset ∧
      d.comparisons = (compared limit body).length := by
  simpa [touched, compared] using demand_of_along body h

theorem exists_of_mem_along {pick : Typing → Operation → Option α} {a : α} : ∀ (body : List Instr)
    {s : Typing}, a ∈ along limit pick body s → ∃ u op, pick u op = some a
  | [], _, h => by cases h
  | i :: rest, s, h => by
    rcases List.mem_append.mp h with hhere | hlater
    · exact ⟨s, i.operation, Option.mem_toList.mp hhere⟩
    · cases hs : s.step limit i.operation with
      | none =>
        rw [hs] at hlater
        cases hlater
      | some u =>
        rw [hs] at hlater
        exact exists_of_mem_along rest hlater

/-- Numbers are compared at one of four types. -/
theorem card_compared_le (limit : Nat) (body : List Instr) :
    (compared limit body).toFinset.card ≤ 4 := by
  have hsub : (compared limit body).toFinset ⊆ {.int32, .int64, .nativeInt, .float} := by
    intro t ht
    obtain ⟨s, op, hs⟩ := exists_of_mem_along body (List.mem_toFinset.mp ht)
    obtain ⟨hobject, hpointer⟩ := isNumber_of_scratch? hs
    cases t <;> first | contradiction | decide
  exact Finset.card_le_card hsub

/-- Sixteen registers have values of three classes. -/
theorem card_touched_le (limit : Nat) (body : List Instr) :
    (touched limit body).toFinset.card ≤ 48 :=
  Finset.card_le_univ _

end Typing

/-! ### Locals are added for use -/

namespace Lower

variable {α : Type}

/-- The step leaves the table of locals as it is. -/
def KeepsLocals (x : Lower α) : Prop := ∀ f a g, x f = .ok a g → g.locals = f.locals

/-- The step adds no local but the one that it answers. -/
def AnswersNew (x : Lower LocalIndex) : Prop :=
  ∀ f i g, x f = .ok i g → ∀ j : LocalIndex, f.locals.size ≤ j.val → j.val < g.locals.size → j = i

/-- The code that the step finds names all locals that it adds. -/
def NamesNew (x : Lower (List HostInstr)) : Prop :=
  ∀ f is g, x f = .ok is g → ∀ j : LocalIndex, f.locals.size ≤ j.val → j.val < g.locals.size →
    ∃ y ∈ is, y.Names j

theorem keepsLocals_get : KeepsLocals (get : Lower Frame) := by
  intro f a g h
  cases h
  rfl

theorem keepsLocals_peek (n : Nat) : KeepsLocals (peek n) := by
  intro f t g h
  obtain ⟨-, rfl⟩ := peek_eq_ok.mp h
  rfl

theorem keepsLocals_require (n : Nat) : KeepsLocals (require n) := by
  intro f u g h
  obtain ⟨-, rfl⟩ := require_eq_ok.mp h
  rfl

theorem keepsLocals_requireReceiver (n : Nat) : KeepsLocals (Lowering.requireReceiver n) := by
  intro f u g h
  obtain ⟨rfl, -⟩ := receiver_of_requireReceiver h
  rfl

namespace AnswersNew

/-- Of a table with one more local only that one is new. -/
theorem eq_of_addLocal {f : Frame} {origin : LocalOrigin} {t : StackType} {j : LocalIndex}
    (h : f.locals.size < maxLocals) (hge : f.locals.size ≤ j.val)
    (hlt : j.val < (f.addLocal origin t h).locals.size) : j = ⟨f.locals.size, h⟩ := by
  have hsize : (f.addLocal origin t h).locals.size = f.locals.size + 1 := Array.size_push ..
  have hj : j.val = f.locals.size := by omega
  exact Fin.ext hj

theorem localFor (origin : LocalOrigin) (t : StackType) : AnswersNew (Frame.localFor origin t) := by
  intro f i g h j hge hlt
  rcases localFor_cases f origin t with ⟨k, -, hok⟩ | ⟨-, hroom, hok⟩ | ⟨-, -, herr⟩
  · cases hok.symm.trans h
    omega
  · cases hok.symm.trans h
    exact eq_of_addLocal hroom hge hlt
  · rw [h] at herr
    cases herr

theorem scratchLocal (t : StackType) (slot : UInt8) : AnswersNew (Frame.scratchLocal t slot) := by
  intro f i g h j hge hlt
  rcases scratchLocal_cases f t slot with ⟨-, k, -, hok⟩ | ⟨-, hroom, hok⟩ | ⟨-, -, herr⟩
  · cases hok.symm.trans h
    omega
  · cases hok.symm.trans h
    exact eq_of_addLocal hroom hge hlt
  · rw [h] at herr
    cases herr

theorem storeRegister (r : Register) (t : StackType) : AnswersNew (Frame.storeRegister r t) := by
  intro f i g h
  obtain ⟨k, g', hlocal, hmark⟩ := bind_eq_ok.mp h
  cases hmark
  exact localFor _ _ f i g' hlocal

end AnswersNew

namespace NamesNew

theorem of_keepsLocals {x : Lower (List HostInstr)} (h : KeepsLocals x) : NamesNew x := by
  intro f is g hok j hge hlt
  rw [h f is g hok] at hlt
  omega

theorem pure (is : List HostInstr) : NamesNew (pure is) := of_keepsLocals fun _ _ _ h => by cases h; rfl

theorem throw (c : Cause) : NamesNew (throw c) := fun _ _ _ h => by cases h

theorem bind {x : Lower α} {k : α → Lower (List HostInstr)} (hx : KeepsLocals x)
    (hk : ∀ a, NamesNew (k a)) : NamesNew (x >>= k) := by
  intro f is g h j hge hlt
  obtain ⟨a, f', hok, hrest⟩ := bind_eq_ok.mp h
  exact hk a f' is g hrest j (by rw [hx f a f' hok]; exact hge) hlt

/-- Code that names what was answered names what was added. -/
theorem of_answer {x : Lower LocalIndex} {k : LocalIndex → List HostInstr} (hx : AnswersNew x)
    (hk : ∀ i, ∃ y ∈ k i, y.Names i) : NamesNew (do return k (← x)) := by
  intro f is g h j hge hlt
  obtain ⟨i, f', hok, hrest⟩ := bind_eq_ok.mp h
  cases hrest
  obtain rfl := hx f i g hok j hge hlt
  exact hk j

theorem ite {c : Prop} [Decidable c] {x y : Lower (List HostInstr)} (hx : NamesNew x)
    (hy : NamesNew y) : NamesNew (if c then x else y) := by
  split
  · exact hx
  · exact hy

theorem pushRegister (w : Width) (r : Register) : NamesNew (Plan.pushRegister w r) := by
  have hread : ∀ (t : StackType) (is : List HostInstr),
      NamesNew (do return .loadLocal (← registerLocal r t) :: is) := fun t is =>
    of_answer (.localFor _ _) fun i => ⟨_, List.mem_cons_self, Or.inl rfl⟩
  exact bind keepsLocals_get fun f => ite (ite (hread _ _) (throw _)) (hread _ _)

theorem popRegister (r : Register) : NamesNew (Plan.pop (.register r)) := by
  refine bind (keepsLocals_peek 0) fun top => ?_
  exact of_answer (.storeRegister r top) fun i => ⟨_, mem_storeInto.mpr rfl, Or.inr rfl⟩

/-- Of the two locals of a comparison either may be new. -/
theorem compareNumbers (t : StackType) : NamesNew (Plan.compareNumbers t) := by
  intro f is g h j hge hlt
  obtain ⟨lhs, f', hlhs, h⟩ := bind_eq_ok.mp h
  obtain ⟨rhs, f'', hrhs, h⟩ := bind_eq_ok.mp h
  cases h
  rcases Nat.lt_or_ge j.val f'.locals.size with hj | hj
  · obtain rfl := AnswersNew.scratchLocal t 0 f lhs f' hlhs j hge hj
    exact ⟨_, storeLocal_mem_signOfDifference.mpr (Or.inr rfl), Or.inr rfl⟩
  · obtain rfl := AnswersNew.scratchLocal t 1 f' rhs g hrhs j hj hlt
    exact ⟨_, storeLocal_mem_signOfDifference.mpr (Or.inl rfl), Or.inr rfl⟩

theorem compare (width : Option Width) : NamesNew (Plan.compare width) := by
  refine bind (keepsLocals_require 2) fun _ => bind (keepsLocals_peek 0) fun rhs =>
    bind (keepsLocals_peek 1) fun lhs => ?_
  split
  · exact pure _
  · exact compareNumbers _
  · exact compareNumbers _
  · exact throw _

theorem push (form : PushForm) (arg : Operand) : NamesNew (Plan.push form arg) := by
  unfold Plan.push
  split
  · exact pure _
  · exact pure _
  · exact pushRegister _ _
  · exact throw _
  · exact throw _
  · exact throw _

theorem pop (arg : Operand) : NamesNew (Plan.pop arg) := by
  cases arg with
  | none => exact pure _
  | register r => exact popRegister r
  | dword | qword => exact throw _

theorem box (arg : IntrinsicOperand) : NamesNew (Plan.box arg) := by
  unfold Plan.box
  split
  · exact ite (throw _) (ite (pure _) (pure _))
  · exact throw _

theorem call (arg : IntrinsicOperand) : NamesNew (Plan.call arg) := by
  unfold Plan.call
  split
  · exact ite (throw _) (bind (keepsLocals_require _) fun _ => pure _)
  · exact throw _

theorem loadField (arg : IntrinsicOperand) : NamesNew (Plan.loadField arg) := by
  unfold Plan.loadField
  split
  · exact ite (pure _) (bind (keepsLocals_requireReceiver 0) fun _ => pure _)
  · exact throw _

theorem storeField (arg : IntrinsicOperand) : NamesNew (Plan.storeField arg) := by
  unfold Plan.storeField
  split
  · exact ite (pure _) (bind (keepsLocals_requireReceiver 1) fun _ => pure _)
  · exact throw _

end NamesNew
end Lower

/-- Whatever rule plans an operation, its code names the locals that it adds. -/
theorem Rule.plan_namesNew (rule : Rule) (op : Operation) : NamesNew (rule.plan op) := by
  unfold Rule.plan
  cases rule.supports op.code with
  | false => exact .throw _
  | true =>
    simp only [if_true]
    split
    · split
      · exact .push _ _
      · exact .throw _
    · exact .pop _
    · exact .compare _
    · exact .bind (keepsLocals_require _) fun _ => .pure _
    · exact .box _
    · exact .call _
    · exact .loadField _
    · exact .storeField _
    · exact .throw _

/-! ### Locals are named -/

namespace Registry

variable {reg : Registry} {o : Options} {body : List Instr} {a : Assembly} {f : Frame}
  {m : Method} {i : LocalIndex}

/-- The code that has been assembled names every local of the table. -/
theorem named_of_assemble (h : reg.assemble body {} (.start o) = (.ok a, f)) :
    ∀ i : LocalIndex, i.val < f.locals.size → ∃ x ∈ a.instructions.toList, x.Names i := by
  refine assembled_induction (P := fun _ a f =>
    ∀ i : LocalIndex, i.val < f.locals.size → ∃ x ∈ a.instructions.toList, x.Names i) h
    (fun i hi => absurd hi (Nat.not_lt_zero _)) ?_
  intro done instr a f code g hdone hnamed hlower i hi
  obtain ⟨-, hpending, hmirrors⟩ := assemble_standing hdone
  rw [Assembly.append, Array.toList_append]
  rcases Nat.lt_or_ge i.val f.locals.size with hold | hnew
  · obtain ⟨x, hx, hn⟩ := hnamed i hold
    exact ⟨x, List.mem_append_left _ hx, hn⟩
  · obtain ⟨r, -, hrule⟩ := lower_eq_ok.mp hlower
    obtain ⟨f', hplan, -, -, ⟨s, l, rfl⟩, -⟩ := Rule.lower_eq_plan hmirrors.room hpending hrule
    obtain ⟨x, hx, hn⟩ := Rule.plan_namesNew _ _ f _ f' hplan i hnew hi
    exact ⟨x, List.mem_append_right _ hx, hn⟩

/-- The locals that the code of a method names are those that it has. -/
theorem names_iff (h : (Registry.default.recompile o body).result = .ok m) :
    (∃ x ∈ m.instructions, x.Names i) ↔ i.val < m.locals.size := by
  constructor
  · rintro ⟨x, hx, hn⟩
    obtain ⟨k, hmem⟩ := (mem_instructions_iff h).mp hx
    obtain ⟨instr, hk⟩ := exists_instr_of_mem_slice h hmem
    obtain ⟨s, d, rule, -, -, hrule, hrenders⟩ := default_recompile_at h hk
    rcases hrenders.of_names hmem hn with
      ⟨-, _, _, _, -, -, hbacks, -⟩ | ⟨-, _, _, _, -, -, hbacks, -⟩ |
      ⟨-, _, _, _, _, hscratch, -⟩ | ⟨ch, rfl, hseq⟩
    · exact hbacks.lt_size
    · exact hbacks.lt_size
    · exact hscratch.lt_size
    · obtain ⟨hload, hstore⟩ := default_chain_names hrule i
      rcases hn with rfl | rfl
      · exact absurd hseq hload
      · exact absurd hseq hstore
  · obtain ⟨a, f, ha, hcode, hl, -, -⟩ := recompile_eq_ok h
    rw [hl, hcode]
    intro hi
    obtain ⟨x, hx, hn⟩ := named_of_assemble ha i hi
    exact ⟨x, Array.mem_toList_iff.mp hx, hn⟩

/-! ### Locals are counted -/

/-- A method has the locals that its body demands. -/
theorem default_size (h : (Registry.default.recompile o body).result = .ok m) :
    m.locals.size = (Typing.touched o.maxStackDepth body).toFinset.card +
      2 * if o.reuseTemporaries then (Typing.compared o.maxStackDepth body).toFinset.card
        else (Typing.compared o.maxStackDepth body).length := by
  obtain ⟨a, f, ha, -, hl, -, -⟩ := recompile_eq_ok h
  obtain ⟨s, d, hcheck, hf⟩ := default_assemble_tracks ha
  obtain ⟨hhomes, hscratch, hcomparisons⟩ := Typing.demand_of_check hcheck
  rw [hl, hf.size, Demand.locals, hhomes, hscratch, hcomparisons]

/-- What is admitted is recompiled. -/
theorem default_recompile_of_admitted (h : Admitted o body) :
    ∃ m, (Registry.default.recompile o body).result = .ok m := by
  rcases default_assemble_cases body {} (Frame.Tracks.start o) with
    ⟨a, f, ha, -⟩ | ⟨e, f, n, -, -, -, -, hnot⟩
  · obtain ⟨m, hm, -⟩ := recompile_of_assemble ha
    exact ⟨m, hm⟩
  · exact absurd (h.take (n + 1)) hnot

/-- Where scratch locals are shared, no body runs out of locals, whatever the
registry. -/
theorem ne_tooManyLocals (ho : o.reuseTemporaries = true) {e : RecompileError} (n : Nat)
    (h : (reg.recompile o body).result = .error e) : e.fault.cause ≠ .tooManyLocals n := by
  intro hc
  obtain ⟨g, ha⟩ := recompile_eq_error.mp h
  obtain ⟨k, instr, a, f, -, -, -, hfront, hlower⟩ := assemble_eq_error ha
  obtain ⟨hsound, -, hmirrors⟩ := assemble_standing hfront
  have hsound' : g.SoundLocals := sound_invariant.registry_lower_error (H := []) hsound hlower
  have hoptions : g.options = o :=
    (options_stackInvariant o).registry_lower_error (H := []) hmirrors.options hlower
  have hfull : maxLocals ≤ g.locals.size := full_of_tooManyLocals hlower hc
  have hsmall := hsound'.size_le_keys (by rw [hoptions]; exact ho)
  unfold maxLocals at hfull
  omega

end Registry

/-! ### The budget -/

/-- A body that is recompiled with shared scratch locals has one local for each
register and class of values it touches and two for each type it compares
numbers at, at most 56 of them. Without sharing it has two for each comparison,
unless these are too many, and only then is it refused. With sharing there never
are too many. In either case the code of the method names its locals and no
others. -/
theorem recompile_budget (o : Options) (body : List Instr) :
    let homes := (Typing.touched o.maxStackDepth body).toFinset.card
    let types := (Typing.compared o.maxStackDepth body).toFinset.card
    let comparisons := (Typing.compared o.maxStackDepth body).length
    let result (reuse : Bool) :=
      (Registry.default.recompile { o with reuseTemporaries := reuse } body).result
    (∀ m, result true = .ok m →
      m.locals.size = homes + 2 * types ∧ m.locals.size ≤ 56 ∧
      (homes + 2 * comparisons ≤ 65536 →
        ∃ m', result false = .ok m' ∧ m'.locals.size = homes + 2 * comparisons) ∧
      (65536 < homes + 2 * comparisons →
        ∃ e, result false = .error e ∧ e.fault.cause = .tooManyLocals 65536)) ∧
    (∀ e n, result true = .error e → e.fault.cause ≠ .tooManyLocals n) ∧
    ∀ reuse m, result reuse = .ok m → ∀ i : LocalIndex,
      (∃ x ∈ m.instructions, x.Names i) ↔ i.val < m.locals.size := by
  intro homes types comparisons result
  have hplain : ∀ m', result false = .ok m' → m'.locals.size = homes + 2 * comparisons :=
    fun m' hm' => Registry.default_size hm'
  refine ⟨fun m hm => ?_, fun e n h => Registry.ne_tooManyLocals rfl n h,
    fun reuse m hm i => Registry.names_iff hm⟩
  have hsize : m.locals.size = homes + 2 * types := Registry.default_size hm
  have hhomes : homes ≤ 48 := Typing.card_touched_le _ _
  have htypes : types ≤ 4 := Typing.card_compared_le _ _
  refine ⟨hsize, by omega, fun hle => ?_, fun hlt => ?_⟩
  · obtain ⟨a, f, ha, -⟩ := Registry.recompile_eq_ok hm
    obtain ⟨s, d, hcheck, -⟩ := Registry.default_assemble_tracks ha
    have hfits : d.Fits { o with reuseTemporaries := false } := by
      obtain ⟨hh, -, hc⟩ := Typing.demand_of_check hcheck
      right
      rw [Demand.locals, hh, hc]
      exact hle
    have hadmitted : Admitted { o with reuseTemporaries := false } body := ⟨s, d, hcheck, hfits⟩
    obtain ⟨m', hm'⟩ := Registry.default_recompile_of_admitted hadmitted
    exact ⟨m', hm', hplain m' hm'⟩
  · rcases Registry.recompile_inStep (Registry.default_assemble_pooled o body) with
      ⟨m', -, -, -, -, -, hm', -⟩ | ⟨e, -, he⟩ | ⟨e, he, hcause, -⟩
    · -- a table never holds more than there is room for
      obtain ⟨f, hf, hl⟩ := Registry.recompile_sound hm'
      have hroom := hf.size_le
      rw [← hl, hplain m' hm'] at hroom
      unfold maxLocals at hroom
      omega
    · cases hm.symm.trans he
    · exact ⟨e, he, hcause⟩

/-- Two registers with an integer each, and two comparisons at one type: four
locals with sharing, six without, and all of them are named. -/
theorem recompile_budget_comparedTwice :
    let body := selfComparison ++ selfComparison
    ∃ m m', (Registry.default.recompile {} body).result = .ok m ∧
      (Registry.default.recompile { reuseTemporaries := false } body).result = .ok m' ∧
      m.locals.size = 4 ∧ m'.locals.size = 6 ∧
      (∃ x ∈ m'.instructions, x.Names ⟨5, by decide⟩) := by
  intro body
  have hrun : ((Registry.default.recompile {} body).result.map Method.maxStack).toOption = some 3 := by
    decide +kernel
  have hcount : (Typing.touched (Options.maxStackDepth {}) body).toFinset.card = 2 ∧
      (Typing.compared (Options.maxStackDepth {}) body).toFinset.card = 1 ∧
      (Typing.compared (Options.maxStackDepth {}) body).length = 2 := by
    decide +kernel
  obtain ⟨m, hm, -⟩ := Registry.exists_method hrun
  obtain ⟨hbudget, -, hnames⟩ := recompile_budget {} body
  obtain ⟨hsize, -, hplain, -⟩ := hbudget m hm
  rw [hcount.1, hcount.2.1] at hsize
  rw [hcount.1, hcount.2.2] at hplain
  obtain ⟨m', hm', hsize'⟩ := hplain (by decide)
  have hlast : 5 < m'.locals.size := by omega
  exact ⟨m, m', hm, hm', hsize, hsize', (hnames false m' hm' ⟨5, by decide⟩).mpr hlast⟩

end Devirt
