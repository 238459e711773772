/-
# What is recompiled is what is well typed

The default table decides about decoded code by emitting host code and running
it on types. That comes down to the type system of the decoded code: a frame
that tracks a typing (`Frame.Tracks`) lowers an operation if and only if the
operation has a typing and its demand fits, and then tracks the new typing
(`Registry.default_lower_cases`). So a body is recompiled if and only if it is
admitted, and a failure is reported at the first instruction that is not
(`recompile_accepts_iff`).

An operation is followed in two halves. Planning allocates and finds the code
(`Planned`), and the code moves the stack as the typing says
(`Typing.through`).

Key definitions: `Frame.Tracks`, `Planned`, `Realized`.
Key theorems: `Rule.planned`, `Registry.default_lower_cases`,
`recompile_accepts_iff`.
-/
import Devirt.Proofs.Dispatch
import Devirt.Proofs.Ledger
import Devirt.Proofs.Through

namespace Devirt

open Devirt.Frame Lower HostInstr

/-! ### Frames that track a typing -/

/-- The frame has the stack and the registers of the typing and the locals of
the demand. -/
structure Frame.Tracks (o : Options) (s : Typing) (d : Demand) (f : Frame) : Prop
    extends f.Ledger o d where
  types : f.stack.types = s.stack
  room : s.stack.length ≤ o.maxStackDepth
  floats : ∀ r, f.holdsFloat r = true ↔ r ∈ s.floats

namespace Frame.Tracks

variable {o : Options} {s : Typing} {d d' : Demand} {f : Frame}

theorem start (o : Options) : (Frame.start o).Tracks o {} {} where
  toLedger := .start o
  types := rfl
  room := Nat.zero_le _
  floats r := by simp [holdsFloat, Frame.start]

theorem withLocals (hf : f.Tracks o s d) {ls : Array Local}
    (hl : ({ f with locals := ls } : Frame).Ledger o d') :
    ({ f with locals := ls } : Frame).Tracks o s d' :=
  ⟨hl, hf.types, hf.room, hf.floats⟩

theorem length_le (hf : f.Tracks o s d) : f.stack.types.length ≤ f.limit := by
  rw [hf.types, limit, hf.options]
  exact hf.room

/-- The register is stored with a value of type `t`. -/
theorem markStored (hf : f.Tracks o s d) (r : Register) (t : StackType) :
    ∃ fl, Frame.markStored r t f = .ok () { f with floats := fl } ∧
      ({ f with floats := fl } : Frame).Tracks o
        { s with floats := if t = .float then insert r s.floats else s.floats.erase r } d := by
  refine ⟨_, rfl, hf.toLedger.congr rfl rfl, hf.types, hf.room, fun r' => ?_⟩
  have hr' : f.holdsFloat r' = true ↔ r' ∈ s.floats := hf.floats r'
  simp only [holdsFloat, List.contains_iff_mem] at hr' ⊢
  by_cases ht : t = .float
  · by_cases h : r' = r <;> simp [ht, h, hr']
  · simp [ht, hr', and_comm]

end Frame.Tracks

/-! ### Plans and their code -/

/-- There is a next typing and the demand fits. -/
def Accepted (o : Options) (next : Option Typing) (d : Demand) : Prop :=
  next.isSome = true ∧ d.Fits o

theorem not_accepted {o : Options} {next : Option Typing} {d : Demand} (h : next = none) :
    ¬ Accepted o next d := by
  simp [Accepted, h]

/-- The operation takes a typing to the next one, or it is not accepted. -/
def Realized (o : Options) (x : Lower Unit) (f : Frame) (next : Option Typing) (d : Demand) : Prop :=
  Yields x f (fun _ g => ∃ s, next = some s ∧ g.Tracks o s d) fun _ => ¬ Accepted o next d

/-- The code of an operation takes a typing to the next one, if there is one,
or it is not found because the operation is not accepted. -/
def Planned (o : Options) (x : Lower (List HostInstr)) (f : Frame) (next : Option Typing)
    (d : Demand) : Prop :=
  Yields x f
    (fun is g => ∃ s, g.Tracks o s d ∧ s.through o.maxStackDepth (declared g.locals) is = next)
    fun _ => ¬ Accepted o next d

namespace Planned

variable {o : Options} {x : Lower (List HostInstr)} {f : Frame} {next : Option Typing} {s : Typing}
  {d : Demand}

theorem of_pure (hf : f.Tracks o s d) {is : List HostInstr}
    (h : s.through o.maxStackDepth (declared f.locals) is = next) : Planned o (pure is) f next d :=
  Yields.pure ⟨s, hf, h⟩

theorem of_throw (c : Cause) (h : next = none) : Planned o (throw c) f next d :=
  Yields.throw (not_accepted h)

/-- A plan and its code make the operation. -/
theorem realized (h : Planned o x f next d) (code : CodeRef) :
    Realized o (x >>= emitAll code) f next d := by
  refine Yields.bind h fun is g ⟨s, hg, hthrough⟩ => ?_
  have hlimit : g.limit = o.maxStackDepth := congrArg Options.maxStackDepth hg.options
  rcases emitAll_cases code is g hg.length_le with ⟨st, p, l, hok, -, hr⟩ | ⟨⟨c, g', herr⟩, hr⟩
  · rw [hg.types, hlimit] at hr
    refine Or.inl ⟨(), _, hok, { s with stack := st.types }, ?_, hg.toLedger.congr rfl rfl, rfl, ?_,
      hg.floats⟩
    · rw [← hthrough, Typing.through, hr, Option.map_some]
    · exact length_le_of_replayWithin hg.room hr
  · rw [hg.types, hlimit] at hr
    refine Or.inr ⟨c, g', herr, not_accepted ?_⟩
    rw [← hthrough, Typing.through, hr, Option.map_none]

end Planned

/-! ### The plan of each rule -/

section Rules

variable {o : Options} {s : Typing} {d : Demand} {f : Frame} (hf : f.Tracks o s d)

include hf

/-- Code that uses the home of a register. -/
theorem planned_home (r : Register) (t : StackType) {k : LocalIndex → List HostInstr}
    {next : Option Typing}
    (hk : ∀ types home, types home = some (StorageClass.of t).slotType →
      s.through o.maxStackDepth types (k home) = next) :
    Planned o (do return k (← registerLocal r t)) f next (d.addHome (r, .of t)) := by
  refine Yields.bind (hf.toLedger.registerLocal_yields r t |>.mono fun _ h h' => h h'.2) ?_
  rintro home g ⟨⟨ls, rfl⟩, hl, hd⟩
  exact Planned.of_pure (hf.withLocals hl) (hk _ home hd)

/-- An integer is read from the 64-bit home of its register and cut down. -/
theorem planned_narrow (r : Register) {w : Width} (hw : StorageClass.of (.ofWidth w) = .integral)
    (hn : ∃ conv, w.narrowing? = some conv ∧ conv.target = .int32) :
    Planned o (do
        let home ← registerLocal r (.ofWidth w)
        return .loadLocal home :: (w.narrowing?.map HostInstr.convert).toList) f
      (s.push o.maxStackDepth .int32) (d.addHome (r, .integral)) := by
  obtain ⟨conv, hn, hconv⟩ := hn
  rw [← hw]
  refine planned_home hf r _ fun types home hhome => ?_
  rw [hn, Option.map_some, Option.toList_some, Typing.through_cons,
    Typing.through_push (retype_loadLocal hhome _), Typing.push, Typing.push]
  by_cases hlt : s.stack.length < o.maxStackDepth
  · rw [if_pos hlt, if_pos hlt, Option.bind_some, Typing.through_replaceTop (t := .int32) hlt]
    · rfl
    · rw [retype, hconv]
  · rw [if_neg hlt, if_neg hlt, Option.bind_none]

theorem planned_read {w : Width} (hw : w = .object ∨ w.isIntegral = true) (r : Register) :
    Planned o (Plan.pushRegister w r) f (s.read o.maxStackDepth w r)
      (d.addHome (r, s.readClass w r)) := by
  have hfl := hf.floats r
  refine Yields.bind_ok (a := f) (g := f) rfl ?_
  by_cases hr : r ∈ s.floats
  · rw [hfl.mpr hr]
    have hfloat : ∀ types home, types home = some (StorageClass.of .float).slotType →
        s.through o.maxStackDepth types [.loadLocal home] = s.push o.maxStackDepth .float :=
      fun types home h => Typing.through_push (retype_loadLocal h _)
    cases w with
    | object => exact planned_home hf r .object fun _ _ h => Typing.through_push (retype_loadLocal h _)
    | byte | word => exact Planned.of_throw _ (by simp [Typing.read, hr])
    | dword | qword =>
      simp only [Typing.read, Typing.readClass, reduceCtorEq, if_false, if_pos hr]
      exact planned_home hf r .float hfloat
    | pointer | real32 | real64 => simp [Width.isIntegral] at hw
  · rw [Bool.eq_false_iff.mpr fun h => hr (hfl.mp h)]
    cases w with
    | object => exact planned_home hf r .object fun _ _ h => Typing.through_push (retype_loadLocal h _)
    | byte | word | dword =>
      simp only [Typing.read, Typing.readClass, reduceCtorEq, if_false, if_neg hr]
      exact planned_narrow hf r rfl ⟨_, rfl, rfl⟩
    | qword =>
      simp only [Typing.read, Typing.readClass, reduceCtorEq, if_false, if_neg hr]
      exact planned_home hf r .int64 fun _ _ h => Typing.through_push (retype_loadLocal h _)
    | pointer | real32 | real64 => simp [Width.isIntegral] at hw

/-- Storing marks the register before it stores, but not before it has a home. -/
theorem planned_store (r : Register) :
    Planned o (Plan.pop (.register r)) f (s.store r)
      ((s.stack.head?.map fun top => (r, StorageClass.of top)).elim d d.addHome) := by
  unfold Plan.pop Typing.store
  cases hst : s.stack with
  | nil =>
    have hnone : f.stack.types[0]? = none := by rw [hf.types, hst, List.getElem?_nil]
    exact .bind_error (peek_of_none hnone) (not_accepted rfl)
  | cons top rest =>
    have hpeek : peek 0 f = .ok top f := peek_eq_ok.mpr ⟨by simp [hf.types, hst], rfl⟩
    refine .bind_ok hpeek ?_
    show Planned o (storeRegister r top >>= fun home => pure (Plan.storeInto top home)) f _
      (d.addHome (r, .of top))
    rcases hf.toLedger.registerLocal_yields r top with
      ⟨home, _, hok, ⟨ls, rfl⟩, hl, -⟩ | ⟨c, g, herr, hn⟩
    · obtain ⟨fl, hmark, hg⟩ := (hf.withLocals hl).markStored r top
      have hstore : storeRegister r top f = .ok home { f with locals := ls, floats := fl } :=
        (bind_of_ok hok).trans (bind_of_ok hmark)
      exact .bind_ok hstore (Planned.of_pure hg (Typing.through_storeInto hg.room hst home))
    · exact .bind_error (bind_of_error herr) fun h => hn h.2

theorem planned_drop : Planned o (Plan.pop .none) f (s.drop 1) d :=
  Planned.of_pure hf (Typing.through_drop hf.room rfl)

/-- A chain asks for its operands before it emits anything. -/
theorem planned_chain (c : Chain) {next : Option Typing}
    (hc : ∀ types, s.through o.maxStackDepth types c.sequence = next)
    (hn : s.stack.length < c.operandCount → next = none) :
    Planned o (Plan.chain c) f next d := by
  have hdepth : f.stack.depth = s.stack.length := by rw [f.stack.depth_eq, hf.types]
  rcases Nat.lt_or_ge s.stack.length c.operandCount with h | h
  · exact .bind_error (require_of_lt (hdepth ▸ h)) (not_accepted (hn h))
  · exact .bind_ok (require_eq_ok.mpr ⟨hdepth ▸ h, rfl⟩) (Planned.of_pure hf (hc _))

/-- A chain of two operands whose code is a binary operation on types. -/
theorem planned_binary (c : Chain) (h2 : c.operandCount = 2)
    (hc : ∀ types, s.through o.maxStackDepth types c.sequence = s.binary) :
    Planned o (Plan.chain c) f s.binary d := by
  refine planned_chain hf c hc fun hlt => ?_
  rw [h2] at hlt
  unfold Typing.binary
  rcases hst : s.stack with _ | ⟨rhs, _ | ⟨lhs, rest⟩⟩
  · rfl
  · rfl
  · simp only [hst, List.length_cons] at hlt
    omega

theorem planned_unary (c : Chain) (h1 : c.operandCount = 1)
    (hc : ∀ types, s.through o.maxStackDepth types c.sequence = s.unary) :
    Planned o (Plan.chain c) f s.unary d := by
  refine planned_chain hf c hc fun hlt => ?_
  rw [h1, Nat.lt_one_iff, List.length_eq_zero_iff] at hlt
  rw [Typing.unary, if_pos hlt]

/-- A comparison of numbers at a type that it finds from theirs, or of
references where it has no width. -/
theorem planned_compare (width : Option Width) {k : StackType × StackType → StackType}
    (hk : ∀ lhs rhs, k (lhs, rhs) = width.elim (.binaryResult lhs rhs) .ofWidth) :
    Planned o (Plan.compare width) f (s.compare o.maxStackDepth width.isNone)
      ((s.numbers?.map k).elim d d.addCompare) := by
  have hdepth : f.stack.depth = s.stack.length := by rw [f.stack.depth_eq, hf.types]
  rcases hst : s.stack with _ | ⟨rhs, _ | ⟨lhs, rest⟩⟩
  · have hlt : f.stack.depth < 2 := by simp [hdepth, hst]
    refine Or.inr ⟨_, f, Plan.compare_of_lt hlt, not_accepted ?_⟩
    simp [Typing.compare, Typing.numbers?, hst]
  · have hlt : f.stack.depth < 2 := by simp [hdepth, hst]
    refine Or.inr ⟨_, f, Plan.compare_of_lt hlt, not_accepted ?_⟩
    simp [Typing.compare, Typing.numbers?, hst]
  · have htypes : f.stack.types = rhs :: lhs :: rest := hf.types.trans hst
    by_cases hnum : lhs ≠ .object ∧ rhs ≠ .object
    · have hnumbers : s.numbers? = some (lhs, rhs) := by simp [Typing.numbers?, hst, hnum]
      rw [hnumbers, Option.map_some, Option.elim_some, hk lhs rhs]
      refine Yields.congr (Plan.compare_numbers htypes hnum.1 hnum.2) ?_
      rcases hf.toLedger.compareNumbers_yields _ with
        ⟨_, _, hok, ⟨ls, rfl⟩, hledger, l, r, rfl, hl, hr⟩ | ⟨c, g, herr, hn⟩
      · refine Or.inl ⟨_, _, hok, s, hf.withLocals hledger, ?_⟩
        simp [Typing.through_signOfDifference hf.room hst hl hr, Typing.compare, hnumbers, hst]
      · exact Or.inr ⟨c, g, herr, fun h => hn h.2⟩
    · have hnumbers : s.numbers? = none := by simp [Typing.numbers?, hst, hnum]
      rw [hnumbers, Option.map_none, Option.elim_none]
      by_cases href : width = none ∧ lhs = .object ∧ rhs = .object
      · obtain ⟨rfl, rfl, rfl⟩ := href
        refine Or.inl ⟨_, f, Plan.compare_references htypes, s, hf, ?_⟩
        simp [Typing.through_referencesDiffer hf.room hst, Typing.compare, hnumbers, hst]
      · refine Or.inr ⟨_, f, Plan.compare_incomparable htypes hnum href, not_accepted ?_⟩
        simp only [Typing.compare, hnumbers, hst]
        exact if_neg fun h => href (by simpa [and_comm] using h)

theorem planned_box (arg : IntrinsicOperand) :
    Planned o (Plan.box arg) f (s.intrinsic o.maxStackDepth .box arg) d := by
  cases arg with
  | type t =>
    simp only [Plan.box, Typing.intrinsic]
    by_cases hvoid : t.isVoid = true
    · rw [if_pos hvoid, if_pos hvoid]
      exact Planned.of_throw _ rfl
    · rw [if_neg hvoid, if_neg hvoid]
      split
      · exact Planned.of_pure hf (Typing.through_replaceTop hf.room rfl)
      · exact Planned.of_pure hf (Typing.through_replaceTop hf.room rfl)
  | none | field | method => exact Planned.of_throw _ rfl

theorem planned_call (arg : IntrinsicOperand) :
    Planned o (Plan.call arg) f (s.intrinsic o.maxStackDepth .ecall arg) d := by
  cases arg with
  | method how m =>
    simp only [Plan.call, Typing.intrinsic]
    by_cases hthis : how ≠ .direct ∧ ¬ m.hasThis = true
    · rw [if_pos hthis, if_pos hthis]
      exact Planned.of_throw _ rfl
    · rw [if_neg hthis, if_neg hthis]
      have hthrough : s.through o.maxStackDepth (declared f.locals) [.invoke how m] =
          s.call o.maxStackDepth how m := Typing.through_invoke hf.room how m
      rcases Nat.lt_or_ge f.stack.depth (HostInstr.invoke how m).arity.pops with h | h
      · refine .bind_error (require_of_lt h) (not_accepted ?_)
        -- too few arguments for the host's call are too few for the type system's
        rw [f.stack.depth_eq, hf.types] at h
        cases how with
        | construct =>
          have hlen : ¬ m.params.length ≤ s.stack.length := by simpa [arity] using h
          simp [Typing.call, Typing.drop, hlen]
        | direct | virtual =>
          have hlen : ¬ m.stackArguments ≤ s.stack.length := by simpa [arity] using h
          cases hr : m.resultType? <;> simp [Typing.call, Typing.drop, hlen, hr]
      · exact .bind_ok (require_eq_ok.mpr ⟨h, rfl⟩) (Planned.of_pure hf hthrough)
  | none | field | type => exact Planned.of_throw _ rfl

/-- Access to a field through the value `n` places below the top. -/
theorem planned_receiver (n : Nat) {is : List HostInstr} {next : Option Typing}
    (h : s.through o.maxStackDepth (declared f.locals) is = next) :
    Planned o (do Lowering.requireReceiver n; return is) f (if s.receiver n then next else none) d := by
  unfold Lowering.requireReceiver Typing.receiver
  cases hst : s.stack[n]? with
  | none =>
    have hpeek := peek_of_none (f := f) (n := n) (by rw [hf.types, hst])
    exact .bind_error (bind_of_error hpeek) (not_accepted (if_neg Bool.false_ne_true))
  | some t =>
    have hpeek : peek n f = .ok t f := peek_eq_ok.mpr ⟨by rw [hf.types, hst], rfl⟩
    rw [bind_assoc]
    refine .bind_ok hpeek ?_
    cases t with
    | object | pointer | nativeInt => exact Planned.of_pure hf h
    | int32 | int64 | float => exact Planned.of_throw _ rfl

theorem planned_loadField (arg : IntrinsicOperand) :
    Planned o (Plan.loadField arg) f (s.intrinsic o.maxStackDepth .ldfld arg) d := by
  cases arg with
  | field fld =>
    simp only [Plan.loadField, Typing.intrinsic]
    split
    · exact Planned.of_pure hf (Typing.through_push rfl)
    · exact planned_receiver hf 0 (Typing.through_replaceTop hf.room rfl)
  | none | type | method => exact Planned.of_throw _ rfl

theorem planned_storeField (arg : IntrinsicOperand) :
    Planned o (Plan.storeField arg) f (s.intrinsic o.maxStackDepth .stfld arg) d := by
  cases arg with
  | field fld =>
    simp only [Plan.storeField, Typing.intrinsic]
    split
    · exact Planned.of_pure hf (Typing.through_drop hf.room rfl)
    · exact planned_receiver hf 1 (Typing.through_drop hf.room rfl)
  | none | type | method => exact Planned.of_throw _ rfl

/-- Each operation of the default table takes a typing to the next one. -/
theorem Rule.planned {op : Operation} {r : Rule} (hr : op.code.defaultRule? = some r) :
    Planned o (r.plan op) f (s.step o.maxStackDepth op) (d.after s op) := by
  cases op with
  | plain c arg =>
    cases c with
    | pushiDword =>
      cases hr
      cases arg with
      | dword v => exact Planned.of_pure hf (Typing.through_push rfl)
      | none | qword | register => exact Planned.of_throw _ rfl
    | pushiQword =>
      cases hr
      cases arg with
      | qword v => exact Planned.of_pure hf (Typing.through_push rfl)
      | none | dword | register => exact Planned.of_throw _ rfl
    | pushrObject =>
      cases hr
      cases arg with
      | register r => exact planned_read hf (w := .object) (Or.inl rfl) r
      | none | dword | qword => exact Planned.of_throw _ rfl
    | pushrByte | pushrWord | pushrDword | pushrQword =>
      cases hr
      cases arg with
      | register r => exact planned_read hf (Or.inr rfl) r
      | none | dword | qword => exact Planned.of_throw _ rfl
    | pop =>
      cases hr
      cases arg with
      | none => exact planned_drop hf
      | register r => exact planned_store hf r
      | dword | qword => exact Planned.of_throw _ rfl
    | addDword | addQword | addR32 | addR64 | subDword | orDword | andDword | xorDword =>
      cases hr
      exact planned_binary hf _ rfl fun _ => Typing.through_binary hf.room _
    | norDword | norQword =>
      cases hr
      exact planned_binary hf .nor rfl fun _ => Typing.through_nor hf.room
    | notDword =>
      cases hr
      exact planned_unary hf .not rfl fun _ => Typing.through_unary hf.room _
    | cmp =>
      cases hr
      exact planned_compare hf none fun _ _ => rfl
    | cmpDword =>
      cases hr
      exact planned_compare hf (some .dword) fun _ _ => rfl
    | cmpQword =>
      cases hr
      exact planned_compare hf (some .qword) fun _ _ => rfl
    | cmpR32 =>
      cases hr
      exact planned_compare hf (some .real32) fun _ _ => rfl
    | cmpR64 =>
      cases hr
      exact planned_compare hf (some .real64) fun _ _ => rfl
    | _ => cases hr
  | intrinsic call arg =>
    cases call with
    | box =>
      cases hr
      exact planned_box hf arg
    | ecall =>
      cases hr
      exact planned_call hf arg
    | ldfld =>
      cases hr
      exact planned_loadField hf arg
    | stfld =>
      cases hr
      exact planned_storeField hf arg
    | _ => cases hr

end Rules

/-! ### The default table -/

theorem Typing.step_eq_none {op : Operation} (h : op.code.defaultRule? = none) (limit : Nat)
    (s : Typing) : s.step limit op = none := by
  cases op with
  | plain c arg => cases c <;> first | rfl | cases h
  | intrinsic call arg => cases call <;> first | rfl | cases h

/-- The default table lowers an instruction if it has a typing and its demand
fits, and not otherwise. -/
theorem Registry.default_lower_cases {o : Options} {s : Typing} {d : Demand} {f : Frame}
    (hf : f.Tracks o s d) (i : Instr) :
    (∃ s' code g, Registry.default.lower i f = .ok code g ∧
      s.step o.maxStackDepth i.operation = some s' ∧ g.Tracks o s' (d.after s i.operation)) ∨
    ((∃ fault g, Registry.default.lower i f = .error fault g) ∧
      ¬ ((s.step o.maxStackDepth i.operation).isSome = true ∧ (d.after s i.operation).Fits o)) := by
  cases hr : i.code.defaultRule? with
  | none =>
    refine Or.inr ⟨⟨⟨i.code, .unsupported⟩, f, ?_⟩, ?_⟩
    · rw [default_lower_of_none hr]
      rfl
    · simp [Typing.step_eq_none hr]
  | some r =>
    have hrule := (Rule.planned hf hr).realized i.operation.code
    rw [← Rule.emit_eq] at hrule
    rw [default_lower hr]
    rcases hrule with ⟨_, g, hok, s', hstep, hg⟩ | ⟨c, g, herr, hn⟩
    · exact Or.inl ⟨s', _, _, Rule.lower_eq_ok.mpr ⟨g, hok, rfl, rfl⟩, hstep,
        hg.toLedger.congr rfl rfl, hg.types, hg.room, hg.floats⟩
    · exact Or.inr ⟨⟨_, g, Rule.lower_eq_error.mpr ⟨c, herr, rfl⟩⟩, hn⟩

/-- A body is assembled if it is admitted; if not, the failure has the place
of the first instruction that is not. -/
theorem Registry.default_assemble_cases {o : Options} : ∀ (body : List Instr) (a : Assembly)
    {s : Typing} {d : Demand} {f : Frame}, f.Tracks o s d →
    (∃ a' g, Registry.default.assemble body a f = (.ok a', g) ∧ AdmittedFrom o s d body) ∨
    (∃ e g n, Registry.default.assemble body a f = (.error e, g) ∧ e.index = a.mappings.size + n ∧
      n < body.length ∧ AdmittedFrom o s d (body.take n) ∧
      ¬ AdmittedFrom o s d (body.take (n + 1)))
  | [], a, s, d, f, hf => .inl ⟨a, f, rfl, s, d, rfl, hf.toLedger.fits⟩
  | i :: rest, a, s, d, f, hf => by
    rw [assemble]
    rcases default_lower_cases hf i with ⟨s', code, g, hok, hstep, hg⟩ | ⟨⟨fault, g, herr⟩, hn⟩
    · rw [hok]
      rcases default_assemble_cases rest (a.append i.offset code) hg with
        ⟨a', g', ha, hadm⟩ | ⟨e, g', n, ha, hindex, hlt, hadm, hnot⟩
      · exact Or.inl ⟨a', g', ha, admittedFrom_cons.mpr ⟨s', hstep, hadm⟩⟩
      · refine Or.inr ⟨e, g', n + 1, ha, ?_, Nat.succ_lt_succ hlt, ?_, ?_⟩
        · rw [hindex, Assembly.append, Array.size_push]
          omega
        · exact admittedFrom_cons.mpr ⟨s', hstep, hadm⟩
        · rw [List.take_succ_cons, admittedFrom_cons]
          rintro ⟨u, hu, hrest⟩
          rw [hstep, Option.some.injEq] at hu
          exact hnot (hu ▸ hrest)
    · rw [herr]
      refine Or.inr ⟨_, g, 0, rfl, rfl, Nat.succ_pos _, ⟨s, d, rfl, hf.toLedger.fits⟩, ?_⟩
      rw [List.take_succ_cons, List.take_zero, admittedFrom_cons]
      rintro ⟨s', hstep, u, d', hc, hfit⟩
      cases hc
      exact hn ⟨by rw [hstep]; rfl, hfit⟩

/-- A body is recompiled with the default table if and only if it is admitted,
and a failure is at the first instruction that is not. -/
theorem recompile_accepts_iff (o : Options) (body : List Instr) :
    ((∃ m, (Registry.default.recompile o body).result = .ok m) ↔ Admitted o body) ∧
      ∀ e, (Registry.default.recompile o body).result = .error e →
        e.index < body.length ∧ Admitted o (body.take e.index) ∧
          ¬ Admitted o (body.take (e.index + 1)) := by
  unfold Registry.recompile
  rcases Registry.default_assemble_cases body {} (Frame.Tracks.start o) with
    ⟨a, f, ha, hadm⟩ | ⟨e, f, n, ha, hindex, hlt, hadm, hnot⟩
  · rw [ha]
    exact ⟨⟨fun _ => hadm, fun _ => ⟨_, rfl⟩⟩, fun e he => by cases he⟩
  · rw [ha]
    have hn : e.index = n := by simpa using hindex
    have hbody : ¬ Admitted o body := fun h => hnot (h.take (n + 1))
    refine ⟨⟨?_, fun h => absurd h hbody⟩, fun e' he => ?_⟩
    · rintro ⟨m, hm⟩
      cases hm
    cases he
    rw [hn]
    exact ⟨hlt, hadm, hnot⟩

/-- A float goes into a register and a byte of it is asked for. -/
def narrowFloat : List Instr :=
  let field : FieldRef := ⟨⟨"T", .classType⟩, "x", ⟨"System.Double", .r8⟩, true⟩
  [⟨0, .intrinsic .ldfld (.field field)⟩, ⟨1, .plain .pop (.register .r3)⟩,
    ⟨2, .plain .pushrQword (.register .r3)⟩, ⟨3, .plain .pushrByte (.register .r3)⟩]

theorem recompile_accepts_iff_narrowFloat :
    ∃ e, (Registry.default.recompile {} narrowFloat).result = .error e ∧ e.index = 3 ∧
      Admitted {} (narrowFloat.take e.index) ∧ ¬ Admitted {} (narrowFloat.take (e.index + 1)) := by
  have h : (match (Registry.default.recompile {} narrowFloat).result with
      | .error e => some e.index
      | .ok _ => none) = some 3 := by decide +kernel
  cases hr : (Registry.default.recompile {} narrowFloat).result with
  | ok m =>
    rw [hr] at h
    cases h
  | error e =>
    rw [hr] at h
    exact ⟨e, rfl, Option.some.inj h, ((recompile_accepts_iff {} narrowFloat).2 e hr).2⟩

end Devirt
