/-
# What a run of calls was told

The chronicle of a run has an entry for each call that went through: the frame
that it met, the call and its answer. A call that fails leaves no entry, and
nothing of what follows depends on it.

Two parts of a frame are an account of its chronicle. The locals handed out so
far, in order, and those that are still to be handed out are the table of
locals (`reports_append_newLocals`). A register holds a float exactly if the
last entry that stores it stored one (`holdsFloat_iff`). A pop stores before it
emits, and what it emits then is never refused; so a store goes through exactly
if the call that asks for it does.

Key definitions: `Frame.chronicle`, `Action.stored?`, `Lower.Stores`,
`lastStored`, `reports`.
Key theorems: `Rule.Stores.emit_cases`, `Action.run_stores`,
`holdsFloat_iff`, `reports_append_newLocals`.
-/
import Devirt.Proofs.Failure
import Devirt.Proofs.Latest
import Mathlib.Data.List.Induction

namespace Devirt

open Devirt.Frame Lower HostInstr

/-! ### Chronicles -/

/-- A call that went through. -/
structure Entry where
  frame : Frame
  action : Action
  answer : Answer

/-- The entry of a call, if it goes through. -/
def Action.entry? (reg : Registry) (code : CodeRef) (a : Action) (f : Frame) : Option Entry :=
  match a.run reg code f with
  | .ok b _ => some ⟨f, a, b⟩
  | .error _ _ => none

/-- The calls of a run that went through, in order. -/
def Frame.chronicle (reg : Registry) : List (CodeRef × Action) → Frame → List Entry
  | [], _ => []
  | (code, a) :: calls, f => (a.entry? reg code f).toList ++ chronicle reg calls (a.next reg code f)

section Chronicle

variable {reg : Registry} {code : CodeRef} {a : Action} {b : Answer} {f g : Frame} {fault : Fault}
  {calls : List (CodeRef × Action)}

theorem Action.next_of_ok (h : a.run reg code f = .ok b g) : a.next reg code f = g := by
  rw [Action.next, h]

theorem Action.next_of_error (h : a.run reg code f = .error fault g) : a.next reg code f = g := by
  rw [Action.next, h]

theorem Action.entry?_of_ok (h : a.run reg code f = .ok b g) :
    a.entry? reg code f = some ⟨f, a, b⟩ := by
  rw [Action.entry?, h]

theorem Action.entry?_of_error (h : a.run reg code f = .error fault g) :
    a.entry? reg code f = none := by
  rw [Action.entry?, h]

theorem Frame.chronicle_snoc (f : Frame) :
    f.chronicle reg (calls ++ [(code, a)]) =
      f.chronicle reg calls ++ (a.entry? reg code (f.after reg calls)).toList := by
  induction calls generalizing f with
  | nil => exact List.append_nil _
  | cons call calls ih =>
    rw [List.cons_append, chronicle, chronicle, ih, List.append_assoc]
    rfl

end Chronicle

/-! ### Stores -/

/-- What a rule stores for an operation if it goes through: a pop stores what it
finds on top. -/
def Rule.stored? (f : Frame) : Rule → Operation → Option (Register × StackType)
  | .pop, .plain .pop (.register r) => f.stack.types.head?.map fun top => (r, top)
  | _, _ => none

/-- What a call stores if it goes through. -/
def Action.stored? (reg : Registry) (f : Frame) : Action → Option (Register × StackType)
  | .storeRegister r t => some (r, t)
  | .lower i => (reg.find? i.code).bind fun installed => installed.rule.stored? f i.operation
  | .lowerBy rule i => rule.stored? f i.operation
  | _ => none

/-- Which registers hold floats after a store, if there is one. -/
def heldAfter (held : Register → Bool) : Option (Register × StackType) → Register → Bool
  | none => held
  | some (r, t) => Function.update held r (t == .float)

theorem Rule.stored?_of_not_stores {rule : Rule} {op : Operation} (h : ∀ r, ¬ rule.Stores op r)
    (f : Frame) : rule.stored? f op = none := by
  unfold Rule.stored?
  split
  · exact absurd ⟨rfl, rfl⟩ (h _)
  · rfl

section Steps

variable {f g : Frame} {rule : Rule} {op : Operation} {r : Register} {i : Instr}

theorem holdsFloat_markStored (f : Frame) (r : Register) (t : StackType) :
    (final (markStored r t) f).holdsFloat = heldAfter f.holdsFloat (some (r, t)) := by
  funext r'
  show (if t = .float then r :: f.floats.filter (· ≠ r) else f.floats.filter (· ≠ r)).contains r' =
    Function.update f.holdsFloat r (t == .float) r'
  by_cases hr : r' = r
  · by_cases ht : t = .float <;> simp [hr, ht]
  · by_cases ht : t = .float <;> simp [hr, ht, holdsFloat]

/-- A store goes through, or there is no room for the local and the frame stays
what it was. -/
theorem storeRegister_cases (f : Frame) (r : Register) (t : StackType) :
    (∃ i g, storeRegister r t f = .ok i g ∧ g.options = f.options ∧ g.stack = f.stack ∧
      g.holdsFloat = heldAfter f.holdsFloat (some (r, t))) ∨
    ∃ c, storeRegister r t f = .error c f := by
  rcases localFor_cases f (.register r) (StorageClass.of t).slotType with
    ⟨i, -, h⟩ | ⟨-, hlt, h⟩ | ⟨-, -, h⟩
  · exact Or.inl ⟨i, _, bind_of_ok h, rfl, rfl, holdsFloat_markStored f r t⟩
  · exact Or.inl ⟨_, _, bind_of_ok h, rfl, rfl, holdsFloat_markStored (f.addLocal _ _ hlt) r t⟩
  · exact Or.inr ⟨_, bind_of_error h⟩

/-- The steps that plans are composed of leave the registers alone, stores
apart. -/
theorem floats_storelessPair (fs : List Register) :
    StorelessPair fun x _ => Keeps (fun f => f.floats = fs) x where
  pure a _ := .pure a
  throw _ := .throw _
  bind hx hk := hx.bind fun a => hk a a
  peek n _ _ hk := (Keeps.of_final_eq (final_peek n)).bind hk
  require n := .of_final_eq (final_require n)
  holdsFloat r _ _ hk f hf := hk (f.holdsFloat r) f hf
  registerLocal := keeps_registerLocal fun _ _ _ _ _ hf => hf
  scratchLocal := keeps_scratchLocal fun _ _ _ _ _ hf => hf

/-- So does a rule that stores nothing. -/
theorem Rule.emit_keeps_floats (h : ∀ r, ¬ rule.Stores op r) (fs : List Register) :
    Keeps (fun f => f.floats = fs) (rule.emit op) := by
  rw [Rule.emit_eq]
  exact ((floats_storelessPair fs).plan h).bind fun is =>
    keeps_emitAll (fun _ _ _ _ _ hf => hf) op.code is

/-- A pop into a register goes through with its store, or fails without it. -/
theorem Rule.Stores.emit_cases (h : rule.Stores op r) (hroom : f.stack.types.length ≤ f.limit) :
    (∃ top g, f.stack.types.head? = some top ∧ rule.emit op f = .ok () g ∧
      g.holdsFloat = heldAfter f.holdsFloat (some (r, top))) ∨
    ∃ c, rule.emit op f = .error c f := by
  rw [Rule.emit_eq, h.plan_eq]
  cases htypes : f.stack.types with
  | nil =>
    exact Or.inr ⟨_, bind_of_error (bind_of_error (peek_of_none (by rw [htypes]; rfl)))⟩
  | cons top rest =>
    have hpeek : peek 0 f = .ok top f := peek_eq_ok.mpr ⟨by rw [htypes]; rfl, rfl⟩
    rcases storeRegister_cases f r top with ⟨i, k, hstore, ho, hs, hheld⟩ | ⟨c, hstore⟩
    · have hplan : Plan.pop (.register r) f = .ok (Plan.storeInto top i) k := by
        rw [Plan.pop, bind_of_ok hpeek, bind_of_ok hstore]
        rfl
      have hlimit : k.limit = f.limit := congrArg Options.maxStackDepth ho
      rw [bind_of_ok hplan]
      cases hemit : emitAll op.code (Plan.storeInto top i) k with
      | ok u g =>
        refine Or.inl ⟨top, g, rfl, rfl, ?_⟩
        have hfloats : g.floats = k.floats :=
          (keeps_emitAll (P := fun k' => k'.floats = k.floats) (fun _ _ _ _ _ hf => hf) _ _).ok hemit rfl
        rw [← hheld]
        funext r'
        rw [holdsFloat, holdsFloat, hfloats]
      | error c g =>
        -- the value that was found is there to be taken
        have hroom' : f.stack.types.length ≤ k.limit := hlimit ▸ hroom
        have hthrough : Typing.through k.limit (declared k.locals) (Plan.storeInto top i)
            ⟨f.stack.types, ∅⟩ = some ⟨rest, ∅⟩ := Typing.through_storeInto hroom' htypes i
        exact (not_error_of_through (congrArg EvalStack.types hs) hroom' hthrough hemit).elim
    · refine Or.inr ⟨c, bind_of_error ?_⟩
      rw [Plan.pop, bind_of_ok hpeek, bind_of_error hstore]

end Steps

/-! ### A call stores what it should, or fails and stores nothing -/

/-- The step stores `s` if it goes through, and nothing otherwise. -/
def Lower.Stores {ε α : Type} (s : Option (Register × StackType)) (x : EStateM ε Frame α)
    (f : Frame) : Prop :=
  match x f with
  | .ok _ g => g.holdsFloat = heldAfter f.holdsFloat s
  | .error _ g => g.holdsFloat = f.holdsFloat

namespace Lower.Stores

variable {ε α β : Type} {s : Option (Register × StackType)} {f g : Frame}

theorem of_ok {x : EStateM ε Frame α} {b : α} (h : x f = .ok b g)
    (hg : g.holdsFloat = heldAfter f.holdsFloat s) : Stores s x f := by
  rw [Stores, h]
  exact hg

theorem of_error {x : EStateM ε Frame α} {e : ε} (h : x f = .error e g)
    (hg : g.holdsFloat = f.holdsFloat) : Stores s x f := by
  rw [Stores, h]
  exact hg

/-- A step that leaves the registers alone. -/
theorem of_keeps {x : EStateM ε Frame α} (h : ∀ fs, Keeps (fun f => f.floats = fs) x)
    (f : Frame) : Stores none x f := by
  have hfloats : (final x f).floats = f.floats := h f.floats f rfl
  have hheld : (final x f).holdsFloat = f.holdsFloat := by
    funext r
    rw [holdsFloat, holdsFloat, hfloats]
  cases hx : x f with
  | ok b g => exact of_ok hx (final_of_ok hx ▸ hheld)
  | error e g => exact of_error hx (final_of_error hx ▸ hheld)

theorem map {x : EStateM ε Frame α} (hx : Stores s x f) (k : α → β) : Stores s (k <$> x) f := by
  cases h : x f with
  | ok b g =>
    rw [Stores, h] at hx
    exact of_ok (map_of_ok h) hx
  | error e g =>
    rw [Stores, h] at hx
    exact of_error (map_of_error h) hx

theorem chargedTo {x : Lower α} (hx : Stores s x f) (code : CodeRef) :
    Stores s (x.chargedTo code) f := by
  cases h : x f with
  | ok b g =>
    rw [Stores, h] at hx
    exact of_ok (chargedTo_of_ok h) hx
  | error c g =>
    rw [Stores, h] at hx
    exact of_error (chargedTo_of_error h) hx

end Lower.Stores

section Calls

variable {f : Frame} (hroom : f.stack.types.length ≤ f.limit)

include hroom

theorem Rule.emit_stores (rule : Rule) (op : Operation) :
    Lower.Stores (rule.stored? f op) (rule.emit op) f := by
  by_cases h : ∃ r, rule.Stores op r
  · obtain ⟨r, hr⟩ := h
    rcases hr.emit_cases hroom with ⟨top, g, htop, hok, hg⟩ | ⟨c, herr⟩
    · obtain ⟨rfl, rfl⟩ := hr
      refine .of_ok hok ?_
      rw [hg, stored?, htop, Option.map_some]
    · exact .of_error herr rfl
  · have hnot : ∀ r, ¬ rule.Stores op r := fun r hr => h ⟨r, hr⟩
    rw [stored?_of_not_stores hnot]
    exact .of_keeps (emit_keeps_floats hnot) f

theorem Rule.lower_stores (rule : Rule) (i : Instr) :
    Lower.Stores (rule.stored? f i.operation) (rule.lower i) f := by
  have hemit := rule.emit_stores hroom i.operation
  cases h : rule.emit i.operation f with
  | ok u g =>
    rw [Lower.Stores, h] at hemit
    exact .of_ok (Rule.lower_eq_ok.mpr ⟨g, h, rfl, rfl⟩) hemit
  | error c g =>
    rw [Lower.Stores, h] at hemit
    exact .of_error (Rule.lower_eq_error.mpr ⟨c, h, rfl⟩) hemit

/-- What a call stores, it stores if it goes through, and not otherwise. -/
theorem Action.run_stores (reg : Registry) (code : CodeRef) (a : Action) :
    Lower.Stores (a.stored? reg f) (a.run reg code) f := by
  cases a with
  | push t =>
    refine (Lower.Stores.map (.of_keeps (fun fs k hk => ?_) f) _).chargedTo code
    unfold final Frame.push
    cases k.stack.push k.limit t <;> exact hk
  | pop n =>
    refine (Lower.Stores.map (.of_keeps (fun fs k hk => ?_) f) _).chargedTo code
    unfold final Frame.pop
    cases k.stack.pop n <;> exact hk
  | peek n => exact (Lower.Stores.map (.of_keeps (fun _ => .of_final_eq (final_peek n)) f) _).chargedTo code
  | registerLocal r t =>
    exact (Lower.Stores.map (.of_keeps (fun fs => (floats_storelessPair fs).registerLocal r t) f) _).chargedTo
      code
  | scratchLocal t slot =>
    exact (Lower.Stores.map (.of_keeps (fun fs => (floats_storelessPair fs).scratchLocal t slot) f)
      _).chargedTo code
  | storeRegister r t =>
    refine Lower.Stores.chargedTo (Lower.Stores.map ?_ _) code
    rcases storeRegister_cases f r t with ⟨i, g, hok, -, -, hg⟩ | ⟨c, herr⟩
    · exact .of_ok hok hg
    · exact .of_error herr rfl
  | takeNewLocals => exact .of_ok rfl rfl
  | takeEmitted => exact .of_ok rfl rfl
  | emit i =>
    exact (Lower.Stores.map (.of_keeps (fun _ => keeps_emit (fun _ _ _ _ _ hk => hk) code i) f) _).chargedTo
      code
  | emitAll is =>
    exact (Lower.Stores.map (.of_keeps (fun _ => keeps_emitAll (fun _ _ _ _ _ hk => hk) code is) f)
      _).chargedTo code
  | lower i =>
    refine Lower.Stores.map ?_ _
    cases hr : reg.find? i.code with
    | some installed =>
      rw [Registry.lower_of_find hr, stored?, hr, Option.bind_some]
      exact installed.rule.lower_stores hroom i
    | none =>
      rw [Registry.lower_of_find_none hr]
      exact .of_error rfl rfl
  | lowerBy rule i => exact (rule.lower_stores hroom i).map _

end Calls

/-! ### Registers -/

/-- What a call that went through stored. -/
def Entry.stored? (reg : Registry) (e : Entry) : Option (Register × StackType) :=
  e.action.stored? reg e.frame

/-- The type of the value that was last stored into a register. -/
def lastStored (reg : Registry) (r : Register) (past : List Entry) : Option StackType :=
  latest (past.filterMap (Entry.stored? reg)) r

theorem lastStored_snoc (reg : Registry) (r : Register) (past : List Entry) (e : Entry) :
    lastStored reg r (past ++ [e]) =
      match e.stored? reg with
      | none => lastStored reg r past
      | some (r', t) => if r = r' then some t else lastStored reg r past := by
  unfold lastStored
  rw [List.filterMap_append, latest_append]
  cases h : e.stored? reg with
  | none => rw [List.filterMap_cons_none h, List.filterMap_nil, latest_nil, Option.none_or]
  | some p =>
    obtain ⟨r', t⟩ := p
    rw [List.filterMap_cons_some h, List.filterMap_nil, latest_singleton]
    by_cases hr : r = r' <;> simp [hr]

/-- A register holds a float exactly if a float was stored into it last. -/
theorem holdsFloat_iff (reg : Registry) (o : Options) (calls : List (CodeRef × Action))
    (r : Register) : ((Frame.start o).after reg calls).holdsFloat r = true ↔
      lastStored reg r ((Frame.start o).chronicle reg calls) = some .float := by
  induction calls using List.reverseRecOn with
  | nil => simp [Frame.after, Frame.chronicle, lastStored, holdsFloat, Frame.start]
  | append_singleton calls call ih =>
    obtain ⟨code, a⟩ := call
    rw [after_snoc, chronicle_snoc]
    have hstores := Action.run_stores (reachable_after reg o calls).room reg code a
    cases h : a.run reg code ((Frame.start o).after reg calls) with
    | error fault g =>
      rw [Lower.Stores, h] at hstores
      rw [Action.next_of_error h, Action.entry?_of_error h, Option.toList_none, List.append_nil, hstores]
      exact ih
    | ok b g =>
      rw [Lower.Stores, h] at hstores
      rw [Action.next_of_ok h, Action.entry?_of_ok h, Option.toList_some, lastStored_snoc, hstores,
        Entry.stored?]
      cases a.stored? reg ((Frame.start o).after reg calls) with
      | none => exact ih
      | some p =>
        obtain ⟨r', t⟩ := p
        by_cases hr : r = r'
        · simp [heldAfter, hr]
        · simpa [heldAfter, hr] using ih

/-! ### Locals handed out -/

/-- The locals in an answer. -/
def Answer.reported : Answer → List Local
  | .locals ls => ls.toList
  | _ => []

/-- The locals handed out, in order. -/
def reports (past : List Entry) : List Local := past.flatMap fun e => e.answer.reported

/-- Nothing but handing out locals moves on what is handed out. -/
theorem Action.reported_next (reg : Registry) (code : CodeRef) {a : Action}
    (h : a ≠ .takeNewLocals) (f : Frame) : (a.next reg code f).reported = f.reported := by
  have hinert : Inert fun k => { k with reported := f.reported } :=
    ⟨⟨⟨fun _ => rfl, fun _ => rfl, fun _ => rfl, fun _ _ => rfl, fun _ _ => rfl⟩, fun _ => rfl⟩,
      fun _ => rfl, fun _ _ => rfl, fun _ _ _ _ => rfl⟩
  -- writing the number that is there changes nothing, so the outcome has it too
  have hrun : a.run reg code f = mapFrame _ (a.run reg code f) :=
    a.run_commutes hinert (fun _ => rfl) reg code (fun ha => absurd ha h) f
  cases hf : a.run reg code f with
  | ok b g =>
    rw [hf] at hrun
    injection hrun with _ hg
    rw [Action.next_of_ok hf, hg]
  | error fault g =>
    rw [hf] at hrun
    injection hrun with _ hg
    rw [Action.next_of_error hf, hg]

/-- Nothing but handing out locals answers with them. -/
theorem Action.reported_answer {reg : Registry} {code : CodeRef} {a : Action} {f g : Frame}
    {b : Answer} (h : a ≠ .takeNewLocals) (hok : a.run reg code f = .ok b g) : b.reported = [] := by
  cases a with
  | takeNewLocals => exact absurd rfl h
  | lower i | lowerBy rule i =>
    obtain ⟨c, -, rfl⟩ := map_eq_ok.mp hok
    rfl
  | _ =>
    obtain ⟨c, -, rfl⟩ := map_eq_ok.mp (chargedTo_eq_ok.mp hok)
    rfl

/-- The locals of a frame stay at the front of the table. -/
theorem Action.locals_prefix (reg : Registry) (code : CodeRef) (a : Action) (f : Frame) :
    f.locals.toList <+: (a.next reg code f).locals.toList :=
  Extends.isPrefix ((extends_stackInvariant f.locals).action_next reg code a (.refl _))

theorem Frame.toList_newLocals (f : Frame) : f.newLocals.toList = f.locals.toList.drop f.reported := by
  rw [newLocals, Array.toList_extract, List.extract_eq_take_drop, ← Array.length_toList,
    List.take_of_length_le (by rw [List.length_drop])]

/-- What was handed out is the front of the table. -/
theorem reports_eq (reg : Registry) (o : Options) (calls : List (CodeRef × Action)) :
    reports ((Frame.start o).chronicle reg calls) =
        ((Frame.start o).after reg calls).locals.toList.take ((Frame.start o).after reg calls).reported ∧
      ((Frame.start o).after reg calls).reported ≤
        ((Frame.start o).after reg calls).locals.toList.length := by
  induction calls using List.reverseRecOn with
  | nil => exact ⟨rfl, Nat.zero_le _⟩
  | append_singleton calls call ih =>
    obtain ⟨code, a⟩ := call
    rw [after_snoc, chronicle_snoc, reports, List.flatMap_append]
    generalize (Frame.start o).after reg calls = f at ih ⊢
    obtain ⟨htaken, hle⟩ := ih
    rw [← reports, htaken]
    by_cases ha : a = .takeNewLocals
    · subst ha
      constructor
      · show f.locals.toList.take f.reported ++ ([⟨f, _, .locals f.newLocals⟩] : List Entry).flatMap _ =
          f.locals.toList.take f.locals.size
        rw [List.flatMap_singleton, Answer.reported, toList_newLocals, List.take_append_drop,
          ← Array.length_toList, List.take_length]
      · show f.locals.size ≤ f.locals.toList.length
        rw [Array.length_toList]
    · obtain ⟨more, hmore⟩ := a.locals_prefix reg code f
      have hnone : (a.entry? reg code f).toList.flatMap (fun e => e.answer.reported) = [] := by
        cases h : a.run reg code f with
        | ok b g =>
          rw [Action.entry?_of_ok h, Option.toList_some, List.flatMap_singleton]
          exact Action.reported_answer ha h
        | error fault g => rw [Action.entry?_of_error h, Option.toList_none, List.flatMap_nil]
      rw [hnone, List.append_nil, Action.reported_next reg code ha, ← hmore,
        List.take_append_of_le_length hle, List.length_append]
      exact ⟨rfl, by omega⟩

/-- What was handed out and what is still to be handed out are the table. -/
theorem reports_append_newLocals (reg : Registry) (o : Options) (calls : List (CodeRef × Action)) :
    let f := (Frame.start o).after reg calls
    reports ((Frame.start o).chronicle reg calls) ++ f.newLocals.toList = f.locals.toList := by
  intro f
  rw [(reports_eq reg o calls).1, toList_newLocals, List.take_append_drop]

end Devirt
