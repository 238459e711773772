/-
# What the log tells

A traced recompilation logs every instruction that it emits, at the moment at
which the stack has taken it: what was emitted, for which code, and how deep the
stack was then. So the events of emission are those of the code (`Event.trail`),
in its order, the depths being those that the arities alone give
(`Registry.lower_trail`, `Registry.lower_error_trail`), and a refused
instruction has none. Behind them comes one event that says how it ended. What a
reader of the log sees is the level, the message and the fields of these events
(`Event.Shows`).

Nothing reads the log. Without tracing the outcome is the same, and so is the
log but for the events of emission (`recompile_logs`).

Key definitions: `Event.Shows`, `Event.TellsEmission`, `Event.TellsEnd`,
`Event.trail`, `Frame.Logs`, `Told`, `Outcome.emitted`, `Outcome.closing`.
Key theorems: `Event.getElem?_trail`, `Rule.emit_logs`,
`Registry.lower_trail`, `Registry.lower_error_trail`,
`Registry.told_of_assemble`, `recompile_logs`.
-/
import Devirt.Proofs.Mappings

namespace Devirt

open Devirt.Frame Lower HostInstr

/-! ### What an event shows -/

/-- The event is logged at this level, with this message and these fields. -/
structure Event.Shows (e : Event) (level message : String) (fields : List (String × String)) :
    Prop where
  level : e.level.name = level
  message : e.message = message
  fields : e.fields = fields

/-- The event tells that `i` was emitted for `code`, and how deep the stack was
then. -/
structure Event.TellsEmission (e : Event) (code : CodeRef) (i : HostInstr) (depth : Nat) : Prop
    extends e.Shows "TRACE" "emit"
      [("code", code.text), ("insn", i.text), ("depth", toString depth)] where
  event : e = .emitted code i depth

/-- The event tells how the recompilation of a body ended. -/
def Event.TellsEnd (e : Event) (body : List Instr) : Except RecompileError Method → Prop
  | .ok m =>
    e = .recompiled body.length m.instructions.size m.locals.size m.maxStack ∧
      e.Shows "DEBUG" "method recompiled"
        [("decoded", toString body.length), ("emitted", toString m.instructions.size),
          ("locals", toString m.locals.size), ("max_stack", toString m.maxStack)]
  | .error r =>
    e = .aborted r.index r.offset r.fault ∧
      e.Shows "WARN" "aborting method recompilation"
        [("index", toString r.index), ("offset", toString r.offset.toNat),
          ("error", r.fault.message)]

theorem Event.tellsEmission (code : CodeRef) (i : HostInstr) (depth : Nat) :
    (emitted code i depth).TellsEmission code i depth where
  level := rfl
  message := rfl
  fields := rfl
  event := rfl

/-- The event that ends the log of a recompilation. -/
def Outcome.closing (body : List Instr) : Except RecompileError Method → Event
  | .ok m => .recompiled body.length m.instructions.size m.locals.size m.maxStack
  | .error e => .aborted e.index e.offset e.fault

theorem Outcome.closing_tellsEnd (body : List Instr) (r : Except RecompileError Method) :
    (closing body r).TellsEnd body r := by
  cases r <;> exact ⟨rfl, rfl, rfl, rfl⟩

/-! ### The events of code -/

namespace Event

/-- The events of code that is emitted for `code`, the stack being `d` deep
before it. -/
def trail (code : CodeRef) : List HostInstr → Nat → List Event
  | [], _ => []
  | i :: is, d =>
    let after := d - i.arity.pops + i.arity.pushes
    .emitted code i after :: trail code is after

variable {code : CodeRef} {is js : List HostInstr} {d d' : Nat}

theorem length_trail : ∀ (is : List HostInstr) (d : Nat), (trail code is d).length = is.length
  | [], _ => rfl
  | _ :: is, _ => by simp [trail, length_trail is]

/-- The trail goes on at the depth that the code leads to. -/
theorem trail_append : ∀ (is : List HostInstr) {d : Nat}, runArity is d = some d' →
    trail code (is ++ js) d = trail code is d ++ trail code js d'
  | [], d, h => by
    cases h
    rfl
  | i :: is, d, h => by
    rw [runArity] at h
    by_cases hpops : i.arity.pops ≤ d
    · rw [if_pos hpops] at h
      simp only [List.cons_append, trail, trail_append is h]
    · rw [if_neg hpops] at h
      cases h

/-- The event of an instruction has the depth behind it. -/
theorem getElem?_trail {x : HostInstr} : ∀ (is : List HostInstr) (n : Nat) {d : Nat},
    runArity is d = some d' → is[n]? = some x → ∃ after,
      runArity (is.take (n + 1)) d = some after ∧
      (trail code is d)[n]? = some (.emitted code x after)
  | [], n, d, _, hx => by simp at hx
  | i :: is, n, d, h, hx => by
    rw [runArity] at h
    by_cases hpops : i.arity.pops ≤ d
    · rw [if_pos hpops] at h
      rw [List.take_succ_cons, runArity, if_pos hpops]
      cases n with
      | zero =>
        have hi : i = x := by simpa using hx
        subst hi
        exact ⟨_, rfl, rfl⟩
      | succ n => exact getElem?_trail is n h (by simpa using hx)
    · rw [if_neg hpops] at h
      cases h

end Event

/-! ### Emission -/

/-- Between the frames `f` and `g` the code `is` was emitted for `code`, and
logged if emission is traced. -/
structure Frame.Logs (code : CodeRef) (is : List HostInstr) (f g : Frame) : Prop where
  options : g.options = f.options
  room : g.stack.types.length ≤ g.limit
  pending : g.pending.toList = f.pending.toList ++ is
  depth : runArity is f.stack.depth = some g.stack.depth
  log : g.log.toList = f.log.toList ++
    if f.options.traceEmission then Event.trail code is f.stack.depth else []

namespace Frame.Logs

variable {code : CodeRef} {is : List HostInstr} {i : HostInstr} {f g : Frame}

theorem refl (hroom : f.stack.types.length ≤ f.limit) : f.Logs code [] f where
  options := rfl
  room := hroom
  pending := (List.append_nil _).symm
  depth := rfl
  log := by simp [Event.trail]

/-- An instruction that the stack takes is logged with the depth it leaves. -/
theorem afterEmit (h : f.Logs code is g) {s : EvalStack}
    (hs : i.effect g.limit g.locals g.stack = .ok s) :
    f.Logs code (is ++ [i]) (g.afterEmit code i s) := by
  obtain ⟨hts, hroom⟩ := retype_of_effect h.room hs
  obtain ⟨hpops, hlen⟩ := length_retype hts
  rw [← g.stack.depth_eq] at hpops hlen
  rw [← s.depth_eq] at hlen
  have hdepth : runArity (is ++ [i]) f.stack.depth = some s.depth := by
    rw [runArity_append, h.depth, Option.bind_some, runArity, if_pos hpops, ← hlen]
    rfl
  have htrail : Event.trail code (is ++ [i]) f.stack.depth =
      Event.trail code is f.stack.depth ++ [.emitted code i s.depth] := by
    rw [Event.trail_append is h.depth, hlen]
    rfl
  refine { options := h.options, room := hroom, pending := ?_, depth := hdepth, log := ?_ }
  · show (g.pending.push i).toList = _
    rw [Array.toList_push, h.pending, List.append_assoc]
  · show (if g.options.traceEmission then g.log.push (.emitted code i s.depth) else g.log).toList = _
    have hlog := h.log
    rw [h.options, htrail]
    cases ht : f.options.traceEmission with
    | true =>
      simp only [ht, if_true] at hlog ⊢
      rw [Array.toList_push, hlog, List.append_assoc]
    | false =>
      simp only [ht, Bool.false_eq_true, if_false] at hlog ⊢
      exact hlog

end Frame.Logs

/-- The frame comes after `f`, and what was emitted since then was emitted for
`code`. -/
def Frame.EmittedFor (code : CodeRef) (f g : Frame) : Prop := ∃ is, f.Logs code is g

theorem Frame.EmittedFor.allocatable (code : CodeRef) (f : Frame) :
    Allocatable (f.EmittedFor code) where
  addLocal _ _ _ _ _ h := by
    obtain ⟨is, hlogs⟩ := h
    exact ⟨is, hlogs.options, hlogs.room, hlogs.pending, hlogs.depth, hlogs.log⟩
  markStored _ _ h := by
    obtain ⟨is, hlogs⟩ := h
    exact ⟨is, hlogs.options, hlogs.room, hlogs.pending, hlogs.depth, hlogs.log⟩

theorem keeps_emittedFor (code : CodeRef) (f : Frame) :
    ∀ is, Keeps (f.EmittedFor code) (emitAll code is)
  | [] => .pure _
  | i :: is => by
    have hfirst : Keeps (f.EmittedFor code) (emit code i) := by
      intro g hg
      obtain ⟨done, hlogs⟩ := hg
      cases h : emit code i g with
      | ok u k =>
        obtain ⟨s, hs, rfl⟩ := emit_eq_ok.mp h
        exact (final_of_ok h).symm ▸ ⟨done ++ [i], hlogs.afterEmit hs⟩
      | error c k =>
        obtain ⟨-, rfl⟩ := emit_eq_error.mp h
        exact (final_of_error h).symm ▸ ⟨done, hlogs⟩
    exact hfirst.bind fun _ => keeps_emittedFor code f is

/-- A rule emits for the code of the operation, whether it fails or not. -/
theorem Rule.emit_logs (r : Rule) (op : Operation) {f : Frame}
    (hroom : f.stack.types.length ≤ f.limit) :
    ∃ is, f.Logs op.code is (final (r.emit op) f) := by
  have hkeeps : Keeps (f.EmittedFor op.code) (r.emit op) := by
    rw [Rule.emit_eq]
    exact (r.plan_keeps (EmittedFor.allocatable op.code f) op).bind
      fun is => keeps_emittedFor op.code f is
  exact hkeeps f ⟨[], .refl hroom⟩

/-! ### Instructions -/

namespace Registry

variable {reg : Registry} {i : Instr} {f g : Frame} {code : Array HostInstr} {fault : Fault}
  (hroom : f.stack.types.length ≤ f.limit) (hpending : f.pending = #[])

include hroom hpending

/-- An instruction that is lowered is logged with all its code. -/
theorem lower_trail (h : reg.lower i f = .ok code g) :
    runArity code.toList f.stack.depth = some g.stack.depth ∧
    g.log.toList = f.log.toList ++
      if f.options.traceEmission then Event.trail i.code code.toList f.stack.depth else [] := by
  obtain ⟨r, -, hrule⟩ := lower_eq_ok.mp h
  obtain ⟨k, hk, rfl, rfl⟩ := Rule.lower_eq_ok.mp hrule
  obtain ⟨is, hlogs⟩ := r.rule.emit_logs i.operation hroom
  rw [final_of_ok hk] at hlogs
  have hcode : k.pending.toList = is := by simpa [hpending] using hlogs.pending
  rw [hcode]
  exact ⟨hlogs.depth, hlogs.log⟩

/-- An instruction that fails is logged with what it left pending. -/
theorem lower_error_trail (h : reg.lower i f = .error fault g) :
    g.log.toList = f.log.toList ++
      if f.options.traceEmission then Event.trail i.code g.pending.toList f.stack.depth else [] := by
  rcases lower_eq_error.mp h with ⟨-, -, rfl⟩ | ⟨r, -, hrule⟩
  · -- no rule, and nothing is emitted
    simp [hpending, Event.trail]
  · obtain ⟨c, hc, -⟩ := Rule.lower_eq_error.mp hrule
    obtain ⟨is, hlogs⟩ := r.rule.emit_logs i.operation hroom
    rw [final_of_error hc] at hlogs
    have hcode : g.pending.toList = is := by simpa [hpending] using hlogs.pending
    rw [hcode]
    exact hlogs.log

end Registry

/-! ### Bodies -/

/-- The events tell of the code, one of each instruction and in its order: what
was emitted, for which instruction of the body by the mappings, and how deep the
stack was then by the arities. All of it stands in the fields of the event. -/
structure Told (body : List Instr) (code : List HostInstr) (mappings : List Mapping)
    (events : List Event) : Prop where
  length : events.length = code.length
  event : ∀ (n : Nat) (x : HostInstr), code[n]? = some x → ∃ (k : Nat) (e : Mapping) (i : Instr) (d : Nat),
    mappings[k]? = some e ∧ e.start ≤ n ∧ n < e.stop ∧ body[k]? = some i ∧
    runArity (code.take (n + 1)) 0 = some d ∧ ∃ told, events[n]? = some told ∧
      told.TellsEmission i.code x d

theorem Told.nil : Told [] [] [] [] where
  length := rfl
  event n x hx := by simp at hx

/-- One more instruction adds its trail. -/
theorem Told.snoc {body : List Instr} {code more : List HostInstr} {mappings : List Mapping}
    {events : List Event} {d d' : Nat} (h : Told body code mappings events)
    (hcount : mappings.length = body.length) (hd : runArity code 0 = some d)
    (hmore : runArity more d = some d') (i : Instr) :
    Told (body ++ [i]) (code ++ more) (mappings ++ [⟨i.offset, code.length, more.length⟩])
      (events ++ Event.trail i.code more d) where
  length := by
    rw [List.length_append, List.length_append, h.length, Event.length_trail]
  event n x hx := by
    rcases Nat.lt_or_ge n code.length with hlt | hge
    · rw [List.getElem?_append_left hlt] at hx
      obtain ⟨k, e, j, after, he, hstart, hstop, hj, hafter, told, hevent, htells⟩ := h.event n x hx
      have hk : k < mappings.length := (List.getElem?_eq_some_iff.mp he).1
      refine ⟨k, e, j, after, ?_, hstart, hstop, ?_, ?_, told, ?_, htells⟩
      · rw [List.getElem?_append_left hk, he]
      · rw [List.getElem?_append_left (hcount ▸ hk), hj]
      · rw [List.take_append_of_le_length hlt, hafter]
      · rw [List.getElem?_append_left (h.length ▸ hlt), hevent]
    · -- the event is one of the trail, at the place of `x` in the new code
      rw [List.getElem?_append_right hge] at hx
      have hn : n - code.length < more.length := (List.getElem?_eq_some_iff.mp hx).1
      obtain ⟨after, hafter, hevent⟩ := Event.getElem?_trail more (n - code.length) hmore hx
      refine ⟨mappings.length, ⟨i.offset, code.length, more.length⟩, i, after, ?_, hge, ?_, ?_, ?_,
        _, ?_, Event.tellsEmission i.code x after⟩
      · simp
      · show n < code.length + more.length
        omega
      · simp [hcount]
      · rw [runArity_take_append hd (by omega), Nat.sub_add_comm hge, hafter]
      · rw [List.getElem?_append_right (by rw [h.length]; exact hge), h.length, hevent]

namespace Registry

variable {reg : Registry} {o : Options} {body : List Instr} {a : Assembly} {f : Frame}

/-- A traced frame has logged the code that it has assembled, and nothing else. -/
theorem told_of_assemble (ho : o.traceEmission = true)
    (h : reg.assemble body {} (.start o) = (.ok a, f)) :
    Told body a.instructions.toList a.mappings.toList f.log.toList := by
  refine assembled_induction (P := fun done b g =>
    Told done b.instructions.toList b.mappings.toList g.log.toList) h .nil ?_
  intro done i b g code k hdone htold hlower
  obtain ⟨-, hpending, hmirrors⟩ := assemble_standing hdone
  have hcount : b.mappings.toList.length = done.length := by
    rw [Array.length_toList, size_mappings_of_assemble hdone]
  have hdepth : runArity b.instructions.toList 0 = some g.stack.depth := by
    rw [g.stack.depth_eq]
    exact runArity_of_height hmirrors.height_eq
  obtain ⟨hcode, hlog⟩ := lower_trail hmirrors.room hpending hlower
  rw [hmirrors.options, if_pos ho] at hlog
  have hnext := htold.snoc hcount hdepth hcode i
  rw [hlog, Assembly.append, Array.toList_append, Array.toList_push]
  exact hnext

end Registry

/-! ### Without tracing -/

/-- A frame that does not trace has nothing in its log. -/
theorem silent_invariant :
    CodeInvariant fun _ f => f.options.traceEmission = false ∧ f.log = #[] where
  addLocal _ _ _ _ _ _ hf := hf
  markStored _ _ _ hf := hf
  emit _ f code i s _ hf := by
    refine ⟨hf.1, ?_⟩
    rw [Frame.afterEmit, hf.1]
    exact hf.2
  drain _ _ hf := hf

namespace Registry

variable {reg : Registry} {o : Options} {body : List Instr} {f : Frame}

/-- So assembling a body logs nothing, however it ends. -/
theorem silent_of_assemble (ho : o.traceEmission = false) {r : Except RecompileError Assembly}
    (h : reg.assemble body {} (.start o) = (r, f)) : f.log = #[] := by
  have hstart : CodeInvariant.Behind
      (fun _ f => f.options.traceEmission = false ∧ f.log = #[]) [] (.start o) := ⟨ho, rfl⟩
  cases r with
  | ok a => exact (silent_invariant.assemble body hstart h).2
  | error e =>
    obtain ⟨n, i, a, k, -, -, -, hfront, hfail⟩ := assemble_eq_error h
    have hk := silent_invariant.assemble (body.take n) hstart hfront
    exact (silent_invariant.registry_lower_error hk hfail).2

end Registry

/-! ### The log of a recompilation -/

/-- The events of emission in the log. -/
def Outcome.emitted (r : Outcome) : List Event := r.log.toList.filter fun e => e.message = "emit"

/-- No other event has the message of emission. -/
theorem Event.tells_of_message {e : Event} (h : e.message = "emit") :
    ∃ code i depth, e.TellsEmission code i depth := by
  cases e with
  | emitted code i depth => exact ⟨code, i, depth, tellsEmission code i depth⟩
  | replaced code previous replacement => cases code <;> simp [message] at h
  | _ => simp [message] at h

theorem Outcome.tells_of_mem_emitted {r : Outcome} {e : Event} (h : e ∈ r.emitted) :
    ∃ code i depth, e.TellsEmission code i depth :=
  Event.tells_of_message (by simpa using (List.mem_filter.mp h).2)

theorem Event.tells_of_mem_trail {code : CodeRef} {e : Event} : ∀ {is : List HostInstr} {d : Nat},
    e ∈ Event.trail code is d → ∃ code i depth, e.TellsEmission code i depth
  | [], _, he => by cases he
  | i :: is, d, he => by
    rcases List.mem_cons.mp he with rfl | he
    · exact ⟨code, i, _, tellsEmission code i _⟩
    · exact tells_of_mem_trail he

theorem Told.tells_of_mem {body : List Instr} {code : List HostInstr} {mappings : List Mapping}
    {events : List Event} (h : Told body code mappings events) {e : Event} (he : e ∈ events) :
    ∃ code i depth, e.TellsEmission code i depth := by
  obtain ⟨n, hn⟩ := List.getElem?_of_mem he
  have hlt : n < code.length := by
    rw [← h.length]
    exact (List.getElem?_eq_some_iff.mp hn).1
  obtain ⟨k, m, i, d, -, -, -, -, -, told, hevent, htells⟩ :=
    h.event n _ (List.getElem?_eq_getElem hlt)
  rw [hn, Option.some.injEq] at hevent
  exact ⟨i.code, _, d, hevent ▸ htells⟩

namespace Outcome

variable {body : List Instr} {r : Except RecompileError Method} {events : List Event}

/-- The last event is none of emission. -/
theorem emitted_of_log {out : Outcome} (h : out.log.toList = events ++ [closing body r])
    (hevents : ∀ e ∈ events, ∃ code i depth, e.TellsEmission code i depth) :
    out.emitted = events := by
  have hclosing : (closing body r).message ≠ "emit" := by
    cases r <;> simp [closing, Event.message]
  have hself : events.filter (fun e => e.message = "emit") = events := by
    apply List.filter_eq_self.mpr
    intro e he
    obtain ⟨code, i, depth, htells⟩ := hevents e he
    exact decide_eq_true htells.message
  rw [emitted, h, List.filter_append, hself]
  simp [hclosing]

end Outcome

namespace Registry

open Outcome

variable {reg : Registry} {o : Options} {body : List Instr} {a : Assembly} {f : Frame}

theorem log_of_assemble (h : reg.assemble body {} (.start o) = (.ok a, f)) :
    ∃ m, (reg.recompile o body).result = .ok m ∧ m.IsOf a f ∧
      (reg.recompile o body).log.toList = f.log.toList ++ [closing body (.ok m)] := by
  obtain ⟨m, hm, hof⟩ := recompile_of_assemble h
  refine ⟨m, hm, hof, ?_⟩
  rw [closing, hof.instructions, hof.locals, hof.maxStack, recompile, h]
  exact Array.toList_push

theorem log_of_assemble_error {e : RecompileError}
    (h : reg.assemble body {} (.start o) = (.error e, f)) :
    (reg.recompile o body).result = .error e ∧
      (reg.recompile o body).log.toList = f.log.toList ++ [closing body (.error e)] := by
  rw [recompile, h]
  exact ⟨rfl, Array.toList_push⟩

/-- Without tracing there is the closing event alone. -/
theorem log_of_silent (ho : o.traceEmission = false) :
    (reg.recompile o body).log.toList = [closing body (reg.recompile o body).result] := by
  cases h : reg.assemble body {} (.start o) with
  | mk r f =>
    have hlog : f.log = #[] := silent_of_assemble ho h
    cases r with
    | ok a =>
      obtain ⟨m, hm, -, hall⟩ := log_of_assemble h
      rw [hall, hm, hlog]
      rfl
    | error e =>
      obtain ⟨he, hall⟩ := log_of_assemble_error h
      rw [hall, he, hlog]
      rfl

/-- A traced method has its code in the log. -/
theorem log_of_method (ho : o.traceEmission = true)
    (h : reg.assemble body {} (.start o) = (.ok a, f)) :
    ∃ m, (reg.recompile o body).result = .ok m ∧
      Told body m.instructions.toList m.mappings.toList (reg.recompile o body).emitted ∧
      (reg.recompile o body).emitted = f.log.toList ∧
      (reg.recompile o body).log.toList = (reg.recompile o body).emitted ++ [closing body (.ok m)] := by
  obtain ⟨m, hm, hof, hall⟩ := log_of_assemble h
  have htold : Told body a.instructions.toList a.mappings.toList f.log.toList :=
    told_of_assemble ho h
  have hemitted : (reg.recompile o body).emitted = f.log.toList :=
    emitted_of_log hall fun _ he => htold.tells_of_mem he
  refine ⟨m, hm, ?_, hemitted, ?_⟩
  · rw [hof.instructions, hof.mappings, hemitted]
    exact htold
  · rw [hemitted]
    exact hall

/-- A traced body that fails has what comes before the failure in the log, and
then what the instruction that fails has emitted. -/
theorem log_of_failure (ho : o.traceEmission = true) {e : RecompileError}
    (h : reg.assemble body {} (.start o) = (.error e, f)) :
    (reg.recompile o body).log.toList = (reg.recompile o body).emitted ++ [closing body (.error e)] ∧
    ∃ i codes k, body[e.index]? = some i ∧
      reg.lowerAll (body.take e.index) (.start o) = .ok codes k ∧ k.pending = #[] ∧
      reg.lower i k = .error e.fault f ∧
      (reg.recompile o body).emitted = (reg.recompile o (body.take e.index)).emitted ++
        Event.trail i.code f.pending.toList k.stack.depth := by
  obtain ⟨-, hall⟩ := log_of_assemble_error h
  obtain ⟨n, i, a, k, hi, hindex, -, hfront, hfail⟩ := assemble_eq_error h
  have hn : e.index = n := hindex.trans (Nat.zero_add n)
  subst hn
  obtain ⟨-, hpending, hmirrors⟩ := assemble_standing hfront
  obtain ⟨codes, hcodes⟩ := lowerAll_of_assemble _ hfront
  obtain ⟨m, -, htold, hbefore, -⟩ := log_of_method ho hfront
  have hlog : f.log.toList = (reg.recompile o (body.take e.index)).emitted ++
      Event.trail i.code f.pending.toList k.stack.depth := by
    have hfailed := lower_error_trail hmirrors.room hpending hfail
    rw [hmirrors.options, if_pos ho] at hfailed
    rw [hbefore, hfailed]
  have hemitted : (reg.recompile o body).emitted = f.log.toList := by
    apply emitted_of_log hall
    intro event hevent
    rw [hlog, List.mem_append] at hevent
    rcases hevent with hevent | hevent
    · exact htold.tells_of_mem hevent
    · exact Event.tells_of_mem_trail hevent
  rw [hemitted]
  exact ⟨hall, i, codes, k, hi, hcodes, hpending, hfail, hlog⟩

end Registry

open Outcome

/-- Whatever rules the registry has: tracing changes nothing about what comes of
a recompilation, and adds the events of emission to its log, which is one event
otherwise. That event tells how the recompilation ended, and each event before
it what was emitted. They tell of the code of the method; if an instruction
fails, they are those of the body before it and then those of what it emitted
before it failed. -/
theorem recompile_logs (reg : Registry) (o : Options) (body : List Instr) :
    let traced := reg.recompile { o with traceEmission := true } body
    let silent := reg.recompile { o with traceEmission := false } body
    traced.result = silent.result ∧
    silent.log.toList = [closing body traced.result] ∧
    traced.log.toList = traced.emitted ++ [closing body traced.result] ∧
    (closing body traced.result).TellsEnd body traced.result ∧
    (∀ e ∈ traced.emitted, ∃ code x depth, e.TellsEmission code x depth) ∧
    match traced.result with
    | .ok m => Told body m.instructions.toList m.mappings.toList traced.emitted
    | .error e => ∃ i codes f g, body[e.index]? = some i ∧
        reg.lowerAll (body.take e.index) (.start { o with traceEmission := true }) = .ok codes f ∧
        f.pending = #[] ∧ reg.lower i f = .error e.fault g ∧
        traced.emitted =
          (reg.recompile { o with traceEmission := true } (body.take e.index)).emitted ++
            Event.trail i.code g.pending.toList f.stack.depth := by
  intro traced silent
  have hresult : silent.result = traced.result :=
    reg.result_untraced { o with traceEmission := true } body
  have hsilent : silent.log.toList = [closing body traced.result] := by
    rw [← hresult]
    exact Registry.log_of_silent rfl
  have hend : (closing body traced.result).TellsEnd body traced.result := closing_tellsEnd body _
  have htells : ∀ e ∈ traced.emitted, ∃ code x depth, e.TellsEmission code x depth :=
    fun _ he => tells_of_mem_emitted he
  refine ⟨hresult.symm, hsilent, ?_⟩
  cases h : reg.assemble body {} (.start { o with traceEmission := true }) with
  | mk r f =>
    cases r with
    | ok a =>
      obtain ⟨m, hm, htold, -, hlog⟩ := Registry.log_of_method rfl h
      have hm' : traced.result = .ok m := hm
      rw [hm'] at hend ⊢
      exact ⟨hlog, hend, htells, htold⟩
    | error e =>
      have he : traced.result = .error e := (Registry.log_of_assemble_error h).1
      obtain ⟨hlog, i, codes, k, hfailure⟩ := Registry.log_of_failure rfl h
      rw [he] at hend ⊢
      exact ⟨hlog, hend, htells, i, codes, k, f, hfailure⟩

/-- Two numbers and their comparison. A stack of two has room for the numbers,
not for what the comparison reads again. -/
def overfull : List Instr :=
  [⟨0, .plain .pushiQword (.qword 1)⟩, ⟨9, .plain .pushiQword (.qword 2)⟩,
    ⟨18, .plain .cmpQword .none⟩]

/-- The comparison fails at its seventh instruction, and has logged six. -/
theorem recompile_logs_overfull :
    (∃ last, (Registry.default.recompile { maxStackDepth := 2, traceEmission := false }
        overfull).log.toList = [last] ∧
      last.Shows "WARN" "aborting method recompilation" [("index", "2"), ("offset", "18"),
        ("error", "stack overflow in opcode CMP_QWORD: abstract depth exceeds 2")]) ∧
    ∃ more, (Registry.default.recompile { maxStackDepth := 2, traceEmission := true }
        overfull).emitted =
        (Registry.default.recompile { maxStackDepth := 2, traceEmission := true }
          (overfull.take 2)).emitted ++ more ∧
      more.map (fun e => e.fields.map Prod.snd) = [["opcode CMP_QWORD", "stloc V_1", "1"],
        ["opcode CMP_QWORD", "stloc V_0", "0"], ["opcode CMP_QWORD", "ldloc V_0", "1"],
        ["opcode CMP_QWORD", "ldloc V_1", "2"], ["opcode CMP_QWORD", "cgt", "1"],
        ["opcode CMP_QWORD", "ldloc V_0", "2"]] := by
  have hrun : (Registry.default.recompile { maxStackDepth := 2, traceEmission := true } overfull).result =
      .error ⟨2, 18, ⟨.opcode .cmpQword, .overflow 2⟩⟩ := by decide +kernel
  have h := recompile_logs .default { maxStackDepth := 2 } overfull
  simp only [hrun] at h
  obtain ⟨-, hsilent, -, hend, -, i, codes, f, g, hi, hfront, -, hfail, hemitted⟩ := h
  have hcomparison : i = ⟨18, .plain .cmpQword .none⟩ := (Option.some.inj hi).symm
  have hf := final_of_ok hfront
  have hg := final_of_error hfail
  refine ⟨⟨_, hsilent, hend.2⟩, _, hemitted, ?_⟩
  rw [← hg, ← hf, hcomparison]
  decide +kernel

end Devirt
