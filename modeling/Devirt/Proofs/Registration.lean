/-
# The last registration wins

A registration is a call with an instance of a rule and a list of codes. It
accepts the codes up to the first that the rule does not serve, and is refused
there if there is one; what it has accepted by then it keeps. So what a builder
holds is the outcome of the entries that its registrations have accepted, in
order, and a code goes to the instance of the last one of them
(`registrations_lastWin`).

Every entry is either the first of its code and makes the table greater by one,
or it displaces the one before it and is logged. And registrations that have no
code in common can change places.

Key definitions: `Registration`, `accepted`, `replacements`, `Reordered`,
`LastWin`.
Key theorems: `Builder.register_eq`, `Builder.find?_addAll`,
`Builder.size_addAll`, `Builder.log_addAll`, `registrations_lastWin`.
-/
import Devirt.Proofs.Latest
import Devirt.Registry

namespace Devirt

/-! ### Tables -/

namespace Table

theorem mem_codes_iff {t : Table} {code : CodeRef} :
    code ∈ t.entries.map Prod.fst ↔ (t.find? code).isSome = true := by
  rw [find?, List.lookup_isSome_iff, List.mem_map]
  constructor
  · rintro ⟨e, he, rfl⟩
    exact ⟨e, he, beq_self_eq_true _⟩
  · rintro ⟨e, he, hcode⟩
    exact ⟨e, he, (eq_of_beq hcode).symm⟩

/-- A table grows by a code that it does not have yet. -/
theorem size_insert (t : Table) (code : CodeRef) (r : Installed) :
    (t.insert code r).size + (if (t.find? code).isSome then 1 else 0) = t.size + 1 := by
  have hcount : t.entries.countP (·.1 = code) = if (t.find? code).isSome then 1 else 0 := by
    have hkeys : t.entries.countP (·.1 = code) = (t.entries.map Prod.fst).count code := by
      rw [List.count, List.countP_map]
      rfl
    rw [hkeys, t.nodup_codes.count]
    simp only [mem_codes_iff]
  have hsplit := List.length_eq_countP_add_countP (fun e : CodeRef × Installed => e.1 = code)
    (l := t.entries)
  have hsize : (t.insert code r).size = t.entries.countP (fun e => decide ¬e.1 = code) + 1 := by
    rw [size, insert, List.length_cons, List.countP_eq_length_filter]
  rw [hsize, ← hcount, size, hsplit]
  simp only [decide_eq_true_eq]
  omega

/-- Its opcodes and its intrinsics are all it has. -/
theorem count_add_count (t : Table) : t.count true + t.count false = t.size := by
  rw [count, count, size, List.length_eq_countP_add_countP (fun e => e.1.isOpcode == true)]
  congr 2
  funext e
  cases e.1.isOpcode <;> rfl

end Table

/-! ### Accepting codes -/

/-- A call that registers an instance of a rule for codes. -/
structure Registration where
  installed : Installed
  codes : List CodeRef

namespace Registration

/-- The entries that the call makes: its codes up to the first that the rule
does not serve. -/
def accepted (c : Registration) : List (CodeRef × Installed) :=
  (c.codes.takeWhile c.installed.rule.supports).map fun code => (code, c.installed)

end Registration

/-- The entries that calls make, in order. -/
def accepted (calls : List Registration) : List (CodeRef × Installed) :=
  calls.flatMap Registration.accepted

namespace Builder

/-- A builder with nothing registered yet. -/
def new : Builder where
  table := ⟨[], List.nodup_nil⟩

/-- The builder with one more entry. -/
def add (b : Builder) (e : CodeRef × Installed) : Builder :=
  { b with
    table := b.table.insert e.1 e.2
    log := match b.table.find? e.1 with
      | some previous => b.log.push (.replaced e.1 previous.rule.name e.2.rule.name)
      | none => b.log }

/-- The builder with more entries. -/
def addAll (b : Builder) (es : List (CodeRef × Installed)) : Builder := es.foldl add b

/-- The builder after calls, refused or not. -/
def after (b : Builder) (calls : List Registration) : Builder :=
  calls.foldl (fun b c =>
    match register c.installed c.codes b with
    | .ok _ b' => b'
    | .error _ b' => b') b

variable {r : Installed} {code : CodeRef}

theorem registerCode_of_supports (h : r.rule.supports code = true) (b : Builder) :
    registerCode r code b = .ok () (b.add (code, r)) := by
  rw [registerCode, if_pos h]
  rfl

theorem registerCode_of_not_supports (h : r.rule.supports code = false) (b : Builder) :
    registerCode r code b = .error ⟨r.rule.name, code⟩ b := by
  rw [registerCode, if_neg (by simp [h])]

/-- A call accepts codes up to the first that the rule does not serve, and is
refused for that one. -/
theorem register_eq (r : Installed) : ∀ (codes : List CodeRef) (b : Builder),
    register r codes b =
      match codes.dropWhile r.rule.supports with
      | [] => .ok () (b.addAll (Registration.accepted ⟨r, codes⟩))
      | code :: _ => .error ⟨r.rule.name, code⟩ (b.addAll (Registration.accepted ⟨r, codes⟩))
  | [], b => rfl
  | code :: codes, b => by
    rw [register]
    cases hs : r.rule.supports code with
    | true =>
      have hrest := register_eq r codes (b.add (code, r))
      rw [List.dropWhile_cons_of_pos hs, Registration.accepted, List.takeWhile_cons_of_pos hs]
      simp only [bind, EStateM.bind, registerCode_of_supports hs]
      exact hrest
    | false =>
      have hns : ¬ r.rule.supports code = true := by simp [hs]
      rw [List.dropWhile_cons_of_neg hns, Registration.accepted, List.takeWhile_cons_of_neg hns]
      simp only [bind, EStateM.bind, registerCode_of_not_supports hs]
      rfl

/-- What calls leave is what the entries that they make leave. -/
theorem after_eq (b : Builder) (calls : List Registration) :
    b.after calls = b.addAll (accepted calls) := by
  rw [after, addAll, accepted, List.foldl_flatMap]
  congr 1
  funext b c
  rw [register_eq]
  split
  · rename_i h
    split at h
    · cases h
      rfl
    · cases h
  · rename_i h
    split at h
    · cases h
    · cases h
      rfl

/-! ### What entries come to -/

theorem find?_addAll (code : CodeRef) : ∀ (es : List (CodeRef × Installed)) (b : Builder),
    (b.addAll es).table.find? code = (latest es code).or (b.table.find? code)
  | [], b => rfl
  | (k, r) :: es, b => by
    have hstep : (b.add (k, r)).table.find? code =
        (latest [(k, r)] code).or (b.table.find? code) := by
      rw [latest_singleton]
      by_cases hk : code = k
      · rw [if_pos hk, hk]
        exact b.table.find?_insert_self k r
      · rw [if_neg hk]
        exact b.table.find?_insert_of_ne r hk
    calc (b.addAll ((k, r) :: es)).table.find? code
        = (latest es code).or ((b.add (k, r)).table.find? code) := find?_addAll code es _
      _ = ((latest es code).or (latest [(k, r)] code)).or (b.table.find? code) := by
          rw [hstep, Option.or_assoc]
      _ = (latest ((k, r) :: es) code).or (b.table.find? code) := by
          rw [← latest_append, List.singleton_append]

/-! ### Displaced entries -/

end Builder

/-- An event that reports an entry displaced by another. -/
def Event.isReplacement : Event → Bool
  | .replaced .. => true
  | _ => false

/-- The events of making entries after those that are `seen`: each one that
displaces the last one of its code is reported, with the names of both. -/
def replacements (seen : List (CodeRef × Installed)) : List (CodeRef × Installed) → List Event
  | [] => []
  | (code, r) :: es =>
    ((latest seen code).map fun p => Event.replaced code p.rule.name r.rule.name).toList ++
      replacements (seen ++ [(code, r)]) es

namespace Builder

/-- What is logged for an entry. -/
theorem log_add (b : Builder) (code : CodeRef) (r : Installed) :
    (b.add (code, r)).log.toList = b.log.toList ++
      ((b.table.find? code).map fun p => Event.replaced code p.rule.name r.rule.name).toList := by
  rw [add]
  cases b.table.find? code with
  | none => exact (List.append_nil _).symm
  | some p => exact Array.toList_push

/-- An entry is of a new code, or it displaces one and is logged. -/
theorem size_add (b : Builder) (e : CodeRef × Installed) :
    (b.add e).table.size + (b.add e).log.toList.countP Event.isReplacement =
      b.table.size + b.log.toList.countP Event.isReplacement + 1 := by
  obtain ⟨code, r⟩ := e
  have hsize := b.table.size_insert code r
  have htable : (b.add (code, r)).table = b.table.insert code r := rfl
  rw [log_add, List.countP_append, htable]
  cases hfound : b.table.find? code with
  | none =>
    rw [hfound, Option.isSome_none, if_neg Bool.false_ne_true] at hsize
    rw [Option.map_none, Option.toList_none, List.countP_nil]
    omega
  | some p =>
    rw [hfound, Option.isSome_some, if_pos rfl] at hsize
    rw [Option.map_some, Option.toList_some, List.countP_singleton, Event.isReplacement, if_pos rfl]
    omega

/-- The table grows and the log grows, by one for each entry. -/
theorem size_addAll : ∀ (es : List (CodeRef × Installed)) (b : Builder),
    (b.addAll es).table.size + (b.addAll es).log.toList.countP Event.isReplacement =
      b.table.size + b.log.toList.countP Event.isReplacement + es.length
  | [], _ => rfl
  | e :: es, b => by
    rw [addAll, List.foldl_cons, ← addAll, size_addAll es, size_add, List.length_cons]
    omega

/-- What is logged for entries, where the table holds the latest of those that
are `seen`. -/
theorem log_addAll : ∀ (es seen : List (CodeRef × Installed)) (b : Builder),
    (∀ code, b.table.find? code = latest seen code) →
    (b.addAll es).log.toList = b.log.toList ++ replacements seen es
  | [], _, _, _ => (List.append_nil _).symm
  | (code, r) :: es, seen, b, h => by
    have hseen : ∀ k, (b.add (code, r)).table.find? k = latest (seen ++ [(code, r)]) k := by
      intro k
      rw [latest_append, ← h]
      exact find?_addAll k [(code, r)] b
    rw [addAll, List.foldl_cons, ← addAll, log_addAll es _ _ hseen, log_add, h, replacements,
      List.append_assoc]

end Builder

/-! ### Order -/

/-- The second list has the calls of the first, and calls that have a code in
common are in the same order. -/
inductive Reordered : List Registration → List Registration → Prop where
  | nil : Reordered [] []
  | cons (c : Registration) {cs cs' : List Registration} (h : Reordered cs cs') :
    Reordered (c :: cs) (c :: cs')
  | swap (c d : Registration) (cs : List Registration) (h : ∀ code ∈ c.codes, code ∉ d.codes) :
    Reordered (c :: d :: cs) (d :: c :: cs)
  | trans {cs cs' cs'' : List Registration} (h : Reordered cs cs') (h' : Reordered cs' cs'') :
    Reordered cs cs''

theorem latest_accepted_eq_none {c : Registration} {code : CodeRef} (h : code ∉ c.codes) :
    latest c.accepted code = none := by
  rw [latest_eq_none_iff]
  rintro e he rfl
  obtain ⟨code, hcode, rfl⟩ := List.mem_map.mp he
  exact h (List.takeWhile_subset _ hcode)

theorem latest_accepted_cons (c : Registration) (cs : List Registration) (code : CodeRef) :
    latest (accepted (c :: cs)) code = (latest (accepted cs) code).or (latest c.accepted code) := by
  rw [accepted, List.flatMap_cons, latest_append]
  rfl

/-- The last entry of a code stays the last one. -/
theorem Reordered.latest_eq {calls calls' : List Registration} (h : Reordered calls calls')
    (code : CodeRef) : latest (accepted calls) code = latest (accepted calls') code := by
  induction h with
  | nil => rfl
  | cons c _ ih => rw [latest_accepted_cons, latest_accepted_cons, ih]
  | swap c d cs h =>
    rw [latest_accepted_cons, latest_accepted_cons, latest_accepted_cons, latest_accepted_cons,
      Option.or_assoc, Option.or_assoc]
    -- one of the two has no entry of the code
    have hcomm : (latest d.accepted code).or (latest c.accepted code) =
        (latest c.accepted code).or (latest d.accepted code) := by
      by_cases hc : code ∈ c.codes
      · rw [latest_accepted_eq_none (h code hc), Option.none_or, Option.or_none]
      · rw [latest_accepted_eq_none hc, Option.or_none, Option.none_or]
    rw [hcomm]
  | trans _ _ ih ih' => exact ih.trans ih'

/-! ### The finished registry -/

/-- The registry and the log that a new builder comes to by calls, refused or
not. -/
def built (calls : List Registration) : Registry × Array Event := (Builder.new.after calls).build

theorem find?_built (calls : List Registration) (code : CodeRef) :
    (built calls).1.find? code = latest (accepted calls) code := by
  show (Builder.new.after calls).table.find? code = _
  rw [Builder.after_eq, Builder.find?_addAll]
  exact Option.or_none

theorem Registry.lookup_eq_ok {reg : Registry} {code : CodeRef} {r : Installed} :
    reg.lookup code = .ok r ↔ reg.find? code = some r := by
  unfold lookup
  cases reg.find? code <;> simp

theorem Registry.lookup_eq_error {reg : Registry} {code : CodeRef} {fault : Fault} :
    reg.lookup code = .error fault ↔ fault = ⟨code, .unsupported⟩ ∧ reg.find? code = none := by
  unfold lookup
  cases reg.find? code <;> simp [eq_comm]

/-- What calls on a new builder come to is what the entries that they make
come to, and of these the last one of a code wins. -/
structure LastWin (calls : List Registration) : Prop where
  /-- A call is refused for the first code that its rule does not serve, and
  goes through if there is none. -/
  ends : ∀ before c rest, calls = before ++ c :: rest →
    Builder.register c.installed c.codes (Builder.new.after before) =
      match c.codes.dropWhile c.installed.rule.supports with
      | [] => .ok () (Builder.new.after (before ++ [c]))
      | code :: _ => .error ⟨c.installed.rule.name, code⟩ (Builder.new.after (before ++ [c]))
  /-- A code goes to the instance of its last entry. -/
  found : ∀ code r, (built calls).1.lookup code = .ok r ↔
    ∃ before after, accepted calls = before ++ (code, r) :: after ∧ ∀ e ∈ after, e.1 ≠ code
  /-- A code without an entry is unsupported. -/
  missing : ∀ code fault, (built calls).1.lookup code = .error fault ↔
    fault = ⟨code, .unsupported⟩ ∧ ∀ e ∈ accepted calls, e.1 ≠ code
  /-- An entry is in the table, or its displacement is in the log. -/
  counted : (accepted calls).length =
    (built calls).1.table.count true + (built calls).1.table.count false +
      (built calls).2.toList.countP Event.isReplacement
  /-- The log has the displacements in order and ends with the size of the
  table. -/
  logged : (built calls).2.toList = replacements [] (accepted calls) ++
    [.registryBuilt ((built calls).1.table.count true) ((built calls).1.table.count false)]
  /-- Calls without a code in common may change places. -/
  reordered : ∀ calls', Reordered calls calls' → ∀ code,
    (built calls').1.lookup code = (built calls).1.lookup code

/-- Of all that calls on a new builder have registered for a code, refused ones
included, the last counts. -/
theorem registrations_lastWin (calls : List Registration) : LastWin calls := by
  have hlog : (Builder.new.after calls).log.toList = replacements [] (accepted calls) := by
    rw [Builder.after_eq, Builder.log_addAll _ [] _ fun _ => rfl]
    rfl
  have hbuilt : (built calls).2.toList = (Builder.new.after calls).log.toList ++
      [.registryBuilt ((built calls).1.table.count true) ((built calls).1.table.count false)] :=
    Array.toList_push
  refine ⟨?_, ?_, ?_, ?_, ?_, ?_⟩
  · rintro before c rest -
    have hafter : Builder.new.after (before ++ [c]) =
        (Builder.new.after before).addAll c.accepted := by
      rw [Builder.after_eq, Builder.after_eq, accepted, List.flatMap_append, List.flatMap_singleton,
        Builder.addAll, List.foldl_append]
      rfl
    rw [hafter]
    exact Builder.register_eq c.installed c.codes _
  · intro code r
    rw [Registry.lookup_eq_ok, find?_built, latest_eq_some_iff]
  · intro code fault
    rw [Registry.lookup_eq_error, find?_built, latest_eq_none_iff]
  · have hsize := Builder.size_addAll (accepted calls) Builder.new
    rw [← Builder.after_eq] at hsize
    rw [Table.count_add_count, hbuilt, List.countP_append]
    have hnew : Builder.new.table.size + Builder.new.log.toList.countP Event.isReplacement = 0 := rfl
    have hlast : ∀ n m, [Event.registryBuilt n m].countP Event.isReplacement = 0 := fun _ _ => rfl
    have htable : (built calls).1.table = (Builder.new.after calls).table := rfl
    rw [hlast, htable]
    omega
  · rw [hbuilt, hlog]
  · intro calls' h code
    rw [Registry.lookup, Registry.lookup, find?_built, find?_built, h.latest_eq]

/-- A refused call keeps what it had accepted. -/
example :
    let first : Installed := ⟨0, .compare⟩
    let second : Installed := ⟨1, .compare⟩
    let reg := (built [⟨first, [.opcode .cmp, .opcode .cmpDword]⟩,
      ⟨second, [.opcode .cmp, .opcode .pop, .opcode .cmpDword]⟩]).1
    reg.find? (.opcode .cmp) = some second ∧ reg.find? (.opcode .cmpDword) = some first := by
  decide

end Devirt
