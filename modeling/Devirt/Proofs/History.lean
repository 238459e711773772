/-
# The history of a register

What a register holds at some point of a body is what the last instruction
before it that stores the register found on the stack. The type system keeps
of that only whether it was a float. That is enough, since both are the same:
a register is among the floats of a typing exactly if its last store met a
float (`Typing.mem_floats_iff`).

Key definitions: `StoresAt`, `ReadsAt`, `LastStore`.
Key theorems: `LastStore.unique`, `exists_lastStore`,
`Typing.mem_floats_iff`.
-/
import Devirt.Lowering.Registers
import Devirt.Proofs.Typing

namespace Devirt

/-! ### Reads and stores -/

/-- The `k`-th instruction of the body stores `r`. -/
def StoresAt (body : List Instr) (k : Nat) (r : Register) : Prop :=
  ∃ offset, body[k]? = some ⟨offset, .plain .pop (.register r)⟩

/-- The `k`-th instruction of the body pushes `r`, read at width `w`. -/
def ReadsAt (body : List Instr) (k : Nat) (w : Width) (r : Register) : Prop :=
  ∃ offset c, body[k]? = some ⟨offset, .plain c (.register r)⟩ ∧
    c.pushForm? = some (.register w)

/-- Of the stores of `r` before `j`, the last one is at `k`. -/
structure LastStore (body : List Instr) (r : Register) (j k : Nat) : Prop where
  before : k < j
  stores : StoresAt body k r
  last : ∀ n, k < n → n < j → ¬ StoresAt body n r

variable {body : List Instr} {r : Register} {j k k' : Nat}

theorem storesAt_iff_getElem (h : k < body.length) :
    StoresAt body k r ↔ body[k].operation = .plain .pop (.register r) := by
  rw [StoresAt, List.getElem?_eq_getElem h]
  constructor
  · rintro ⟨offset, hk⟩
    rw [Option.some.inj hk]
  · intro hop
    exact ⟨body[k].offset, by rw [← hop]⟩

namespace LastStore

theorem unique (h : LastStore body r j k) (h' : LastStore body r j k') : k = k' := by
  rcases Nat.lt_trichotomy k k' with hlt | heq | hgt
  · exact absurd h'.stores (h.last k' hlt h'.before)
  · exact heq
  · exact absurd h.stores (h'.last k hgt h.before)

/-- A store is the last one right after itself. -/
theorem of_storesAt (h : StoresAt body j r) : LastStore body r (j + 1) j where
  before := Nat.lt_succ_self j
  stores := h
  last n hlt hle := by omega

/-- Any other instruction leaves the last store what it was. -/
theorem succ_iff (h : ¬ StoresAt body j r) : LastStore body r (j + 1) k ↔ LastStore body r j k := by
  constructor
  · intro hk
    have hne : k ≠ j := fun heq => h (heq ▸ hk.stores)
    have hlt : k < j := by
      have := hk.before
      omega
    exact ⟨hlt, hk.stores, fun n hn hnj => hk.last n hn (by omega)⟩
  · intro hk
    refine ⟨Nat.lt_succ_of_lt hk.before, hk.stores, fun n hn hnj => ?_⟩
    by_cases hnj' : n = j
    · rw [hnj']
      exact h
    · exact hk.last n hn (by omega)

/-- The instructions before `j` decide which store is the last one. -/
theorem take_iff : LastStore (body.take j) r j k ↔ LastStore body r j k := by
  have hstores : ∀ n, n < j → (StoresAt (body.take j) n r ↔ StoresAt body n r) := by
    intro n hn
    rw [StoresAt, StoresAt, List.getElem?_take_of_lt hn]
  constructor
  · intro h
    exact ⟨h.before, (hstores k h.before).mp h.stores,
      fun n hk hn hs => h.last n hk hn ((hstores n hn).mpr hs)⟩
  · intro h
    exact ⟨h.before, (hstores k h.before).mpr h.stores,
      fun n hk hn hs => h.last n hk hn ((hstores n hn).mp hs)⟩

end LastStore

/-- Where there is a store, there is a last one. -/
theorem exists_lastStore (h : ∃ n, n < j ∧ StoresAt body n r) : ∃ k, LastStore body r j k := by
  induction j with
  | zero =>
    obtain ⟨n, hn, -⟩ := h
    omega
  | succ j ih =>
    by_cases hj : StoresAt body j r
    · exact ⟨j, .of_storesAt hj⟩
    · obtain ⟨n, hn, hstore⟩ := h
      have hne : n ≠ j := fun heq => hj (heq ▸ hstore)
      obtain ⟨k, hk⟩ := ih ⟨n, by omega, hstore⟩
      exact ⟨k, (LastStore.succ_iff hj).mpr hk⟩

/-! ### Registers that hold floats -/

namespace Typing

variable {limit : Nat} {s s' : Typing} {d : Demand}

theorem floats_push {t : StackType} (h : s.push limit t = some s') : s'.floats = s.floats := by
  unfold push at h
  split at h
  · cases h
    rfl
  · cases h

theorem floats_drop {n : Nat} (h : s.drop n = some s') : s'.floats = s.floats := by
  unfold drop at h
  split at h
  · cases h
    rfl
  · cases h

theorem floats_drop_push {n : Nat} {t : StackType} (h : (s.drop n).bind (push limit t) = some s') :
    s'.floats = s.floats := by
  obtain ⟨u, hdrop, hpush⟩ := Option.bind_eq_some_iff.mp h
  rw [floats_push hpush, floats_drop hdrop]

theorem floats_replaceTop {t : StackType} (h : s.replaceTop t = some s') : s'.floats = s.floats := by
  unfold replaceTop at h
  split at h
  · cases h
    rfl
  · cases h

theorem floats_binary (h : s.binary = some s') : s'.floats = s.floats := by
  unfold binary at h
  split at h
  · cases h
    rfl
  · cases h

theorem floats_unary (h : s.unary = some s') : s'.floats = s.floats := by
  unfold unary at h
  split at h
  · cases h
  · cases h
    rfl

theorem floats_read {w : Width} {r : Register} (h : s.read limit w r = some s') :
    s'.floats = s.floats := by
  unfold read at h
  split at h
  · exact floats_push h
  · split at h
    · cases h
    · exact floats_push h
  · split at h
    · cases h
    · exact floats_push h
  · exact floats_push h
  · exact floats_push h
  · cases h

theorem floats_compare {references : Bool} (h : s.compare limit references = some s') :
    s'.floats = s.floats := by
  unfold compare at h
  split at h <;> split at h <;> cases h <;> rfl

theorem floats_call {how : Dispatch} {m : MethodRef} (h : s.call limit how m = some s') :
    s'.floats = s.floats := by
  unfold call at h
  split at h
  · exact floats_drop_push h
  · split at h
    · exact floats_drop_push h
    · exact floats_drop h

theorem floats_intrinsic {call : Intrinsic} {arg : IntrinsicOperand}
    (h : s.intrinsic limit call arg = some s') : s'.floats = s.floats := by
  unfold intrinsic at h
  split at h
  · split at h
    · cases h
    · exact floats_replaceTop h
  · split at h
    · cases h
    · exact floats_call h
  · split at h
    · exact floats_push h
    · split at h
      · exact floats_replaceTop h
      · cases h
  · split at h
    · exact floats_drop h
    · split at h
      · exact floats_drop h
      · cases h
  · cases h

/-- Only a store changes which registers hold floats. -/
theorem floats_step {op : Operation} (hop : ∀ r, op ≠ .plain .pop (.register r))
    (h : s.step limit op = some s') : s'.floats = s.floats := by
  cases op with
  | intrinsic call arg => exact floats_intrinsic h
  | plain c arg =>
    cases c with
    | pushiDword | pushiQword => cases arg <;> first | exact floats_push h | cases h
    | pushrObject => cases arg <;> first | exact floats_push (t := .object) h | cases h
    | pushrByte => cases arg <;> first | exact floats_read (w := .byte) h | cases h
    | pushrWord => cases arg <;> first | exact floats_read (w := .word) h | cases h
    | pushrDword => cases arg <;> first | exact floats_read (w := .dword) h | cases h
    | pushrQword => cases arg <;> first | exact floats_read (w := .qword) h | cases h
    | pop =>
      cases arg with
      | none => exact floats_drop h
      | register r => exact absurd rfl (hop r)
      | dword | qword => cases h
    | addDword | addQword | addR32 | addR64 | norDword | norQword | subDword | orDword | andDword
    | xorDword => exact floats_binary h
    | notDword => exact floats_unary h
    | cmp | cmpDword | cmpQword | cmpR32 | cmpR64 => exact floats_compare h
    | _ => cases h

/-- A store changes that of its own register, by the type of what it stores. -/
theorem mem_floats_store {r' : Register} (h : s.store r' = some s') :
    ∃ top, s.stack = top :: s'.stack ∧
      (r ∈ s'.floats ↔ if r = r' then top = .float else r ∈ s.floats) := by
  unfold store at h
  split at h
  · rename_i top rest hs
    cases h
    refine ⟨top, hs, ?_⟩
    by_cases hr : r = r' <;> by_cases ht : top = .float <;> simp [hr, ht]
  · cases h

/-- What holds of a register that an instruction does not store stays so. -/
theorem mem_floats_step {op : Operation} (hop : op ≠ .plain .pop (.register r))
    (h : s.step limit op = some s') : r ∈ s'.floats ↔ r ∈ s.floats := by
  by_cases hstore : ∃ r', op = .plain .pop (.register r')
  · obtain ⟨r', rfl⟩ := hstore
    have hne : r ≠ r' := fun heq => hop (by rw [heq])
    obtain ⟨top, -, hmem⟩ := mem_floats_store (r := r) h
    rw [hmem, if_neg hne]
  · have hkeep : s'.floats = s.floats := floats_step (fun r' heq => hstore ⟨r', heq⟩) h
    rw [hkeep]

/-- After `j` instructions a register is known to hold a float exactly if its
last store before that met one. -/
theorem mem_floats_iff (hj : j ≤ body.length)
    (h : check limit (body.take j) {} {} = some (s, d)) :
    r ∈ s.floats ↔ ∃ k u e rest, LastStore body r j k ∧
      check limit (body.take k) {} {} = some (u, e) ∧ u.stack = .float :: rest := by
  induction j generalizing s d with
  | zero =>
    cases h
    constructor
    · intro hmem
      simp at hmem
    · rintro ⟨k, _, _, _, hk, -⟩
      exact absurd hk.before (Nat.not_lt_zero k)
  | succ j ih =>
    have hlt : j < body.length := hj
    rw [List.take_succ_eq_append_getElem hlt, check_snoc_eq_some] at h
    obtain ⟨u, e, hu, hstep, -⟩ := h
    by_cases hstore : StoresAt body j r
    · have hop := (storesAt_iff_getElem hlt).mp hstore
      rw [hop] at hstep
      obtain ⟨top, hs, hmem⟩ := mem_floats_store (r := r) hstep
      rw [hmem, if_pos rfl]
      constructor
      · rintro rfl
        exact ⟨j, u, e, s.stack, .of_storesAt hstore, hu, hs⟩
      · rintro ⟨k, u', e', rest, hk, hu', hs'⟩
        -- the store at `j` is the last one, and the typing it meets is known
        obtain rfl : k = j := hk.unique (.of_storesAt hstore)
        rw [hu, Option.some.injEq, Prod.mk.injEq] at hu'
        rw [← hu'.1, hs] at hs'
        exact (List.cons.inj hs').1
    · have hop : body[j].operation ≠ .plain .pop (.register r) :=
        fun heq => hstore ((storesAt_iff_getElem hlt).mpr heq)
      rw [mem_floats_step hop hstep, ih (Nat.le_of_lt hlt) hu]
      simp only [LastStore.succ_iff hstore]

end Typing

end Devirt
