/-
# The last entry under a key

Entries are written one after another and the last one under a key counts.

Key definitions: `latest`.
Key theorems: `latest_append`, `latest_eq_some_iff`, `latest_eq_none_iff`.
-/

namespace Devirt

section Latest

variable {α β : Type} [DecidableEq α] {es es' : List (α × β)} {a c : α} {b : β}

/-- What the last entry under a key holds. -/
def latest (es : List (α × β)) (a : α) : Option β := es.reverse.lookup a

@[simp] theorem latest_nil : latest ([] : List (α × β)) a = none := rfl

/-- Later entries count before earlier ones. -/
theorem latest_append : latest (es ++ es') a = (latest es' a).or (latest es a) := by
  rw [latest, List.reverse_append, List.lookup_append]
  rfl

@[simp] theorem latest_singleton : latest [(c, b)] a = if a = c then some b else none := by
  rw [latest, List.reverse_singleton, List.lookup_cons, List.lookup_nil]
  by_cases h : a = c
  · simp [h]
  · simp [h, beq_false_of_ne h]

theorem latest_eq_some_iff : latest es a = some b ↔
    ∃ before after, es = before ++ (a, b) :: after ∧ ∀ e ∈ after, e.1 ≠ a := by
  rw [latest, List.lookup_eq_some_iff]
  constructor
  · rintro ⟨later, earlier, hes, hlater⟩
    refine ⟨earlier.reverse, later.reverse, ?_, fun e he heq => ?_⟩
    · rw [← List.reverse_reverse es, hes]
      simp
    · simpa [heq] using hlater e (List.mem_reverse.mp he)
  · rintro ⟨before, after, rfl, hafter⟩
    refine ⟨after.reverse, before.reverse, by simp, fun e he => ?_⟩
    exact bne_iff_ne.mpr (Ne.symm (hafter e (List.mem_reverse.mp he)))

theorem latest_eq_none_iff : latest es a = none ↔ ∀ e ∈ es, e.1 ≠ a := by
  rw [latest, List.lookup_eq_none_iff]
  constructor
  · intro h e he
    exact Ne.symm (bne_iff_ne.mp (h e (List.mem_reverse.mpr he)))
  · intro h e he
    exact bne_iff_ne.mpr (Ne.symm (h e (List.mem_reverse.mp he)))

end Latest

end Devirt
