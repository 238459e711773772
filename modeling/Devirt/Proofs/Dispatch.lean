/-
# What the default table dispatches to

The default table is built by registration, and looking a code up in it is a
run of the builder. `CodeRef.defaultRule?` is the outcome, read off once for
every code there is, so that no other proof runs the builder again.

Key definitions: `CodeRef.defaultRule?`.
Key theorems: `default_chain_cases`, `Registry.default_lower`.
-/
import Devirt.Proofs.Transcript

namespace Devirt

/-- The rule of a code in the default table. -/
def CodeRef.defaultRule? : CodeRef → Option Rule
  | .opcode code =>
    match code with
    | .pushrObject | .pushrByte | .pushrWord | .pushrDword | .pushrQword | .pushiDword
    | .pushiQword => some .push
    | .pop => some .pop
    | .cmp | .cmpDword | .cmpQword | .cmpR32 | .cmpR64 => some .compare
    | .addDword | .addQword | .addR32 | .addR64 => some (.chain .add)
    | .norDword | .norQword => some (.chain .nor)
    | .subDword => some (.chain (.recovered "sub" .sub .subDword))
    | .orDword => some (.chain (.recovered "or" .or .orDword))
    | .andDword => some (.chain (.recovered "and" .and .andDword))
    | .xorDword => some (.chain (.recovered "xor" .xor .xorDword))
    | .notDword => some (.chain .not)
    | _ => none
  | .intrinsic call =>
    match call with
    | .box => some .box
    | .ecall => some .call
    | .ldfld => some .loadField
    | .stfld => some .storeField
    | _ => none

/-- The chains of the table are single operations, but for that of NOR. -/
theorem default_chain_cases {code : CodeRef} {ch : Chain}
    (h : code.defaultRule? = some (.chain ch)) :
    (∃ op, ch.sequence = [.arith op]) ∨ (∃ op, ch.sequence = [.unary op]) ∨ ch = .nor := by
  cases code with
  | opcode c =>
    cases c <;> cases h <;> first
      | exact Or.inl ⟨_, rfl⟩
      | exact Or.inr (Or.inl ⟨_, rfl⟩)
      | exact Or.inr (Or.inr rfl)
  | intrinsic call => cases call <;> cases h

theorem defaultRule?_of_pushForm? {c : Opcode} {form : PushForm} (h : c.pushForm? = some form) :
    (CodeRef.opcode c).defaultRule? = some .push := by
  cases c <;> first | rfl | cases h

namespace Registry

theorem default_find? (code : CodeRef) :
    (Registry.default.find? code).map Installed.rule = code.defaultRule? := by
  have h : ∀ code ∈ CodeRef.all,
      (Registry.default.find? code).map Installed.rule = code.defaultRule? := by
    decide +kernel
  exact h code (CodeRef.mem_all code)

/-- Lowering by the default table is lowering by the rule of the code. -/
theorem default_lower {i : Instr} {r : Rule} (h : i.code.defaultRule? = some r) :
    Registry.default.lower i = r.lower i := by
  rw [← default_find?] at h
  obtain ⟨r', hr', rfl⟩ := Option.map_eq_some_iff.mp h
  exact lower_of_find hr'

theorem default_lower_of_none {i : Instr} (h : i.code.defaultRule? = none) :
    Registry.default.lower i = throw ⟨i.code, .unsupported⟩ := by
  rw [← default_find?, Option.map_eq_none_iff] at h
  exact lower_of_find_none h

end Registry

end Devirt
