/-
# The registry of lowering rules

A builder collects rules under codes and a registry looks them up. A rule is
installed once and may be registered for many codes; the serial number given
to it then tells instances of equal rules apart. Registering a code again
replaces its rule, so the last registration wins. A registration is refused
at the first code that its rule does not serve and keeps the codes before it.

Key definitions: `Installed`, `Table`, `Builder`, `Builder.install`,
`Builder.register`, `Builder.build`, `Registry`, `Registry.lookup`,
`Registry.lower`.
Key theorems: `Table.find?_insert_self`, `Table.find?_insert_of_ne`.
-/
import Devirt.Lowering.Rule

namespace Devirt

/-- A rule with the number that tells it from every other instance. -/
structure Installed where
  serial : Nat
  rule : Rule
  deriving DecidableEq, Repr

/-! ### Tables from codes to rules -/

/-- The rule of each code, the latest registration first. -/
structure Table where
  entries : List (CodeRef × Installed) := []
  /-- No code occurs twice. -/
  nodup_codes : (entries.map Prod.fst).Nodup := by simp
  deriving DecidableEq, Repr

namespace Table

def find? (t : Table) (code : CodeRef) : Option Installed := t.entries.lookup code

/-- The table with `code` going to `r` and nowhere else. -/
def insert (t : Table) (code : CodeRef) (r : Installed) : Table where
  entries := (code, r) :: t.entries.filter (·.1 ≠ code)
  nodup_codes := by
    rw [List.map_cons, List.nodup_cons]
    refine ⟨?_, t.nodup_codes.sublist (List.filter_sublist.map _)⟩
    intro h
    obtain ⟨e, he, hc⟩ := List.mem_map.mp h
    simp [hc] at he

def size (t : Table) : Nat := t.entries.length

/-- The codes that have a rule, in the order of declaration. -/
def codes (t : Table) : List CodeRef := CodeRef.all.filter fun c => (t.find? c).isSome

/-- The number of opcodes, or else of intrinsics, that have a rule. -/
def count (t : Table) (opcodes : Bool) : Nat :=
  t.entries.countP fun e => e.1.isOpcode == opcodes

@[simp] theorem find?_insert_self (t : Table) (code : CodeRef) (r : Installed) :
    (t.insert code r).find? code = some r := by
  simp [find?, insert]

theorem lookup_filter_ne (es : List (CodeRef × Installed)) {c d : CodeRef} (h : d ≠ c) :
    (es.filter (·.1 ≠ c)).lookup d = es.lookup d := by
  induction es with
  | nil => rfl
  | cons e es ih =>
    obtain ⟨k, r⟩ := e
    by_cases hk : k = c
    · have hd : (d == k) = false := by simpa [hk] using h
      simp only [ne_eq, hk, not_true_eq_false, decide_false, Bool.false_eq_true, not_false_eq_true,
        List.filter_cons_of_neg, List.lookup_cons]
      rw [hk] at hd
      simpa [hd] using ih
    · simp only [ne_eq, hk, not_false_eq_true, decide_true, List.filter_cons_of_pos,
        List.lookup_cons]
      split
      · rfl
      · simpa using ih

theorem find?_insert_of_ne (t : Table) {code other : CodeRef} (r : Installed)
    (h : other ≠ code) : (t.insert code r).find? other = t.find? other := by
  have hb : (other == code) = false := by simpa using h
  simp only [find?, insert, List.lookup_cons, hb]
  exact lookup_filter_ne t.entries h

end Table

/-! ### Building -/

/-- A rule was to serve a code that it does not. -/
structure RegistrationError where
  rule : String
  code : CodeRef
  deriving DecidableEq, Repr

def RegistrationError.message (e : RegistrationError) : String :=
  "translator '" ++ e.rule ++ "' does not handle " ++ e.code.text

/-- A registry under construction. -/
structure Builder where
  table : Table := {}
  /-- The serial number of the next rule installed. -/
  next : Nat := 0
  log : Array Event := #[]
  deriving DecidableEq, Repr

/-- A step of construction; a failure keeps what was registered before it. -/
abbrev Build := EStateM RegistrationError Builder

structure Registry where
  table : Table
  deriving DecidableEq, Repr

namespace Builder

/-- A new instance of a rule, registered for nothing yet. -/
def install (rule : Rule) : Build Installed := fun b =>
  .ok ⟨b.next, rule⟩ { b with next := b.next + 1 }

/-- Registers an instance for one code. -/
def registerCode (r : Installed) (code : CodeRef) : Build Unit := fun b =>
  if r.rule.supports code then
    .ok () { b with
      table := b.table.insert code r
      log := match b.table.find? code with
        | some previous => b.log.push (.replaced code previous.rule.name r.rule.name)
        | none => b.log }
  else
    .error ⟨r.rule.name, code⟩ b

/-- Registers an instance for codes in order, up to the first it does not
serve. -/
def register (r : Installed) : List CodeRef → Build Unit
  | [] => pure ()
  | code :: rest => do
    registerCode r code
    register r rest

/-- The finished registry, with the log of its construction. -/
def build (b : Builder) : Registry × Array Event :=
  (⟨b.table⟩, b.log.push (.registryBuilt (b.table.count true) (b.table.count false)))

end Builder

/-! ### Looking up -/

namespace Registry

def find? (reg : Registry) (code : CodeRef) : Option Installed := reg.table.find? code

/-- The codes served, in the order of declaration. -/
def codes (reg : Registry) : List CodeRef := reg.table.codes

/-- The rule of a code, or the fault that there is none. -/
def lookup (reg : Registry) (code : CodeRef) : Except Fault Installed :=
  match reg.find? code with
  | some r => .ok r
  | none => .error ⟨code, .unsupported⟩

/-- Lowers an instruction by the rule of its code. -/
def lower (reg : Registry) (i : Instr) : EStateM Fault Frame (Array HostInstr) :=
  match reg.lookup i.code with
  | .ok r => r.rule.lower i
  | .error fault => throw fault

end Registry

end Devirt
