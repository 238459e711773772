/-
# Options of a recompilation

Key definitions: `Options`, `Options.json`.
-/

namespace Devirt

/-- The deepest evaluation stack allowed, whether every emitted instruction
is logged, and whether scratch locals of one type and slot are shared within
a method. -/
structure Options where
  maxStackDepth : Nat := 1024
  traceEmission : Bool := false
  reuseTemporaries : Bool := true
  deriving DecidableEq, Repr, Inhabited

namespace Options

/-- The options as a compact JSON object, members in their order. -/
def json (o : Options) : String :=
  "\x7b\"max_stack_depth\":" ++ toString o.maxStackDepth
    ++ ",\"trace_emission\":" ++ toString o.traceEmission
    ++ ",\"reuse_temporaries\":" ++ toString o.reuseTemporaries ++ "\x7d"

end Options

end Devirt
