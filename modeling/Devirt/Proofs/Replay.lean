/-
# Replaying host code

What host code does to the evaluation stack, without a limit and without a
frame. `HostInstr.retype` gives the types an instruction leaves, and
`HostInstr.replay` those of a whole sequence; `HostInstr.runArity` counts
values only. The two agree (`runArity_of_replay`), and the abstract stack of a
frame moves as `retype` says (`leaves_effect_iff`): it refuses an instruction
only for want of values, for want of a declared local, or for want of room.

Key definitions: `HostInstr.retype`, `HostInstr.replay`,
`HostInstr.runArity`, `IsPeak`.
Key theorems: `HostInstr.leaves_effect_iff`, `HostInstr.raises_effect`,
`HostInstr.runArity_of_replay`, `IsPeak.snoc`.
-/
import Devirt.Host.Effect

namespace Devirt

/-! ### The stack of a frame -/

namespace EvalStack

variable {limit n : Nat} {t : StackType} {s s' : EvalStack} {ts : List StackType}

/-- The operation succeeds and leaves these types. -/
def Leaves (r : Except Cause EvalStack) (ts : List StackType) : Prop :=
  ∃ s, r = .ok s ∧ s.types = ts

theorem leaves_ok : Leaves (.ok s) ts ↔ s.types = ts := by
  simp [Leaves]

theorem not_leaves_error {c : Cause} : ¬ Leaves (.error c) ts := by
  simp [Leaves]

theorem leaves_push : Leaves (s.push limit t) ts ↔ s.types.length < limit ∧ t :: s.types = ts := by
  rw [← s.depth_eq]
  unfold push
  by_cases h : s.depth < limit
  · simp [h, leaves_ok]
  · simp [h, not_leaves_error]

theorem leaves_drop : Leaves (s.drop n) ts ↔ n ≤ s.types.length ∧ s.types.drop n = ts := by
  rw [← s.depth_eq]
  unfold drop
  by_cases h : n ≤ s.depth
  · simp [h, leaves_ok]
  · simp [h, not_leaves_error]

theorem leaves_replace : Leaves (s.replace limit n t) ts ↔
    n ≤ s.types.length ∧ s.types.length - n < limit ∧ t :: s.types.drop n = ts := by
  unfold replace
  cases h : s.drop n with
  | ok r =>
    have hr := leaves_drop.mp ⟨r, h, rfl⟩
    simp only [bind, Except.bind, leaves_push, ← hr.2, List.length_drop, hr.1, true_and]
  | error c =>
    have hn : ¬ n ≤ s.types.length := fun hn => by
      obtain ⟨r, hr, -⟩ := (leaves_drop (s := s)).mpr ⟨hn, rfl⟩
      rw [h] at hr
      cases hr
    simp [bind, Except.bind, not_leaves_error, hn]

theorem leaves_combine {k : StackType → StackType → StackType} :
    Leaves (s.combine limit k) ts ↔
      ∃ rhs lhs rest, s.types = rhs :: lhs :: rest ∧ rest.length < limit ∧ k lhs rhs :: rest = ts := by
  unfold combine
  split
  · rename_i rhs lhs rest h
    simp [leaves_replace, h, and_assoc]
  · rename_i h
    constructor
    · intro hl
      exact (not_leaves_error hl).elim
    · rintro ⟨rhs, lhs, rest, hs, -⟩
      exact (h _ _ _ hs).elim

theorem leaves_peek_bind {k : StackType → Except Cause EvalStack} :
    Leaves (s.peek n >>= k) ts ↔ ∃ t, s.types[n]? = some t ∧ Leaves (k t) ts := by
  unfold peek
  cases s.types[n]? with
  | none => simp [bind, Except.bind, not_leaves_error]
  | some t => simp [bind, Except.bind]

end EvalStack

/-! ### The effect on types -/

namespace HostInstr

/-- Takes one value and leaves those that `k` makes of it. -/
def takeOne (k : StackType → List StackType) : List StackType → Option (List StackType)
  | t :: s => some (k t ++ s)
  | [] => none

/-- Takes two values and leaves one whose type `k` finds from theirs, the
deeper one first. -/
def takeTwo (k : StackType → StackType → StackType) : List StackType → Option (List StackType)
  | rhs :: lhs :: s => some (k lhs rhs :: s)
  | _ => none

/-- Takes `n` values and leaves `ts`. -/
def takeMany (n : Nat) (ts s : List StackType) : Option (List StackType) :=
  if n ≤ s.length then some (ts ++ s.drop n) else none

theorem takeOne_eq_some {k : StackType → List StackType} {s ts : List StackType} :
    takeOne k s = some ts ↔ ∃ t r, s = t :: r ∧ k t ++ r = ts := by
  rcases s with _ | ⟨t, r⟩ <;> simp [takeOne, and_assoc]

theorem takeTwo_eq_some {k : StackType → StackType → StackType} {s ts : List StackType} :
    takeTwo k s = some ts ↔ ∃ rhs lhs r, s = rhs :: lhs :: r ∧ k lhs rhs :: r = ts := by
  rcases s with _ | ⟨rhs, _ | ⟨lhs, r⟩⟩ <;> simp [takeTwo, and_assoc]

theorem takeMany_eq_some {n : Nat} {us s ts : List StackType} :
    takeMany n us s = some ts ↔ n ≤ s.length ∧ us ++ s.drop n = ts := by
  simp [takeMany]

/-- The types on the stack after one instruction, top first. There are none
if it takes more than there is or loads a local without a type. -/
def retype (types : LocalIndex → Option StackType) (i : HostInstr) (s : List StackType) :
    Option (List StackType) :=
  match i with
  | .nop => some s
  | .loadNull => some (.object :: s)
  | .loadInt32 _ => some (.int32 :: s)
  | .loadInt64 _ => some (.int64 :: s)
  | .loadLocal i => (types i).map (· :: s)
  | .storeLocal _ | .pop | .storeStatic _ => takeMany 1 [] s
  | .dup => takeOne (fun t => [t, t]) s
  | .arith _ => takeTwo .binaryResult s
  | .shift _ => takeTwo (fun lhs _ => lhs) s
  | .unary _ => takeOne (fun t => [t]) s
  | .convert conv => takeMany 1 [conv.target] s
  | .compare _ => takeMany 2 [.int32] s
  | .box _ | .castClass _ => takeMany 1 [.object] s
  | .invoke .construct m => takeMany m.params.length [.object] s
  | .invoke _ m => takeMany m.stackArguments m.resultType?.toList s
  | .loadField f => takeMany 1 [f.stackType] s
  | .loadStatic f => some (f.stackType :: s)
  | .storeField _ => takeMany 2 [] s

/-- The types on the stack after a sequence. -/
def replay (types : LocalIndex → Option StackType) :
    List HostInstr → List StackType → Option (List StackType)
  | [], s => some s
  | i :: is, s => (i.retype types s).bind (replay types is)

/-- The height of the stack after code that starts on the empty one. -/
def height (types : LocalIndex → Option StackType) (is : List HostInstr) : Option Nat :=
  (replay types is []).map List.length

/-- The declared type of a local. -/
abbrev declared (locals : Array Local) (i : LocalIndex) : Option StackType :=
  locals[i.val]?.map Local.type

variable {types : LocalIndex → Option StackType} {i : HostInstr} {is js : List HostInstr}
  {s s' : List StackType} {limit : Nat} {locals : Array Local}

/-! ### The stack of a frame moves as the types say -/

section Leaves

open EvalStack

variable {s : EvalStack} {ts : List StackType}

theorem leaves_push_iff {t : StackType} : Leaves (s.push limit t) ts ↔
    some (t :: s.types) = some ts ∧ ts.length ≤ limit := by
  rw [leaves_push, Option.some.injEq]
  constructor
  · rintro ⟨h, rfl⟩
    exact ⟨rfl, h⟩
  · rintro ⟨rfl, h⟩
    exact ⟨h, rfl⟩

theorem leaves_drop_iff {n : Nat} (hs : s.types.length ≤ limit) : Leaves (s.drop n) ts ↔
    takeMany n [] s.types = some ts ∧ ts.length ≤ limit := by
  rw [leaves_drop, takeMany_eq_some, List.nil_append]
  constructor
  · rintro ⟨h, rfl⟩
    exact ⟨⟨h, rfl⟩, by rw [List.length_drop]; omega⟩
  · exact And.left

theorem leaves_replace_iff {n : Nat} {t : StackType} : Leaves (s.replace limit n t) ts ↔
    takeMany n [t] s.types = some ts ∧ ts.length ≤ limit := by
  rw [leaves_replace, takeMany_eq_some, List.singleton_append]
  constructor
  · rintro ⟨h, hl, rfl⟩
    exact ⟨⟨h, rfl⟩, by rw [List.length_cons, List.length_drop]; omega⟩
  · rintro ⟨⟨h, rfl⟩, hl⟩
    rw [List.length_cons, List.length_drop] at hl
    exact ⟨h, hl, rfl⟩

theorem leaves_combine_iff {k : StackType → StackType → StackType} :
    Leaves (s.combine limit k) ts ↔ takeTwo k s.types = some ts ∧ ts.length ≤ limit := by
  rw [leaves_combine, takeTwo_eq_some]
  constructor
  · rintro ⟨rhs, lhs, r, h, hl, rfl⟩
    exact ⟨⟨rhs, lhs, r, h, rfl⟩, hl⟩
  · rintro ⟨⟨rhs, lhs, r, h, rfl⟩, hl⟩
    exact ⟨rhs, lhs, r, h, hl, rfl⟩

/-- The stack of a frame takes an instruction exactly if its types allow it
and there is room for what it leaves. -/
theorem leaves_effect_iff (hs : s.types.length ≤ limit) : Leaves (i.effect limit locals s) ts ↔
    i.retype (declared locals) s.types = some ts ∧ ts.length ≤ limit := by
  cases i with
  | nop =>
    simp only [effect, leaves_ok, retype, Option.some.injEq]
    constructor
    · rintro rfl
      exact ⟨rfl, hs⟩
    · exact And.left
  | loadNull | loadInt32 | loadInt64 | loadStatic => exact leaves_push_iff
  | loadLocal i =>
    simp only [effect, retype, declared]
    cases locals[i.val]? with
    | none => simp [not_leaves_error]
    | some l => exact leaves_push_iff
  | storeLocal | pop | storeStatic | storeField => exact leaves_drop_iff hs
  | dup =>
    simp only [effect, leaves_peek_bind, leaves_push_iff, retype]
    cases s.types <;> simp [takeOne]
  | arith | shift => exact leaves_combine_iff
  | unary =>
    simp only [effect, leaves_peek_bind, leaves_replace_iff, retype]
    cases s.types <;> simp [takeOne, takeMany]
  | convert | compare | box | castClass | loadField => exact leaves_replace_iff
  | invoke how m =>
    cases how with
    | construct => exact leaves_replace_iff
    | direct | virtual =>
      simp only [effect, retype]
      cases m.resultType? with
      | none => exact leaves_drop_iff hs
      | some t => exact leaves_replace_iff

theorem retype_of_effect {s' : EvalStack} (hs : s.types.length ≤ limit)
    (h : i.effect limit locals s = .ok s') :
    i.retype (declared locals) s.types = some s'.types ∧ s'.types.length ≤ limit :=
  (leaves_effect_iff hs).mp ⟨s', h, rfl⟩

end Leaves

/-! ### The peak -/

section Peak

open EvalStack

variable {s s' : EvalStack} {n : Nat} {t : StackType}

/-- The peak rises to the depth that is left, and no further. -/
def Raises (s s' : EvalStack) : Prop := s'.peak = max s.peak s'.depth

theorem raises_push (h : s.push limit t = .ok s') : Raises s s' := by
  unfold push at h
  split at h
  · cases h
    rfl
  · cases h

theorem peak_drop (h : s.drop n = .ok s') : s'.peak = s.peak ∧ s'.depth ≤ s.depth := by
  unfold drop at h
  split at h
  · cases h
    exact ⟨rfl, Nat.sub_le ..⟩
  · cases h

theorem raises_drop (hs : s.depth ≤ s.peak) (h : s.drop n = .ok s') : Raises s s' := by
  obtain ⟨hp, hd⟩ := peak_drop h
  rw [Raises, hp]
  omega

theorem raises_replace (h : s.replace limit n t = .ok s') : Raises s s' := by
  unfold replace at h
  cases hd : s.drop n with
  | error c => simp [hd, bind, Except.bind] at h
  | ok r =>
    simp only [hd, bind, Except.bind] at h
    rw [Raises, ← (peak_drop hd).1]
    exact raises_push h

theorem raises_combine {k : StackType → StackType → StackType}
    (h : s.combine limit k = .ok s') : Raises s s' := by
  unfold combine at h
  split at h
  · exact raises_replace h
  · cases h

theorem raises_peek_bind {k : StackType → Except Cause EvalStack}
    (hk : ∀ t, k t = .ok s' → Raises s s') (h : s.peek n >>= k = .ok s') : Raises s s' := by
  cases hp : s.peek n with
  | error c => simp [hp, bind, Except.bind] at h
  | ok t => exact hk t (by simpa [hp, bind, Except.bind] using h)

theorem raises_effect (hs : s.depth ≤ s.peak) (h : i.effect limit locals s = .ok s') :
    Raises s s' := by
  cases i with
  | nop =>
    cases h
    exact (Nat.max_eq_left hs).symm
  | loadNull | loadInt32 | loadInt64 | loadStatic => exact raises_push h
  | loadLocal i =>
    simp only [effect] at h
    split at h
    · exact raises_push h
    · cases h
  | storeLocal | pop | storeStatic | storeField => exact raises_drop hs h
  | dup => exact raises_peek_bind (fun _ => raises_push) h
  | arith | shift => exact raises_combine h
  | unary => exact raises_peek_bind (fun _ => raises_replace) h
  | convert | compare | box | castClass | loadField => exact raises_replace h
  | invoke how m =>
    cases how with
    | construct => exact raises_replace h
    | direct | virtual =>
      simp only [effect] at h
      split at h
      · exact raises_replace h
      · exact raises_drop hs h

end Peak

/-! ### Sequences -/

theorem replay_append : ∀ is : List HostInstr, ∀ s,
    replay types (is ++ js) s = (replay types is s).bind (replay types js)
  | [], s => rfl
  | i :: is, s => by
    simp only [List.cons_append, replay]
    cases i.retype types s with
    | none => rfl
    | some s' => exact replay_append is s'

theorem replay_snoc : replay types (is ++ [i]) s = (replay types is s).bind (i.retype types) := by
  rw [replay_append]
  cases replay types is s with
  | none => rfl
  | some s' => simp [replay, Option.bind_some]

/-- Locals that get a type later change nothing for code that did not load
them. -/
theorem retype_mono {types' : LocalIndex → Option StackType}
    (hm : ∀ i t, types i = some t → types' i = some t) (h : i.retype types s = some s') :
    i.retype types' s = some s' := by
  cases i with
  | loadLocal j =>
    obtain ⟨t, ht, rfl⟩ := Option.map_eq_some_iff.mp h
    simp [retype, hm j t ht]
  | invoke how m => cases how <;> exact h
  | _ => exact h

theorem replay_mono {types' : LocalIndex → Option StackType}
    (hm : ∀ i t, types i = some t → types' i = some t) : ∀ (is : List HostInstr) {s},
    replay types is s = some s' → replay types' is s = some s'
  | [], _, h => h
  | i :: is, s, h => by
    obtain ⟨r, hr, h⟩ := Option.bind_eq_some_iff.mp h
    simp only [replay, retype_mono hm hr, Option.bind_some]
    exact replay_mono hm is h

theorem height_mono {types' : LocalIndex → Option StackType}
    (hm : ∀ i t, types i = some t → types' i = some t) (is : List HostInstr) {d : Nat}
    (h : height types is = some d) : height types' is = some d := by
  obtain ⟨ts, hts, rfl⟩ := Option.map_eq_some_iff.mp h
  simp [height, replay_mono hm is hts]

/-! ### Counting values -/

/-- The depth after a sequence, by the arities alone; there is none once an
instruction takes more values than there are. -/
def runArity : List HostInstr → Nat → Option Nat
  | [], d => some d
  | i :: is, d => if i.arity.pops ≤ d then runArity is (d - i.arity.pops + i.arity.pushes) else none

theorem runArity_append : ∀ (is : List HostInstr) (d : Nat),
    runArity (is ++ js) d = (runArity is d).bind (runArity js)
  | [], d => rfl
  | i :: is, d => by
    rw [List.cons_append, runArity, runArity]
    split
    · exact runArity_append is _
    · rfl

/-- Past `is` the depth is that of what follows, from where `is` leads to. -/
theorem runArity_take_append {d d' n : Nat} (hd : runArity is d = some d') (hn : is.length ≤ n) :
    runArity ((is ++ js).take n) d = runArity (js.take (n - is.length)) d' := by
  calc runArity ((is ++ js).take n) d
      = runArity (is ++ js.take (n - is.length)) d := by
        rw [List.take_append, List.take_of_length_le hn]
    _ = runArity (js.take (n - is.length)) d' := by rw [runArity_append, hd, Option.bind_some]

theorem ofElement?_eq_none {e : ElementKind} : StackType.ofElement? e = none ↔ e = .void := by
  cases e <;> simp [StackType.ofElement?]

theorem isVoid_iff (m : MethodRef) : m.isVoid = true ↔ m.resultType? = none := by
  unfold MethodRef.isVoid MethodRef.resultType? TypeRef.isVoid
  cases m.returns with
  | none => simp
  | some t => simp [ofElement?_eq_none]

theorem length_result (m : MethodRef) : m.resultType?.toList.length = (!m.isVoid).toNat := by
  cases hr : m.resultType? with
  | none => simp [(isVoid_iff m).mpr hr]
  | some t =>
    have hv : m.isVoid = false := by
      rw [← Bool.not_eq_true, isVoid_iff, hr]
      exact Option.some_ne_none t
    simp [hv]

theorem length_takeMany {n : Nat} {us : List StackType} (h : takeMany n us s = some s') :
    n ≤ s.length ∧ s'.length = s.length - n + us.length := by
  obtain ⟨hn, rfl⟩ := takeMany_eq_some.mp h
  exact ⟨hn, by rw [List.length_append, List.length_drop]; omega⟩

theorem length_takeOne {k : StackType → List StackType} {n : Nat} (hk : ∀ t, (k t).length = n)
    (h : takeOne k s = some s') : 1 ≤ s.length ∧ s'.length = s.length - 1 + n := by
  obtain ⟨t, r, rfl, rfl⟩ := takeOne_eq_some.mp h
  exact ⟨by simp, by simp [hk t, Nat.add_comm]⟩

theorem length_takeTwo {k : StackType → StackType → StackType} (h : takeTwo k s = some s') :
    2 ≤ s.length ∧ s'.length = s.length - 2 + 1 := by
  obtain ⟨rhs, lhs, r, rfl, rfl⟩ := takeTwo_eq_some.mp h
  exact ⟨by simp, by simp⟩

/-- The types that an instruction leaves are as many as its arity says. -/
theorem length_retype (h : i.retype types s = some s') :
    i.arity.pops ≤ s.length ∧ s'.length = s.length - i.arity.pops + i.arity.pushes := by
  cases i with
  | nop =>
    cases h
    exact ⟨Nat.zero_le _, rfl⟩
  | loadNull | loadInt32 | loadInt64 | loadStatic =>
    cases h
    exact ⟨Nat.zero_le _, rfl⟩
  | loadLocal j =>
    obtain ⟨t, -, rfl⟩ := Option.map_eq_some_iff.mp h
    exact ⟨Nat.zero_le _, rfl⟩
  | storeLocal | pop | storeStatic | convert | box | castClass | loadField | compare | storeField =>
    exact length_takeMany h
  | dup => exact length_takeOne (fun _ => rfl) h
  | unary => exact length_takeOne (fun _ => rfl) h
  | arith | shift => exact length_takeTwo h
  | invoke how m =>
    cases how with
    | construct => exact length_takeMany h
    | direct | virtual =>
      have hl := length_takeMany h
      rw [length_result] at hl
      exact hl

theorem runArity_of_replay : ∀ (is : List HostInstr) {s}, replay types is s = some s' →
    runArity is s.length = some s'.length
  | [], _, h => by cases h; rfl
  | i :: is, s, h => by
    obtain ⟨r, hr, h⟩ := Option.bind_eq_some_iff.mp h
    obtain ⟨hp, hl⟩ := length_retype hr
    rw [runArity, if_pos hp, ← hl]
    exact runArity_of_replay is h

theorem runArity_of_height {d : Nat} (h : height types is = some d) : runArity is 0 = some d := by
  obtain ⟨ts, hts, rfl⟩ := Option.map_eq_some_iff.mp h
  exact runArity_of_replay is hts

end HostInstr

/-! ### The greatest height of a run -/

/-- Every prefix of the code has a height, and `m` is the greatest of them. -/
structure IsPeak (height : List HostInstr → Option Nat) (code : List HostInstr) (m : Nat) : Prop where
  le : ∀ n, ∃ d, height (code.take n) = some d ∧ d ≤ m
  attained : ∃ n, height (code.take n) = some m

namespace IsPeak

variable {height height' : List HostInstr → Option Nat} {code : List HostInstr} {m d : Nat}

theorem nil (h : height [] = some 0) : IsPeak height [] 0 where
  le n := ⟨0, by simp [h]⟩
  attained := ⟨0, h⟩

/-- The whole code is one of its prefixes. -/
theorem height_le (hp : IsPeak height code m) (h : height code = some d) : d ≤ m := by
  obtain ⟨d', hd, hle⟩ := hp.le code.length
  rw [List.take_length, h, Option.some.injEq] at hd
  exact hd ▸ hle

theorem mono (hh : ∀ is d, height is = some d → height' is = some d) (hp : IsPeak height code m) :
    IsPeak height' code m where
  le n := by
    obtain ⟨d, hd, hle⟩ := hp.le n
    exact ⟨d, hh _ _ hd, hle⟩
  attained := by
    obtain ⟨n, hn⟩ := hp.attained
    exact ⟨n, hh _ _ hn⟩

theorem take_snoc (code : List HostInstr) (i : HostInstr) (n : Nat) :
    (code ++ [i]).take n = code.take n ∨ (code ++ [i]).take n = code ++ [i] := by
  rcases Nat.lt_or_ge code.length n with h | h
  · right
    exact List.take_of_length_le (by rw [List.length_append, List.length_singleton]; omega)
  · left
    exact List.take_append_of_le_length h

theorem snoc {i : HostInstr} (hp : IsPeak height code m) (h : height (code ++ [i]) = some d) :
    IsPeak height (code ++ [i]) (max m d) where
  le n := by
    rcases take_snoc code i n with hn | hn
    · obtain ⟨d', hd', hle⟩ := hp.le n
      exact ⟨d', by rw [hn, hd'], by omega⟩
    · exact ⟨d, by rw [hn, h], by omega⟩
  attained := by
    obtain ⟨n, hn⟩ := hp.attained
    rcases Nat.le_total d m with hd | hd
    · refine ⟨min n code.length, ?_⟩
      rw [List.take_append_of_le_length (Nat.min_le_right ..), Nat.max_eq_left hd, ← hn]
      congr 1
      exact List.take_eq_take_iff.mpr (by omega)
    · exact ⟨code.length + 1, by rw [List.take_of_length_le (by simp), h, Nat.max_eq_right hd]⟩

end IsPeak

end Devirt
