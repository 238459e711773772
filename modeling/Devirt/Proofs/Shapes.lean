/-
# The shape of a sequence is exact

The shape of a sequence says from how many values on it can be run, and what it
leaves in their place. Both are found from the arities alone and both are
right: from a depth that is enough the sequence runs through, from any other it
lacks values on the way, and what is underneath its operands is never touched
(`Shape.runArity_extend`, `Shape.drop_replay`).

The same numbers come of a signed account, which lets the height fall below the
start and notes how far (`Balance`). Neither of the two numbers read off it is
negative.

A chain asks for its operands before it emits anything. Since its shape is
exact, nothing it emits then lacks a value, and it leaves one value in the place
of its operands (`chain_shape_exact`).

Key definitions: `Shape.extend`, `Balance`, `Chain.Exact`.
Key theorems: `Shape.runArity_extend`, `Shape.drop_replay`,
`runArity_of_underflow`, `chain_shape_exact`.
-/
import Devirt.Proofs.Blame
import Devirt.Proofs.Refusal

namespace Devirt

open Devirt.Frame Lower HostInstr

/-! ### Shapes and depths -/

namespace Shape

variable {is : List HostInstr}

/-- The shape after a sequence behind what has the shape `s`. -/
def extend (s : Shape) : List HostInstr → Shape
  | [] => s
  | i :: is => (s.step i.arity).extend is

theorem ofSequence_eq_extend (is : List HostInstr) : ofSequence is = extend ⟨0, 0⟩ is := by
  suffices ∀ s : Shape, is.foldl (fun s i => s.step i.arity) s = s.extend is from this _
  induction is with
  | nil => exact fun _ => rfl
  | cons i is ih => exact fun s => ih (s.step i.arity)

/-- What has been reached for is not given back. -/
theorem consumed_le_extend : ∀ (is : List HostInstr) (s : Shape), s.consumed ≤ (s.extend is).consumed
  | [], _ => Nat.le_refl _
  | i :: is, s => Nat.le_trans (Nat.le_add_right ..) (consumed_le_extend is (s.step i.arity))

/-- From a depth `d` on, a sequence behind what has the shape `s` can be run if
and only if `d` is as much as the two reach for. -/
theorem runArity_extend : ∀ (is : List HostInstr) (s : Shape) (d : Nat), s.consumed ≤ d →
    runArity is (d - s.consumed + s.left) =
      if (s.extend is).consumed ≤ d then some (d - (s.extend is).consumed + (s.extend is).left)
      else none
  | [], s, d, h => (if_pos h).symm
  | i :: is, s, d, h => by
    have hconsumed : (s.step i.arity).consumed = s.consumed + (i.arity.pops - s.left) := rfl
    have hleft : (s.step i.arity).left = s.left - i.arity.pops + i.arity.pushes := rfl
    rw [runArity, extend]
    rcases Nat.lt_or_ge (d - s.consumed + s.left) i.arity.pops with hp | hp
    · have hmore := consumed_le_extend is (s.step i.arity)
      rw [if_neg (Nat.not_le.mpr hp), if_neg (by omega)]
    · have hnext : d - s.consumed + s.left - i.arity.pops + i.arity.pushes =
          d - (s.step i.arity).consumed + (s.step i.arity).left := by omega
      rw [if_pos hp, hnext]
      exact runArity_extend is (s.step i.arity) d (by omega)

/-- A sequence runs through from the depths that its shape allows, and from no
other. -/
theorem runArity_eq (is : List HostInstr) (d : Nat) :
    runArity is d =
      if (ofSequence is).consumed ≤ d then some (d - (ofSequence is).consumed + (ofSequence is).left)
      else none := by
  rw [ofSequence_eq_extend]
  exact runArity_extend is ⟨0, 0⟩ d (Nat.zero_le d)

/-- Whatever a sequence does, the values that it does not reach for stay: they
are underneath those that it leaves. -/
theorem drop_replay {ls : Array Local} {us : List StackType} : ∀ (is : List HostInstr) (s : Shape)
    {ts ts' : List StackType}, replay (declared ls) is ts = some ts' →
    ts.drop s.left = us.drop s.consumed →
    ts'.drop (s.extend is).left = us.drop (s.extend is).consumed
  | [], s, ts, ts', h, hs => by
    cases h
    exact hs
  | i :: is, s, ts, ts', h, hs => by
    obtain ⟨vs, hvs, hrest⟩ := Option.bind_eq_some_iff.mp h
    refine drop_replay is (s.step i.arity) hrest ?_
    calc vs.drop (s.left - i.arity.pops + i.arity.pushes)
        = (vs.drop i.arity.pushes).drop (s.left - i.arity.pops) := by
          rw [List.drop_drop, Nat.add_comm]
      _ = (ts.drop i.arity.pops).drop (s.left - i.arity.pops) := by rw [drop_retype hvs]
      _ = (ts.drop s.left).drop (i.arity.pops - s.left) := by
          rw [List.drop_drop, List.drop_drop]
          congr 1
          omega
      _ = us.drop (s.consumed + (i.arity.pops - s.left)) := by rw [hs, List.drop_drop]

end Shape

/-! ### A signed account -/

/-- The height of the stack after a sequence, counted from where it started,
and how far the sequence has been below that. -/
structure Balance where
  height : Int
  reach : Int
  deriving DecidableEq, Repr

namespace Balance

/-- The balance after one more instruction: it takes before it leaves. -/
def step (b : Balance) (a : Arity) : Balance :=
  let low := b.height - a.pops
  ⟨low + a.pushes, max b.reach (-low)⟩

def ofSequence (is : List HostInstr) : Balance :=
  is.foldl (fun b i => b.step i.arity) ⟨0, 0⟩

/-- The balance of a shape. -/
def ofShape (s : Shape) : Balance := ⟨(s.left : Int) - s.consumed, s.consumed⟩

/-- Reaching further down is the same in both accounts. -/
theorem step_ofShape (s : Shape) (a : Arity) : (ofShape s).step a = ofShape (s.step a) := by
  have hheight : (s.left : Int) - s.consumed - a.pops + a.pushes =
      ((s.left - a.pops + a.pushes : Nat) : Int) - ((s.consumed + (a.pops - s.left) : Nat) : Int) := by
    omega
  have hreach : max (s.consumed : Int) (-((s.left : Int) - s.consumed - a.pops)) =
      ((s.consumed + (a.pops - s.left) : Nat) : Int) := by
    omega
  exact congr (congrArg Balance.mk hheight) hreach

theorem ofSequence_eq (is : List HostInstr) : ofSequence is = ofShape (.ofSequence is) := by
  suffices ∀ s : Shape, is.foldl (fun b i => b.step i.arity) (ofShape s) = ofShape (s.extend is) by
    rw [Shape.ofSequence_eq_extend]
    exact this ⟨0, 0⟩
  induction is with
  | nil => exact fun _ => rfl
  | cons i is ih =>
    intro s
    rw [List.foldl_cons, step_ofShape]
    exact ih (s.step i.arity)

/-- The shape read off a balance. -/
def shape (b : Balance) : Shape := ⟨b.reach.toNat, (b.height + b.reach).toNat⟩

/-- Neither number of a shape is negative before it is read off. -/
theorem shape_ofSequence (is : List HostInstr) :
    0 ≤ (ofSequence is).reach ∧ 0 ≤ (ofSequence is).height + (ofSequence is).reach ∧
      (ofSequence is).shape = .ofSequence is := by
  rw [ofSequence_eq]
  have hsum (s : Shape) : (ofShape s).height + (ofShape s).reach = s.left := Int.sub_add_cancel ..
  refine ⟨Int.natCast_nonneg _, ?_, ?_⟩
  · rw [hsum]
    exact Int.natCast_nonneg _
  · rw [shape, hsum]
    rfl

end Balance

/-! ### Emission by arities -/

section Emission

variable {code : CodeRef} {f g : Frame} {n a : Nat}

/-- An instruction that the stack lacks values for takes more than there are. -/
theorem lacking_of_underflow {i : HostInstr} (hf : f.stack.types.length ≤ f.limit)
    (h : emit code i f = .error (.underflow n a) g) :
    f.stack.depth < i.arity.pops ∧ n = i.arity.pops ∧ a = f.stack.depth ∧ g = f := by
  obtain ⟨heff, rfl⟩ := emit_eq_error.mp h
  have hmeets : Meets g.limit g.locals i g.stack _ := meets_effect hf i
  rw [heff] at hmeets
  cases hmeets with
  | lacking _ hp => exact ⟨hp, rfl, rfl, rfl⟩

/-- Code that lacks values on the way does so by its arities. -/
theorem runArity_of_underflow : ∀ (is : List HostInstr) {f : Frame},
    f.stack.types.length ≤ f.limit → emitAll code is f = .error (.underflow n a) g →
    runArity is f.stack.depth = none
  | [], _, _, h => by cases h
  | i :: is, f, hf, h => by
    rw [runArity]
    rcases bind_eq_error.mp h with hfirst | ⟨u, f', hok, hrest⟩
    · exact if_neg (Nat.not_le.mpr (lacking_of_underflow hf hfirst).1)
    · obtain ⟨s, hs, rfl⟩ := emit_eq_ok.mp hok
      obtain ⟨hts, hroom⟩ := retype_of_effect hf hs
      have hp : i.arity.pops ≤ f.stack.depth := f.stack.depth_eq ▸ (length_retype hts).1
      rw [if_pos hp, ← depth_of_retype hts]
      exact runArity_of_underflow is (f := f.afterEmit code i s) hroom hrest

/-- So code whose operands are there lacks none. -/
theorem depth_lt_consumed {is : List HostInstr} (hf : f.stack.types.length ≤ f.limit)
    (h : emitAll code is f = .error (.underflow n a) g) :
    f.stack.depth < (Shape.ofSequence is).consumed := by
  have hnone := runArity_of_underflow is hf h
  rw [Shape.runArity_eq] at hnone
  rcases Nat.lt_or_ge f.stack.depth (Shape.ofSequence is).consumed with hlt | hge
  · exact hlt
  · rw [if_pos hge] at hnone
    cases hnone

/-- What emitted code leaves stands where what it consumed stood. -/
theorem drop_of_emitAll {is : List HostInstr} {u : Unit} (hf : f.stack.types.length ≤ f.limit)
    (h : emitAll code is f = .ok u g) :
    g.stack.types.drop (Shape.ofSequence is).left = f.stack.types.drop (Shape.ofSequence is).consumed ∧
      g.stack.types.length =
        f.stack.types.length - (Shape.ofSequence is).consumed + (Shape.ofSequence is).left := by
  rcases emitAll_cases code is f hf with ⟨s, p, l, hok, -, hr⟩ | ⟨⟨c, g', herr⟩, -⟩
  · rw [h] at hok
    cases hok
    have hreplay : replay (declared f.locals) is f.stack.types = some s.types :=
      replay_of_replayWithin hr
    have hlen := runArity_of_replay is hreplay
    rw [Shape.runArity_eq] at hlen
    rw [Shape.ofSequence_eq_extend] at hlen ⊢
    refine ⟨Shape.drop_replay is ⟨0, 0⟩ hreplay rfl, ?_⟩
    split at hlen
    · exact (Option.some.inj hlen).symm
    · cases hlen
  · rw [h] at herr
    cases herr

end Emission

/-! ### Chains -/

/-- What becomes of an instruction that the chain serves. -/
structure Chain.Exact (c : Chain) (i : Instr) (f : Frame) : Prop where
  /-- It lacks values if there are fewer than the chain asks for, and in no
  other case. -/
  lacks : (∃ fault g n a, (Rule.chain c).lower i f = .error fault g ∧
    fault.cause = .underflow n a) ↔ f.stack.depth < c.operandCount
  /-- Then it asks for all of them at once and does nothing. -/
  refused : f.stack.depth < c.operandCount →
    (Rule.chain c).lower i f = .error ⟨i.code, .underflow c.operandCount f.stack.depth⟩ f
  /-- Otherwise no instruction of the sequence lacks a value. -/
  enough : c.operandCount ≤ f.stack.depth → ∀ n a g,
    emitAll i.code c.sequence f ≠ .error (.underflow n a) g
  /-- What goes through leaves one value in the place of the operands. -/
  leaves : ∀ code g, (Rule.chain c).lower i f = .ok code g →
    ∃ t, g.stack.types = t :: f.stack.types.drop c.operandCount

section Chains

variable {c : Chain} {op : Operation} {i : Instr} {f : Frame}

theorem Rule.emit_chain (hs : (Rule.chain c).supports op.code = true) :
    (Rule.chain c).emit op = Lowering.chain op.code c := by
  unfold Rule.emit
  rw [if_pos hs]
  cases op with
  | plain code arg => rfl
  | intrinsic call arg => simp [Rule.supports, Rule.codes, Operation.code] at hs

theorem Chain.exact (hf : f.stack.types.length ≤ f.limit)
    (hs : (Rule.chain c).supports i.code = true) : c.Exact i f := by
  have hemit : (Rule.chain c).emit i.operation = Lowering.chain i.code c := Rule.emit_chain hs
  have hconsumed : (Shape.ofSequence c.sequence).consumed = c.operandCount := by rw [c.shape_eq]
  have hleft : (Shape.ofSequence c.sequence).left = 1 := by rw [c.shape_eq]
  have hrefused : f.stack.depth < c.operandCount →
      (Rule.chain c).lower i f = .error ⟨i.code, .underflow c.operandCount f.stack.depth⟩ f := by
    intro hlt
    refine Rule.lower_eq_error.mpr ⟨_, ?_, rfl⟩
    rw [hemit]
    exact bind_of_error (require_of_lt hlt)
  have hrun : c.operandCount ≤ f.stack.depth →
      (Rule.chain c).emit i.operation f = emitAll i.code c.sequence f := by
    intro hle
    rw [hemit]
    exact bind_of_ok (require_eq_ok.mpr ⟨hle, rfl⟩)
  have henough : c.operandCount ≤ f.stack.depth → ∀ n a g,
      emitAll i.code c.sequence f ≠ .error (.underflow n a) g := by
    intro hle n a g h
    have hlt := depth_lt_consumed hf h
    omega
  refine {
    lacks := ⟨?_, fun hlt => ⟨_, f, _, _, hrefused hlt, rfl⟩⟩
    refused := hrefused
    enough := henough
    leaves := ?_ }
  · rintro ⟨fault, g, n, a, hlower, hcause⟩
    rcases Nat.lt_or_ge f.stack.depth c.operandCount with hlt | hle
    · exact hlt
    · obtain ⟨cause, hc, rfl⟩ := Rule.lower_eq_error.mp hlower
      obtain rfl : cause = .underflow n a := hcause
      rw [hrun hle] at hc
      exact absurd hc (henough hle n a g)
  · intro code g h
    obtain ⟨k, hk, -, rfl⟩ := Rule.lower_eq_ok.mp h
    have hle : c.operandCount ≤ f.stack.depth := by
      rcases Nat.lt_or_ge f.stack.depth c.operandCount with hlt | hle
      · rw [hrefused hlt] at h
        cases h
      · exact hle
    rw [hrun hle] at hk
    obtain ⟨hdrop, hlen⟩ := drop_of_emitAll hf hk
    rw [hconsumed, hleft] at hdrop hlen
    obtain ⟨t, rest, ht⟩ : ∃ t rest, k.stack.types = t :: rest :=
      List.exists_cons_of_length_pos (by omega)
    refine ⟨t, ?_⟩
    rw [← hdrop]
    show k.stack.types = t :: k.stack.types.drop 1
    rw [ht]
    rfl

/-- A sequence makes a chain if it is not empty and leaves one value, and the
chain asks for what the sequence consumes. -/
theorem Chain.ofSequence?_eq_ok {name : String} {is : List HostInstr} {codes : List Opcode} :
    Chain.ofSequence? name is codes = .ok c ↔
      is ≠ [] ∧ (Shape.ofSequence is).left = 1 ∧ c.name = name ∧ c.sequence = is ∧ c.codes = codes ∧
        c.operandCount = (Shape.ofSequence is).consumed := by
  unfold Chain.ofSequence?
  split
  · rename_i hempty
    constructor
    · intro h
      cases h
    · exact fun ⟨hne, _⟩ => absurd (List.isEmpty_iff.mp hempty) hne
  · rename_i hempty
    have hne : is ≠ [] := fun he => hempty (List.isEmpty_iff.mpr he)
    split
    · rename_i n hshape
      have hconsumed : (Shape.ofSequence is).consumed = n := congrArg Shape.consumed hshape
      have hleft : (Shape.ofSequence is).left = 1 := congrArg Shape.left hshape
      rw [Except.ok.injEq, hconsumed]
      constructor
      · rintro rfl
        exact ⟨hne, hleft, rfl, rfl, rfl, rfl⟩
      · rintro ⟨-, -, rfl, rfl, rfl, rfl⟩
        rfl
    · rename_i n count hother hshape
      have hleft : (Shape.ofSequence is).left = count := congrArg Shape.left hshape
      constructor
      · intro h
        cases h
      · rintro ⟨-, hone, -⟩
        exact (hother (hleft.symm.trans hone)).elim

end Chains

/-- The shape of a sequence is what its signed account comes to, in which
neither number is negative. It says exactly from which depths the sequence can
be run and where that ends; so a sequence makes a chain if and only if it is
not empty and leaves one value, and in every reachable frame the chain does
what its shape says for all codes it serves. -/
theorem chain_shape_exact (name : String) (is : List HostInstr) (codes : List Opcode) :
    (0 ≤ (Balance.ofSequence is).reach ∧
      0 ≤ (Balance.ofSequence is).height + (Balance.ofSequence is).reach ∧
      (Balance.ofSequence is).shape = Shape.ofSequence is) ∧
    (∀ d, runArity is d =
      if (Shape.ofSequence is).consumed ≤ d then
        some (d - (Shape.ofSequence is).consumed + (Shape.ofSequence is).left)
      else none) ∧
    ((∃ c, Chain.ofSequence? name is codes = .ok c) ↔
      is ≠ [] ∧ (Shape.ofSequence is).left = 1) ∧
    ∀ c, Chain.ofSequence? name is codes = .ok c →
      c.sequence = is ∧ c.codes = codes ∧ c.operandCount = (Shape.ofSequence is).consumed ∧
        ∀ (o : Options) (f : Frame), f.Reachable o →
          ∀ i : Instr, i.code ∈ (Rule.chain c).codes → c.Exact i f := by
  refine ⟨Balance.shape_ofSequence is, Shape.runArity_eq is, ?_, ?_⟩
  · constructor
    · rintro ⟨c, hc⟩
      obtain ⟨hne, hleft, -⟩ := Chain.ofSequence?_eq_ok.mp hc
      exact ⟨hne, hleft⟩
    · rintro ⟨hne, hleft⟩
      exact ⟨⟨name, is, codes, _, congrArg (Shape.mk _) hleft⟩, Chain.ofSequence?_eq_ok.mpr ⟨hne, hleft, rfl, rfl, rfl, rfl⟩⟩
  · intro c hc
    obtain ⟨-, -, -, hseq, hcodes, hcount⟩ := Chain.ofSequence?_eq_ok.mp hc
    refine ⟨hseq, hcodes, hcount, fun o f hf i hi => ?_⟩
    exact Chain.exact hf.room (List.contains_iff_mem.mpr hi)

/-- A chain that adds a number of its own to the top before it goes down for the
value below, and leaves a zero. -/
def Chain.dip : Chain where
  name := "dip"
  sequence := [.loadInt32 1, .arith .add, .pop, .pop, .loadInt32 0]
  codes := [.addDword]
  operandCount := 2
  shape_eq := rfl

/-- It has two operands. Where there is one value it lacks both and does
nothing, and where there are two it leaves one value. -/
theorem chain_shape_exact_dip :
    let o : Options := { maxStackDepth := 3 }
    let frame n := (Transcript.run ⟨{}⟩ o (numberPair.take n)).frame
    let i : Instr := ⟨0, .plain .addDword .none⟩
    Chain.ofSequence? "dip" Chain.dip.sequence [.addDword] = .ok .dip ∧
      (frame 1).Reachable o ∧ (frame 2).Reachable o ∧
      (Rule.chain .dip).lower i (frame 1) = .error ⟨i.code, .underflow 2 1⟩ (frame 1) ∧
      ∃ code g t, (Rule.chain .dip).lower i (frame 2) = .ok code g ∧ g.stack.types = [t] := by
  intro o frame i
  obtain ⟨-, -, -, hexact⟩ := chain_shape_exact "dip" Chain.dip.sequence [.addDword]
  obtain ⟨-, -, -, hserves⟩ := hexact .dip rfl
  have hone : (frame 1).Reachable o := ⟨⟨{}⟩, _, rfl⟩
  have htwo : (frame 2).Reachable o := ⟨⟨{}⟩, _, rfl⟩
  have htypes : (frame 1).stack.depth = 1 ∧ (frame 2).stack.types.drop 2 = [] := by decide +kernel
  have hlacks := (hserves o (frame 1) hone i (by decide)).refused (htypes.1 ▸ by decide)
  rw [htypes.1] at hlacks
  refine ⟨rfl, hone, htwo, hlacks, ?_⟩
  have hgoes : (outcome? ((Rule.chain .dip).lower i) (frame 2)).map (fun _ => ()) = some () := by
    decide +kernel
  obtain ⟨code, g, h, -⟩ := exists_outcome hgoes
  obtain ⟨t, ht⟩ := (hserves o (frame 2) htwo i (by decide)).leaves code g h
  have hleft : g.stack.types = [t] := by
    rw [ht]
    exact congrArg (t :: ·) htypes.2
  exact ⟨code, g, t, h, hleft⟩

end Devirt
