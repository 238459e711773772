/-
# Options written and read back

Options are written as a JSON object or as a TOML document, member after member,
and what is written is read back as the options that they were
(`Options.ofDocument_json`, `Options.ofDocument_toml`). Every depth that fits a
machine word may be written; a larger one is refused.

Both readers work character by character and then token by token. So a text is
taken apart as it was put together: a lexer that is between two tokens reads a
piece of text as the tokens that the piece spells, whatever was read before it
(`Reads`). A number is written with the digits that `Nat.toDigits` gives, and read
from them.

Key definitions: `Reads`, `Json.Spelled`, `Json.Spells`, `Json.memberText`,
`Toml.Spelled`, `Toml.lineText`, `Toml.lineTokens`, `Options.toml`.
Key theorems: `Reads.append`, `foldlM_delimited`, `Json.spelled_text`,
`Json.spelled_run`, `Toml.spelled_line`, `Toml.Reader.read_line`,
`Options.ofNamed?_settings`, `Options.ofDocument_json`, `Options.ofDocument_toml`.
-/
import Devirt.Options.Document
import Mathlib.Data.List.TakeWhile

namespace Devirt

/-! ### Digits -/

section Digits

/-- A number other than zero is not written with a zero in front. -/
theorem eq_zero_of_head?_toDigits (n : Nat) (h : (Nat.toDigits 10 n).head? = some '0') : n = 0 := by
  induction n using Nat.strongRecOn with
  | _ n ih =>
    by_cases hlt : n < 10
    · rw [Nat.toDigits_of_lt_base hlt, List.head?_cons, Option.some.injEq] at h
      exact Nat.digitChar_eq_zero.mp h
    · have hfront : (Nat.toDigits 10 (n / 10)).head? = some '0' := by
        rw [Nat.toDigits_of_base_le (by decide) (by omega), List.head?_append] at h
        cases hd : Nat.toDigits 10 (n / 10) with
        | nil => exact absurd hd Nat.toDigits_ne_nil
        | cons c cs =>
          rw [hd] at h
          exact h
      have hzero := ih (n / 10) (by omega) hfront
      omega

theorem isDigit_of_mem_toDigits {n : Nat} {c : Char} (h : c ∈ Nat.toDigits 10 n) : c.isDigit = true :=
  Nat.isDigit_of_mem_toDigits (by decide) (by decide) h

theorem all_isDigit_toDigits (n : Nat) : (Nat.toDigits 10 n).all Char.isDigit = true :=
  List.all_eq_true.mpr fun _ hc => isDigit_of_mem_toDigits hc

theorem toDigits_ne {n : Nat} {w : List Char} (h : w.all Char.isDigit = false) :
    Nat.toDigits 10 n ≠ w := by
  rintro rfl
  rw [all_isDigit_toDigits] at h
  cases h

/-- Characters that a test tells apart are different. -/
theorem ne_of_test {p : Char → Bool} {c d : Char} (hc : p c = true) (hd : p d = false) : c ≠ d := by
  rintro rfl
  rw [hc] at hd
  cases hd

/-- A number is written with a single zero, or with digits that start with
another one. -/
theorem toDigits_cases (n : Nat) :
    (n = 0 ∧ Nat.toDigits 10 n = ['0']) ∨
      ∃ c cs, Nat.toDigits 10 n = c :: cs ∧ c ≠ '0' ∧ ∀ d ∈ c :: cs, d.isDigit = true := by
  cases h : Nat.toDigits 10 n with
  | nil => exact absurd h Nat.toDigits_ne_nil
  | cons c cs =>
    by_cases hc : c = '0'
    · have hn : n = 0 := eq_zero_of_head?_toDigits n (by rw [h, hc]; rfl)
      subst hn
      exact .inl ⟨rfl, h.symm⟩
    · exact .inr ⟨c, cs, rfl, hc, fun d hd => isDigit_of_mem_toDigits (h ▸ hd)⟩

end Digits

/-! ### Lexers -/

section Lexers

variable {L T : Type} {step : L → Char → Option L} {idle : List T → L}

/-- Between two tokens, the characters are read as the tokens, whatever was read
before. -/
def Reads (step : L → Char → Option L) (idle : List T → L) (cs : List Char) (ts : List T) : Prop :=
  ∀ before, cs.foldlM step (idle before) = some (idle (ts.reverse ++ before))

theorem Reads.append {cs ds : List Char} {ts us : List T} (h : Reads step idle cs ts)
    (h' : Reads step idle ds us) : Reads step idle (cs ++ ds) (ts ++ us) := by
  intro before
  have happend : us.reverse ++ (ts.reverse ++ before) = (ts ++ us).reverse ++ before := by simp
  rw [List.foldlM_append, h before, ← happend]
  exact h' _

/-- A lexer that collects characters collects all of them. -/
theorem foldlM_collect {α : Type} {m : List α → L} {e : Char → α} {p : Char → Bool}
    (hstep : ∀ c xs, p c = true → step (m xs) c = some (m (e c :: xs))) :
    ∀ (cs : List Char) (xs : List α), (∀ c ∈ cs, p c = true) →
      cs.foldlM step (m xs) = some (m ((cs.map e).reverse ++ xs))
  | [], _, _ => rfl
  | c :: cs, xs, h => by
    have hrest := foldlM_collect hstep cs (e c :: xs) fun d hd => h d (List.mem_cons_of_mem _ hd)
    rw [List.foldlM_cons, hstep c xs (h c List.mem_cons_self)]
    simpa using hrest

/-- The characters between the one that starts a token and the one that ends it. -/
theorem foldlM_delimited {α : Type} {m : List α → L} {e : Char → α} {p : Char → Bool} {l : L}
    {c d : Char} {cs : List Char} {xs : List α} (hopen : step l c = some (m xs))
    (hin : ∀ c xs, p c = true → step (m xs) c = some (m (e c :: xs))) (h : ∀ c ∈ cs, p c = true) :
    (c :: cs ++ [d]).foldlM step l = step (m ((cs.map e).reverse ++ xs)) d := by
  have hcollect : cs.foldlM step (m xs) = some (m ((cs.map e).reverse ++ xs)) :=
    foldlM_collect hin cs xs h
  simp [List.foldlM_append, hopen, hcollect]

end Lexers

/-! ### JSON -/

namespace Json

/-- The characters are read as these tokens of JSON. -/
abbrev Spelled (cs : List Char) (ts : List Token) : Prop :=
  Reads Lexer.step (fun before => ⟨.between, before⟩) cs ts

/-- A text that is read as tokens has no others. -/
theorem tokens?_of_spelled {s : String} {ts : List Token} (h : Spelled s.toList ts) :
    tokens? s = some ts := by
  have hrun : s.toList.foldlM Lexer.step {} = some ⟨.between, ts.reverse ++ []⟩ := h []
  simp [tokens?, hrun, Lexer.finish]

theorem spelled_punctuation {c : Char} (h : isPunctuation c = true) (hb : isBlank c = false) :
    Spelled [c] [.punctuation c] := by
  intro before
  simp [Lexer.step, Lexer.start, Lexer.emit, h, hb]

/-- The character stands for itself in a string. -/
def isPlain (c : Char) : Bool := c ≠ '"' && c ≠ '\\' && 0x20 ≤ c.toNat

/-- A string of characters that stand for themselves. -/
theorem spelled_text {cs : List Char} (h : ∀ c ∈ cs, isPlain c = true) :
    Spelled ('"' :: cs ++ ['"']) [.text (cs.map .char)] := by
  intro before
  have hopen : Lexer.step ⟨.between, before⟩ '"' = some ⟨.text [], before⟩ := rfl
  have hin : ∀ c parts, isPlain c = true →
      Lexer.step ⟨.text parts, before⟩ c = some ⟨.text (.char c :: parts), before⟩ := by
    intro c parts hc
    simp only [isPlain, Bool.and_eq_true, decide_eq_true_eq] at hc
    obtain ⟨⟨hquote, hescape⟩, hcontrol⟩ := hc
    simp [Lexer.step, hquote, hescape, Nat.not_lt.mpr hcontrol]
  rw [foldlM_delimited (m := fun parts => ⟨.text parts, before⟩) hopen hin h]
  simp [Lexer.step, Lexer.emit]

/-- The character goes on with a number or a word. -/
def isRunChar (c : Char) : Bool := !(isBlank c || isPunctuation c || c = '"')

/-! ### What runs spell -/

theorem isNumber_toDigits (n : Nat) : isNumber (Nat.toDigits 10 n) = true := by
  rcases toDigits_cases n with ⟨-, h⟩ | ⟨c, cs, h, hc, hdigits⟩
  · rw [h]
    rfl
  · have hdigit : c.isDigit = true := hdigits c List.mem_cons_self
    have hminus : c ≠ '-' := ne_of_test hdigit rfl
    have hrest : cs.dropWhile Char.isDigit = [] := by
      rw [List.dropWhile_eq_nil_iff]
      exact fun d hd => hdigits d (List.mem_cons_of_mem _ hd)
    rw [h]
    simp [isNumber, dropInteger?, dropDigits?, hc, hminus, hdigit, hrest, dropFraction?, dropExponent?]

/-- The digits of a number spell it. -/
theorem ofRun?_toDigits (n : Nat) : Token.ofRun? (Nat.toDigits 10 n) = some (.natural n) := by
  have hvalue : naturalValue (Nat.toDigits 10 n) = n := Nat.ofDigitChars_ten_toDigits
  rw [Token.ofRun?, if_neg (toDigits_ne rfl), if_neg (toDigits_ne rfl), if_neg (toDigits_ne rfl),
    if_pos (isNumber_toDigits n), if_pos (all_isDigit_toDigits n), hvalue]

theorem isRunChar_of_isDigit {c : Char} (h : c.isDigit = true) : isRunChar c = true := by
  have hne : ∀ d : Char, d.isDigit = false → c ≠ d := fun _ => ne_of_test h
  simp [isRunChar, isBlank, isPunctuation, hne ' ' rfl, hne '\n' rfl, hne '\t' rfl, hne '\r' rfl,
    hne '\x7b' rfl, hne '\x7d' rfl, hne '[' rfl, hne ']' rfl, hne ':' rfl, hne ',' rfl, hne '"' rfl]

/-- A run of characters spells a token. -/
structure Spells (run : List Char) (t : Token) : Prop where
  nonempty : run ≠ []
  chars : ∀ c ∈ run, isRunChar c = true
  token : Token.ofRun? run = some t

theorem spells_natural (n : Nat) : Spells (Nat.toDigits 10 n) (.natural n) where
  nonempty := Nat.toDigits_ne_nil
  chars _ hc := isRunChar_of_isDigit (isDigit_of_mem_toDigits hc)
  token := ofRun?_toDigits n

theorem spells_boolean (b : Bool) : Spells (toString b).toList (.boolean b) := by
  cases b <;> exact ⟨by decide, List.all_eq_true.mp (by decide), by decide⟩

/-- A number or word ends before a punctuation character. -/
theorem spelled_run {run : List Char} {t : Token} {p : Char} (h : Spells run t)
    (hp : isPunctuation p = true) (hb : isBlank p = false) :
    Spelled (run ++ [p]) [t, .punctuation p] := by
  intro before
  have hin : ∀ c cs, isRunChar c = true →
      Lexer.step ⟨.run cs, before⟩ c = some ⟨.run (c :: cs), before⟩ := by
    intro c cs hc
    simp only [isRunChar, Bool.not_eq_true'] at hc
    simp only [Lexer.step, hc]
    rfl
  obtain ⟨c, cs, rfl⟩ := List.exists_cons_of_ne_nil h.nonempty
  have hc := h.chars c List.mem_cons_self
  simp only [isRunChar, Bool.not_eq_true', Bool.or_eq_false_iff, decide_eq_false_iff_not] at hc
  obtain ⟨⟨hblank, hpunct⟩, hquote⟩ := hc
  have hopen : Lexer.step ⟨.between, before⟩ c = some ⟨.run [c], before⟩ := by
    simp [Lexer.step, Lexer.start, hblank, hpunct, hquote]
  have hrest : ∀ d ∈ cs, isRunChar d = true := fun d hd => h.chars d (List.mem_cons_of_mem _ hd)
  rw [foldlM_delimited (m := fun run => ⟨.run run, before⟩) hopen hin hrest]
  simp [Lexer.step, Lexer.start, Lexer.emit, hp, hb, h.token]

/-- The characters of a member of an object, and the one behind it. -/
def memberText (key run : List Char) (p : Char) : List Char :=
  ('"' :: key ++ ['"', ':']) ++ (run ++ [p])

theorem spelled_member {key run : List Char} {t : Token} {p : Char}
    (hkey : ∀ c ∈ key, isPlain c = true) (h : Spells run t) (hp : isPunctuation p = true)
    (hb : isBlank p = false) :
    Spelled (memberText key run p) [.text (key.map .char), .punctuation ':', t, .punctuation p] := by
  have hcolon : Spelled [':'] [.punctuation ':'] := spelled_punctuation rfl rfl
  have hname : Spelled ('"' :: key ++ ['"', ':']) [.text (key.map .char), .punctuation ':'] := by
    simpa using (spelled_text hkey).append hcolon
  exact hname.append (spelled_run h hp hb)

/-- The text of a key is read as it was written. -/
theorem decodeText?_chars (cs : List Char) : decodeText? (cs.map .char) = some (String.ofList cs) := by
  have hfrom : ∀ ds : List Char, decodeFrom? none (ds.map .char) = some ds := by
    intro ds
    induction ds with
    | nil => rfl
    | cons d ds ih => rw [List.map_cons, decodeFrom?, ih, Option.map_some]
  rw [decodeText?, hfrom, Option.map_some]

end Json

/-! ### TOML -/

namespace Toml

/-- The characters are read as these tokens of TOML. -/
abbrev Spelled (cs : List Char) (ts : List Token) : Prop :=
  Reads Lexer.step (fun before => ⟨.between, before⟩) cs ts

theorem uniformLines?_eq_some : ∀ {cs : List Char}, '\r' ∉ cs → uniformLines? cs = some cs
  | [], _ => rfl
  | c :: cs, h => by
    have hc : c ≠ '\r' := fun hc => h (hc ▸ List.mem_cons_self)
    have hcs : uniformLines? cs = some cs :=
      uniformLines?_eq_some fun hmem => h (List.mem_cons_of_mem _ hmem)
    unfold uniformLines?
    simp [hc, hcs]

/-- A text without carriage returns and byte order mark is read as it stands. -/
theorem tokens?_of_spelled {s : String} {ts : List Token} (h : Spelled s.toList ts)
    (hmark : s.toList.head? ≠ some '\ufeff') (hreturn : '\r' ∉ s.toList) : tokens? s = some ts := by
  have hcontent : content s = s.toList := by
    unfold content
    split
    · rename_i rest heq
      exact absurd (by rw [heq]; rfl) hmark
    · rfl
  have hrun : s.toList.foldlM Lexer.step {} = some ⟨.between, ts.reverse ++ []⟩ := h []
  simp [tokens?, hcontent, uniformLines?_eq_some hreturn, hrun, Lexer.finish]

/-- The characters are those of a word. -/
structure IsWord (w : List Char) : Prop where
  nonempty : w ≠ []
  chars : ∀ c ∈ w, isWordChar c = true

theorem isWord_toDigits (n : Nat) : IsWord (Nat.toDigits 10 n) where
  nonempty := Nat.toDigits_ne_nil
  chars c hc := by
    have hdigit : c.isDigit = true := isDigit_of_mem_toDigits hc
    simp [isWordChar, Char.isAlphanum, hdigit]

theorem isWord_boolean (b : Bool) : IsWord (toString b).toList := by
  cases b <;> exact ⟨by decide, List.all_eq_true.mp (by decide)⟩

/-- A word ends before a character that is a token by itself. -/
theorem spelled_word {w : List Char} {p : Char} {t : Token} (h : IsWord w)
    (hp : isWordChar p = false) (ht : ∀ l : Lexer, l.start p = some (l.emit t)) :
    Spelled (w ++ [p]) [.word w, t] := by
  intro before
  obtain ⟨c, cs, rfl⟩ := List.exists_cons_of_ne_nil h.nonempty
  have hc : isWordChar c = true := h.chars c List.mem_cons_self
  have hother : ∀ d : Char, isWordChar d = false → c ≠ d := fun _ => ne_of_test hc
  have hopen : Lexer.step ⟨.between, before⟩ c = some ⟨.word [c], before⟩ := by
    simp [Lexer.step, Lexer.start, Lexer.enter, isBlank, isPunctuation, hc, hother '\n' rfl,
      hother ' ' rfl, hother '\t' rfl, hother '.' rfl, hother '=' rfl, hother ',' rfl, hother '[' rfl,
      hother ']' rfl, hother '\x7b' rfl, hother '\x7d' rfl, hother '#' rfl, hother '"' rfl,
      hother '\'' rfl]
  have hin : ∀ d ds, isWordChar d = true →
      Lexer.step ⟨.word ds, before⟩ d = some ⟨.word (d :: ds), before⟩ := by
    intro d ds hd
    simp [Lexer.step, Lexer.enter, hd]
  have hrest : ∀ d ∈ cs, isWordChar d = true := fun d hd => h.chars d (List.mem_cons_of_mem _ hd)
  rw [foldlM_delimited (m := fun ds => ⟨.word ds, before⟩) hopen hin hrest]
  simp [Lexer.step, hp, ht, Lexer.emit]

/-! ### Lines of TOML -/

/-- The characters of a line that gives a key its value. -/
def lineText (key run : List Char) : List Char := (key ++ [' ']) ++ ['=', ' '] ++ (run ++ ['\n'])

def lineTokens (key run : List Char) : List Token :=
  [.word key, .blank ' ', .punctuation '=', .blank ' ', .word run, .newline]

theorem spelled_line {key run : List Char} (hkey : IsWord key) (hrun : IsWord run) :
    Spelled (lineText key run) (lineTokens key run) := by
  have hname : Spelled (key ++ [' ']) [.word key, .blank ' '] := spelled_word hkey rfl fun _ => rfl
  have hsign : Spelled ['=', ' '] [.punctuation '=', .blank ' '] := fun _ => rfl
  have hvalue : Spelled (run ++ ['\n']) [.word run, .newline] := spelled_word hrun rfl fun _ => rfl
  exact (hname.append hsign).append hvalue

theorem notMem_lineText {key run : List Char} (hkey : IsWord key) (hrun : IsWord run) :
    '\r' ∉ lineText key run := by
  have hword : ∀ {w : List Char}, IsWord w → '\r' ∉ w := by
    intro w hw hmem
    cases hw.chars _ hmem
  simp [lineText, hword hkey, hword hrun]

/-- A value goes to a fresh key of the top table. -/
theorem Reader.complete_line {root : Table} {k : String} {v : Item} {p : Phase}
    (horigin : root.origin ≠ .dotted) (hfresh : root.find? k = none) :
    complete ⟨p, root, []⟩ [.line ⟨[], k⟩] v = some ⟨.lineEnd, root.set k v, []⟩ := by
  have hadd : Table.add? true k v root = some (root.set k v) := by
    have hallowed : (root.origin != .dotted) = true ∧ (root.find? k).isNone = true := by
      simp [horigin, hfresh]
    have hguard : guard ((root.origin != .dotted) = true ∧ (root.find? k).isNone = true) = some () :=
      if_pos hallowed
    rw [Table.add?, hguard]
    rfl
  show (Table.add? true k v root).bind _ = _
  rw [hadd]
  rfl

/-- A line of the top table sets its key, if it gives it a value. -/
theorem Reader.read_line {root : Table} {key run : List Char} (horigin : root.origin ≠ .dotted)
    (hkey : keyOf? (.word key) = some (String.ofList key))
    (hfresh : root.find? (String.ofList key) = none) :
    (lineTokens key run).foldlM step ⟨.lineStart, root, []⟩ = (Scalar.ofRun? run).map fun v =>
      ⟨.lineStart, root.set (String.ofList key) (.scalar v), []⟩ := by
  have hopen : step ⟨.lineStart, root, []⟩ (.word key) =
      some ⟨.afterKey .line [String.ofList key], root, []⟩ := by
    show (keyOf? (.word key)).bind _ = _
    rw [hkey]
    rfl
  have hvalue : step ⟨.run [.line ⟨[], String.ofList key⟩] run.reverse, root, []⟩ .newline =
      (Scalar.ofRun? run).map fun v =>
        ⟨.lineStart, root.set (String.ofList key) (.scalar v), []⟩ := by
    show ((Scalar.ofRun? run.reverse.reverse).bind _).bind _ = _
    rw [List.reverse_reverse]
    cases Scalar.ofRun? run with
    | none => rfl
    | some v =>
      rw [Option.bind_some, complete_line horigin hfresh]
      rfl
  rw [lineTokens, List.foldlM_cons, hopen, ← hvalue]
  -- between its key and its end a line is read whatever it says
  show (step ⟨.run [.line ⟨[], String.ofList key⟩] run.reverse, root, []⟩ .newline).bind _ = _
  exact Option.bind_fun_some _

/-! ### What words spell -/

theorem digit?_of_isDigit {c : Char} (h : c.isDigit = true) :
    digit? 10 c = some (c.toNat - '0'.toNat) := by
  have hlt : c.toNat - '0'.toNat < 10 := by
    have hbound : c.toNat ≤ '9'.toNat := by
      simp only [Char.isDigit, Bool.and_eq_true, decide_eq_true_eq] at h
      exact h.2
    have hzero : '0'.toNat = 48 := rfl
    have hnine : '9'.toNat = 57 := rfl
    omega
  simp only [digit?, h, if_true]
  rw [if_pos hlt]

theorem digitsFrom?_of_isDigit : ∀ (cs : List Char) (value : Nat) (flag : Bool),
    (∀ c ∈ cs, c.isDigit = true) → (cs = [] → flag = true) →
      digitsFrom? 10 value flag cs = some (Nat.ofDigitChars 10 cs value)
  | [], value, flag, _, hflag => by
    rw [digitsFrom?, hflag rfl, if_pos rfl, Nat.ofDigitChars_nil]
  | c :: cs, value, flag, h, _ => by
    have hc : c.isDigit = true := h c List.mem_cons_self
    have hunder : c ≠ '_' := ne_of_test hc rfl
    have hrest := digitsFrom?_of_isDigit cs (10 * value + (c.toNat - '0'.toNat)) true
      (fun d hd => h d (List.mem_cons_of_mem _ hd)) fun _ => rfl
    rw [digitsFrom?, digit?_of_isDigit hc, Nat.ofDigitChars_cons, ← hrest]
    simp [hunder]

theorem integer?_toDigits (n : Nat) : integer? (Nat.toDigits 10 n) = some (n : Int) := by
  rcases toDigits_cases n with ⟨rfl, h⟩ | ⟨c, cs, h, hc, hdigits⟩
  · rw [h]
    rfl
  · have hdigit : c.isDigit = true := hdigits c List.mem_cons_self
    have hminus : c ≠ '-' := ne_of_test hdigit rfl
    have hplus : c ≠ '+' := ne_of_test hdigit rfl
    have hvalue : digits? 10 (c :: cs) = some n := by
      rw [digits?, digitsFrom?_of_isDigit _ _ _ hdigits (by simp), ← h, Nat.ofDigitChars_ten_toDigits]
    rw [h]
    unfold integer?
    simp [splitSign, decimal?, hc, hminus, hplus, hvalue]

/-- The digits of a number spell it, if it fits. -/
theorem ofRun?_toDigits (n : Nat) : Scalar.ofRun? (Nat.toDigits 10 n) =
    if n < 1 <<< 128 then some (.integer n) else none := by
  have hfits : fitsInteger n = decide (n < 1 <<< 128) := rfl
  rw [Scalar.ofRun?, if_neg (toDigits_ne rfl), if_neg (toDigits_ne rfl), integer?_toDigits]
  simp only [hfits, decide_eq_true_eq]

theorem ofRun?_boolean (b : Bool) : Scalar.ofRun? (toString b).toList = some (.boolean b) := by
  cases b <;> decide

end Toml

/-! ### The members of options -/

namespace Options

/-- What the members of options are set to, by name. -/
def settings (o : Options) : List (String × Setting) :=
  [(Member.maxStackDepth.name, .integer o.maxStackDepth),
    (Member.traceEmission.name, .boolean o.traceEmission),
    (Member.reuseTemporaries.name, .boolean o.reuseTemporaries)]

/-- A depth is a word of 64 bits. -/
theorem ofNamed?_settings (o : Options) :
    ofNamed? o.settings = if o.maxStackDepth < UInt64.size then some o else none := by
  have hdepth : assign? {} .maxStackDepth (.integer o.maxStackDepth) =
      if o.maxStackDepth < UInt64.size then some { maxStackDepth := o.maxStackDepth } else none := by
    simp [assign?]
  show (assign? {} .maxStackDepth (.integer o.maxStackDepth)).bind _ = _
  rw [hdepth]
  by_cases h : o.maxStackDepth < UInt64.size
  · rw [if_pos h, if_pos h]
    rfl
  · rw [if_neg h, if_neg h]
    rfl

theorem isPlain_name (m : Member) : ∀ c ∈ m.name.toList, Json.isPlain c = true := by
  cases m <;> exact List.all_eq_true.mp (by decide)

theorem isWord_name (m : Member) : Toml.IsWord m.name.toList := by
  cases m <;> exact ⟨by decide, List.all_eq_true.mp (by decide)⟩

theorem toList_toString (n : Nat) : (toString n).toList = Nat.toDigits 10 n := by
  rw [Nat.toString_eq_repr, Nat.toList_repr]

/-- The characters of options as a JSON object. -/
theorem toList_json (o : Options) : o.json.toList =
    ['\x7b'] ++ (Json.memberText Member.maxStackDepth.name.toList (Nat.toDigits 10 o.maxStackDepth) ',' ++
      Json.memberText Member.traceEmission.name.toList (toString o.traceEmission).toList ',' ++
      Json.memberText Member.reuseTemporaries.name.toList (toString o.reuseTemporaries).toList '\x7d') := by
  have hdepth : "\x7b\"max_stack_depth\":".toList =
      ['\x7b'] ++ ('"' :: Member.maxStackDepth.name.toList ++ ['"', ':']) := by decide
  have htrace : ",\"trace_emission\":".toList =
      [','] ++ ('"' :: Member.traceEmission.name.toList ++ ['"', ':']) := by decide
  have hreuse : ",\"reuse_temporaries\":".toList =
      [','] ++ ('"' :: Member.reuseTemporaries.name.toList ++ ['"', ':']) := by decide
  have hclose : "\x7d".toList = ['\x7d'] := by decide
  unfold json
  simp only [String.toList_append, toList_toString, hdepth, htrace, hreuse, hclose,
    Json.memberText, List.append_assoc]

theorem tokens?_json (o : Options) : Json.tokens? o.json = some
    [.punctuation '\x7b',
      .text (Member.maxStackDepth.name.toList.map .char), .punctuation ':', .natural o.maxStackDepth,
        .punctuation ',',
      .text (Member.traceEmission.name.toList.map .char), .punctuation ':', .boolean o.traceEmission,
        .punctuation ',',
      .text (Member.reuseTemporaries.name.toList.map .char), .punctuation ':',
        .boolean o.reuseTemporaries, .punctuation '\x7d'] := by
  apply Json.tokens?_of_spelled
  rw [toList_json]
  have hopen : Json.Spelled ['\x7b'] [.punctuation '\x7b'] := Json.spelled_punctuation rfl rfl
  have hdepth : Json.Spelled (Json.memberText _ _ ',') _ :=
    Json.spelled_member (isPlain_name .maxStackDepth)
      (Json.spells_natural o.maxStackDepth) rfl rfl
  have htrace : Json.Spelled (Json.memberText _ _ ',') _ :=
    Json.spelled_member (isPlain_name .traceEmission)
      (Json.spells_boolean o.traceEmission) rfl rfl
  have hreuse : Json.Spelled (Json.memberText _ _ '\x7d') _ :=
    Json.spelled_member (isPlain_name .reuseTemporaries)
      (Json.spells_boolean o.reuseTemporaries) rfl rfl
  exact hopen.append ((hdepth.append htrace).append hreuse)

/-- Options written as JSON are read back, if their depth is a word of 64 bits. -/
theorem ofJson?_json (o : Options) :
    ofJson? o.json = if o.maxStackDepth < UInt64.size then some o else none := by
  have hparse : Json.parse? o.json = some (.object
      [(Member.maxStackDepth.name.toList.map .char, .natural o.maxStackDepth),
        (Member.traceEmission.name.toList.map .char, .boolean o.traceEmission),
        (Member.reuseTemporaries.name.toList.map .char, .boolean o.reuseTemporaries)]) := by
    rw [Json.parse?, tokens?_json]
    rfl
  rw [← ofNamed?_settings, ofJson?, hparse]
  simp [Json.decodeText?_chars, settings, Setting.ofJson]

/-! ### Options as TOML -/

/-- The options as a TOML document, a line for each member. -/
def toml (o : Options) : String :=
  "max_stack_depth = " ++ toString o.maxStackDepth ++ "\ntrace_emission = "
    ++ toString o.traceEmission ++ "\nreuse_temporaries = " ++ toString o.reuseTemporaries ++ "\n"

theorem toList_toml (o : Options) : o.toml.toList =
    Toml.lineText Member.maxStackDepth.name.toList (Nat.toDigits 10 o.maxStackDepth) ++
      (Toml.lineText Member.traceEmission.name.toList (toString o.traceEmission).toList ++
        Toml.lineText Member.reuseTemporaries.name.toList (toString o.reuseTemporaries).toList) := by
  have hdepth : "max_stack_depth = ".toList = Member.maxStackDepth.name.toList ++ [' ', '=', ' '] := by
    decide
  have htrace : "\ntrace_emission = ".toList =
      '\n' :: Member.traceEmission.name.toList ++ [' ', '=', ' '] := by decide
  have hreuse : "\nreuse_temporaries = ".toList =
      '\n' :: Member.reuseTemporaries.name.toList ++ [' ', '=', ' '] := by decide
  have hclose : "\n".toList = ['\n'] := by decide
  unfold toml
  simp only [String.toList_append, toList_toString, hdepth, htrace, hreuse, hclose, Toml.lineText]
  simp only [List.append_assoc, List.cons_append, List.nil_append]

theorem tokens?_toml (o : Options) : Toml.tokens? o.toml = some
    (Toml.lineTokens Member.maxStackDepth.name.toList (Nat.toDigits 10 o.maxStackDepth) ++
      (Toml.lineTokens Member.traceEmission.name.toList (toString o.traceEmission).toList ++
        Toml.lineTokens Member.reuseTemporaries.name.toList (toString o.reuseTemporaries).toList)) := by
  have hdepth : Toml.IsWord Member.maxStackDepth.name.toList := isWord_name _
  have htrace : Toml.IsWord Member.traceEmission.name.toList := isWord_name _
  have hreuse : Toml.IsWord Member.reuseTemporaries.name.toList := isWord_name _
  have hnumber := Toml.isWord_toDigits o.maxStackDepth
  have hflag := Toml.isWord_boolean o.traceEmission
  have hflag' := Toml.isWord_boolean o.reuseTemporaries
  apply Toml.tokens?_of_spelled
  · rw [toList_toml]
    exact (Toml.spelled_line hdepth hnumber).append
      ((Toml.spelled_line htrace hflag).append (Toml.spelled_line hreuse hflag'))
  · have hhead : o.toml.toList.head? = some 'm' := by
      rw [toList_toml]
      rfl
    rw [hhead]
    decide
  · rw [toList_toml, List.mem_append, List.mem_append, not_or, not_or]
    exact ⟨Toml.notMem_lineText hdepth hnumber, Toml.notMem_lineText htrace hflag,
      Toml.notMem_lineText hreuse hflag'⟩

/-- The top table of the options. -/
def table (o : Options) : Toml.Table where
  origin := .header
  items := [(Member.maxStackDepth.name, .scalar (.integer o.maxStackDepth)),
    (Member.traceEmission.name, .scalar (.boolean o.traceEmission)),
    (Member.reuseTemporaries.name, .scalar (.boolean o.reuseTemporaries))]

/-- A line that sets a member sets it in the top table. -/
theorem read_member {root : Toml.Table} {run : List Char} (m : Member) (horigin : root.origin = .header)
    (hfresh : root.find? m.name = none) :
    (Toml.lineTokens m.name.toList run).foldlM Toml.Reader.step ⟨.lineStart, root, []⟩ =
      (Toml.Scalar.ofRun? run).map fun v => ⟨.lineStart, root.set m.name (.scalar v), []⟩ := by
  have hname : String.ofList m.name.toList = m.name := String.ofList_toList
  have hkey : Toml.Reader.keyOf? (.word m.name.toList) = some (String.ofList m.name.toList) := by
    cases m <;> rfl
  have hdotted : root.origin ≠ .dotted := by simp [horigin]
  have hline := @Toml.Reader.read_line root m.name.toList run hdotted hkey (by rw [hname, hfresh])
  rw [hname] at hline
  exact hline

theorem parse?_toml (o : Options) :
    Toml.parse? o.toml = if o.maxStackDepth < 1 <<< 128 then some o.table else none := by
  unfold Toml.parse?
  rw [tokens?_toml]
  show Option.bind (List.foldlM Toml.Reader.step ⟨.lineStart, ⟨.header, []⟩, []⟩ _) _ = _
  rw [List.append_assoc, List.foldlM_append, read_member .maxStackDepth rfl rfl,
    Toml.ofRun?_toDigits]
  by_cases h : o.maxStackDepth < 1 <<< 128
  · rw [if_pos h, if_pos h, Option.map_some]
    show Option.bind (List.foldlM _ _ _) _ = _
    rw [List.append_assoc, List.foldlM_append, read_member .traceEmission rfl rfl,
      Toml.ofRun?_boolean, Option.map_some]
    show Option.bind (List.foldlM _ _ _) _ = _
    rw [List.foldlM_append, read_member .reuseTemporaries rfl rfl, Toml.ofRun?_boolean]
    rfl
  · rw [if_neg h, if_neg h]
    rfl

/-- Options written as TOML are read back, if their depth is a word of 64 bits. -/
theorem ofToml?_toml (o : Options) :
    ofToml? o.toml = if o.maxStackDepth < UInt64.size then some o else none := by
  unfold ofToml?
  rw [parse?_toml, ← ofNamed?_settings]
  by_cases h : o.maxStackDepth < 1 <<< 128
  · rw [if_pos h]
    rfl
  · have hlarge : ¬ o.maxStackDepth < UInt64.size := by
      have hsize : UInt64.size < 1 <<< 128 := by decide
      omega
    rw [if_neg h, ofNamed?_settings, if_neg hlarge]
    rfl

/-! ### Documents -/

/-- Options are read back from the JSON that they are written as, and a depth that
is no word of 64 bits is refused. -/
theorem ofDocument_json (o : Options) : ofDocument .json o.json =
    if o.maxStackDepth < UInt64.size then .ok o else .error ⟨.json⟩ := by
  unfold ofDocument
  rw [ofJson?_json]
  by_cases h : o.maxStackDepth < UInt64.size
  · rw [if_pos h, if_pos h]
  · rw [if_neg h, if_neg h]

theorem ofDocument_toml (o : Options) : ofDocument .toml o.toml =
    if o.maxStackDepth < UInt64.size then .ok o else .error ⟨.toml⟩ := by
  unfold ofDocument
  rw [ofToml?_toml]
  by_cases h : o.maxStackDepth < UInt64.size
  · rw [if_pos h, if_pos h]
  · rw [if_neg h, if_neg h]

end Options
end Devirt
