import Calculator.Proofs.Lexer.Basic

/-!
# Where lexemes and faults are

What tokenizing a text gives, said by places in the text. A place is between the characters before
it and the rest. Runs are longest at both ends, and offsets count the bytes before a place.

1. `Layout`: the text from a place on is blanks and lexemes, in order and without a gap. Its marks
   are listed in `Mark`, and `ofMark?_eq_some_iff` ties the lexer's table to them.
2. `Offends`: something that is no part of any token begins at the place.
3. `tokenize_exact`: a text is tokenized as it is laid out, and is refused for its first offence.
-/

namespace Calculator

/-! ## Places -/

/-- How many bytes the characters are in UTF-8. -/
def bytes (cs : List Char) : Nat := (String.ofList cs).utf8ByteSize

@[simp] theorem bytes_nil : bytes [] = 0 := by decide

theorem bytes_toList (text : String) : bytes text.toList = text.utf8ByteSize := by
  rw [bytes, String.ofList_toList]

@[simp] theorem bytes_append (as bs : List Char) : bytes (as ++ bs) = bytes as + bytes bs := by
  rw [bytes, String.ofList_append, String.utf8ByteSize_append, bytes, bytes]

@[simp] theorem bytes_singleton (c : Char) : bytes [c] = c.utf8Size := by
  rw [bytes, ← String.singleton_eq_ofList, String.utf8ByteSize_singleton]

theorem bytes_cons (c : Char) (cs : List Char) : bytes (c :: cs) = c.utf8Size + bytes cs := by
  rw [← List.singleton_append, bytes_append, bytes_singleton]

theorem bytes_of_ascii {w : List Char} (h : ∀ c ∈ w, c.toNat ≤ 127) : bytes w = w.length := by
  induction w with
  | nil => exact bytes_nil
  | cons c w ih =>
    obtain ⟨first, others⟩ := List.forall_mem_cons.mp h
    have one : c.utf8Size = 1 := Char.utf8Size_eq_one_iff.mpr (UInt32.le_iff_toNat_le.mpr first)
    have split : bytes ([c] ++ w) = c.utf8Size + bytes w := by rw [bytes_append, bytes_singleton]
    rw [← List.singleton_append, split, ih others, one, List.length_append, List.length_singleton]

/-- In its place the run holds characters of the class only, and goes as far as the class does. -/
structure LongestRun (p : Char → Bool) (before w after : List Char) : Prop where
  ne_nil : w ≠ []
  all : ∀ c ∈ w, p c = true
  left : ∀ c ∈ before.getLast?, p c = false
  right : ∀ c ∈ after.head?, p c = false

/-- The eight tokens that are one character each. -/
inductive Mark : Char → Token → Prop where
  | plus : Mark '+' (.operator .plus)
  | minus : Mark '-' (.operator .minus)
  | times : Mark '*' (.operator .times)
  | divide : Mark '/' (.operator .divide)
  | power : Mark '^' (.operator .power)
  | openParen : Mark '(' .openParen
  | closeParen : Mark ')' .closeParen
  | comma : Mark ',' .comma

/-- In their place the characters are written for the token. -/
inductive Written (before : List Char) : (w after : List Char) → Token → Prop where
  | mark {c : Char} {after : List Char} {t : Token} : Mark c t → Written before [c] after t
  | name {w after : List Char} :
    LongestRun Char.isAlpha before w after → Written before w after (.name (String.ofList w))
  | number {w after : List Char} {v : Value} :
    LongestRun Char.isDigit before w after → v.toInt = Nat.ofDigitChars 10 w 0 →
    Written before w after (.number v)

/-- From the place on the text is blanks and these lexemes. -/
inductive Layout : (before rest : List Char) → List Lexeme → Prop where
  | nil {before : List Char} : Layout before [] []
  | blank {before rest : List Char} {c : Char} {ls : List Lexeme} :
    isBlank c = true → Layout (before ++ [c]) rest ls → Layout before (c :: rest) ls
  | lexeme {before w after : List Char} {t : Token} {ls : List Lexeme} :
    Written before w after t → Layout (before ++ w) after ls →
    Layout before (w ++ after) (⟨bytes before, t⟩ :: ls)

/-- At the place a character comes that no token holds, or a run of digits that is out of range. -/
inductive Offends (before : List Char) : (rest : List Char) → Error → Prop where
  | unrecognized {c : Char} {after : List Char} :
    isBlank c = false → c.isDigit = false → c.isAlpha = false → (∀ t, ¬ Mark c t) →
    Offends before (c :: after) (.unrecognized (bytes before))
  | outOfRange {w after : List Char} :
    LongestRun Char.isDigit before w after →
    Value.greatest.toInt < (Nat.ofDigitChars 10 w 0 : Nat) →
    Offends before (w ++ after) (.literalOutOfRange (bytes before))

def FirstOffence (cs : List Char) (err : Error) : Prop :=
  ∃ before rest, cs = before ++ rest ∧ Offends before rest err ∧
    ∀ before' rest' err', cs = before' ++ rest' → Offends before' rest' err' →
      before.length ≤ before'.length

/-! ## Marks -/

/-- A character is read as a token by itself just when it is the token's mark. -/
theorem ofMark?_eq_some_iff {c : Char} {t : Token} : Token.ofMark? c = some t ↔ Mark c t := by
  constructor
  · intro h
    unfold Token.ofMark? at h
    split at h <;> cases h <;> constructor
  · intro mark
    cases mark <;> rfl

theorem ofMark?_eq_none_iff {c : Char} : Token.ofMark? c = none ↔ ∀ t, ¬ Mark c t := by
  simp only [Option.eq_none_iff_forall_ne_some, ne_eq, ofMark?_eq_some_iff]

theorem utf8Size_of_mark {c : Char} {t : Token} (h : Token.ofMark? c = some t) :
    c.utf8Size = 1 := by
  cases ofMark?_eq_some_iff.mp h <;> decide

/-! ## Runs -/

theorem isAlpha_eq_false_of_isDigit {c : Char} (h : c.isDigit = true) : c.isAlpha = false := by
  refine Bool.eq_false_iff.mpr fun letter => ?_
  rw [isDigit_eq_false_of_isAlpha letter] at h
  cases h

/-- No run of letters or digits goes on over the place. -/
def Apart (before rest : List Char) : Prop :=
  ∀ c ∈ before.getLast?, ∀ d ∈ rest.head?,
    (d.isDigit = true → c.isDigit = false) ∧ (d.isAlpha = true → c.isAlpha = false)

theorem Apart.nil (rest : List Char) : Apart [] rest := by
  intro c hc
  cases hc

theorem Apart.of_mem {before w after : List Char} (ne : w ≠ [])
    (h : ∀ c ∈ w, ∀ d ∈ after.head?,
      (d.isDigit = true → c.isDigit = false) ∧ (d.isAlpha = true → c.isAlpha = false)) :
    Apart (before ++ w) after := by
  intro c hc
  rw [List.getLast?_append, List.getLast?_eq_some_getLast ne, Option.some_or] at hc
  cases hc
  exact h _ (List.getLast_mem ne)

theorem Apart.after_single (before after : List Char) {c : Char} (digit : c.isDigit = false)
    (letter : c.isAlpha = false) : Apart (before ++ [c]) after := by
  refine .of_mem (List.cons_ne_nil c []) fun d hd _ _ => ?_
  rw [List.mem_singleton.mp hd]
  exact ⟨fun _ => digit, fun _ => letter⟩

theorem Apart.after_letters {before w after : List Char} (ne : w ≠ [])
    (letters : ∀ c ∈ w, c.isAlpha = true) (stop : ∀ c ∈ after.head?, c.isAlpha = false) :
    Apart (before ++ w) after := by
  refine .of_mem ne fun c hc d hd => ⟨fun _ => ?_, fun letter => ?_⟩
  · exact isDigit_eq_false_of_isAlpha (letters c hc)
  · rw [stop d hd] at letter
    cases letter

theorem Apart.after_digits {before w after : List Char} (ne : w ≠ [])
    (digits : ∀ c ∈ w, c.isDigit = true) (stop : ∀ c ∈ after.head?, c.isDigit = false) :
    Apart (before ++ w) after := by
  refine .of_mem ne fun c hc d hd => ⟨fun digit => ?_, fun _ => ?_⟩
  · rw [stop d hd] at digit
    cases digit
  · exact isAlpha_eq_false_of_isDigit (digits c hc)

/-- A run that ends where its class does is a longest run, unless it goes on over its beginning. -/
theorem LongestRun.of_apart {p : Char → Bool} {before w after : List Char} (ne : w ≠ [])
    (all : ∀ c ∈ w, p c = true) (stop : ∀ c ∈ after.head?, p c = false)
    (apart : ∀ c ∈ before.getLast?, ∀ d ∈ (w ++ after).head?, p d = true → p c = false) :
    LongestRun p before w after := by
  refine ⟨ne, all, fun c hc => ?_, stop⟩
  obtain ⟨d, w, rfl⟩ := List.exists_cons_of_ne_nil ne
  exact apart c hc d rfl (all d List.mem_cons_self)

theorem not_letter_of_blank {c : Char} (h : isBlank c = true) :
    c.isDigit = false ∧ c.isAlpha = false := by
  constructor
  · refine Bool.eq_false_iff.mpr fun digit => ?_
    rw [isBlank_eq_false_of_isDigit digit] at h
    cases h
  · refine Bool.eq_false_iff.mpr fun letter => ?_
    rw [isBlank_eq_false_of_isAlpha letter] at h
    cases h

theorem bytes_of_letters {w : List Char} (h : ∀ c ∈ w, c.isAlpha = true) : bytes w = w.length :=
  bytes_of_ascii fun c hc => by
    have := toNat_of_isAlpha (h c hc)
    omega

theorem bytes_of_digits {w : List Char} (h : ∀ c ∈ w, c.isDigit = true) : bytes w = w.length :=
  bytes_of_ascii fun c hc => by
    have := toNat_of_isDigit (h c hc)
    omega

theorem ofDigits?_eq_some_iff {w : List Char} {v : Value} :
    Decimal.ofDigits? w = some v ↔ v.toInt = (Nat.ofDigitChars 10 w 0 : Nat) := by
  rw [Decimal.ofDigits?, Value.ofNat?_eq_ofInt?, Value.ofInt?_eq_some_iff]

theorem ofDigits?_eq_none_iff {w : List Char} :
    Decimal.ofDigits? w = none ↔ Value.greatest.toInt < (Nat.ofDigitChars 10 w 0 : Nat) := by
  rw [Decimal.ofDigits?, Value.ofNat?_eq_ofInt?, Value.ofInt?_eq_none_iff]
  simp only [Value.greatest]
  omega

/-! ## Lexemes -/

theorem Lexes.layout {offset : Nat} {rest : List Char} {s : Scan} (h : Lexes offset rest s)
    {before : List Char} (at_place : offset = bytes before) (apart : Apart before rest)
    (ok : s.fault = none) : Layout before rest s.lexemes := by
  induction h generalizing before with
  | nil => exact .nil
  | @blank offset c rest s blank _ ih =>
    obtain ⟨digit, letter⟩ := not_letter_of_blank blank
    exact .blank blank (ih (by simp [at_place]) (.after_single before rest digit letter) ok)
  | @mark offset c t rest s mark _ ih =>
    obtain ⟨-, digit, letter⟩ := classes_of_ofMark? mark
    have next := ih (by simp [at_place, utf8Size_of_mark mark])
      (.after_single before rest digit letter) ok
    rw [at_place]
    exact .lexeme (.mark (ofMark?_eq_some_iff.mp mark)) next
  | @name offset w rest s name stop _ ih =>
    obtain ⟨ne, letters⟩ := isName_iff.mp name
    have at_next : offset + w.length = bytes (before ++ w) := by
      rw [at_place, bytes_append, bytes_of_letters letters]
    have next := ih at_next (.after_letters ne letters stop) ok
    rw [at_place]
    exact .lexeme (.name (.of_apart ne letters stop fun c hc d hd => (apart c hc d hd).2)) next
  | @number offset w rest v s ne digits stop value _ ih =>
    have at_next : offset + w.length = bytes (before ++ w) := by
      rw [at_place, bytes_append, bytes_of_digits digits]
    have next := ih at_next (.after_digits ne digits stop) ok
    rw [at_place]
    have longest : LongestRun Char.isDigit before w rest :=
      .of_apart ne digits stop fun c hc d hd => (apart c hc d hd).1
    exact .lexeme (.number longest (ofDigits?_eq_some_iff.mp value)) next
  | outOfRange | unrecognized => cases ok

theorem Layout.lexes {before rest : List Char} {ls : List Lexeme} (h : Layout before rest ls) :
    Lexes (bytes before) rest ⟨ls, none⟩ := by
  induction h with
  | nil => exact .nil
  | blank blank _ ih => exact .blank blank (by simpa using ih)
  | @lexeme before w after t ls written _ ih =>
    rw [bytes_append] at ih
    cases written with
    | mark mark =>
      have mark := ofMark?_eq_some_iff.mpr mark
      rw [bytes_singleton, utf8Size_of_mark mark] at ih
      exact .mark mark ih
    | name run =>
      rw [bytes_of_letters run.all] at ih
      exact .name (isName_iff.mpr ⟨run.ne_nil, run.all⟩) run.right ih
    | number run value =>
      rw [bytes_of_digits run.all] at ih
      exact .number run.ne_nil run.all run.right (ofDigits?_eq_some_iff.mpr value) ih

/-! ## Offences -/

def Clear (before rest : List Char) : Prop :=
  ∀ b r err, before ++ rest = b ++ r → Offends b r err → before.length ≤ b.length

theorem Clear.nil (rest : List Char) : Clear [] rest := fun b _ _ _ _ => Nat.zero_le b.length

/-- The place moves on over characters at none of which there is an offence. -/
theorem Clear.step {before w after : List Char} (clear : Clear before (w ++ after))
    (free : ∀ w₁ c w₂ err, w = w₁ ++ c :: w₂ → ¬ Offends (before ++ w₁) (c :: w₂ ++ after) err) :
    Clear (before ++ w) after := by
  intro b r err split offends
  rw [List.append_assoc] at split
  obtain ⟨u, rfl⟩ : before <+: b :=
    List.prefix_of_prefix_length_le ⟨_, split⟩ ⟨_, rfl⟩ (clear b r err split offends)
  rw [List.append_assoc] at split
  rcases List.append_eq_append_iff.mp (List.append_cancel_left split) with
    ⟨v, rfl, -⟩ | ⟨v, rfl, rfl⟩
  · simp
  · cases v with
    | nil => simp
    | cons c v => exact absurd offends (free u c v err rfl)

/-- An offence begins with no blank, no letter and no mark, and a digit tells its kind. -/
theorem Offends.head {before after : List Char} {c : Char} {err : Error}
    (h : Offends before (c :: after) err) :
    isBlank c = false ∧ c.isAlpha = false ∧ (∀ t, ¬ Mark c t) ∧
      err = if c.isDigit then .literalOutOfRange (bytes before)
        else .unrecognized (bytes before) := by
  generalize shape : c :: after = rest at h
  cases h with
  | unrecognized blank digit letter mark =>
    cases shape
    exact ⟨blank, letter, mark, by simp [digit]⟩
  | @outOfRange w _ run =>
    obtain ⟨d, w, rfl⟩ := List.exists_cons_of_ne_nil run.ne_nil
    cases shape
    have digit := run.all c List.mem_cons_self
    have mark : ∀ t, ¬ Mark c t := fun t mark => by
      rw [(classes_of_ofMark? (ofMark?_eq_some_iff.mpr mark)).2.1] at digit
      cases digit
    refine ⟨isBlank_eq_false_of_isDigit digit, isAlpha_eq_false_of_isDigit digit, mark, ?_⟩
    rw [digit]
    rfl

theorem Offends.ne_nil {before rest : List Char} {err : Error} (h : Offends before rest err) :
    rest ≠ [] := by
  cases h with
  | unrecognized => exact List.cons_ne_nil _ _
  | outOfRange run => simp [run.ne_nil]

theorem Offends.unique {before rest : List Char} {err err' : Error} (h : Offends before rest err)
    (h' : Offends before rest err') : err = err' := by
  obtain ⟨c, after, rfl⟩ := List.exists_cons_of_ne_nil h.ne_nil
  obtain ⟨-, -, -, kind⟩ := h.head
  obtain ⟨-, -, -, kind'⟩ := h'.head
  rw [kind, kind']

theorem Clear.step_of_mem {before w after : List Char} (clear : Clear before (w ++ after))
    (h : ∀ c ∈ w, isBlank c = true ∨ c.isAlpha = true ∨ ∃ t, Mark c t) :
    Clear (before ++ w) after := by
  refine clear.step fun w₁ c w₂ err split offends => ?_
  obtain ⟨blank, letter, mark, -⟩ := offends.head
  rcases h c (by simp [split]) with h | h | ⟨t, h⟩
  · rw [blank] at h
    cases h
  · rw [letter] at h
    cases h
  · exact mark t h

/-- In a run of digits that is in range there is no offence: one of digits would be the same run. -/
theorem Clear.step_of_digits {before w after : List Char} {v : Value}
    (clear : Clear before (w ++ after)) (run : LongestRun Char.isDigit before w after)
    (value : v.toInt = (Nat.ofDigitChars 10 w 0 : Nat)) : Clear (before ++ w) after := by
  refine clear.step fun w₁ c w₂ err split offends => ?_
  have digit : c.isDigit = true := run.all c (by simp [split])
  generalize shape : c :: w₂ ++ after = rest at offends
  cases offends with
  | unrecognized blank not_digit =>
    cases shape
    rw [not_digit] at digit
    cases digit
  | @outOfRange u after' run' large =>
    -- Before the place there is no digit, so it is where the run begins.
    obtain rfl : w₁ = [] := by
      refine Classical.byContradiction fun ne => ?_
      have last : w₁.getLast ne ∈ (before ++ w₁).getLast? := by
        rw [List.getLast?_append, List.getLast?_eq_some_getLast ne]
        rfl
      have not_digit := run'.left _ last
      rw [run.all _ (by simp [split])] at not_digit
      cases not_digit
    have same : w = u := by
      rw [List.nil_append] at split
      rw [← (takeWhile_run run.all run.right).1, split, shape,
        (takeWhile_run run'.all run'.right).1]
    rw [← same, ← value] at large
    exact absurd v.upper (Int.not_le.mpr large)

/-- A text that is lexed to its end has no offence, and the fault of another is its first one. -/
theorem Lexes.firstOffence {offset : Nat} {rest : List Char} {s : Scan} (h : Lexes offset rest s)
    {before : List Char} (at_place : offset = bytes before) (apart : Apart before rest)
    (clear : Clear before rest) :
    (s.fault = none → ∀ b r err, before ++ rest = b ++ r → ¬ Offends b r err) ∧
    ∀ err, s.fault = some err → FirstOffence (before ++ rest) err := by
  induction h generalizing before with
  | nil =>
    refine ⟨fun _ b r err split offends => ?_, nofun⟩
    have length := clear b r err split offends
    have whole := congrArg List.length split
    rw [List.length_append, List.length_append, List.length_nil] at whole
    exact offends.ne_nil (List.eq_nil_of_length_eq_zero (by omega))
  | @blank offset c rest s blank _ ih =>
    obtain ⟨digit, letter⟩ := not_letter_of_blank blank
    rw [List.append_cons]
    exact ih (by simp [at_place]) (.after_single before rest digit letter)
      (Clear.step_of_mem clear (by simp [blank]))
  | @mark offset c t rest s mark _ ih =>
    obtain ⟨-, digit, letter⟩ := classes_of_ofMark? mark
    have no_offence : ∀ d ∈ [c], isBlank d = true ∨ d.isAlpha = true ∨ ∃ t, Mark d t :=
      List.forall_mem_singleton.mpr (.inr (.inr ⟨t, ofMark?_eq_some_iff.mp mark⟩))
    rw [List.append_cons]
    exact ih (by simp [at_place, utf8Size_of_mark mark]) (.after_single before rest digit letter)
      (Clear.step_of_mem clear no_offence)
  | @name offset w rest s name stop _ ih =>
    obtain ⟨ne, letters⟩ := isName_iff.mp name
    have at_next : offset + w.length = bytes (before ++ w) := by
      rw [at_place, bytes_append, bytes_of_letters letters]
    rw [← List.append_assoc]
    exact ih at_next (.after_letters ne letters stop)
      (clear.step_of_mem fun c hc => .inr (.inl (letters c hc)))
  | @number offset w rest v s ne digits stop value _ ih =>
    have at_next : offset + w.length = bytes (before ++ w) := by
      rw [at_place, bytes_append, bytes_of_digits digits]
    have longest : LongestRun Char.isDigit before w rest :=
      .of_apart ne digits stop fun c hc d hd => (apart c hc d hd).1
    rw [← List.append_assoc]
    exact ih at_next (.after_digits ne digits stop)
      (clear.step_of_digits longest (ofDigits?_eq_some_iff.mp value))
  | @outOfRange offset w rest ne digits stop none =>
    refine ⟨nofun, fun err fault => ?_⟩
    have longest : LongestRun Char.isDigit before w rest :=
      .of_apart ne digits stop fun c hc d hd => (apart c hc d hd).1
    cases fault
    rw [at_place]
    exact ⟨before, w ++ rest, rfl, .outOfRange longest (ofDigits?_eq_none_iff.mp none), clear⟩
  | @unrecognized offset c rest blank digit letter none =>
    refine ⟨nofun, fun err fault => ?_⟩
    cases fault
    rw [at_place]
    exact ⟨before, c :: rest, rfl, .unrecognized blank digit letter (ofMark?_eq_none_iff.mp none),
      clear⟩

theorem FirstOffence.unique {cs : List Char} {err err' : Error} (h : FirstOffence cs err)
    (h' : FirstOffence cs err') : err = err' := by
  obtain ⟨before, rest, rfl, offends, first⟩ := h
  obtain ⟨before', rest', split, offends', first'⟩ := h'
  have length := Nat.le_antisymm (first before' rest' err' split offends')
    (first' before rest err rfl offends)
  obtain ⟨rfl, rfl⟩ := List.append_inj split length
  exact offends.unique offends'

/-! ## Texts -/

theorem tokenize_eq_ok_iff_layout {src : String} {lexemes : List Lexeme} :
    tokenize src = .ok lexemes ↔ Layout [] src.toList lexemes := by
  rw [tokenize_eq_ok_iff]
  constructor
  · exact fun lexed => lexed.layout bytes_nil.symm (.nil _) rfl
  · intro laid
    have lexed := laid.lexes
    rwa [bytes_nil] at lexed

theorem fault_of_tokenize {src : String} {err : Error} (h : tokenize src = .error err) :
    (scan 0 src.toList).fault = some err := by
  unfold tokenize Scan.toExcept at h
  split at h
  · cases h
  · next fault =>
    cases h
    exact fault

/-- Tokenizing is exact. A text has these lexemes if it is laid out as them, every run as long as it
can be. A text that is laid out as no lexemes is refused for its first offence. -/
theorem tokenize_exact (src : String) :
    (∀ lexemes, tokenize src = .ok lexemes ↔ Layout [] src.toList lexemes) ∧
    ∀ err, tokenize src = .error err ↔ FirstOffence src.toList err := by
  refine ⟨fun lexemes => tokenize_eq_ok_iff_layout, fun err => ?_⟩
  obtain ⟨free, first⟩ :=
    (lexes_scan 0 src.toList).firstOffence bytes_nil.symm (.nil _) (.nil _)
  refine ⟨fun refused => first err (fault_of_tokenize refused), fun offence => ?_⟩
  cases result : tokenize src with
  | ok lexemes =>
    have lexed := lexes_iff.mp (tokenize_eq_ok_iff.mp result)
    obtain ⟨before, rest, split, offends, -⟩ := offence
    exact absurd offends (free (by rw [lexed]) before rest err split)
  | error err' => rw [(first err' (fault_of_tokenize result)).unique offence]

/-- Offsets are in bytes, and zeros in front do not count. -/
example : tokenize "\u3000007ab" =
    .ok [⟨3, .number ⟨7, by decide, by decide⟩⟩, ⟨6, .name "ab"⟩] := by cbv

end Calculator
