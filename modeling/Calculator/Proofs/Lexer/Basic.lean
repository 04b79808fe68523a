import Calculator.Proofs.Nesting
import Calculator.Proofs.Text.Trim
import Calculator.Token.Lexer

/-!
# What a scan is

A scan reads a text as blanks, marks and longest runs, up to the end or the first fault. `Lexes`
says so without saying how, and facts about the tokens of a text are proved by induction on it:
whatever the text, its numbers have no sign, its names are names, and its parentheses are those of
its tokens.

1. `lexes_iff`: the scan of a text is what it is lexed as.
2. `plain_of_tokenize`: the tokens of a text are plain.
3. `nestingOfChars_of_tokenize`: the parentheses of a text nest as those of its tokens.
-/

namespace Calculator

/-- The characters, with `offset` bytes of source before them, are lexed as the scan says. A run is
followed by no character of its class. -/
inductive Lexes : (offset : Nat) → (cs : List Char) → (s : Scan) → Prop where
  | nil {offset : Nat} : Lexes offset [] ⟨[], none⟩
  | blank {offset : Nat} {c : Char} {rest : List Char} {s : Scan} :
    isBlank c = true → Lexes (offset + c.utf8Size) rest s → Lexes offset (c :: rest) s
  | mark {offset : Nat} {c : Char} {t : Token} {rest : List Char} {s : Scan} :
    Token.ofMark? c = some t → Lexes (offset + 1) rest s →
    Lexes offset (c :: rest) (s.cons ⟨offset, t⟩)
  | name {offset : Nat} {w rest : List Char} {s : Scan} :
    isName w = true → (∀ c ∈ rest.head?, c.isAlpha = false) → Lexes (offset + w.length) rest s →
    Lexes offset (w ++ rest) (s.cons ⟨offset, .name (String.ofList w)⟩)
  | number {offset : Nat} {w rest : List Char} {v : Value} {s : Scan} :
    w ≠ [] → (∀ c ∈ w, c.isDigit = true) → (∀ c ∈ rest.head?, c.isDigit = false) →
    Decimal.ofDigits? w = some v → Lexes (offset + w.length) rest s →
    Lexes offset (w ++ rest) (s.cons ⟨offset, .number v⟩)
  | outOfRange {offset : Nat} {w rest : List Char} :
    w ≠ [] → (∀ c ∈ w, c.isDigit = true) → (∀ c ∈ rest.head?, c.isDigit = false) →
    Decimal.ofDigits? w = none → Lexes offset (w ++ rest) ⟨[], some (.literalOutOfRange offset)⟩
  | unrecognized {offset : Nat} {c : Char} {rest : List Char} :
    isBlank c = false → c.isDigit = false → c.isAlpha = false → Token.ofMark? c = none →
    Lexes offset (c :: rest) ⟨[], some (.unrecognized offset)⟩

theorem isName_iff {w : List Char} : isName w = true ↔ w ≠ [] ∧ ∀ c ∈ w, c.isAlpha = true := by
  cases w <;> simp [isName]

theorem longest_run {p : Char → Bool} {c : Char} (rest : List Char) (hc : p c = true) :
    c :: rest = (c :: rest.takeWhile p) ++ rest.dropWhile p ∧
      (∀ d ∈ c :: rest.takeWhile p, p d = true) ∧ ∀ d ∈ (rest.dropWhile p).head?, p d = false := by
  obtain ⟨whole, all, stop⟩ := takeWhile_spec p rest
  exact ⟨congrArg (c :: ·) whole, List.forall_mem_cons.mpr ⟨hc, all⟩, stop⟩

theorem scan_outOfRange {offset : Nat} {w rest : List Char} (ne : w ≠ [])
    (digits : ∀ c ∈ w, c.isDigit = true) (stop : ∀ c ∈ rest.head?, c.isDigit = false)
    (none : Decimal.ofDigits? w = none) :
    scan offset (w ++ rest) = ⟨[], some (.literalOutOfRange offset)⟩ := by
  obtain ⟨c, w, rfl⟩ := List.exists_cons_of_ne_nil ne
  obtain ⟨digit, digits⟩ := List.forall_mem_cons.mp digits
  obtain ⟨taken, -⟩ := takeWhile_run digits stop
  rw [List.cons_append, scan]
  simp [isBlank_eq_false_of_isDigit digit, digit, taken, none]

theorem lexes_scan (offset : Nat) (cs : List Char) : Lexes offset cs (scan offset cs) := by
  -- The cases are those of the definition of `scan`; a run is taken from the front as the longest.
  induction offset, cs using scan.induct with
  | case1 offset =>
    rw [scan_nil]
    exact .nil
  | case2 offset c rest blank ih =>
    rw [scan_blank blank]
    exact .blank blank ih
  | case3 offset c rest blank digit digits v value ih =>
    obtain ⟨whole, all, stop⟩ := longest_run rest digit
    rw [whole, scan_number (by simp) all stop value]
    exact .number (by simp) all stop value ih
  | case4 offset c rest blank digit digits none =>
    obtain ⟨whole, all, stop⟩ := longest_run rest digit
    rw [whole, scan_outOfRange (by simp) all stop none]
    exact .outOfRange (by simp) all stop none
  | case5 offset c rest blank digit letter letters ih =>
    obtain ⟨whole, all, stop⟩ := longest_run rest letter
    rw [whole, scan_name (by simp) all stop]
    exact .name (isName_iff.mpr ⟨by simp, all⟩) stop ih
  | case6 offset c rest blank digit letter t mark ih =>
    rw [scan_mark mark]
    exact .mark mark ih
  | case7 offset c rest blank digit letter none =>
    rw [scan, if_neg blank, if_neg digit, if_neg letter, none]
    exact .unrecognized (Bool.eq_false_iff.mpr blank) (Bool.eq_false_iff.mpr digit)
      (Bool.eq_false_iff.mpr letter) none

/-- A text is lexed in one way, which is the scan. -/
theorem lexes_iff {offset : Nat} {cs : List Char} {s : Scan} :
    Lexes offset cs s ↔ scan offset cs = s := by
  constructor
  · intro h
    induction h with
    | nil => exact scan_nil _
    | blank blank _ ih => rw [scan_blank blank, ih]
    | mark mark _ ih => rw [scan_mark mark, ih]
    | name name stop _ ih =>
      obtain ⟨ne, letters⟩ := isName_iff.mp name
      rw [scan_name ne letters stop, ih]
    | number ne digits stop value _ ih => rw [scan_number ne digits stop value, ih]
    | outOfRange ne digits stop none => exact scan_outOfRange ne digits stop none
    | unrecognized blank digit letter none =>
      rw [scan]
      simp [blank, digit, letter, none]
  · intro h
    rw [← h]
    exact lexes_scan offset cs

theorem tokenize_eq_ok_iff {src : String} {lexemes : List Lexeme} :
    tokenize src = .ok lexemes ↔ Lexes 0 src.toList ⟨lexemes, none⟩ := by
  rw [lexes_iff, tokenize]
  obtain ⟨read, fault⟩ := scan 0 src.toList
  cases fault <;> simp [Scan.toExcept]

/-- A scan ends at a character or a run that is no token, if not at the end. -/
theorem Lexes.fault_eq {offset : Nat} {cs : List Char} {s : Scan} (h : Lexes offset cs s)
    {err : Error} (fault : s.fault = some err) :
    (∃ p, err = .unrecognized p) ∨ ∃ p, err = .literalOutOfRange p := by
  induction h with
  | nil => cases fault
  | blank _ _ ih | mark _ _ ih | name _ _ _ ih | number _ _ _ _ _ ih => exact ih fault
  | outOfRange =>
    cases fault
    exact .inr ⟨_, rfl⟩
  | unrecognized =>
    cases fault
    exact .inl ⟨_, rfl⟩

/-! ## Numbers and names -/

/-- A token that a text can hold: a name is a name, and a number has no sign. -/
def Token.Plain : Token → Prop
  | number v => 0 ≤ v.toInt
  | name x => isName x.toList = true
  | _ => True

theorem plain_of_ofMark? {c : Char} {t : Token} (h : Token.ofMark? c = some t) : t.Plain := by
  unfold Token.ofMark? at h
  split at h <;> cases h <;> exact trivial

theorem nonneg_of_ofDigits? {w : List Char} {v : Value} (h : Decimal.ofDigits? w = some v) :
    0 ≤ v.toInt := by
  rw [Decimal.ofDigits?, Value.ofNat?_eq_ofInt?, Value.ofInt?_eq_some_iff] at h
  omega

theorem Lexes.plain {offset : Nat} {cs : List Char} {s : Scan} (h : Lexes offset cs s) :
    ∀ l ∈ s.lexemes, l.token.Plain := by
  induction h with
  | nil | outOfRange | unrecognized => simp
  | blank _ _ ih => exact ih
  | mark mark _ ih => exact List.forall_mem_cons.mpr ⟨plain_of_ofMark? mark, ih⟩
  | @name offset w rest s name _ _ ih =>
    refine List.forall_mem_cons.mpr ⟨?_, ih⟩
    show isName (String.ofList w).toList = true
    rwa [String.toList_ofList]
  | number _ _ _ value _ ih => exact List.forall_mem_cons.mpr ⟨nonneg_of_ofDigits? value, ih⟩

theorem plain_of_tokenize {src : String} {lexemes : List Lexeme}
    (h : tokenize src = .ok lexemes) : ∀ t ∈ lexemes.map Lexeme.token, t.Plain := by
  intro t ht
  obtain ⟨l, hl, rfl⟩ := List.mem_map.mp ht
  exact (tokenize_eq_ok_iff.mp h).plain l hl

/-! ## Parentheses -/

theorem riseOfChar_mark {c : Char} {t : Token} (h : Token.ofMark? c = some t) :
    riseOfChar c = t.rise := by
  unfold Token.ofMark? at h
  split at h <;> cases h <;> rfl

theorem nestingOfChars_append_flat {p : Char → Bool} {w : List Char} (rest : List Char)
    (opens : p '(' = false) (closes : p ')' = false) (all : ∀ c ∈ w, p c = true) :
    nestingOfChars (w ++ rest) = nestingOfChars rest := by
  induction w with
  | nil => rfl
  | cons c w ih =>
    obtain ⟨first, others⟩ := List.forall_mem_cons.mp all
    have flat : riseOfChar c = 0 := by
      have : c ≠ '(' := by intro eq; simp [eq, opens] at first
      have : c ≠ ')' := by intro eq; simp [eq, closes] at first
      simp [riseOfChar, *]
    have nonneg : 0 ≤ nestingOfChars (w ++ rest) := peak_nonneg _
    calc nestingOfChars (c :: w ++ rest)
        = max 0 (riseOfChar c + nestingOfChars (w ++ rest)) := rfl
      _ = nestingOfChars (w ++ rest) := by rw [flat]; omega
      _ = nestingOfChars rest := ih others

theorem Lexes.nestingOfChars_eq {offset : Nat} {cs : List Char} {s : Scan}
    (h : Lexes offset cs s) (ok : s.fault = none) :
    nestingOfChars cs = nesting (s.lexemes.map Lexeme.token) := by
  induction h with
  | nil => rfl
  | @blank offset c rest s blank _ ih =>
    rw [← ih ok]
    exact nestingOfChars_append_flat (p := isBlank) (w := [c]) rest (by decide) (by decide)
      (by simpa using blank)
  | @mark offset c t rest s mark _ ih =>
    show max 0 (riseOfChar c + nestingOfChars rest) = nesting (t :: s.lexemes.map Lexeme.token)
    rw [ih ok, riseOfChar_mark mark, nesting_cons]
  | @name offset w rest s name _ _ ih =>
    have letters := (isName_iff.mp name).2
    rw [nestingOfChars_append_flat rest (by decide) (by decide) letters, ih ok]
    have := nesting_nonneg (s.lexemes.map Lexeme.token)
    simp only [Scan.cons, List.map_cons, nesting_cons, Token.rise]
    omega
  | @number offset w rest v s _ digits _ _ _ ih =>
    rw [nestingOfChars_append_flat rest (by decide) (by decide) digits, ih ok]
    have := nesting_nonneg (s.lexemes.map Lexeme.token)
    simp only [Scan.cons, List.map_cons, nesting_cons, Token.rise]
    omega
  | outOfRange | unrecognized => cases ok

theorem nestingOfChars_of_tokenize {src : String} {lexemes : List Lexeme}
    (h : tokenize src = .ok lexemes) :
    nestingOfChars src.toList = nesting (lexemes.map Lexeme.token) :=
  (tokenize_eq_ok_iff.mp h).nestingOfChars_eq rfl

end Calculator
