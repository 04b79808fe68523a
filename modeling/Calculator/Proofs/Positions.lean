import Calculator.Proofs.Parser.Failing

/-!
# Reported positions

The position of an error is a place to cut the source at. It is between two characters, and the
text in front of it has the tokens that the source has there, so a message can show that text, and
what was read of it, without looking at the rest. The end of the source is reported where the input
ends too early and where the nesting is too deep, and in no other case.

1. `Sliceable`: places that a source can be cut at.
2. `error_positions_sliceable`: where errors are reported.
-/

namespace Calculator

/-- The source can be cut at the place: it is between two characters, and the text before it is
tokenized as what the scan of the source finds before it. -/
structure Sliceable (src : String) (p : Nat) : Prop where
  le : p ≤ src.utf8ByteSize
  boundary : String.Pos.Raw.IsValid src ⟨p⟩
  front : ∃ before after : String, src = before ++ after ∧ before.utf8ByteSize = p ∧
    tokenize before = .ok ((scan 0 src.toList).lexemes.filter fun l => l.offset < p)

section

variable {src : String} {before rest : List Char} {ls ms : List Lexeme} {p : Nat}

theorem sliceable_of_lexes (split : src.toList = before ++ rest)
    (lexemes : (scan 0 src.toList).lexemes = ls ++ ms) (lexed : Lexes 0 before ⟨ls, none⟩)
    (place : bytes before = p) (later : ∀ l ∈ ms, p ≤ l.offset) : Sliceable src p := by
  have parts : src = String.ofList before ++ String.ofList rest := by
    rw [← String.ofList_append, ← split, String.ofList_toList]
  have boundary : String.Pos.Raw.IsValid src ⟨p⟩ :=
    String.Pos.Raw.isValid_iff_exists_append.mpr ⟨_, _, parts, by rw [← place]; rfl⟩
  refine ⟨boundary.le_utf8ByteSize, boundary, _, _, parts, place, ?_⟩
  have early : ls.filter (fun l => l.offset < p) = ls := by
    refine List.filter_eq_self.mpr fun l hl => decide_eq_true ?_
    simpa [place] using (lexed.offsets.2 l hl).2
  have late : ms.filter (fun l => l.offset < p) = [] := by
    refine List.filter_eq_nil_iff.mpr fun l hl => ?_
    simpa using later l hl
  rw [lexemes, List.filter_append, early, late, List.append_nil, tokenize_eq_ok_iff,
    String.toList_ofList]
  exact lexed

/-- The next lexeme or the fault is a place where a source can be cut, in front of its end. -/
theorem sliceable_next (lexemes : (scan 0 src.toList).lexemes = ls ++ ms)
    (more : ms ≠ [] ∨ (scan 0 src.toList).fault ≠ none)
    (place : nextPlace ms (scan 0 src.toList).fault = some p) (later : ∀ l ∈ ms, p ≤ l.offset) :
    Sliceable src p ∧ p < src.utf8ByteSize := by
  obtain ⟨before, rest, split, ne, here, lexed⟩ := (lexes_scan 0 src.toList).upTo lexemes more
  rw [place, Nat.zero_add] at here
  cases here
  refine ⟨sliceable_of_lexes split lexemes lexed rfl later, ?_⟩
  have size : src.utf8ByteSize = bytes before + bytes rest := by
    rw [← bytes_append, ← split, bytes_toList]
  obtain ⟨c, rest, rfl⟩ := List.exists_cons_of_ne_nil ne
  have := c.utf8Size_pos
  rw [size, bytes_cons]
  omega

theorem sliceable_end {lexemes : List Lexeme} (tokens : tokenize src = .ok lexemes) :
    Sliceable src src.utf8ByteSize := by
  have lexed := tokenize_eq_ok_iff.mp tokens
  have all : (scan 0 src.toList).lexemes = lexemes ++ [] := by
    rw [lexes_iff.mp lexed, List.append_nil]
  exact sliceable_of_lexes (List.append_nil _).symm all lexed (bytes_toList src) (by simp)

end

/-! ## Faults of the text -/

theorem sliceable_of_tokenize_error {src : String} {err : Error} (h : tokenize src = .error err) :
    ∃ p, err.position? = some p ∧ Sliceable src p ∧ p < src.utf8ByteSize := by
  have fault := fault_of_tokenize h
  obtain ⟨before, -, -, place, -⟩ := (lexes_scan 0 src.toList).before_fault fault
  refine ⟨_, place, sliceable_next (List.append_nil _).symm (.inr ?_) ?_ (by simp)⟩
  · simp [fault]
  · rw [fault]
    exact place

/-! ## Failures of the parser -/

/-- The place of a failure is the end of the source exactly if no lexeme is left. -/
theorem Parser.FailsIn.sliceable {src : String} {lexemes before : List Lexeme} {s : State}
    {failure : Failure} (fails : FailsIn src lexemes before s failure)
    (tokens : tokenize src = .ok lexemes) :
    Sliceable src s.position ∧ (s.position = src.utf8ByteSize ↔ s.rest = []) := by
  have scanned := lexes_iff.mp (tokenize_eq_ok_iff.mp tokens)
  obtain ⟨-, later⟩ := fails.position_between tokens
  by_cases last : s.rest = []
  · have at_end : s.position = src.utf8ByteSize := by
      rw [State.position, last, fails.stop]
    exact ⟨at_end ▸ sliceable_end tokens, by simp [at_end, last]⟩
  · have here : nextPlace s.rest none = some s.position := by
      obtain ⟨l, rest, shape⟩ := List.exists_cons_of_ne_nil last
      rw [State.position, shape]
      rfl
    have all : (scan 0 src.toList).lexemes = before ++ s.rest := by
      rw [scanned]
      exact fails.passed
    have no_fault : (scan 0 src.toList).fault = none := by rw [scanned]
    rw [← no_fault] at here
    obtain ⟨sliceable, earlier⟩ := sliceable_next all (.inl last) here later
    exact ⟨sliceable, by simp [last, Nat.ne_of_lt earlier]⟩

/-- An error of the text has a position, where the source can be cut. It is the end of the source
where the end of the input is unexpected, and besides only where the nesting is too deep. -/
theorem error_positions_sliceable {src : String} {err : Error}
    (h : tokenize src = .error err ∨ parse src = .error err) :
    ∃ p, err.position? = some p ∧ Sliceable src p ∧
      (p = src.utf8ByteSize →
        (∃ expected, err = .unexpected p "end of input" expected) ∨ err = .nestingTooDeep p) ∧
      ∀ q expected, err = .unexpected q "end of input" expected → q = src.utf8ByteSize := by
  have refused : parse src = .error err := h.elim parse_of_tokenize_error id
  cases tokens : tokenize src with
  | error err' =>
    rw [parse_of_tokenize_error tokens] at refused
    cases refused
    obtain ⟨p, place, sliceable, earlier⟩ := sliceable_of_tokenize_error tokens
    refine ⟨p, place, sliceable, fun last => absurd last (Nat.ne_of_lt earlier), ?_⟩
    rintro q expected rfl
    rcases (lexes_scan 0 src.toList).fault_eq (fault_of_tokenize tokens) with ⟨_, eq⟩ | ⟨_, eq⟩
    all_goals cases eq
  | ok lexemes =>
    rw [parse_of_tokenize tokens] at refused
    obtain ⟨before, s, failure, fails, rfl, -⟩ := parseLexemes_fails refused
    obtain ⟨sliceable, last⟩ := fails.sliceable tokens
    have place := fails.position? src.utf8ByteSize
    refine ⟨s.position, place, sliceable, fun at_end => fails.toError_at_end (last.mp at_end) _, ?_⟩
    intro q expected eq
    have no_more := fails.rest_eq_nil_of_unexpected eq
    rw [eq] at place
    cases place
    exact last.mpr no_more

/-- A fault and an end, after blanks of more than one byte. -/
theorem error_positions_sliceable_blanks :
    tokenize "A\u2003#" = .error (.unrecognized 4) ∧ Sliceable "A\u2003#" 4 ∧
    parse "1+\u00A0" = .error
      (.unexpected 4 "end of input" ["integer", "identifier", "`(`", "`-`"]) ∧
    Sliceable "1+\u00A0" 4 ∧ "1+\u00A0".utf8ByteSize = 4 := by
  have fault : tokenize "A\u2003#" = .error (.unrecognized 4) := by decide +kernel
  have failed : parse "1+\u00A0" = .error
      (.unexpected 4 "end of input" ["integer", "identifier", "`(`", "`-`"]) := by decide +kernel
  obtain ⟨p, place, sliceable, -⟩ := error_positions_sliceable (.inl fault)
  cases place
  obtain ⟨p, place, sliceable', -, at_end⟩ := error_positions_sliceable (.inr failed)
  cases place
  exact ⟨fault, sliceable, failed, sliceable', (at_end _ _ rfl).symm⟩

end Calculator
