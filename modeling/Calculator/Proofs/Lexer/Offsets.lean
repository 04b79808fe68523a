import Calculator.Proofs.Lexer.Layout

/-!
# Before a place

What is in front of a place in a text. The offsets of lexemes rise, and the lexemes before a lexeme
or a fault are those of the text in front of it.

1. `Lexes.offsets`: lexemes are in order, and in the text.
2. `Lexes.upTo`: a text up to a lexeme or its fault is lexed to its end, as the lexemes before.
3. `Lexes.before_fault`: a text up to its fault is lexed as all of its lexemes.
-/

namespace Calculator

/-- Where the error is in the source, if it is one of the text. -/
def Error.position? : Error → Option Nat
  | unrecognized p | literalOutOfRange p | unexpected p .. | nestingTooDeep p
  | unknownFunction _ p => some p
  | undefinedVariable _ | divisionByZero | emptyArguments | overflow => none

theorem Error.isSome_position? (err : Error) : err.position?.isSome = err.isSyntax := by
  cases err <;> rfl

theorem offsets_cons {offset size more : Nat} {t : Token} {ls : List Lexeme} (pos : 0 < size)
    (h : (ls.map Lexeme.offset).Pairwise (· < ·) ∧
      ∀ l ∈ ls, offset + size ≤ l.offset ∧ l.offset < offset + size + more) :
    ((Lexeme.mk offset t :: ls).map Lexeme.offset).Pairwise (· < ·) ∧
      ∀ l ∈ Lexeme.mk offset t :: ls, offset ≤ l.offset ∧ l.offset < offset + (size + more) := by
  obtain ⟨rising, inside⟩ := h
  refine ⟨?_, List.forall_mem_cons.mpr ⟨⟨Nat.le_refl _, ?_⟩, fun l hl => ?_⟩⟩
  · refine List.pairwise_cons.mpr ⟨fun p hp => ?_, rising⟩
    obtain ⟨l, hl, rfl⟩ := List.mem_map.mp hp
    have := (inside l hl).1
    show offset < l.offset
    omega
  · show offset < offset + (size + more)
    omega
  · have := inside l hl
    omega

theorem Lexes.offsets {offset : Nat} {cs : List Char} {s : Scan} (h : Lexes offset cs s) :
    (s.lexemes.map Lexeme.offset).Pairwise (· < ·) ∧
      ∀ l ∈ s.lexemes, offset ≤ l.offset ∧ l.offset < offset + bytes cs := by
  induction h with
  | nil | outOfRange | unrecognized => simp
  | @blank offset c rest s _ _ ih =>
    refine ⟨ih.1, fun l hl => ?_⟩
    have := ih.2 l hl
    rw [bytes_cons]
    omega
  | @mark offset c t rest s mark _ ih =>
    rw [bytes_cons, utf8Size_of_mark mark]
    exact offsets_cons Nat.one_pos ih
  | @name offset w rest s name _ _ ih =>
    obtain ⟨ne, letters⟩ := isName_iff.mp name
    rw [bytes_append, bytes_of_letters letters]
    exact offsets_cons (List.length_pos_iff.mpr ne) ih
  | @number offset w rest v s ne digits _ _ _ ih =>
    rw [bytes_append, bytes_of_digits digits]
    exact offsets_cons (List.length_pos_iff.mpr ne) ih

theorem offsets_of_tokenize {src : String} {lexemes : List Lexeme}
    (tokens : tokenize src = .ok lexemes) : (lexemes.map Lexeme.offset).Pairwise (· < ·) ∧
      ∀ l ∈ lexemes, l.offset < src.utf8ByteSize := by
  obtain ⟨rising, inside⟩ := (tokenize_eq_ok_iff.mp tokens).offsets
  refine ⟨rising, fun l hl => ?_⟩
  simpa [bytes_toList] using (inside l hl).2

theorem ends_of_append {p : Char → Bool} {before rest : List Char}
    (stop : ∀ c ∈ (before ++ rest).head?, p c = false) : ∀ c ∈ before.head?, p c = false := by
  cases before with
  | nil => simp
  | cons => exact stop

/-- Where a scan goes on after some of its lexemes: at the next one, or at the fault. -/
def nextPlace (ms : List Lexeme) (fault : Option Error) : Option Nat :=
  (ms.head?.map Lexeme.offset).or (fault.bind Error.position?)

/-- Up to the place, which is in the text, the characters are lexed to their end as the lexemes. -/
def LexesUpTo (offset : Nat) (cs : List Char) (ls : List Lexeme) (place : Option Nat) : Prop :=
  ∃ before rest, cs = before ++ rest ∧ rest ≠ [] ∧ place = some (offset + bytes before) ∧
    Lexes offset before ⟨ls, none⟩

theorem LexesUpTo.here {offset : Nat} {cs : List Char} (ne : cs ≠ []) :
    LexesUpTo offset cs [] (some offset) := ⟨[], cs, rfl, ne, by simp, .nil⟩

/-- With `n` bytes in front that are lexed as more lexemes, whatever the text goes on with. -/
theorem LexesUpTo.append {offset n : Nat} {w cs : List Char} {ls ls' : List Lexeme}
    {place : Option Nat} (size : bytes w = n) (h : LexesUpTo (offset + n) cs ls place)
    (front : ∀ before rest, cs = before ++ rest → Lexes (offset + n) before ⟨ls, none⟩ →
      Lexes offset (w ++ before) ⟨ls', none⟩) : LexesUpTo offset (w ++ cs) ls' place := by
  obtain ⟨before, rest, split, ne, at_place, lexed⟩ := h
  refine ⟨w ++ before, rest, ?_, ne, ?_, front before rest split lexed⟩
  · rw [split, List.append_assoc]
  · rw [at_place, bytes_append, size, Nat.add_assoc]

/-- Up to any of its lexemes, or to its fault, a text is lexed to its end, as the lexemes before. -/
theorem Lexes.upTo {offset : Nat} {cs : List Char} {s : Scan} (h : Lexes offset cs s)
    {ls ms : List Lexeme} (split : s.lexemes = ls ++ ms) (more : ms ≠ [] ∨ s.fault ≠ none) :
    LexesUpTo offset cs ls (nextPlace ms s.fault) := by
  induction h generalizing ls with
  | nil =>
    obtain ⟨rfl, rfl⟩ := List.nil_eq_append_iff.mp split
    simp at more
  | @blank offset c rest s blank _ ih =>
    exact (ih split more).append (bytes_singleton c) fun _ _ _ lexed => .blank blank lexed
  -- The place is that of the lexeme in front, or one after it.
  | @mark offset c t rest s mark _ ih =>
    rcases List.cons_eq_append_iff.mp split with ⟨rfl, rfl⟩ | ⟨ls, rfl, others⟩
    · exact .here (by simp)
    · have size : bytes [c] = 1 := (bytes_singleton c).trans (utf8Size_of_mark mark)
      exact (ih others more).append size fun _ _ _ lexed => .mark mark lexed
  | @name offset w rest s name stop _ ih =>
    obtain ⟨ne, letters⟩ := isName_iff.mp name
    rcases List.cons_eq_append_iff.mp split with ⟨rfl, rfl⟩ | ⟨ls, rfl, others⟩
    · exact .here (by simp [ne])
    · exact (ih others more).append (bytes_of_letters letters) fun _ _ whole lexed =>
        .name name (ends_of_append (whole ▸ stop)) lexed
  | @number offset w rest v s ne digits stop value _ ih =>
    rcases List.cons_eq_append_iff.mp split with ⟨rfl, rfl⟩ | ⟨ls, rfl, others⟩
    · exact .here (by simp [ne])
    · exact (ih others more).append (bytes_of_digits digits) fun _ _ whole lexed =>
        .number ne digits (ends_of_append (whole ▸ stop)) value lexed
  | @outOfRange offset w rest ne =>
    obtain ⟨rfl, rfl⟩ := List.nil_eq_append_iff.mp split
    exact .here (by simp [ne])
  | unrecognized =>
    obtain ⟨rfl, rfl⟩ := List.nil_eq_append_iff.mp split
    exact .here (by simp)

/-- Up to its fault a text is lexed to its end, as the lexemes before the fault. -/
theorem Lexes.before_fault {offset : Nat} {cs : List Char} {s : Scan} (h : Lexes offset cs s)
    {err : Error} (fault : s.fault = some err) :
    ∃ before rest, cs = before ++ rest ∧ err.position? = some (offset + bytes before) ∧
      Lexes offset before ⟨s.lexemes, none⟩ := by
  obtain ⟨before, rest, split, -, place, lexed⟩ :=
    h.upTo (List.append_nil s.lexemes).symm (.inr (by simp [fault]))
  rw [fault] at place
  exact ⟨before, rest, split, place, lexed⟩

end Calculator
