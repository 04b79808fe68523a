import Calculator.Error
import Calculator.Text.Blank

/-!
# Lexing

A source text is a sequence of blanks and tokens. Numbers and names are the longest runs of digits
and of letters; every other token is one character. Lexing goes from the left and ends at the first
character or run that is no token, so the lexemes before the fault are known too.

The lemmas say how a scan goes on after a blank (`scan_blank`), a mark (`scan_mark`), a name
(`scan_name`) and a number (`scan_number`).
-/

namespace Calculator

/-- The lexemes of a text up to its end or its first fault. -/
structure Scan where
  lexemes : List Lexeme
  fault : Option Error

def Scan.cons (l : Lexeme) (s : Scan) : Scan := { s with lexemes := l :: s.lexemes }

/-- The scan of the characters that follow `offset` bytes of source. -/
def scan (offset : Nat) : List Char → Scan
  | [] => ⟨[], none⟩
  | c :: rest =>
    if isBlank c then scan (offset + c.utf8Size) rest
    else if c.isDigit then
      let digits := c :: rest.takeWhile Char.isDigit
      match Decimal.ofDigits? digits with
      | some v =>
        (scan (offset + digits.length) (rest.dropWhile Char.isDigit)).cons ⟨offset, .number v⟩
      | none => ⟨[], some (.literalOutOfRange offset)⟩
    else if c.isAlpha then
      let letters := c :: rest.takeWhile Char.isAlpha
      (scan (offset + letters.length) (rest.dropWhile Char.isAlpha)).cons
        ⟨offset, .name (String.ofList letters)⟩
    else match Token.ofMark? c with
      | some t => (scan (offset + 1) rest).cons ⟨offset, t⟩
      | none => ⟨[], some (.unrecognized offset)⟩
termination_by cs => cs.length
decreasing_by
  · simp
  · have := (List.dropWhile_sublist (l := rest) Char.isDigit).length_le
    simp; omega
  · have := (List.dropWhile_sublist (l := rest) Char.isAlpha).length_le
    simp; omega
  · simp

def Scan.toExcept (s : Scan) : Except Error (List Lexeme) :=
  match s.fault with
  | none => .ok s.lexemes
  | some e => .error e

def tokenize (src : String) : Except Error (List Lexeme) := (scan 0 src.toList).toExcept

/-! ## How a scan goes on -/

theorem scan_nil (offset : Nat) : scan offset [] = ⟨[], none⟩ := by rw [scan]

theorem scan_blank {offset : Nat} {c : Char} {rest : List Char} (h : isBlank c = true) :
    scan offset (c :: rest) = scan (offset + c.utf8Size) rest := by
  rw [scan, if_pos h]

theorem classes_of_ofMark? {c : Char} {t : Token} (h : Token.ofMark? c = some t) :
    isBlank c = false ∧ c.isDigit = false ∧ c.isAlpha = false := by
  unfold Token.ofMark? at h
  split at h
  case h_9 => cases h
  all_goals decide

theorem scan_mark {offset : Nat} {c : Char} {t : Token} {rest : List Char}
    (h : Token.ofMark? c = some t) :
    scan offset (c :: rest) = (scan (offset + 1) rest).cons ⟨offset, t⟩ := by
  obtain ⟨blank, digit, letter⟩ := classes_of_ofMark? h
  rw [scan]
  simp [blank, digit, letter, h]

/-- A run that is followed by no character of its class is what is taken from the front. -/
theorem takeWhile_run {p : Char → Bool} {w rest : List Char} (run : ∀ c ∈ w, p c = true)
    (stop : ∀ c ∈ rest.head?, p c = false) :
    (w ++ rest).takeWhile p = w ∧ (w ++ rest).dropWhile p = rest := by
  rw [List.takeWhile_append_of_pos run, List.dropWhile_append_of_pos run]
  cases rest with
  | nil => simp
  | cons c rest => simp [stop c rfl]

theorem scan_name {offset : Nat} {w rest : List Char} (ne : w ≠ [])
    (letters : ∀ c ∈ w, c.isAlpha = true) (stop : ∀ c ∈ rest.head?, c.isAlpha = false) :
    scan offset (w ++ rest) =
      (scan (offset + w.length) rest).cons ⟨offset, .name (String.ofList w)⟩ := by
  obtain ⟨c, w, rfl⟩ := List.exists_cons_of_ne_nil ne
  obtain ⟨letter, letters⟩ := List.forall_mem_cons.mp letters
  obtain ⟨taken, left⟩ := takeWhile_run letters stop
  rw [List.cons_append, scan]
  simp [isBlank_eq_false_of_isAlpha letter, isDigit_eq_false_of_isAlpha letter, letter, taken, left]

theorem scan_number {offset : Nat} {w rest : List Char} {v : Value} (ne : w ≠ [])
    (digits : ∀ c ∈ w, c.isDigit = true) (stop : ∀ c ∈ rest.head?, c.isDigit = false)
    (value : Decimal.ofDigits? w = some v) :
    scan offset (w ++ rest) = (scan (offset + w.length) rest).cons ⟨offset, .number v⟩ := by
  obtain ⟨c, w, rfl⟩ := List.exists_cons_of_ne_nil ne
  obtain ⟨digit, digits⟩ := List.forall_mem_cons.mp digits
  obtain ⟨taken, left⟩ := takeWhile_run digits stop
  rw [List.cons_append, scan]
  simp [isBlank_eq_false_of_isDigit digit, digit, taken, left, value]

end Calculator
