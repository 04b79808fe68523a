import Calculator.Proofs.Lexer.Basic

/-!
# Texts that are put together

What the parts of a text are read as wherever they stand, so that the tokens of the whole are those
of its parts. The one thing that matters of what comes after a part is that it does not prolong a
run at its end. A part may hold a number that is out of range; then the whole cannot be read.

There is one lemma for each way to put parts together. `ReadsAs.tokenize_eq_ok` and
`ReadsAs.of_tokenize` say what becomes of a text that stands alone.
-/

namespace Calculator

def Scan.prepend (ls : List Lexeme) (s : Scan) : Scan := { s with lexemes := ls ++ s.lexemes }

/-- No letter and no digit is first, so that a run before the characters ends there. -/
def EndsRun (cs : List Char) : Prop := ∀ c ∈ cs.head?, c.isDigit = false ∧ c.isAlpha = false

theorem EndsRun.append {as bs : List Char} (ha : EndsRun as) (hb : EndsRun bs) :
    EndsRun (as ++ bs) := by
  cases as with
  | nil => exact hb
  | cons a as => exact ha

/-- Before what ends a run, the characters are read as the tokens, and the scan goes on. -/
def Spells (cs : List Char) (ts : List Token) : Prop :=
  ∀ offset rest, EndsRun rest → ∃ ls next, ls.map Lexeme.token = ts ∧
    scan offset (cs ++ rest) = (scan next rest).prepend ls

theorem Lexes.spells {offset : Nat} {cs : List Char} {s : Scan} (h : Lexes offset cs s)
    (ok : s.fault = none) : Spells cs (s.lexemes.map Lexeme.token) := by
  -- What does not prolong a run of the text does not do so with more text behind it.
  have ends {p : Char → Bool} {cs rest : List Char} (stop : ∀ c ∈ cs.head?, p c = false)
      (stop' : ∀ c ∈ rest.head?, p c = false) : ∀ c ∈ (cs ++ rest).head?, p c = false := by
    cases cs with
    | nil => exact stop'
    | cons => exact stop
  induction h with
  | nil => exact fun offset _ _ => ⟨[], offset, rfl, rfl⟩
  | @blank _ c rest s blank _ ih =>
    intro offset after stop
    obtain ⟨ls, next, tokens, run⟩ := ih ok (offset + c.utf8Size) after stop
    refine ⟨ls, next, tokens, ?_⟩
    rw [List.cons_append, scan_blank blank, run]
  | @mark _ c t rest s mark _ ih =>
    intro offset after stop
    obtain ⟨ls, next, tokens, run⟩ := ih ok (offset + 1) after stop
    refine ⟨⟨offset, t⟩ :: ls, next, congrArg (t :: ·) tokens, ?_⟩
    rw [List.cons_append, scan_mark mark, run]
    rfl
  | @name _ w rest s name letters_end _ ih =>
    intro offset after stop
    obtain ⟨ne, letters⟩ := isName_iff.mp name
    obtain ⟨ls, next, tokens, run⟩ := ih ok (offset + w.length) after stop
    refine ⟨⟨offset, .name (String.ofList w)⟩ :: ls, next, congrArg (_ :: ·) tokens, ?_⟩
    rw [List.append_assoc, scan_name ne letters (ends letters_end fun c hc => (stop c hc).2), run]
    rfl
  | @number _ w rest v s ne digits digits_end value _ ih =>
    intro offset after stop
    obtain ⟨ls, next, tokens, run⟩ := ih ok (offset + w.length) after stop
    refine ⟨⟨offset, .number v⟩ :: ls, next, congrArg (_ :: ·) tokens, ?_⟩
    rw [List.append_assoc,
      scan_number ne digits (ends digits_end fun c hc => (stop c hc).1) value, run]
    rfl
  | outOfRange | unrecognized => cases ok

/-- Before what ends a run, the characters cannot be read. -/
def Faulty (cs : List Char) : Prop :=
  ∀ offset rest, EndsRun rest → (scan offset (cs ++ rest)).fault ≠ none

/-- The characters are read as the tokens if they can be read, which is if `ok` holds. -/
structure ReadsAs (cs : List Char) (ok : Prop) (ts : List Token) : Prop where
  spells : ok → Spells cs ts
  faulty : ¬ ok → Faulty cs

namespace ReadsAs

variable {as bs cs : List Char} {p q : Prop} {ts us : List Token}

theorem nil : ReadsAs [] True [] where
  spells _ offset _ _ := ⟨[], offset, rfl, rfl⟩
  faulty no := absurd trivial no

theorem congr (h : ReadsAs cs p ts) (iff : q ↔ p) : ReadsAs cs q ts := by
  rw [propext iff]
  exact h

theorem append (ends : EndsRun bs) (ha : ReadsAs as p ts) (hb : ReadsAs bs q us) :
    ReadsAs (as ++ bs) (p ∧ q) (ts ++ us) where
  spells := by
    intro both offset rest stop
    obtain ⟨ls, middle, tokens, run⟩ := ha.spells both.1 offset (bs ++ rest) (ends.append stop)
    obtain ⟨ms, next, tokens', run'⟩ := hb.spells both.2 middle rest stop
    refine ⟨ls ++ ms, next, ?_, ?_⟩
    · rw [List.map_append, tokens, tokens']
    · rw [List.append_assoc, run, run']
      simp [Scan.prepend]
  faulty := by
    intro not_both offset rest stop
    rw [List.append_assoc]
    by_cases left : p
    · -- The first part is read, so the fault is in the second.
      obtain ⟨ls, middle, -, run⟩ := ha.spells left offset (bs ++ rest) (ends.append stop)
      rw [run]
      exact hb.faulty (fun right => not_both ⟨left, right⟩) middle rest stop
    · exact ha.faulty left offset (bs ++ rest) (ends.append stop)

theorem mark {c : Char} {t : Token} (h : Token.ofMark? c = some t) (hcs : ReadsAs cs p ts) :
    ReadsAs (c :: cs) p (t :: ts) where
  spells := by
    intro ok offset rest stop
    obtain ⟨ls, next, tokens, run⟩ := hcs.spells ok (offset + 1) rest stop
    refine ⟨⟨offset, t⟩ :: ls, next, ?_, ?_⟩
    · rw [List.map_cons, tokens]
    · rw [List.cons_append, scan_mark h, run]
      rfl
  faulty := by
    intro no offset rest stop
    rw [List.cons_append, scan_mark h]
    exact hcs.faulty no (offset + 1) rest stop

theorem blank {c : Char} (h : isBlank c = true) (hcs : ReadsAs cs p ts) :
    ReadsAs (c :: cs) p ts where
  spells := by
    intro ok offset rest stop
    obtain ⟨ls, next, tokens, run⟩ := hcs.spells ok (offset + c.utf8Size) rest stop
    refine ⟨ls, next, tokens, ?_⟩
    rw [List.cons_append, scan_blank h, run]
  faulty := by
    intro no offset rest stop
    rw [List.cons_append, scan_blank h]
    exact hcs.faulty no (offset + c.utf8Size) rest stop

theorem name {w : List Char} (h : isName w = true) :
    ReadsAs w True [.name (String.ofList w)] where
  spells := by
    intro _ offset rest stop
    obtain ⟨ne, letters⟩ := isName_iff.mp h
    refine ⟨[⟨offset, .name (String.ofList w)⟩], offset + w.length, rfl, ?_⟩
    exact scan_name ne letters fun c hc => (stop c hc).2
  faulty no := absurd trivial no

theorem ofDigits?_toDigits (n : Nat) : Decimal.ofDigits? (Nat.toDigits 10 n) = Value.ofNat? n := by
  rw [Decimal.ofDigits?, Nat.ofDigitChars_toDigits (by decide) (by decide)]

/-- A number is read if it is in range, and then it is none that saturates. -/
theorem digits (n : Nat) :
    ReadsAs (Nat.toDigits 10 n) (n ≤ 9223372036854775807) [.number (Value.clamp n)] where
  spells := by
    intro inside offset rest stop
    have value : Decimal.ofDigits? (Nat.toDigits 10 n) = some (Value.clamp n) := by
      rw [ofDigits?_toDigits, Value.ofNat?_eq_ofInt?, Value.ofInt?_eq_some_iff, Value.toInt_clamp]
      simp only [Value.least, Value.greatest]
      omega
    refine ⟨[⟨offset, .number (Value.clamp n)⟩], offset + (Nat.toDigits 10 n).length, rfl, ?_⟩
    exact scan_number Nat.toDigits_ne_nil
      (fun c hc => Nat.isDigit_of_mem_toDigits (by decide) (by decide) hc)
      (fun c hc => (stop c hc).1) value
  faulty := by
    intro outside offset rest stop
    have none : Decimal.ofDigits? (Nat.toDigits 10 n) = none := by
      rw [ofDigits?_toDigits, Value.ofNat?_eq_ofInt?, Value.ofInt?_eq_none_iff]
      omega
    rw [scan_outOfRange Nat.toDigits_ne_nil
      (fun c hc => Nat.isDigit_of_mem_toDigits (by decide) (by decide) hc)
      (fun c hc => (stop c hc).1) none]
    simp

/-! ## Texts that stand alone -/

theorem ends_nil : EndsRun [] := by
  intro c hc
  cases hc

theorem tokenize_eq_ok {src : String} (h : ReadsAs src.toList p ts) (ok : p) :
    ∃ lexemes, tokenize src = .ok lexemes ∧ lexemes.map Lexeme.token = ts := by
  obtain ⟨ls, next, tokens, run⟩ := h.spells ok 0 [] ends_nil
  rw [List.append_nil, scan_nil] at run
  refine ⟨ls, ?_, tokens⟩
  rw [tokenize, run]
  simp [Scan.prepend, Scan.toExcept]

theorem of_tokenize {src : String} {lexemes : List Lexeme} (h : ReadsAs src.toList p ts)
    (found : tokenize src = .ok lexemes) : p ∧ lexemes.map Lexeme.token = ts := by
  have ok : p := by
    by_cases ok : p
    · exact ok
    · have fault := h.faulty ok 0 [] ends_nil
      rw [List.append_nil, lexes_iff.mp (tokenize_eq_ok_iff.mp found)] at fault
      exact absurd rfl fault
  obtain ⟨lexemes', found', tokens⟩ := h.tokenize_eq_ok ok
  rw [found] at found'
  injection found' with same
  rw [same]
  exact ⟨ok, tokens⟩

end ReadsAs

end Calculator
