import Calculator.Binding
import Calculator.Proofs.Lexer.Basic
import Calculator.Proofs.Text.Decimal
import Calculator.Proofs.Text.Trim

/-!
# The syntax of bindings

Which texts are bindings, said without saying how they are read: a name, an equals sign and an
integer in decimal, with blanks around the name and around the integer. A later equals sign is part
of what stands for the integer, and no integer is written with one.

1. `Binding.Denotes`: the texts of a binding.
2. `Binding.parse_eq_ok_iff`: a text is read as a binding if it is a text of it.
3. `binding_syntax_exact`: the same, and every binding is read from its text between any blanks.
-/

namespace Calculator

namespace Binding

/-- The text is one of the binding: the first equals sign divides it, what is on the left between
blanks is the name, and what is on the right between blanks is a written form of the value. -/
structure Denotes (text : String) (b : Binding) : Prop where
  name_ne : b.name.toList ≠ []
  letters : ∀ c ∈ b.name.toList, c.isAlpha = true
  sides : ∃ left right numeral, text.toList = left ++ '=' :: right ∧ '=' ∉ left ∧
    Trimmed left b.name.toList ∧ Trimmed right numeral ∧ Decimal.Numeral numeral b.value.toInt

theorem ofSides_eq_ok_iff {left right : List Char} {b : Binding} :
    ofSides left right = .ok b ↔ isName b.name.toList = true ∧ trim left = b.name.toList ∧
      Decimal.read (trim right) = .ok b.value := by
  obtain ⟨x, v⟩ := b
  constructor
  · intro h
    simp only [ofSides] at h
    split at h
    · next name =>
      split at h
      · next value =>
        cases h
        rw [String.toList_ofList]
        exact ⟨name, rfl, value⟩
      · cases h
    · cases h
  · rintro ⟨name, trimmed, value⟩
    simp only [ofSides, trimmed, name, reduceIte, value, String.ofList_toList]

theorem parse_of_sides {text : String} {left right : List Char}
    (divided : text.toList = left ++ '=' :: right) (first : '=' ∉ left) :
    parse text = ofSides left right := by
  have before : ∀ c ∈ left, (c != '=') = true :=
    fun c hc => bne_iff_ne.mpr fun eq => first (eq ▸ hc)
  have stop : ∀ c ∈ ('=' :: right).head?, (c != '=') = false := by simp
  obtain ⟨taken, left_over⟩ := takeWhile_run before stop
  rw [parse, divided, taken, left_over]

theorem exists_sides_of_parse {text : String} {b : Binding} (h : parse text = .ok b) :
    ∃ left right, text.toList = left ++ '=' :: right ∧ '=' ∉ left := by
  obtain ⟨split, before, stop⟩ := takeWhile_spec (· != '=') text.toList
  unfold parse at h
  split at h
  · cases h
  · next c right rest =>
    rw [rest] at split stop
    obtain rfl : c = '=' := by simpa using stop c rfl
    exact ⟨_, right, split, fun mem => by simpa using before _ mem⟩

theorem parse_eq_ok_iff {text : String} {b : Binding} : parse text = .ok b ↔ Denotes text b := by
  constructor
  · intro h
    obtain ⟨left, right, divided, first⟩ := exists_sides_of_parse h
    rw [parse_of_sides divided first, ofSides_eq_ok_iff] at h
    obtain ⟨name, trimmed, value⟩ := h
    obtain ⟨ne, letters⟩ := isName_iff.mp name
    exact ⟨ne, letters, left, right, _, divided, first, trim_eq_iff.mp trimmed, trimmed_trim right,
      Decimal.read_eq_ok_iff.mp value⟩
  · rintro ⟨ne, letters, left, right, numeral, divided, first, name, trimmed, value⟩
    rw [parse_of_sides divided first, ofSides_eq_ok_iff, trim_eq_iff, trim_eq_iff.mpr trimmed,
      Decimal.read_eq_ok_iff]
    exact ⟨isName_iff.mpr ⟨ne, letters⟩, name, value⟩

/-- A text without blanks is what is between any blanks around it. -/
theorem trimmed_of_plain {w₁ part w₂ : List Char} (h₁ : ∀ c ∈ w₁, isBlank c = true)
    (plain : ∀ c ∈ part, isBlank c = false) (h₂ : ∀ c ∈ w₂, isBlank c = true) :
    Trimmed (w₁ ++ part ++ w₂) part :=
  ⟨⟨w₁, w₂, rfl, h₁, h₂⟩, fun c hc => plain c (List.mem_of_mem_head? hc),
    fun c hc => plain c (List.mem_of_mem_getLast? hc)⟩

theorem parse_between {b : Binding} {w₁ w₂ w₃ w₄ : String} (name : isName b.name.toList = true)
    (h₁ : ∀ c ∈ w₁.toList, isBlank c = true) (h₂ : ∀ c ∈ w₂.toList, isBlank c = true)
    (h₃ : ∀ c ∈ w₃.toList, isBlank c = true) (h₄ : ∀ c ∈ w₄.toList, isBlank c = true) :
    parse (w₁ ++ b.name ++ w₂ ++ "=" ++ w₃ ++ b.value.render ++ w₄) = .ok b := by
  obtain ⟨ne, letters⟩ := isName_iff.mp name
  have divided : (w₁ ++ b.name ++ w₂ ++ "=" ++ w₃ ++ b.value.render ++ w₄).toList =
      (w₁.toList ++ b.name.toList ++ w₂.toList) ++
        '=' :: (w₃.toList ++ b.value.render.toList ++ w₄.toList) := by
    simp
  -- No blank and no letter is an equals sign.
  have first : '=' ∉ w₁.toList ++ b.name.toList ++ w₂.toList := by
    simp only [List.mem_append]
    rintro ((blank | letter) | blank)
    · exact absurd (h₁ _ blank) (by decide)
    · exact absurd (letters _ letter) (by decide)
    · exact absurd (h₂ _ blank) (by decide)
  rw [parse_eq_ok_iff]
  exact ⟨ne, letters, _, _, _, divided, first,
    trimmed_of_plain h₁ (fun c hc => isBlank_eq_false_of_isAlpha (letters c hc)) h₂,
    trimmed_of_plain h₃ (fun c => Decimal.isBlank_eq_false_of_mem_render) h₄,
    Decimal.read_eq_ok_iff.mp (Decimal.read_render _)⟩

end Binding

/-- A text is read as a binding exactly if the first equals sign in it is between a name and a
written form of the value, each with blanks around it or none. So the text of every binding is read
as it, between any blanks and whatever its value. -/
theorem binding_syntax_exact :
    (∀ text b, Binding.parse text = .ok b ↔ Binding.Denotes text b) ∧
    ∀ (b : Binding) (w₁ w₂ w₃ w₄ : String), isName b.name.toList = true →
      (∀ w ∈ [w₁, w₂, w₃, w₄], ∀ c ∈ w.toList, isBlank c = true) →
      Binding.parse (w₁ ++ b.name ++ w₂ ++ "=" ++ w₃ ++ b.value.render ++ w₄) = .ok b := by
  refine ⟨fun text b => Binding.parse_eq_ok_iff, fun b w₁ w₂ w₃ w₄ name blank => ?_⟩
  exact Binding.parse_between name (blank w₁ (by simp)) (blank w₂ (by simp)) (blank w₃ (by simp))
    (blank w₄ (by simp))

/-- The smallest value between blanks of one, two and three bytes. -/
theorem binding_syntax_exact_least :
    isName "Rate".toList = true ∧
    (∀ w ∈ ["\u2003", "\t", "", "\u00A0\n"], ∀ c ∈ w.toList, isBlank c = true) ∧
    Binding.parse ("\u2003" ++ "Rate" ++ "\t" ++ "=" ++ "" ++ Value.least.render ++ "\u00A0\n") =
      .ok ⟨"Rate", .least⟩ ∧
    Value.least.render = "-9223372036854775808" := by
  have name : isName "Rate".toList = true := by decide
  have blank : ∀ w ∈ ["\u2003", "\t", "", "\u00A0\n"], ∀ c ∈ w.toList, isBlank c = true := by
    simp [isBlank, blankRanges]
  exact ⟨name, blank, binding_syntax_exact.2 ⟨"Rate", .least⟩ _ _ _ _ name blank,
    by decide +kernel⟩

end Calculator
