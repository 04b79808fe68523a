import Calculator.Text.Blank

/-!
# Trimming

What trimming leaves, said without saying how: the one part of a text that has only blanks before it
and after it, and a blank neither first nor last.

1. `takeWhile_spec`: a list is a run of a class and what comes after it.
2. `trim_eq_iff`: trimming leaves that part, and no other.
-/

namespace Calculator

theorem takeWhile_spec (p : Char → Bool) (cs : List Char) :
    cs = cs.takeWhile p ++ cs.dropWhile p ∧ (∀ c ∈ cs.takeWhile p, p c = true) ∧
      ∀ c ∈ (cs.dropWhile p).head?, p c = false := by
  refine ⟨List.takeWhile_append_dropWhile.symm, List.all_eq_true.mp List.all_takeWhile,
    fun c hc => ?_⟩
  have stop := List.head?_dropWhile_not p cs
  rw [hc] at stop
  simpa using stop

/-- The part of the text between the blanks around it. -/
structure Trimmed (text part : List Char) : Prop where
  around : ∃ w₁ w₂, text = w₁ ++ part ++ w₂ ∧ (∀ c ∈ w₁, isBlank c = true) ∧
    ∀ c ∈ w₂, isBlank c = true
  first : ∀ c ∈ part.head?, isBlank c = false
  last : ∀ c ∈ part.getLast?, isBlank c = false

theorem trimmed_trim (text : List Char) : Trimmed text (trim text) := by
  obtain ⟨front, blank, first⟩ := takeWhile_spec isBlank text
  obtain ⟨back, blank', last⟩ := takeWhile_spec isBlank (text.dropWhile isBlank).reverse
  -- What trimming leaves is what the blanks at the front leave, less the blanks at the end.
  have rest : text.dropWhile isBlank =
      trim text ++ ((text.dropWhile isBlank).reverse.takeWhile isBlank).reverse := by
    rw [trim, ← List.reverse_append, ← back, List.reverse_reverse]
  refine ⟨⟨_, _, ?_, blank, fun c hc => blank' c (List.mem_reverse.mp hc)⟩, fun c hc => ?_,
    fun c hc => ?_⟩
  · rw [List.append_assoc, ← rest]
    exact front
  · refine first c ?_
    rw [rest, List.head?_append, Option.mem_def.mp hc]
    rfl
  · refine last c ?_
    rwa [trim, List.getLast?_reverse] at hc

theorem trim_eq_iff {text part : List Char} : trim text = part ↔ Trimmed text part := by
  constructor
  · rintro rfl
    exact trimmed_trim text
  · intro trimmed
    obtain ⟨⟨w₁, w₂, rfl, h₁, h₂⟩, first, last⟩ := trimmed
    exact trim_eq_of_bounds h₁ h₂ first last

end Calculator
