/-!
# White space

The blank characters, by their property in the character standard, and trimming. The class is wider
than that of `Char.isWhitespace`, which knows four ASCII characters only.

1. `isBlank_eq_false_of_isDigit`, `isBlank_eq_false_of_isAlpha`: digits and letters are no blanks.
2. `trim_eq_of_bounds`: trimming removes surrounding blanks and nothing else.
-/

namespace Calculator

/-- The ranges of code points, first and last, that have the property White_Space. -/
def blankRanges : List (Nat × Nat) :=
  [(0x09, 0x0D), (0x20, 0x20), (0x85, 0x85), (0xA0, 0xA0), (0x1680, 0x1680), (0x2000, 0x200A),
    (0x2028, 0x2029), (0x202F, 0x202F), (0x205F, 0x205F), (0x3000, 0x3000)]

def isBlank (c : Char) : Bool := blankRanges.any fun r => r.1 ≤ c.toNat && c.toNat ≤ r.2

/-- The property holds of twenty-five code points. -/
example : (blankRanges.map fun r => r.2 + 1 - r.1).sum = 25 := by decide

theorem toNat_of_isDigit {c : Char} (h : c.isDigit = true) : 48 ≤ c.toNat ∧ c.toNat ≤ 57 := by
  simpa [Char.isDigit, UInt32.le_iff_toNat_le] using h

theorem toNat_of_isAlpha {c : Char} (h : c.isAlpha = true) :
    65 ≤ c.toNat ∧ c.toNat ≤ 90 ∨ 97 ≤ c.toNat ∧ c.toNat ≤ 122 := by
  have h : (decide ('A'.val ≤ c.val ∧ c.val ≤ 'Z'.val) ||
      decide ('a'.val ≤ c.val) && decide (c.val ≤ 'z'.val)) = true := h
  simpa [UInt32.le_iff_toNat_le] using h

theorem isBlank_eq_false_of_toNat {c : Char} (low : 33 ≤ c.toNat) (high : c.toNat ≤ 126) :
    isBlank c = false := by
  simp [isBlank, blankRanges]
  omega

theorem isBlank_eq_false_of_isDigit {c : Char} (h : c.isDigit = true) : isBlank c = false := by
  have := toNat_of_isDigit h
  exact isBlank_eq_false_of_toNat (by omega) (by omega)

theorem isBlank_eq_false_of_isAlpha {c : Char} (h : c.isAlpha = true) : isBlank c = false := by
  have := toNat_of_isAlpha h
  exact isBlank_eq_false_of_toNat (by omega) (by omega)

theorem isDigit_eq_false_of_isAlpha {c : Char} (h : c.isAlpha = true) : c.isDigit = false := by
  refine Bool.eq_false_iff.mpr fun digit => ?_
  have := toNat_of_isAlpha h
  have := toNat_of_isDigit digit
  omega

/-- The text without the blanks at its two ends. -/
def trim (cs : List Char) : List Char :=
  ((cs.dropWhile isBlank).reverse.dropWhile isBlank).reverse

/-! ## Trimming and concatenation -/

/-- A text whose first and last characters are no blanks comes back from between any blanks. -/
theorem trim_eq_of_bounds {w₁ t w₂ : List Char} (h₁ : ∀ c ∈ w₁, isBlank c = true)
    (h₂ : ∀ c ∈ w₂, isBlank c = true) (first : ∀ c ∈ t.head?, isBlank c = false)
    (last : ∀ c ∈ t.getLast?, isBlank c = false) : trim (w₁ ++ t ++ w₂) = t := by
  have kept {s : List Char} (hs : ∀ c ∈ s.head?, isBlank c = false) : s.dropWhile isBlank = s := by
    cases s with
    | nil => rfl
    | cons c s => rw [List.dropWhile_cons, hs c rfl]; rfl
  cases t with
  | nil =>
    have all : ∀ c ∈ w₁ ++ [] ++ w₂, isBlank c = true := by
      intro c hc
      simp only [List.append_nil, List.mem_append] at hc
      exact hc.elim (h₁ c) (h₂ c)
    have gone : (w₁ ++ [] ++ w₂).dropWhile isBlank = [] := by
      rw [← List.append_nil (w₁ ++ [] ++ w₂), List.dropWhile_append_of_pos all]
      rfl
    rw [trim, gone]
    rfl
  | cons c t =>
    have front : (w₁ ++ (c :: t) ++ w₂).dropWhile isBlank = (c :: t) ++ w₂ := by
      rw [List.append_assoc, List.dropWhile_append_of_pos h₁]
      exact kept (by simpa using first)
    have back : ∀ d ∈ w₂.reverse, isBlank d = true := fun d hd => h₂ d (List.mem_reverse.mp hd)
    rw [trim, front, List.reverse_append, List.dropWhile_append_of_pos back,
      kept (by simpa only [List.head?_reverse] using last), List.reverse_reverse]

end Calculator
