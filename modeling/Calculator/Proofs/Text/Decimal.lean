import Calculator.Text.Blank
import Calculator.Text.Decimal

/-!
# Reading decimals

Reading looks at the range at every digit, so that the first fault from the left is found. Digits
only move away from zero, so what is in range in the end was so all the way, and reading gives a
value where the whole integer is in range. In particular every value is read from its own text, the
smallest one too.

1. `readDigits_eq_ok_iff`: what a run of digits is read as.
2. `Numeral`, `read_eq_ok_iff`: the texts that are read, and as which values.
3. `read_render`: a value is read from its text.
4. `isBlank_eq_false_of_mem_render`: the text of a value has no blanks.
-/

namespace Calculator

namespace Decimal

def signed : (negative : Bool) → Nat → Int
  | true, n => -n
  | false, n => n

theorem le_ofDigitChars (digits : List Char) (n : Nat) : n ≤ Nat.ofDigitChars 10 digits n := by
  induction digits generalizing n with
  | nil => exact Nat.le_refl n
  | cons c digits ih =>
    have further := ih (10 * n + (c.toNat - '0'.toNat))
    rw [Nat.ofDigitChars_cons]
    omega

/-- Of two integers on one side of zero the nearer one is in range if the other is. -/
theorem ofInt?_signed_of_le {negative : Bool} {n m : Nat} {v : Value} (le : n ≤ m)
    (far : v.toInt = signed negative m) : ∃ w, Value.ofInt? (signed negative n) = some w := by
  cases near : Value.ofInt? (signed negative n) with
  | some w => exact ⟨w, rfl⟩
  | none =>
    have outside := Value.ofInt?_eq_none_iff.mp near
    have lower := v.lower
    have upper := v.upper
    cases negative <;> (simp only [signed] at far outside; omega)

/-- The digits are read as what they are worth after the digits so far, if that is in range. -/
theorem readDigits_eq_ok_iff {negative : Bool} {soFar v : Value} {n : Nat} {digits : List Char}
    (h : soFar.toInt = signed negative n) :
    readDigits negative soFar digits = .ok v ↔ (∀ c ∈ digits, c.isDigit = true) ∧
      v.toInt = signed negative (Nat.ofDigitChars 10 digits n) := by
  induction digits generalizing soFar n with
  | nil =>
    rw [readDigits, Nat.ofDigitChars_nil, ← h, Except.ok.injEq, Value.ext_iff]
    exact ⟨fun same => ⟨by simp, same.symm⟩, fun both => both.2.symm⟩
  | cons c digits ih =>
    rw [readDigits, Nat.ofDigitChars_cons, List.forall_mem_cons]
    split
    · next digit =>
      -- The next integer is on the same side.
      generalize hd : c.toNat - '0'.toNat = d
      have next : (10 * soFar.toInt + if negative = true then -(d : Int) else d) =
          signed negative (10 * n + d) := by
        rw [h]
        cases negative <;> (simp only [signed, reduceIte, Bool.false_eq_true]; omega)
      simp only [next]
      cases value : Value.ofInt? (signed negative (10 * n + d)) with
      | some w =>
        simp only
        rw [ih (Value.ofInt?_eq_some_iff.mp value)]
        simp [digit]
      | none =>
        refine ⟨nofun, fun both => ?_⟩
        obtain ⟨w, inside⟩ := ofInt?_signed_of_le (le_ofDigitChars digits _) both.2
        rw [value] at inside
        cases inside
    · next no_digit => simp [no_digit]

/-- Digits are read as they are, and after a minus sign on the other side of zero. -/
theorem read_digits {digits : List Char} (ne : digits ≠ [])
    (all : ∀ c ∈ digits, c.isDigit = true) :
    read ('-' :: digits) = readDigits true 0 digits ∧ read digits = readDigits false 0 digits := by
  obtain ⟨c, digits, rfl⟩ := List.exists_cons_of_ne_nil ne
  have digit : c.isDigit = true := all c List.mem_cons_self
  have no_plus : c ≠ '+' := by
    rintro rfl
    revert digit
    decide
  have no_minus : c ≠ '-' := by
    rintro rfl
    revert digit
    decide
  refine ⟨rfl, ?_⟩
  unfold read
  split <;> simp_all

/-- The written forms of an integer: some digits, after one sign or none. Leading zeros do not
matter. -/
inductive Numeral : List Char → Int → Prop where
  | unsigned {digits : List Char} : digits ≠ [] → (∀ c ∈ digits, c.isDigit = true) →
    Numeral digits (Nat.ofDigitChars 10 digits 0)
  | plus {digits : List Char} : digits ≠ [] → (∀ c ∈ digits, c.isDigit = true) →
    Numeral ('+' :: digits) (Nat.ofDigitChars 10 digits 0)
  | minus {digits : List Char} : digits ≠ [] → (∀ c ∈ digits, c.isDigit = true) →
    Numeral ('-' :: digits) (-Nat.ofDigitChars 10 digits 0)

theorem read_eq_ok_iff {cs : List Char} {v : Value} : read cs = .ok v ↔ Numeral cs v.toInt := by
  have digits_iff (negative : Bool) (digits : List Char) :
      readDigits negative 0 digits = .ok v ↔ (∀ c ∈ digits, c.isDigit = true) ∧
        v.toInt = signed negative (Nat.ofDigitChars 10 digits 0) :=
    readDigits_eq_ok_iff (by cases negative <;> rfl)
  constructor
  · intro h
    unfold read at h
    split at h
    · cases h
    · cases h
    · cases h
    · next digits some_digit =>
      obtain ⟨all, value⟩ := (digits_iff _ _).mp h
      rw [value]
      exact .plus some_digit all
    · next digits some_digit =>
      obtain ⟨all, value⟩ := (digits_iff _ _).mp h
      rw [value]
      exact .minus some_digit all
    · next some_digit _ _ _ _ =>
      obtain ⟨all, value⟩ := (digits_iff _ _).mp h
      rw [value]
      exact .unsigned some_digit all
  · intro numeral
    generalize value : v.toInt = n at numeral
    cases numeral with
    | unsigned ne all => rw [(read_digits ne all).2, digits_iff]; exact ⟨all, value⟩
    | minus ne all => rw [(read_digits ne all).1, digits_iff]; exact ⟨all, value⟩
    | @plus digits ne all =>
      have plus : read ('+' :: digits) = readDigits false 0 digits := by
        obtain ⟨c, digits, rfl⟩ := List.exists_cons_of_ne_nil ne
        rfl
      rw [plus, digits_iff]
      exact ⟨all, value⟩

theorem readDigits_toDigits {negative : Bool} {n : Nat} {v : Value}
    (h : v.toInt = signed negative n) :
    readDigits negative 0 (Nat.toDigits 10 n) = .ok v := by
  have zero : (0 : Value).toInt = signed negative 0 := by cases negative <;> rfl
  rw [readDigits_eq_ok_iff zero, Nat.ofDigitChars_toDigits (by decide) (by decide)]
  exact ⟨fun c hc => Nat.isDigit_of_mem_toDigits (by decide) (by decide) hc, h⟩

theorem read_render (v : Value) : read v.render.toList = .ok v := by
  have all : ∀ c ∈ Nat.toDigits 10 v.toInt.natAbs, c.isDigit = true :=
    fun c hc => Nat.isDigit_of_mem_toDigits (by decide) (by decide) hc
  have digits := read_digits Nat.toDigits_ne_nil all
  rw [Value.render, write]
  split
  · next negative =>
    have side : v.toInt = signed true v.toInt.natAbs := by
      simp only [signed]
      omega
    rw [String.toList_append, Nat.toList_repr]
    exact digits.1.trans (readDigits_toDigits side)
  · next nonneg =>
    have side : v.toInt = signed false v.toInt.natAbs := by
      simp only [signed]
      omega
    rw [Nat.toList_repr]
    exact digits.2.trans (readDigits_toDigits side)

/-- The text of a value is a sign, if any, and digits. -/
theorem isBlank_eq_false_of_mem_render {v : Value} {c : Char} (h : c ∈ v.render.toList) :
    isBlank c = false := by
  have digits {n : Nat} (hc : c ∈ n.repr.toList) : isBlank c = false := by
    rw [Nat.toList_repr] at hc
    exact isBlank_eq_false_of_isDigit (Nat.isDigit_of_mem_toDigits (by decide) (by decide) hc)
  rw [Value.render, write] at h
  split at h
  · rw [String.toList_append, List.mem_append] at h
    rcases h with sign | h
    · obtain rfl : c = '-' := by simpa using sign
      decide
    · exact digits h
  · exact digits h

end Decimal

end Calculator
