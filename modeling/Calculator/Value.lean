/-!
# Values

The numbers that expressions compute with: the integers of 64 bits, sign included, which are those
from `-2^63 = -9223372036854775808` to `2^63 - 1 = 9223372036854775807`. A value is an integer
together with the proof that it is in this range, so arithmetic is stated on `Int` and checked at
the end: `Value.ofInt?` is `some` exactly on the range.

1. `Value.ofInt?_eq_some_iff`: `ofInt? n` is the value that denotes `n`, if there is one.
2. `Value.toInt_clamp`: saturation moves an integer to the nearest end of the range, and only if it
   is outside.
-/

namespace Calculator

/-- An integer of 64 bits: at least `-2^63` and less than `2^63`. -/
structure Value where
  /-- The integer that the value denotes. -/
  toInt : Int
  lower : -9223372036854775808 ≤ toInt
  upper : toInt ≤ 9223372036854775807
  deriving DecidableEq

namespace Value

@[ext] theorem ext {a b : Value} (h : a.toInt = b.toInt) : a = b := by
  cases a; cases b; subst h; rfl

/-- The value that denotes `n`, if `n` is in range. -/
def ofInt? (n : Int) : Option Value :=
  if h : -9223372036854775808 ≤ n ∧ n ≤ 9223372036854775807 then some ⟨n, h.1, h.2⟩ else none

theorem ofInt?_eq_some_iff {n : Int} {v : Value} : ofInt? n = some v ↔ v.toInt = n := by
  unfold ofInt?
  split
  · exact ⟨fun h => by cases h; rfl, fun h => congrArg some (ext h.symm)⟩
  · next out =>
    exact ⟨fun h => by simp at h, fun h => absurd ⟨h ▸ v.lower, h ▸ v.upper⟩ out⟩

@[simp] theorem ofInt?_toInt (v : Value) : ofInt? v.toInt = some v :=
  ofInt?_eq_some_iff.mpr rfl

theorem ofInt?_eq_none_iff {n : Int} :
    ofInt? n = none ↔ n < -9223372036854775808 ∨ 9223372036854775807 < n := by
  unfold ofInt?
  split
  · next h => exact ⟨fun e => by simp at e, fun e => by omega⟩
  · next h => exact ⟨fun _ => by omega, fun _ => rfl⟩

def ofNat? (n : Nat) : Option Value :=
  if h : n ≤ 9223372036854775807 then some ⟨n, by omega, by omega⟩ else none

theorem ofNat?_eq_ofInt? (n : Nat) : ofNat? n = ofInt? n := by
  unfold ofNat?
  split
  · exact (ofInt?_eq_some_iff.mpr rfl).symm
  · exact (ofInt?_eq_none_iff.mpr (by omega)).symm

/-! ## Constants -/

instance : OfNat Value 0 := ⟨⟨0, by decide, by decide⟩⟩

def least : Value := ⟨-9223372036854775808, by decide, by decide⟩

def greatest : Value := ⟨9223372036854775807, by decide, by decide⟩

@[simp] theorem toInt_zero : (0 : Value).toInt = 0 := rfl

/-! ## Checked arithmetic

Each operation is the one on integers, and has no value where the integer result is out of range. -/

def add? (a b : Value) : Option Value := ofInt? (a.toInt + b.toInt)

def sub? (a b : Value) : Option Value := ofInt? (a.toInt - b.toInt)

def mul? (a b : Value) : Option Value := ofInt? (a.toInt * b.toInt)

/-- The quotient rounded toward zero, if it is in range. It is out of range for `-2^63` over `-1`
only; a zero divisor is for the caller to refuse. -/
def div? (a b : Value) : Option Value := ofInt? (a.toInt.tdiv b.toInt)

/-- The negation, if it is in range: `-2^63` has none. -/
def neg? (a : Value) : Option Value := ofInt? (-a.toInt)

/-! ## Saturation -/

/-- The value nearest to `n`: `n` itself in range, otherwise the end of the range on its side. -/
def clamp (n : Int) : Value :=
  if low : n < least.toInt then least
  else if high : greatest.toInt < n then greatest
  else ⟨n, Int.not_lt.mp low, Int.not_lt.mp high⟩

theorem toInt_clamp (n : Int) :
    (clamp n).toInt =
      if n < least.toInt then least.toInt
      else if greatest.toInt < n then greatest.toInt
      else n := by
  unfold clamp
  split
  · rfl
  · split <;> rfl

@[simp] theorem clamp_toInt (v : Value) : clamp v.toInt = v := by
  have low : ¬ v.toInt < least.toInt := Int.not_lt.mpr v.lower
  have high : ¬ greatest.toInt < v.toInt := Int.not_lt.mpr v.upper
  apply ext
  rw [toInt_clamp, if_neg low, if_neg high]

end Value

end Calculator
