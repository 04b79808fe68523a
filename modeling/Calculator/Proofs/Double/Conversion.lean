import Calculator.Proofs.Double.Rounding

/-!
# Conversions

Integers into the format and numbers of the format into values. Rounding an integer crosses no
number of the format either; dropping the fraction of a number is rounding toward zero; and a number
outside the range of values becomes the end of the range on its side, even if it was too great to be
finite.

1. `le_roundInt`, `roundInt_le`, `roundInt_eq`: integers that are rounded into the format.
2. `truncate_of_nonneg`, `truncate_of_nonpos`: what dropping the fraction leaves.
3. `toInt_toValue_nearest`, `toValue_nearest_of_ge`, `toValue_nearest_of_le`: the values of rounded
   numbers.
-/

namespace Calculator

namespace Double

/-! ## From integers -/

section

variable {n c : Int}

theorem le_roundInt (h : Representable c) (le : c ≤ n) : c ≤ roundInt n :=
  Int.le_floor.mpr (h.le_round (by exact_mod_cast le))

theorem roundInt_le (h : Representable c) (ge : n ≤ c) : roundInt n ≤ c := by
  have moved : round n ≤ c := h.round_le (by exact_mod_cast ge)
  exact_mod_cast (Int.floor_le _).trans moved

theorem le_abs_roundInt (h : Representable c) (le : c ≤ |n|) : c ≤ |roundInt n| := by
  rcases le_abs.mp le with le | le
  · exact (le_roundInt h le).trans (le_abs_self _)
  · have ge : roundInt n ≤ -c := roundInt_le (by exact_mod_cast h.neg) (by omega)
    exact (by omega : c ≤ -roundInt n).trans (neg_le_abs _)

theorem mul_roundInt_nonneg (n : Int) : 0 ≤ n * roundInt n := by
  have zero : Representable (0 : Int) := representable_intCast (by decide)
  rcases le_total 0 n with nonneg | nonpos
  · exact mul_nonneg nonneg (le_roundInt zero nonneg)
  · exact mul_nonneg_of_nonpos_of_nonpos nonpos (roundInt_le zero nonpos)

theorem roundInt_eq (short : |n| ≤ 2 ^ 53) : roundInt n = n :=
  le_antisymm (roundInt_le (representable_intCast short) le_rfl)
    (le_roundInt (representable_intCast short) le_rfl)

theorem roundInt_natCast {n : Nat} (short : n ≤ 2 ^ 53) : roundInt n = n :=
  roundInt_eq (by rw [Nat.abs_cast]; exact_mod_cast short)

end

/-! ## Dropping the fraction -/

def truncate (q : Rat) : Int := q.num.tdiv q.den

theorem truncate_of_nonneg {q : Rat} (h : 0 ≤ q) : truncate q = ⌊q⌋ := by
  rw [truncate, Int.tdiv_eq_ediv_of_nonneg (Rat.num_nonneg.mpr h)]
  exact (Rat.floor_def q).symm

theorem truncate_neg (q : Rat) : truncate (-q) = -truncate q := by
  rw [truncate, Rat.neg_num, Rat.neg_den, Int.neg_tdiv, truncate]

theorem truncate_of_nonpos {q : Rat} (h : q ≤ 0) : truncate q = ⌈q⌉ := by
  have opposite := truncate_of_nonneg (neg_nonneg.mpr h)
  rwa [truncate_neg, Int.floor_neg, neg_inj] at opposite

theorem truncate_intCast (n : Int) : truncate n = n := Int.tdiv_one n

theorem truncate_div (a : Int) (b : Nat) : truncate ((a : Rat) / b) = a.tdiv b := by
  have nonneg {a : Int} (h : 0 ≤ a) : truncate ((a : Rat) / b) = a.tdiv b := by
    have : (0 : Rat) ≤ a := by exact_mod_cast h
    rw [truncate_of_nonneg (by positivity), Rat.floor_intCast_div_natCast,
      Int.tdiv_eq_ediv_of_nonneg h]
  rcases le_total 0 a with h | h
  · exact nonneg h
  · have opposite := nonneg (Int.neg_nonneg.mpr h)
    rw [Int.cast_neg, neg_div, truncate_neg, Int.neg_tdiv] at opposite
    exact neg_inj.mp opposite

theorem le_truncate {q : Rat} {n : Int} (nonneg : 0 ≤ n) (le : (n : Rat) ≤ q) : n ≤ truncate q := by
  have : (0 : Rat) ≤ n := by exact_mod_cast nonneg
  rw [truncate_of_nonneg (this.trans le)]
  exact Int.le_floor.mpr le

theorem abs_truncate_le {q : Rat} {n : Int} (lt : |q| < n + 1) : |truncate q| ≤ n := by
  have nonneg {q : Rat} (h : 0 ≤ q) (lt : q < n + 1) : |truncate q| ≤ n := by
    rw [truncate_of_nonneg h, abs_of_nonneg (Int.floor_nonneg.mpr h), ← Int.lt_add_one_iff,
      Int.floor_lt]
    exact_mod_cast lt
  rcases le_total 0 q with h | h
  · exact nonneg h (by rwa [abs_of_nonneg h] at lt)
  · have opposite := nonneg (neg_nonneg.mpr h) (by rwa [abs_of_nonpos h] at lt)
    rwa [truncate_neg, abs_neg] at opposite

/-! ## To values -/

theorem clamp_eq_self {n : Int} (short : |n| ≤ 2 ^ 53) : (Value.clamp n).toInt = n := by
  obtain ⟨low, high⟩ := abs_le.mp short
  rw [Value.toInt_clamp, if_neg, if_neg]
  · show ¬ (9223372036854775807 : Int) < n
    omega
  · show ¬ n < (-9223372036854775808 : Int)
    omega

theorem clamp_eq_greatest {n : Int} (ge : Value.greatest.toInt ≤ n) :
    Value.clamp n = .greatest := by
  have not_low : ¬ n < Value.least.toInt := by
    rw [not_lt]
    exact le_trans (by decide) ge
  apply Value.ext
  rw [Value.toInt_clamp, if_neg not_low]
  split
  · rfl
  · exact le_antisymm (not_lt.mp ‹_›) ge

theorem clamp_eq_least {n : Int} (le : n ≤ Value.least.toInt) : Value.clamp n = .least := by
  have not_high : ¬ Value.greatest.toInt < n := by
    rw [not_lt]
    exact le.trans (by decide)
  apply Value.ext
  rw [Value.toInt_clamp, if_neg not_high]
  split
  · rfl
  · exact le_antisymm le (not_lt.mp ‹_›)

theorem nearest_eq_finite {q : Rat} (small : |q| ≤ 2 ^ 53) : nearest q = finite (round q) := by
  have bound := representable_pow 53
  obtain ⟨low, high⟩ := abs_le.mp (bound.abs_round_le small)
  have far : (2 : Rat) ^ 53 < 2 ^ (1024 : Int) :=
    zpow_lt_zpow_right₀ one_lt_two (by decide : (53 : Int) < 1024)
  simp only [nearest]
  rw [if_neg (not_le.mpr (high.trans_lt far)), if_neg (not_le.mpr ((neg_lt_neg far).trans_le low))]

/-- The value is what rounding and dropping the fraction leave of a number that is not too great. -/
theorem toInt_toValue_nearest {q : Rat} (small : |q| ≤ 2 ^ 53) :
    (nearest q).toValue.toInt = truncate (round q) := by
  have bound := representable_pow 53
  rw [nearest_eq_finite small]
  refine clamp_eq_self (abs_truncate_le ?_)
  calc |round q| ≤ 2 ^ 53 := bound.abs_round_le small
    _ < ((2 ^ 53 : Int) : Rat) + 1 := by norm_num

theorem toValue_nearest_intCast {n : Int} (short : |n| ≤ 2 ^ 53) :
    (nearest n).toValue.toInt = n := by
  rw [toInt_toValue_nearest (by exact_mod_cast short), (representable_intCast short).round_eq,
    truncate_intCast]

theorem toValue_nearest_of_le_half {q : Rat} (le : |q| ≤ 1 / 2) : (nearest q).toValue = 0 := by
  have half : Representable (1 / 2) := by
    have := representable_zpow (by decide : -1074 ≤ (-1 : Int))
    rwa [zpow_neg_one, ← one_div] at this
  have none_left : |truncate (round q)| ≤ 0 := by
    refine abs_truncate_le ((half.abs_round_le le).trans_lt ?_)
    norm_num
  apply Value.ext
  rw [toInt_toValue_nearest (le.trans (by norm_num)), Value.toInt_zero]
  exact abs_nonpos_iff.mp none_left

/-- A number from the end of the range on, infinite or not, has the greatest value. -/
theorem toValue_nearest_of_ge {q : Rat} (ge : 2 ^ 63 ≤ q) : (nearest q).toValue = .greatest := by
  have rounded := (representable_pow 63).le_round ge
  simp only [nearest]
  split_ifs with above below
  · rfl
  · have positive : 0 < round q := lt_of_lt_of_le (by positivity) rounded
    have nonpos : round q ≤ 0 := below.trans (neg_nonpos.mpr (by positivity))
    exact absurd positive (not_lt.mpr nonpos)
  · refine clamp_eq_greatest (le_trans ?_ (le_truncate (n := 2 ^ 63) (by decide) ?_))
    · decide
    · exact_mod_cast rounded

theorem toValue_nearest_of_le {q : Rat} (le : q ≤ -2 ^ 63) : (nearest q).toValue = .least := by
  have rounded := (representable_pow 63).neg.round_le le
  simp only [nearest]
  split_ifs with above below
  · have negative : round q < 0 := lt_of_le_of_lt rounded (by norm_num)
    have nonneg : 0 ≤ round q := le_trans (by positivity) above
    exact absurd negative (not_lt.mpr nonneg)
  · rfl
  · have opposite : 2 ^ 63 ≤ truncate (-round q) := by
      refine le_truncate (by decide) ?_
      push_cast
      linarith
    rw [truncate_neg] at opposite
    refine clamp_eq_least ?_
    show truncate (round q) ≤ -9223372036854775808
    omega

end Double

end Calculator
