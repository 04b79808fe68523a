import Calculator.Expr.Eval
import Calculator.Proofs.Double.Conversion

/-!
# Means

A mean is exact up to the fraction that is dropped, as long as the sum and the number of values have
no more than 53 bits. Their quotient is away from every other integer by one part in the divisor at
least, and rounding moves it by less.

1. `one_div_le_abs_div_sub`, `abs_round_div_sub_lt`: rounding moves a quotient by less than its
   distance from an integer.
2. `cmp_round_div`: so it stays on its side of every integer.
3. `average_exact`: the mean of a list of values.
-/

namespace Calculator

namespace Double

section

variable {a : Int} {b : Nat}

/-- The distance of a quotient from an integer is a whole number of `b`th parts. -/
theorem one_div_le_abs_div_sub (b_pos : 0 < b) {k : Int} (ne : (a : Rat) / b ≠ k) :
    1 / (b : Rat) ≤ |(a : Rat) / b - k| := by
  have pos : (0 : Rat) < b := by exact_mod_cast b_pos
  have whole : (a : Rat) / b - k = ((a - k * b : Int) : Rat) / b := by
    push_cast
    rw [sub_div, mul_div_cancel_right₀ _ pos.ne']
  have some_parts : a - k * b ≠ 0 := fun none_left => ne <| by
    rw [← sub_eq_zero, whole, none_left, Int.cast_zero, zero_div]
  rw [whole, abs_div, abs_of_pos pos]
  gcongr
  exact_mod_cast Int.one_le_abs some_parts

/-- A quotient with a short divisor is not too close to zero. -/
theorem normal_div (b_pos : 0 < b) (short' : b ≤ 2 ^ 53) (a_ne : a ≠ 0) :
    (2 : Rat) ^ (-1022 : Int) ≤ |(a : Rat) / b| := by
  have pos : (0 : Rat) < b := by exact_mod_cast b_pos
  have one_le : (1 : Rat) ≤ |(a : Rat)| := by exact_mod_cast Int.one_le_abs a_ne
  have short' : (b : Rat) ≤ 2 ^ 53 := by exact_mod_cast short'
  calc (2 : Rat) ^ (-1022 : Int) ≤ 2 ^ (-53 : Int) := zpow_le_zpow_right₀ one_le_two (by decide)
    _ = 1 / 2 ^ 53 := by
        rw [zpow_neg, one_div]
        rfl
    _ ≤ |(a : Rat)| / b := by gcongr
    _ = |(a : Rat) / b| := by rw [abs_div, abs_of_pos pos]

/-- A quotient is moved by less than its distance from any integer but itself. -/
theorem abs_round_div_sub_lt (b_pos : 0 < b) (short : |a| ≤ 2 ^ 53) (short' : b ≤ 2 ^ 53) {k : Int}
    (ne : (a : Rat) / b ≠ k) : |round ((a : Rat) / b) - (a : Rat) / b| < |(a : Rat) / b - k| := by
  rcases eq_or_ne a 0 with rfl | a_ne
  · have zero : Representable 0 := by exact_mod_cast representable_intCast (n := 0) (by decide)
    rw [Int.cast_zero, zero_div] at ne ⊢
    rw [zero.round_eq, sub_self, abs_zero]
    exact abs_pos.mpr (sub_ne_zero.mpr ne)
  · have pos : (0 : Rat) < b := by exact_mod_cast b_pos
    have quotient_ne : (a : Rat) / b ≠ 0 := div_ne_zero (by exact_mod_cast a_ne) pos.ne'
    have short : |(a : Rat)| ≤ 2 ^ 53 := by exact_mod_cast short
    calc |round ((a : Rat) / b) - (a : Rat) / b| < |(a : Rat) / b| / 2 ^ 53 :=
          abs_round_sub_lt quotient_ne (normal_div b_pos short' a_ne)
      _ = |(a : Rat)| / 2 ^ 53 / b := by rw [abs_div, abs_of_pos pos, div_right_comm]
      _ ≤ 1 / b := by
          gcongr
          exact (div_le_one (by positivity)).mpr short
      _ ≤ |(a : Rat) / b - k| := one_div_le_abs_div_sub b_pos ne

theorem cmp_round_div (b_pos : 0 < b) (short : |a| ≤ 2 ^ 53) (short' : b ≤ 2 ^ 53) (k : Int) :
    cmp (round ((a : Rat) / b)) k = cmp ((a : Rat) / b) k := by
  rcases eq_or_ne ((a : Rat) / b) k with eq | ne
  · have product : k * b = a := by
      have pos : (b : Rat) ≠ 0 := by exact_mod_cast b_pos.ne'
      exact_mod_cast (div_eq_iff pos).mp eq |>.symm
    have le : |k| ≤ |a| := by
      rw [← product, abs_mul]
      exact le_mul_of_one_le_right (abs_nonneg k) (Int.one_le_abs (by omega))
    rw [eq, (representable_intCast (le.trans short)).round_eq]
  · have near := abs_lt.mp (abs_round_div_sub_lt b_pos short short' ne)
    rcases lt_or_gt_of_ne ne with below | above
    · rw [abs_of_neg (sub_neg.mpr below)] at near
      rw [cmp_eq_lt_iff _ _ |>.mpr below, cmp_eq_lt_iff]
      linarith
    · rw [abs_of_pos (sub_pos.mpr above)] at near
      rw [cmp_eq_gt_iff _ _ |>.mpr above, cmp_eq_gt_iff]
      linarith

end

/-- What the fraction is dropped from matters only up to the integers around it. -/
theorem truncate_eq_of_cmp {x y : Rat} (h : ∀ k : Int, cmp x k = cmp y k) :
    truncate x = truncate y := by
  have side : x < (0 : Int) ↔ y < (0 : Int) := lt_iff_lt_of_cmp_eq_cmp (h 0)
  rw [Int.cast_zero] at side
  rcases lt_or_ge x 0 with negative | nonneg
  · rw [truncate_of_nonpos negative.le, truncate_of_nonpos (side.mp negative).le]
    refine eq_of_forall_lt_iff fun k => ?_
    rw [Int.lt_ceil, Int.lt_ceil]
    exact lt_iff_lt_of_cmp_eq_cmp (cmp_eq_cmp_symm.mp (h k))
  · rw [truncate_of_nonneg nonneg, truncate_of_nonneg (not_lt.mp (mt side.mpr nonneg.not_gt))]
    refine eq_of_forall_gt_iff fun k => ?_
    rw [Int.floor_lt, Int.floor_lt]
    exact lt_iff_lt_of_cmp_eq_cmp (h k)

theorem div_roundInt {a : Int} {b : Nat} (b_pos : 0 < b) (short : |a| ≤ 2 ^ 53)
    (short' : b ≤ 2 ^ 53) :
    div (roundInt a) (roundInt b) = finite (round ((a : Rat) / b)) ∧
    (div (roundInt a) (roundInt b)).toValue.toInt = a.tdiv b := by
  have small : |(a : Rat) / b| ≤ 2 ^ 53 := by
    have one_le : (1 : Rat) ≤ b := by exact_mod_cast b_pos
    calc |(a : Rat) / b| = |(a : Rat)| / b := by rw [abs_div, Nat.abs_cast]
      _ ≤ |(a : Rat)| := div_le_self (abs_nonneg _) one_le
      _ ≤ 2 ^ 53 := by exact_mod_cast short
  rw [div, roundInt_eq short, roundInt_natCast short', Int.cast_natCast,
    toInt_toValue_nearest small]
  refine ⟨nearest_eq_finite small, ?_⟩
  rw [truncate_eq_of_cmp (cmp_round_div b_pos short short'), truncate_div]

end Double

theorem Aggregate.apply_average {vs : List Value} {s : Value} (nonempty : vs ≠ [])
    (total : Aggregate.total vs = .ok s) :
    Aggregate.average.apply vs = .ok (s.mean vs.length) := by
  cases vs with
  | nil => contradiction
  | cons v vs =>
    rw [Aggregate.apply, total]
    rfl

/-- The mean of values whose sum has at most 53 bits is their sum over their number, without the
fraction. The quotient that is computed on the way compares to every integer as the exact one. -/
theorem average_exact {vs : List Value} {s : Value} (nonempty : vs ≠ [])
    (few : vs.length ≤ 2 ^ 53) (total : Aggregate.total vs = .ok s) (short : |s.toInt| ≤ 2 ^ 53) :
    ∃ v q, Aggregate.average.apply vs = .ok v ∧
      v.toInt = s.toInt.tdiv vs.length ∧
      Double.div (Double.roundInt s.toInt) (Double.roundInt vs.length) = .finite q ∧
      ∀ k : Int, cmp q k = cmp ((s.toInt : Rat) / vs.length) k := by
  have pos := List.length_pos_iff.mpr nonempty
  obtain ⟨quotient, value⟩ := Double.div_roundInt pos short few
  exact ⟨s.mean vs.length, _, Aggregate.apply_average nonempty total, value, quotient,
    Double.cmp_round_div pos short few⟩

/-- The mean of `-1` and `-2` is `-1`. -/
theorem average_exact_negative :
    ∃ v q, Aggregate.average.apply [Value.clamp (-1), Value.clamp (-2)] = .ok v ∧
      v.toInt = -1 ∧
      Double.div (Double.roundInt (-3)) (Double.roundInt 2) = .finite q ∧
      ∀ k : Int, cmp q k = cmp (((-3 : Int) : Rat) / (2 : Nat)) k :=
  average_exact (s := Value.clamp (-3)) (List.cons_ne_nil _ _) (by decide) (by decide) (by decide)

end Calculator
