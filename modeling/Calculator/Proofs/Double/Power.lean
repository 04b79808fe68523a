import Calculator.Expr.Eval
import Calculator.Proofs.Double.Conversion

/-!
# Powers

The power of two values is the exact power of the numbers of the format that they are rounded to,
rounded once more. A power of at most 53 bits has operands that need no rounding, and is exact. A
power beyond the range of values is beyond it on the same side after its base has been rounded, for
rounding keeps the sign of the base, and a base that it moves is great enough. A negative exponent
stays negative, and its power is at most a half.

1. `pow_eq_nearest`, `pow_natCast`: powers are rounded, infinite ones included.
2. `le_abs_roundInt_pow`, `pow_mul_roundInt_pow_nonneg`: what rounding the base leaves of a power.
3. `toValue_pow_of_short`, `toValue_pow_of_ge`, `toValue_pow_of_le`, `toValue_pow_of_neg`: what
   values powers have.
4. `power_exact`: the power of two values.
-/

namespace Calculator

namespace Double

/-! ## The power in the format -/

theorem nearest_intCast {n : Int} (short : |n| ≤ 2 ^ 53) : nearest n = finite n := by
  rw [nearest_eq_finite (by exact_mod_cast short), (representable_intCast short).round_eq]

theorem nearest_of_ge {q : Rat} (ge : (2 : Rat) ^ (1024 : Int) ≤ q) :
    nearest q = infinite false := by
  have rounded := (representable_zpow (by decide)).le_round ge
  simp only [nearest]
  rw [if_pos rounded]

theorem nearest_of_le {q : Rat} (le : q ≤ -(2 : Rat) ^ (1024 : Int)) :
    nearest q = infinite true := by
  have rounded := (representable_zpow (by decide)).neg.round_le le
  have apart : -(2 : Rat) ^ (1024 : Int) < 2 ^ (1024 : Int) := neg_lt_self (by positivity)
  simp only [nearest]
  rw [if_neg (not_le.mpr (rounded.trans_lt apart)), if_pos rounded]

theorem nearest_of_tiny {q : Rat} (tiny : |q| < (2 : Rat) ^ (-1075 : Int)) :
    nearest q = finite 0 := by
  have pos := quantum_pos q
  have part : |q / quantum q| < 1 / 2 := by
    rw [abs_div, abs_of_pos pos, div_lt_iff₀ pos]
    calc |q| < (2 : Rat) ^ (-1075 : Int) := tiny
      _ = 1 / 2 * (2 : Rat) ^ (-1074 : Int) := by
          rw [one_div, ← zpow_neg_one, ← zpow_add₀ two_ne_zero]
          rfl
      _ ≤ 1 / 2 * quantum q := by
          rw [quantum]
          gcongr
          · exact one_le_two
          · exact le_max_right _ _
  have none_left : roundHalfEven (q / quantum q) = 0 := by
    have near := abs_le.mp (abs_roundHalfEven_sub_le (q / quantum q))
    have part := abs_lt.mp part
    rw [← Int.abs_lt_one_iff, ← Int.cast_lt (R := Rat), Int.cast_abs, abs_lt]
    constructor <;> push_cast <;> linarith
  have small : |q| ≤ 2 ^ 53 := by
    have le : (2 : Rat) ^ (-1075 : Int) ≤ 2 ^ (53 : Int) :=
      zpow_le_zpow_right₀ one_le_two (by decide)
    exact tiny.le.trans le
  rw [nearest_eq_finite small, round, none_left, Int.cast_zero, zero_mul]

section

variable {x : Rat} {e : Int}

theorem two_zpow_le_abs_zpow (ge : 2 ≤ |x|) (nonneg : 0 ≤ e) : 2 ^ e ≤ |x ^ e| := by
  rw [abs_zpow]
  exact zpow_le_zpow_left₀ nonneg (by norm_num) ge

theorem abs_zpow_le_two_zpow (ge : 2 ≤ |x|) (nonpos : e ≤ 0) : |x ^ e| ≤ 2 ^ e := by
  have pos : 0 < |x ^ e| := by
    rw [abs_zpow]
    exact zpow_pos (lt_of_lt_of_le two_pos ge) e
  have le := two_zpow_le_abs_zpow ge (Int.neg_nonneg.mpr nonpos)
  rw [zpow_neg, zpow_neg, abs_inv] at le
  exact (inv_le_inv₀ (by positivity) pos).mp le

end

theorem unit_zpow {base : Int} (unit : base.natAbs = 1) (e : Int) :
    (base : Rat) ^ e = (if e % 2 = 0 then 1 else base : Int) := by
  split
  · next even =>
    rw [← (Int.even_iff.mpr even).zpow_abs, ← Int.cast_abs, Int.abs_eq_natAbs, unit, Nat.cast_one,
      Int.cast_one, one_zpow]
  · next odd =>
    have odd : Odd e := Int.odd_iff.mpr (by omega)
    rcases Int.natAbs_eq_iff.mp unit with rfl | rfl
    · rw [Nat.cast_one, Int.cast_one, one_zpow]
    · rw [Nat.cast_one, Int.cast_neg, Int.cast_one, odd.neg_one_zpow]

/-- A power that is too great is negative for a negative base and an odd exponent. -/
theorem nearest_zpow_of_big {base : Int} {e : Int} (two_le : 2 ≤ |(base : Rat)|)
    (big : 1024 ≤ e) :
    nearest ((base : Rat) ^ e) = infinite (base < 0 ∧ e % 2 = 1) := by
  have great : (2 : Rat) ^ (1024 : Int) ≤ |(base : Rat) ^ e| :=
    (zpow_le_zpow_right₀ one_le_two big).trans (two_zpow_le_abs_zpow two_le (by omega))
  by_cases downward : base < 0 ∧ e % 2 = 1
  · have negative : (base : Rat) ^ e < 0 :=
      (Int.odd_iff.mpr downward.2).zpow_neg (by exact_mod_cast downward.1)
    rw [abs_of_neg negative] at great
    rw [nearest_of_le (le_neg_of_le_neg great), decide_eq_true downward]
  · have ne : (base : Rat) ≠ 0 := abs_pos.mp (lt_of_lt_of_le two_pos two_le)
    have positive : 0 < (base : Rat) ^ e := by
      rcases Int.even_or_odd e with even | odd
      · exact even.zpow_pos ne
      · have nonneg : 0 ≤ base := not_lt.mp fun negative => downward ⟨negative, Int.odd_iff.mp odd⟩
        have pos : (0 : Rat) < base := lt_of_le_of_ne (by exact_mod_cast nonneg) ne.symm
        exact zpow_pos pos e
    rw [abs_of_pos positive] at great
    rw [nearest_of_ge great, decide_eq_false downward]

theorem pow_eq_nearest {base : Int} (ne : base ≠ 0) (exponent : Int) :
    pow base exponent = nearest ((base : Rat) ^ exponent) := by
  by_cases none_left : exponent = 0
  · rw [pow, if_pos none_left, none_left, zpow_zero]
    exact_mod_cast (nearest_intCast (n := 1) (by decide)).symm
  rw [pow, if_neg none_left, if_neg ne]
  by_cases unit : base.natAbs = 1
  · have short : |if exponent % 2 = 0 then 1 else base| ≤ 2 ^ 53 := by
      split
      · decide
      · rw [Int.abs_eq_natAbs, unit]
        decide
    rw [if_pos unit, unit_zpow unit, nearest_intCast short]
    push_cast
    rfl
  · have two_le : 2 ≤ |(base : Rat)| := by
      have : 2 ≤ |base| := by
        rw [Int.abs_eq_natAbs]
        omega
      exact_mod_cast this
    rw [if_neg unit]
    split_ifs with big negligible
    · exact (nearest_zpow_of_big two_le big).symm
    · have tiny : |(base : Rat) ^ exponent| < 2 ^ (-1075 : Int) :=
        (abs_zpow_le_two_zpow two_le (by omega)).trans_lt
          (zpow_lt_zpow_right₀ one_lt_two (by omega))
      exact (nearest_of_tiny tiny).symm
    · rfl

theorem pow_natCast (base : Int) (n : Nat) : pow base n = nearest ((base ^ n : Int) : Rat) := by
  rcases eq_or_ne base 0 with rfl | ne
  · cases n with
    | zero => exact (nearest_intCast (n := 1) (by decide)).symm
    | succ n =>
      rw [zero_pow n.succ_ne_zero, nearest_intCast (by decide), Int.cast_zero, pow,
        if_neg (by omega), if_pos rfl, if_pos (by omega)]
  · rw [pow_eq_nearest ne, zpow_natCast, Int.cast_pow]

/-! ## The power of rounded operands -/

section

variable {base exponent : Int} {n : Nat}

theorem toValue_pow_of_short (short' : n ≤ 2 ^ 53) (short : |base ^ n| ≤ 2 ^ 53) :
    (pow (roundInt base) (roundInt n)).toValue.toInt = base ^ n := by
  rw [roundInt_natCast short', pow_natCast]
  rcases Nat.eq_zero_or_pos n with rfl | pos
  · simp only [pow_zero] at short ⊢
    exact toValue_nearest_intCast short
  · have le : |base| ≤ |base ^ n| := by
      rcases eq_or_ne base 0 with rfl | ne
      · exact abs_zero.trans_le (abs_nonneg _)
      · rw [abs_pow]
        exact le_self_pow₀ (Int.one_le_abs ne) pos.ne'
    rw [roundInt_eq (le.trans short)]
    exact toValue_nearest_intCast short

/-- A power beyond the range is beyond it after its base has been rounded. -/
theorem le_abs_roundInt_pow (great : 2 ^ 63 ≤ |base ^ n|) : 2 ^ 63 ≤ |roundInt base ^ n| := by
  by_cases short : |base| ≤ 2 ^ 53
  · rwa [roundInt_eq short]
  · match n with
    | 0 => rwa [pow_zero] at great ⊢
    | 1 =>
      rw [pow_one] at great ⊢
      exact le_abs_roundInt (by exact_mod_cast representable_pow 63) great
    | n + 2 =>
      have bound : Representable ((2 ^ 53 : Int) : Rat) := representable_intCast (by decide)
      have ge : 2 ^ 53 ≤ |roundInt base| := le_abs_roundInt bound (not_le.mp short).le
      rw [abs_pow]
      calc (2 : Int) ^ 63 ≤ (2 ^ 53) ^ 2 := by decide
        _ ≤ |roundInt base| ^ 2 := by gcongr
        _ ≤ |roundInt base| ^ (n + 2) := by
            gcongr
            · omega
            · omega

theorem pow_mul_roundInt_pow_nonneg (base : Int) (n : Nat) : 0 ≤ base ^ n * roundInt base ^ n := by
  rw [← mul_pow]
  exact pow_nonneg (mul_roundInt_nonneg base) n

theorem toValue_pow_of_ge (short' : n ≤ 2 ^ 53) (ge : 2 ^ 63 ≤ base ^ n) :
    (pow (roundInt base) (roundInt n)).toValue = .greatest := by
  have great := le_abs_roundInt_pow (ge.trans (le_abs_self _))
  have upward : 0 ≤ roundInt base ^ n :=
    nonneg_of_mul_nonneg_right (pow_mul_roundInt_pow_nonneg base n) (by omega)
  rw [abs_of_nonneg upward] at great
  rw [roundInt_natCast short', pow_natCast]
  exact toValue_nearest_of_ge (by exact_mod_cast great)

theorem toValue_pow_of_le (short' : n ≤ 2 ^ 53) (le : base ^ n ≤ -2 ^ 63) :
    (pow (roundInt base) (roundInt n)).toValue = .least := by
  have great := le_abs_roundInt_pow ((by omega : 2 ^ 63 ≤ -(base ^ n)).trans (neg_le_abs _))
  have downward : roundInt base ^ n ≤ 0 :=
    nonpos_of_mul_nonneg_right (pow_mul_roundInt_pow_nonneg base n) (by omega)
  rw [abs_of_nonpos downward] at great
  rw [roundInt_natCast short', pow_natCast]
  refine toValue_nearest_of_le ?_
  have : roundInt base ^ n ≤ -2 ^ 63 := by omega
  exact_mod_cast this

theorem roundInt_neg_of_neg (negative : exponent < 0) : roundInt exponent ≤ -1 :=
  roundInt_le (representable_intCast (by decide)) (by omega)

theorem toValue_pow_of_neg (negative : exponent < 0) (ge : 2 ≤ |base|) :
    (pow (roundInt base) (roundInt exponent)).toValue = 0 := by
  have negative := roundInt_neg_of_neg negative
  have ge : 2 ≤ |roundInt base| := by
    have bound : Representable ((2 : Int) : Rat) := representable_intCast (by decide)
    exact le_abs_roundInt bound ge
  have ne : roundInt base ≠ 0 := abs_pos.mp (by omega)
  rw [pow_eq_nearest ne]
  refine toValue_nearest_of_le_half ?_
  calc |(roundInt base : Rat) ^ roundInt exponent| ≤ 2 ^ roundInt exponent :=
        abs_zpow_le_two_zpow (by exact_mod_cast ge) (by omega)
    _ ≤ 2 ^ (-1 : Int) := zpow_le_zpow_right₀ one_le_two negative
    _ = 1 / 2 := by rw [zpow_neg_one, one_div]

theorem toValue_pow_zero_of_neg (negative : exponent < 0) :
    (pow (roundInt 0) (roundInt exponent)).toValue = .greatest := by
  have negative := roundInt_neg_of_neg negative
  rw [roundInt_eq (by decide), pow, if_neg (by omega), if_pos rfl, if_neg (by omega)]
  rfl

end

end Double

/-- The power always has a value. It is exact where the exponent and the power have at most 53 bits,
the end of the range on the side of a power that is beyond it, zero for a negative exponent and a
base of two or more, and the end of the range for a negative exponent and a base of zero. -/
theorem power_exact (l r : Value) :
    ∃ v, Operator.power.apply l r = .ok v ∧
      (0 ≤ r.toInt → r.toInt ≤ 2 ^ 53 →
        (|l.toInt ^ r.toInt.toNat| ≤ 2 ^ 53 → v.toInt = l.toInt ^ r.toInt.toNat) ∧
        (2 ^ 63 ≤ l.toInt ^ r.toInt.toNat → v = .greatest) ∧
        (l.toInt ^ r.toInt.toNat ≤ -2 ^ 63 → v = .least)) ∧
      (r.toInt < 0 →
        (2 ≤ |l.toInt| → v = 0) ∧
        (l.toInt = 0 → v = .greatest)) := by
  refine ⟨l.pow r, rfl, fun nonneg few => ?_, fun negative => ?_⟩
  · obtain ⟨n, exponent⟩ := Int.eq_ofNat_of_zero_le nonneg
    rw [Value.pow, exponent, Int.toNat_natCast]
    have few : n ≤ 2 ^ 53 := by omega
    exact ⟨Double.toValue_pow_of_short few, Double.toValue_pow_of_ge few,
      Double.toValue_pow_of_le few⟩
  · refine ⟨Double.toValue_pow_of_neg negative, fun base => ?_⟩
    rw [Value.pow, base]
    exact Double.toValue_pow_zero_of_neg negative

/-- `(-2) ^ 3` is exact, `10 ^ 30` and `(-10) ^ 31` are beyond the range on either side, `2 ^ -1`
vanishes, and `0 ^ -1` is infinite. -/
theorem power_exact_cases :
    (∃ v, Operator.power.apply (.clamp (-2)) (.clamp 3) = .ok v ∧ v.toInt = -8) ∧
    (∃ v, Operator.power.apply (.clamp 10) (.clamp 30) = .ok v ∧ v = .greatest) ∧
    (∃ v, Operator.power.apply (.clamp (-10)) (.clamp 31) = .ok v ∧ v = .least) ∧
    (∃ v, Operator.power.apply (.clamp 2) (.clamp (-1)) = .ok v ∧ v = 0) ∧
    (∃ v, Operator.power.apply (.clamp 0) (.clamp (-1)) = .ok v ∧ v = .greatest) := by
  refine ⟨?_, ?_, ?_, ?_, ?_⟩
  · obtain ⟨v, value, whole, -⟩ := power_exact (.clamp (-2)) (.clamp 3)
    exact ⟨v, value, (whole (by decide) (by decide)).1 (by decide)⟩
  · obtain ⟨v, value, whole, -⟩ := power_exact (.clamp 10) (.clamp 30)
    exact ⟨v, value, (whole (by decide) (by decide)).2.1 (by decide)⟩
  · obtain ⟨v, value, whole, -⟩ := power_exact (.clamp (-10)) (.clamp 31)
    exact ⟨v, value, (whole (by decide) (by decide)).2.2 (by decide)⟩
  · obtain ⟨v, value, -, inverse⟩ := power_exact (.clamp 2) (.clamp (-1))
    exact ⟨v, value, (inverse (by decide)).1 (by decide)⟩
  · obtain ⟨v, value, -, inverse⟩ := power_exact (.clamp 0) (.clamp (-1))
    exact ⟨v, value, (inverse (by decide)).2 (by decide)⟩

end Calculator
