import Calculator.Double
import Mathlib.Algebra.Order.Field.Power
import Mathlib.Data.Rat.Floor
import Mathlib.Tactic.Linarith
import Mathlib.Tactic.NormNum.Pow
import Mathlib.Tactic.Positivity
import Mathlib.Tactic.Ring

/-!
# Rounding

What rounding into the format does to a rational, without its exponent and its quantum. A number of
the format is a whole number of at most 53 bits times a power of two. Rounding does not cross a
number of the format, so it keeps one as it is, and it moves any other number by less than its
`2 ^ 53`rd part, as long as the number is not too close to zero.

1. `exponent_spec`: the binary exponent.
2. `Representable.le_round`, `Representable.round_le`: rounding crosses no number of the format.
3. `Representable.round_eq`: a number of the format stays as it is.
4. `representable_round`, `Representable.round_nearest`: the rounded number is one of the format,
   and none of the format is nearer.
5. `abs_round_sub_lt`: how far rounding moves a number.
-/

namespace Calculator

namespace Double

/-! ## To the nearest integer -/

theorem roundHalfEven_cases (q : Rat) :
    (roundHalfEven q = ⌊q⌋ ∧ q - ⌊q⌋ ≤ 1 / 2) ∨
      (roundHalfEven q = ⌊q⌋ + 1 ∧ 1 / 2 ≤ q - ⌊q⌋) := by
  have floor : q.floor = ⌊q⌋ := rfl
  simp only [roundHalfEven, floor]
  split
  · next near =>
    refine .inl ⟨rfl, ?_⟩
    rcases near with near | ⟨half, -⟩
    · exact near.le
    · exact half.le
  · next far => exact .inr ⟨rfl, le_of_not_gt fun near => far (.inl near)⟩

theorem le_roundHalfEven {q : Rat} {n : Int} (h : (n : Rat) ≤ q) : n ≤ roundHalfEven q := by
  have := Int.le_floor.mpr h
  rcases roundHalfEven_cases q with ⟨eq, -⟩ | ⟨eq, -⟩ <;> omega

theorem abs_roundHalfEven_sub_le (q : Rat) : |(roundHalfEven q : Rat) - q| ≤ 1 / 2 := by
  have below := Int.floor_le q
  have above := Int.lt_floor_add_one q
  rw [abs_le]
  rcases roundHalfEven_cases q with ⟨eq, near⟩ | ⟨eq, near⟩
  · rw [eq]
    constructor <;> linarith
  · rw [eq, Int.cast_add, Int.cast_one]
    constructor <;> linarith

theorem roundHalfEven_intCast (n : Int) : roundHalfEven n = n := by
  rcases roundHalfEven_cases n with ⟨eq, -⟩ | ⟨-, far⟩
  · rw [eq, Int.floor_intCast]
  · rw [Int.floor_intCast, sub_self] at far
    norm_num at far

/-- Halfway between two integers the even one has an even negation. -/
theorem roundHalfEven_neg (q : Rat) : roundHalfEven (-q) = -roundHalfEven q := by
  by_cases whole : (⌊q⌋ : Rat) = q
  · rw [← whole, ← Int.cast_neg, roundHalfEven_intCast, roundHalfEven_intCast]
  · have below : (⌊q⌋ : Rat) < q := lt_of_le_of_ne (Int.floor_le q) whole
    have above := Int.lt_floor_add_one q
    have floor_neg : (-q).floor = -⌊q⌋ - 1 := by
      show ⌊-q⌋ = -⌊q⌋ - 1
      rw [Int.floor_eq_iff]
      push_cast
      constructor <;> linarith
    have floor : q.floor = ⌊q⌋ := rfl
    simp only [roundHalfEven, floor, floor_neg, Int.cast_sub, Int.cast_neg, Int.cast_one]
    -- What is left of `q` and of `-q` makes one, and the integers below them are not both even.
    split_ifs with down down' down'
    · exfalso
      rcases down with near | ⟨half, even⟩ <;> rcases down' with near' | ⟨half', even'⟩
      · linarith
      · linarith
      · linarith
      · omega
    · omega
    · omega
    · exfalso
      rw [not_or, not_and, not_lt] at down down'
      obtain ⟨far, odd⟩ := down
      obtain ⟨far', odd'⟩ := down'
      have := odd (by linarith)
      have := odd' (by linarith)
      omega

/-! ## Exponent and quantum -/

theorem exponent_spec {q : Rat} (ne : q ≠ 0) :
    (2 : Rat) ^ exponent q ≤ |q| ∧ |q| < (2 : Rat) ^ (exponent q + 1) := by
  have den_pos : (0 : Rat) < q.den := by exact_mod_cast q.den_pos
  have quotient : |q| = (q.num.natAbs : Rat) / q.den := by
    rw [Nat.cast_natAbs, Int.cast_abs]
    nth_rewrite 1 [← Rat.num_div_den q]
    rw [abs_div, abs_of_pos den_pos]
  have log {n : Nat} (pos : n ≠ 0) :
      (2 : Rat) ^ (n.log2 : Int) ≤ n ∧ (n : Rat) < (2 : Rat) ^ (n.log2 : Int) * 2 := by
    have low := Nat.log2_self_le pos
    have high := Nat.lt_log2_self (n := n)
    rw [pow_succ] at high
    rw [zpow_natCast]
    exact ⟨by exact_mod_cast low, by exact_mod_cast high⟩
  obtain ⟨num_low, num_high⟩ := log (Int.natAbs_ne_zero.mpr (Rat.num_ne_zero.mpr ne))
  obtain ⟨den_low, den_high⟩ := log q.den_nz
  rw [quotient, le_div_iff₀ den_pos, div_lt_iff₀ den_pos]
  generalize guess_eq : (q.num.natAbs.log2 - q.den.log2 : Int) = guess
  have num_split : (2 : Rat) ^ (q.num.natAbs.log2 : Int) = 2 ^ guess * 2 ^ (q.den.log2 : Int) := by
    rw [← zpow_add₀ two_ne_zero, ← guess_eq, sub_add_cancel]
  rw [num_split] at num_low num_high
  simp only [exponent, guess_eq]
  -- The lengths of numerator and denominator give the exponent, or one more.
  split
  · next fits =>
    refine ⟨fits, ?_⟩
    calc (q.num.natAbs : Rat) < 2 ^ guess * 2 ^ (q.den.log2 : Int) * 2 := num_high
      _ ≤ 2 ^ guess * q.den * 2 := by gcongr
      _ = 2 ^ (guess + 1) * q.den := by
          rw [zpow_add_one₀ two_ne_zero]
          ring
  · next above =>
    rw [sub_add_cancel]
    refine ⟨?_, not_le.mp above⟩
    calc (2 : Rat) ^ (guess - 1) * q.den ≤ 2 ^ (guess - 1) * (2 ^ (q.den.log2 : Int) * 2) := by
          gcongr
      _ = 2 ^ (guess - 1 + 1) * 2 ^ (q.den.log2 : Int) := by
          rw [zpow_add_one₀ two_ne_zero]
          ring
      _ ≤ q.num.natAbs := by
          rw [sub_add_cancel]
          exact num_low

theorem exponent_neg (q : Rat) : exponent (-q) = exponent q := by
  simp only [exponent, Rat.neg_num, Rat.neg_den, Int.natAbs_neg]

theorem quantum_neg (q : Rat) : quantum (-q) = quantum q := by
  rw [quantum, exponent_neg, quantum]

theorem quantum_pos (q : Rat) : 0 < quantum q := by
  rw [quantum]
  positivity

/-- Powers of two from the quantum on are multiples of it. -/
theorem exists_zpow_eq {q : Rat} {e : Int} (ge : exponent q - 52 ≤ e) (ge' : -1074 ≤ e) :
    ∃ n : Int, (2 : Rat) ^ e = n * quantum q := by
  obtain ⟨n, hn⟩ := Int.le.dest (max_le ge ge')
  refine ⟨2 ^ n, ?_⟩
  rw [← hn, quantum, zpow_add₀ two_ne_zero, zpow_natCast, mul_comm]
  push_cast
  rfl

/-! ## Numbers of the format -/

/-- A number of the format: a whole number of 53 bits times a power of two. It may be greater than
the numbers that are finite there. -/
def Representable (x : Rat) : Prop :=
  ∃ m e : Int, |m| ≤ 2 ^ 53 ∧ -1074 ≤ e ∧ x = m * 2 ^ e

theorem Representable.neg {x : Rat} (h : Representable x) : Representable (-x) := by
  obtain ⟨m, e, short, ge, rfl⟩ := h
  exact ⟨-m, e, by rwa [abs_neg], ge, by rw [Int.cast_neg, neg_mul]⟩

theorem representable_intCast {n : Int} (short : |n| ≤ 2 ^ 53) : Representable n :=
  ⟨n, 0, short, by decide, by rw [zpow_zero, mul_one]⟩

theorem representable_zpow {e : Int} (ge : -1074 ≤ e) : Representable (2 ^ e) :=
  ⟨1, e, by norm_num, ge, by rw [Int.cast_one, one_mul]⟩

theorem representable_pow (n : Nat) : Representable (2 ^ n) := by
  rw [← zpow_natCast]
  exact representable_zpow (by omega)

/-! ## Rounding crosses no number of the format -/

theorem round_neg (q : Rat) : round (-q) = -round q := by
  rw [round, quantum_neg, neg_div, roundHalfEven_neg, Int.cast_neg, neg_mul, round]

/-- The multiple of the quantum that is next below, or the number itself. -/
def below (q : Rat) : Rat := ⌊q / quantum q⌋ * quantum q

theorem below_le (q : Rat) : below q ≤ q :=
  (le_div_iff₀ (quantum_pos q)).mp (Int.floor_le _)

theorem below_le_round (q : Rat) : below q ≤ round q := by
  have := le_roundHalfEven (Int.floor_le (q / quantum q))
  rw [below, round]
  exact mul_le_mul_of_nonneg_right (by exact_mod_cast this) (quantum_pos q).le

theorem le_below_of_multiple {q : Rat} {n : Int} (h : n * quantum q ≤ q) :
    n * quantum q ≤ below q := by
  have := Int.le_floor.mpr ((le_div_iff₀ (quantum_pos q)).mpr h)
  rw [below]
  exact mul_le_mul_of_nonneg_right (by exact_mod_cast this) (quantum_pos q).le

/-- There is no number of the format between a number and the multiple of the quantum below it. -/
theorem Representable.le_below {q x : Rat} (h : Representable x) (le : x ≤ q) : x ≤ below q := by
  obtain ⟨m, e, short, ge, rfl⟩ := h
  by_cases fine : exponent q - 52 ≤ e
  · -- The power is one of the quantum or above.
    obtain ⟨n, power⟩ := exists_zpow_eq fine ge
    rw [power, ← mul_assoc, ← Int.cast_mul] at le ⊢
    exact le_below_of_multiple le
  · -- The number is nearer to zero than the power of two that `q` begins with.
    obtain ⟨n, power⟩ := exists_zpow_eq (q := q) (e := exponent q) (by omega) (by omega)
    have near : |(m : Rat) * 2 ^ e| ≤ 2 ^ exponent q := by
      have short : |(m : Rat)| ≤ 2 ^ (53 : Int) := by exact_mod_cast short
      calc |(m : Rat) * 2 ^ e| = |(m : Rat)| * 2 ^ e := by
            rw [abs_mul, abs_of_pos (by positivity : (0 : Rat) < 2 ^ e)]
        _ ≤ 2 ^ (53 : Int) * 2 ^ e := by gcongr
        _ = 2 ^ (53 + e) := (zpow_add₀ two_ne_zero _ _).symm
        _ ≤ 2 ^ exponent q := zpow_le_zpow_right₀ one_le_two (by omega)
    obtain ⟨low, high⟩ := abs_le.mp near
    rcases lt_trichotomy q 0 with negative | zero | positive
    · have begins := (exponent_spec negative.ne).1
      rw [abs_of_neg negative] at begins
      have same : (m : Rat) * 2 ^ e = (-n : Int) * quantum q := by
        rw [Int.cast_neg, neg_mul, ← power]
        linarith
      rw [same] at le ⊢
      exact le_below_of_multiple le
    · have same : (0 : Int) * quantum q ≤ below q :=
        le_below_of_multiple (by rw [Int.cast_zero, zero_mul, zero])
      rw [Int.cast_zero, zero_mul] at same
      exact (le.trans_eq zero).trans same
    · have begins := (exponent_spec positive.ne').1
      rw [abs_of_pos positive] at begins
      rw [power] at begins high
      exact high.trans (le_below_of_multiple begins)

theorem Representable.le_round {q x : Rat} (h : Representable x) (le : x ≤ q) : x ≤ round q :=
  (h.le_below le).trans (below_le_round q)

theorem Representable.round_le {q x : Rat} (h : Representable x) (ge : q ≤ x) : round q ≤ x := by
  have negated := h.neg.le_round (neg_le_neg ge)
  rw [round_neg] at negated
  exact neg_le_neg_iff.mp negated

theorem Representable.abs_round_le {q x : Rat} (h : Representable x) (le : |q| ≤ x) :
    |round q| ≤ x := by
  obtain ⟨low, high⟩ := abs_le.mp le
  exact abs_le.mpr ⟨h.neg.le_round low, h.round_le high⟩

theorem Representable.round_eq {x : Rat} (h : Representable x) : round x = x :=
  le_antisymm (h.round_le le_rfl) (h.le_round le_rfl)

/-! ## How far a number is moved -/

theorem abs_round_sub_le (q : Rat) : |round q - q| ≤ quantum q / 2 := by
  have pos := quantum_pos q
  calc |round q - q| = |(roundHalfEven (q / quantum q) : Rat) - q / quantum q| * quantum q := by
        rw [← abs_of_pos pos, ← abs_mul, abs_of_pos pos, sub_mul, div_mul_cancel₀ _ pos.ne', round]
    _ ≤ 1 / 2 * quantum q := by
        gcongr
        exact abs_roundHalfEven_sub_le _
    _ = quantum q / 2 := by ring

/-- No number of the format is nearer than the rounded one. -/
theorem Representable.round_nearest {q x : Rat} (h : Representable x) :
    |round q - q| ≤ |x - q| := by
  have from_below {q x : Rat} (h : Representable x) (le : x ≤ q) : |round q - q| ≤ q - x := by
    have pos := quantum_pos q
    have apart : q - below q ≤ q - x := sub_le_sub_left (h.le_below le) q
    rcases roundHalfEven_cases (q / quantum q) with ⟨down, -⟩ | ⟨-, far⟩
    · have rounded : round q = below q := by rw [round, down, below]
      rwa [rounded, abs_sub_comm, abs_of_nonneg (sub_nonneg.mpr (below_le q))]
    · calc |round q - q| ≤ quantum q / 2 := abs_round_sub_le q
        _ = 1 / 2 * quantum q := by ring
        _ ≤ (q / quantum q - ⌊q / quantum q⌋) * quantum q := by gcongr
        _ = q - below q := by rw [sub_mul, div_mul_cancel₀ _ pos.ne', below]
        _ ≤ q - x := apart
  rcases le_total x q with le | ge
  · rw [abs_sub_comm x, abs_of_nonneg (sub_nonneg.mpr le)]
    exact from_below h le
  · have opposite := from_below h.neg (neg_le_neg ge)
    rw [round_neg, ← neg_sub', abs_neg, neg_sub_neg] at opposite
    rwa [abs_of_nonneg (sub_nonneg.mpr ge)]

theorem representable_round (q : Rat) : Representable (round q) := by
  have pos := quantum_pos q
  have scaled : |q / quantum q| ≤ (2 ^ 53 : Int) := by
    rcases eq_or_ne q 0 with rfl | ne
    · rw [zero_div, abs_zero]
      norm_num
    · rw [abs_div, abs_of_pos pos, div_le_iff₀ pos]
      calc |q| ≤ 2 ^ (exponent q + 1) := (exponent_spec ne).2.le
        _ = 2 ^ (53 : Int) * 2 ^ (exponent q - 52) := by
            rw [← zpow_add₀ two_ne_zero]
            congr 1
            omega
        _ ≤ (2 ^ 53 : Int) * quantum q := by
            rw [quantum]
            push_cast
            gcongr
            · exact one_le_two
            · exact le_max_left _ _
  obtain ⟨low, high⟩ := abs_le.mp scaled
  have low : -2 ^ 53 ≤ roundHalfEven (q / quantum q) := le_roundHalfEven (by exact_mod_cast low)
  have high : -2 ^ 53 ≤ roundHalfEven (-(q / quantum q)) :=
    le_roundHalfEven (by push_cast at high ⊢; linarith)
  rw [roundHalfEven_neg] at high
  exact ⟨_, _, abs_le.mpr ⟨low, by omega⟩, le_max_right _ _, rfl⟩

/-- A number that is not too close to zero is moved by less than its `2 ^ 53`rd part. -/
theorem abs_round_sub_lt {q : Rat} (ne : q ≠ 0) (normal : (2 : Rat) ^ (-1022 : Int) ≤ |q|) :
    |round q - q| < |q| / 2 ^ 53 := by
  obtain ⟨begins, ends⟩ := exponent_spec ne
  have exponent_ge : -1022 < exponent q + 1 :=
    (zpow_lt_zpow_iff_right₀ one_lt_two).mp (normal.trans_lt ends)
  rcases begins.eq_or_lt with power | begins
  · -- A power of two is a number of the format.
    have representable : Representable q := by
      rcases abs_eq_abs.mp (power.symm.trans (abs_of_pos (by positivity)).symm) with eq | eq
      · exact eq ▸ representable_zpow (by omega)
      · exact eq ▸ (representable_zpow (by omega)).neg
    rw [representable.round_eq, sub_self, abs_zero]
    have := abs_pos.mpr ne
    positivity
  · have half : quantum q / 2 = 2 ^ exponent q / 2 ^ 53 := by
      rw [quantum, max_eq_left (by omega), zpow_sub₀ two_ne_zero]
      norm_num
      ring
    calc |round q - q| ≤ quantum q / 2 := abs_round_sub_le q
      _ = 2 ^ exponent q / 2 ^ 53 := half
      _ < |q| / 2 ^ 53 := by gcongr

end Double

end Calculator
