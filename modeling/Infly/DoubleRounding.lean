import Mathlib.Data.Int.Log
import Mathlib.Data.Rat.Floor
import Mathlib.Tactic.Linarith
import Mathlib.Tactic.NormNum
import Mathlib.Tactic.Positivity
import Mathlib.Tactic.Ring

/-! # Rounding to integers and to doubles

The nearest integer, ties going to the even one, and the nearest number of 53 binary digits.
Nothing overflows here; the least step of a double is kept. Numbers are not negative.
-/
namespace DoubleRounding

/-- The nearest integer, and of two the even one. -/
def nearestEven (x : ℚ) : ℤ :=
  if x - ⌊x⌋ < 1 / 2 ∨ x - ⌊x⌋ = 1 / 2 ∧ ⌊x⌋ % 2 = 0 then ⌊x⌋ else ⌊x⌋ + 1

/-- The exponent of the last binary digit that a double keeps. -/
def lastPlace (x : ℚ) : ℤ := max (Int.log 2 |x| - 52) (-1074)

def toDouble (x : ℚ) : ℚ := nearestEven (x / 2 ^ lastPlace x) * 2 ^ lastPlace x

variable {x y : ℚ}

/-! ## To integers -/

theorem floor_le_nearest (x : ℚ) : ⌊x⌋ ≤ nearestEven x ∧ nearestEven x ≤ ⌊x⌋ + 1 := by
  unfold nearestEven
  split <;> omega

theorem nearest_close (x : ℚ) : |(nearestEven x : ℚ) - x| ≤ 1 / 2 := by
  have below := Int.floor_le x
  have above := Int.lt_floor_add_one x
  rw [abs_le]
  unfold nearestEven
  split
  · rename_i h
    have half : x - ⌊x⌋ ≤ 1 / 2 := h.elim le_of_lt fun tie => tie.1.le
    constructor <;> linarith
  · rename_i h
    have half : 1 / 2 ≤ x - ⌊x⌋ := not_lt.mp fun less => h (.inl less)
    push_cast
    constructor <;> linarith

theorem nearest_int (n : ℤ) : nearestEven n = n := by
  simp [nearestEven]

theorem nearest_mono (h : x ≤ y) : nearestEven x ≤ nearestEven y := by
  rcases (Int.floor_mono h).lt_or_eq with less | same
  · exact (floor_le_nearest x).2.trans ((Int.add_one_le_iff.mpr less).trans (floor_le_nearest y).1)
  · unfold nearestEven
    rw [same]
    split
    · split <;> omega
    · rename_i up
      rw [if_neg]
      rintro (less | tie)
      · exact up (.inl (by linarith))
      · rcases h.lt_or_eq with less | rfl
        · exact up (.inl (by linarith [tie.1]))
        · exact up (.inr tie)

/-! ## To doubles -/

theorem place_pos (x : ℚ) : (0 : ℚ) < 2 ^ lastPlace x := zpow_pos two_pos _

theorem place_mono (hx : 0 < x) (h : x ≤ y) : lastPlace x ≤ lastPlace y := by
  unfold lastPlace
  rw [abs_of_pos hx, abs_of_pos (hx.trans_le h)]
  exact max_le_max (by have := Int.log_mono_right (b := 2) hx h; omega) le_rfl

/-- A number has at most 53 digits before its last place. -/
theorem lt_places (hx : 0 < x) : x < 2 ^ (lastPlace x + 53) := by
  have digits := Int.lt_zpow_succ_log_self (b := 2) one_lt_two x
  refine digits.trans_le (zpow_le_zpow_right₀ one_le_two ?_)
  have := le_max_left (Int.log 2 |x| - 52) (-1074)
  rw [abs_of_pos hx] at this
  unfold lastPlace
  rw [abs_of_pos hx]
  omega

theorem double_le_places (hx : 0 < x) : toDouble x ≤ 2 ^ (lastPlace x + 53) := by
  have digits : x / 2 ^ lastPlace x ≤ ((2 ^ 53 : ℤ) : ℚ) := by
    rw [div_le_iff₀ (place_pos x)]
    calc x ≤ 2 ^ (lastPlace x + 53) := (lt_places hx).le
      _ = ((2 ^ 53 : ℤ) : ℚ) * 2 ^ lastPlace x := by
        rw [zpow_add₀ two_ne_zero, mul_comm]
        norm_num
  have rounded : (nearestEven (x / 2 ^ lastPlace x) : ℚ) ≤ ((2 ^ 53 : ℤ) : ℚ) := by
    exact_mod_cast (nearest_mono digits).trans (nearest_int _).le
  calc toDouble x ≤ ((2 ^ 53 : ℤ) : ℚ) * 2 ^ lastPlace x :=
      mul_le_mul_of_nonneg_right rounded (place_pos x).le
    _ = 2 ^ (lastPlace x + 53) := by
      rw [zpow_add₀ two_ne_zero, mul_comm]
      norm_num

theorem places_le_double (hx : 0 < x) (h : -1074 < lastPlace x) :
    2 ^ (lastPlace x + 52) ≤ toDouble x := by
  have place : lastPlace x = Int.log 2 x - 52 := by
    unfold lastPlace at h ⊢
    rw [abs_of_pos hx] at h ⊢
    omega
  have digits : ((2 ^ 52 : ℤ) : ℚ) ≤ x / 2 ^ lastPlace x := by
    rw [le_div_iff₀ (place_pos x)]
    calc ((2 ^ 52 : ℤ) : ℚ) * 2 ^ lastPlace x = 2 ^ (lastPlace x + 52) := by
          rw [zpow_add₀ two_ne_zero, mul_comm]
          norm_num
      _ = 2 ^ Int.log 2 x := by rw [place, sub_add_cancel]
      _ ≤ x := Int.zpow_log_le_self one_lt_two hx
  have rounded : ((2 ^ 52 : ℤ) : ℚ) ≤ nearestEven (x / 2 ^ lastPlace x) := by
    exact_mod_cast (nearest_int _).ge.trans (nearest_mono digits)
  calc (2 : ℚ) ^ (lastPlace x + 52) = ((2 ^ 52 : ℤ) : ℚ) * 2 ^ lastPlace x := by
        rw [zpow_add₀ two_ne_zero, mul_comm]
        norm_num
    _ ≤ toDouble x := mul_le_mul_of_nonneg_right rounded (place_pos x).le

theorem double_nonneg (hx : 0 ≤ x) : 0 ≤ toDouble x := by
  have rounded : (0 : ℤ) ≤ nearestEven (x / 2 ^ lastPlace x) := by
    have := nearest_mono (div_nonneg hx (place_pos x).le)
    rwa [show (0 : ℚ) = ((0 : ℤ) : ℚ) from rfl, nearest_int] at this
  exact mul_nonneg (by exact_mod_cast rounded) (place_pos x).le

@[simp] theorem double_zero : toDouble 0 = 0 := by
  simp [toDouble, nearestEven]

theorem double_mono (hx : 0 ≤ x) (h : x ≤ y) : toDouble x ≤ toDouble y := by
  rcases hx.eq_or_lt with rfl | pos
  · exact double_zero.trans_le (double_nonneg h)
  · rcases (place_mono pos h).lt_or_eq with less | same
    · have floor : -1074 ≤ lastPlace x := le_max_right _ _
      calc toDouble x ≤ 2 ^ (lastPlace x + 53) := double_le_places pos
        _ ≤ 2 ^ (lastPlace y + 52) := zpow_le_zpow_right₀ one_le_two (by omega)
        _ ≤ toDouble y := places_le_double (pos.trans_le h) (by omega)
    · have scaled : x / 2 ^ lastPlace y ≤ y / 2 ^ lastPlace y :=
        div_le_div_of_nonneg_right h (place_pos y).le
      unfold toDouble
      rw [same]
      exact mul_le_mul_of_nonneg_right (by exact_mod_cast nearest_mono scaled) (place_pos y).le

/-- A number of 53 digits is a double. -/
theorem double_exact {m : ℕ} {k : ℤ} (hm : m < 2 ^ 53) (hk : -1074 ≤ k) :
    toDouble (m * 2 ^ k) = m * 2 ^ k := by
  rcases Nat.eq_zero_or_pos m with rfl | pos
  · simp
  have value : (0 : ℚ) < m * 2 ^ k := mul_pos (by exact_mod_cast pos) (zpow_pos two_pos _)
  have below : (m : ℚ) * 2 ^ k < 2 ^ (k + 53) := by
    rw [zpow_add₀ two_ne_zero, mul_comm]
    refine mul_lt_mul_of_pos_left ?_ (zpow_pos two_pos _)
    exact_mod_cast hm
  have place : lastPlace (m * 2 ^ k) ≤ k := by
    unfold lastPlace
    rw [abs_of_pos value]
    have := (Int.lt_zpow_iff_log_lt (b := 2) one_lt_two value).mp (by exact_mod_cast below)
    omega
  have whole : (m : ℚ) * 2 ^ k / 2 ^ lastPlace (m * 2 ^ k) =
      ((m * 2 ^ (k - lastPlace (m * 2 ^ k)).toNat : ℤ) : ℚ) := by
    rw [mul_div_assoc, ← zpow_sub₀ two_ne_zero]
    push_cast
    rw [← zpow_natCast, Int.toNat_of_nonneg (by omega)]
  unfold toDouble
  rw [whole, nearest_int, ← whole, div_mul_cancel₀ _ (place_pos _).ne']

/-- A double is off by half a unit in the last of 53 digits, or by half the least step. -/
theorem double_close (hx : 0 ≤ x) : |toDouble x - x| ≤ x / 2 ^ 53 + 2 ^ (-1075 : ℤ) := by
  have step : (0 : ℚ) < 2 ^ (-1075 : ℤ) := zpow_pos two_pos _
  rcases hx.eq_or_lt with rfl | pos
  · simp
  have half : |toDouble x - x| ≤ 2 ^ lastPlace x / 2 := by
    have close := nearest_close (x / 2 ^ lastPlace x)
    have scaled : toDouble x - x =
        (nearestEven (x / 2 ^ lastPlace x) - x / 2 ^ lastPlace x) * 2 ^ lastPlace x := by
      rw [sub_mul, div_mul_cancel₀ _ (place_pos x).ne']
      rfl
    rw [scaled, abs_mul, abs_of_pos (place_pos x)]
    have := mul_le_mul_of_nonneg_right close (place_pos x).le
    linarith
  have place : (2 : ℚ) ^ lastPlace x / 2 ≤ x / 2 ^ 53 + 2 ^ (-1075 : ℤ) := by
    have size := Int.zpow_log_le_self (b := 2) one_lt_two pos
    unfold lastPlace
    rw [abs_of_pos pos]
    rcases max_cases (Int.log 2 x - 52) (-1074) with ⟨h, -⟩ | ⟨h, -⟩
    · rw [h, zpow_sub₀ two_ne_zero]
      have : (2 : ℚ) ^ Int.log 2 x / 2 ^ (52 : ℤ) / 2 ≤ x / 2 ^ 53 := by
        rw [div_div]
        have : (2 : ℚ) ^ (52 : ℤ) * 2 = 2 ^ 53 := by norm_num
        rw [this]
        exact div_le_div_of_nonneg_right (by exact_mod_cast size) (by positivity)
      linarith
    · have half : (2 : ℚ) ^ (-1074 : ℤ) / 2 = 2 ^ (-1075 : ℤ) := by
        rw [show (-1075 : ℤ) = -1074 - 1 from rfl, zpow_sub_one₀ two_ne_zero, div_eq_mul_inv]
      rw [h, half]
      have : 0 ≤ x / 2 ^ 53 := by positivity
      linarith
  exact half.trans place

end DoubleRounding
