import Mathlib.Data.Int.Log
import Mathlib.Data.Rat.Floor
import Mathlib.Data.Sign.Basic
import Mathlib.Tactic.FieldSimp
import Mathlib.Tactic.Linarith
import Mathlib.Tactic.Ring

/-!
# Proofs/Decimal/Rounding — the double nearest to a rational number

A double has 53 binary digits, and its last place is worth `2 ^ -1074` at least. So a number is
rounded to a multiple of what its last place is worth (`lastPlace`), the nearest one, and the even
one of two that are equally near (`double`). From `2 ^ 1024` on there is only one double left,
infinity, and `topValue` stands for it.

Rounding keeps the order of numbers (`double_mono`), but not their difference, except that numbers
which are doubles stay as they are (`double_eq_self`).
-/

namespace XmlConformance.Decimal

variable {x y q : ℚ}

/-! ## Nearest integers -/

/-- The integer that is nearest to a number, and the even one of two that are equally near. -/
def nearestEven (x : ℚ) : ℤ :=
  if Int.fract x < 1 / 2 then ⌊x⌋ else if 1 / 2 < Int.fract x then ⌊x⌋ + 1 else ⌊x⌋ + ⌊x⌋ % 2

theorem floor_le_nearestEven (x : ℚ) : ⌊x⌋ ≤ nearestEven x := by
  rw [nearestEven]
  split
  · exact le_rfl
  · split <;> omega

theorem nearestEven_le_floor_add_one (x : ℚ) : nearestEven x ≤ ⌊x⌋ + 1 := by
  rw [nearestEven]
  split
  · omega
  · split <;> omega

theorem nearestEven_intCast (i : ℤ) : nearestEven i = i := by
  rw [nearestEven, Int.fract_intCast, if_pos (by norm_num), Int.floor_intCast]

/-- **The nearest integer grows with the number.** -/
theorem nearestEven_mono (h : x ≤ y) : nearestEven x ≤ nearestEven y := by
  obtain hlt | heq := (Int.floor_le_floor h).lt_or_eq
  · calc nearestEven x ≤ ⌊x⌋ + 1 := nearestEven_le_floor_add_one x
      _ ≤ ⌊y⌋ := hlt
      _ ≤ nearestEven y := floor_le_nearestEven y
  · have hfract : Int.fract x ≤ Int.fract y := by
      rw [Int.fract, Int.fract, heq]
      linarith
    rw [nearestEven, nearestEven, heq]
    split_ifs <;> first | omega | linarith

theorem nearestEven_le {i : ℤ} (h : x ≤ i) : nearestEven x ≤ i :=
  (nearestEven_mono h).trans_eq (nearestEven_intCast i)

theorem le_nearestEven {i : ℤ} (h : i ≤ x) : i ≤ nearestEven x :=
  (nearestEven_intCast i).symm.trans_le (nearestEven_mono h)

/-! ## Last places -/

/-- The exponent of what the last place of a positive number is worth. -/
def lastPlace (x : ℚ) : ℤ := max (Int.log 2 x - 52) (-1074)

/-- A positive number, rounded to its last place. -/
def rounded (x : ℚ) : ℚ := nearestEven (x / 2 ^ lastPlace x) * 2 ^ lastPlace x

theorem le_lastPlace (x : ℚ) : -1074 ≤ lastPlace x := le_max_right _ _

theorem lastPlace_mono (hx : 0 < x) (h : x ≤ y) : lastPlace x ≤ lastPlace y :=
  max_le_max (by have := Int.log_mono_right (b := 2) hx h; omega) le_rfl

theorem two_zpow_pos (e : ℤ) : (0 : ℚ) < 2 ^ e := zpow_pos (by norm_num) e

/-- A number has 53 digits up to its last place at most. -/
theorem div_lt_of_lastPlace (x : ℚ) : x / 2 ^ lastPlace x < 2 ^ (53 : ℤ) := by
  rw [div_lt_iff₀ (two_zpow_pos _), ← zpow_add₀ (by norm_num)]
  calc x < 2 ^ (Int.log 2 x + 1) := by exact_mod_cast Int.lt_zpow_succ_log_self (by decide) x
    _ ≤ 2 ^ (53 + lastPlace x) := zpow_le_zpow_right₀ (by norm_num) (by rw [lastPlace]; omega)

/-- A number has 53 digits up to its last place, unless that is the last one there is. -/
theorem le_div_of_lastPlace (hx : 0 < x) (h : -1074 < lastPlace x) :
    2 ^ (52 : ℤ) ≤ x / 2 ^ lastPlace x := by
  rw [le_div_iff₀ (two_zpow_pos _), ← zpow_add₀ (by norm_num)]
  have hlog : 52 + lastPlace x = Int.log 2 x := by
    rw [lastPlace] at h ⊢
    omega
  rw [hlog]
  exact_mod_cast Int.zpow_log_le_self (by decide) hx

theorem nearestEven_le_of_lastPlace (x : ℚ) : nearestEven (x / 2 ^ lastPlace x) ≤ 2 ^ 53 :=
  nearestEven_le (by exact_mod_cast (div_lt_of_lastPlace x).le)

theorem le_nearestEven_of_lastPlace (hx : 0 < x) (h : -1074 < lastPlace x) :
    2 ^ 52 ≤ nearestEven (x / 2 ^ lastPlace x) :=
  le_nearestEven (by exact_mod_cast le_div_of_lastPlace hx h)

theorem rounded_le (x : ℚ) : rounded x ≤ 2 ^ (53 + lastPlace x) := by
  rw [rounded, zpow_add₀ (by norm_num)]
  exact mul_le_mul_of_nonneg_right (by exact_mod_cast nearestEven_le_of_lastPlace x)
    (two_zpow_pos _).le

theorem le_rounded (hx : 0 < x) (h : -1074 < lastPlace x) :
    2 ^ (52 + lastPlace x) ≤ rounded x := by
  rw [rounded, zpow_add₀ (by norm_num)]
  exact mul_le_mul_of_nonneg_right (by exact_mod_cast le_nearestEven_of_lastPlace hx h)
    (two_zpow_pos _).le

theorem rounded_nonneg (hx : 0 ≤ x) : 0 ≤ rounded x := by
  have hnonneg : 0 ≤ nearestEven (x / 2 ^ lastPlace x) :=
    le_nearestEven (by exact_mod_cast div_nonneg hx (two_zpow_pos _).le)
  exact mul_nonneg (by exact_mod_cast hnonneg) (two_zpow_pos _).le

/-- **Rounding keeps the order.** Numbers with different last places stay on both sides of a power
of two. -/
theorem rounded_mono (hx : 0 < x) (h : x ≤ y) : rounded x ≤ rounded y := by
  obtain hlt | heq := (lastPlace_mono hx h).lt_or_eq
  · have hleast := le_lastPlace x
    calc rounded x ≤ 2 ^ (53 + lastPlace x) := rounded_le x
      _ ≤ 2 ^ (52 + lastPlace y) := zpow_le_zpow_right₀ (by norm_num) (by omega)
      _ ≤ rounded y := le_rounded (hx.trans_le h) (by omega)
  · rw [rounded, rounded, heq]
    refine mul_le_mul_of_nonneg_right ?_ (two_zpow_pos _).le
    exact_mod_cast nearestEven_mono (div_le_div_of_nonneg_right h (two_zpow_pos _).le)

/-- **A number with 53 digits stays as it is**, if its last place is not too small. -/
theorem rounded_eq_self {m : ℕ} {e : ℤ} (hm : m < 2 ^ 53) (he : -1074 ≤ e) (hpos : 0 < m) :
    rounded (m * 2 ^ e) = m * 2 ^ e := by
  have hlast : lastPlace (m * 2 ^ e) ≤ e := by
    have hlog : Int.log 2 (m * 2 ^ e : ℚ) < 53 + e := by
      rw [← Int.lt_zpow_iff_log_lt (by decide) (mul_pos (by exact_mod_cast hpos) (two_zpow_pos e))]
      push_cast
      rw [zpow_add₀ (by norm_num)]
      exact mul_lt_mul_of_pos_right (by exact_mod_cast hm) (two_zpow_pos e)
    rw [lastPlace]
    omega
  have hint : (m * 2 ^ e / 2 ^ lastPlace (m * 2 ^ e) : ℚ) =
      ((m * 2 ^ (e - lastPlace (m * 2 ^ e)).toNat : ℤ) : ℚ) := by
    push_cast
    rw [mul_div_assoc, ← zpow_sub₀ (by norm_num), ← zpow_natCast, Int.toNat_of_nonneg (by omega)]
  rw [rounded, hint, nearestEven_intCast, ← hint, div_mul_cancel₀ _ (two_zpow_pos _).ne']

/-- What is less than half of the last place there is is rounded to zero. -/
theorem rounded_eq_zero (hx : 0 < x) (h : x < 2 ^ (-1075 : ℤ)) : rounded x = 0 := by
  have hlog : Int.log 2 x < -1075 :=
    (Int.lt_zpow_iff_log_lt (by decide) hx).1 (by exact_mod_cast h)
  have hlast : lastPlace x = -1074 := by
    rw [lastPlace]
    omega
  have hless : x / 2 ^ (-1074 : ℤ) < 1 / 2 := by
    rw [div_lt_iff₀ (two_zpow_pos _)]
    calc x < 2 ^ (-1 + -1074 : ℤ) := h
      _ = 1 / 2 * 2 ^ (-1074 : ℤ) := by rw [zpow_add₀ (by norm_num), zpow_neg_one, one_div]
  have hfloor : ⌊x / 2 ^ (-1074 : ℤ)⌋ = 0 :=
    Int.floor_eq_zero_iff.2 ⟨div_nonneg hx.le (two_zpow_pos _).le, by linarith⟩
  rw [rounded, hlast, nearestEven, Int.fract, hfloor, Int.cast_zero, sub_zero, if_pos hless,
    Int.cast_zero, zero_mul]

/-! ## Doubles -/

/-- What stands for infinity: the number from which on doubles are infinite. -/
def topValue : ℚ := 2 ^ (1024 : ℤ)

theorem topValue_pos : 0 < topValue := two_zpow_pos 1024

/-- **The double nearest to a number.** -/
def double (q : ℚ) : ℚ := SignType.sign q * min (rounded |q|) topValue

@[simp] theorem double_zero : double 0 = 0 := by simp [double]

theorem double_neg (q : ℚ) : double (-q) = -double q := by
  rw [double, double, Left.sign_neg, abs_neg, SignType.coe_neg, neg_mul]

theorem double_of_pos (hq : 0 < q) : double q = min (rounded q) topValue := by
  rw [double, sign_pos hq, abs_of_pos hq, SignType.coe_one, one_mul]

theorem double_nonneg (hq : 0 ≤ q) : 0 ≤ double q := by
  obtain rfl | hpos := hq.eq_or_lt
  · rw [double_zero]
  · rw [double_of_pos hpos]
    exact le_min (rounded_nonneg hq) topValue_pos.le

theorem double_le_of_nonneg (hx : 0 ≤ x) (h : x ≤ y) : double x ≤ double y := by
  obtain rfl | hpos := hx.eq_or_lt
  · rw [double_zero]
    exact double_nonneg h
  · rw [double_of_pos hpos, double_of_pos (hpos.trans_le h)]
    exact min_le_min_right _ (rounded_mono hpos h)

/-- **Rounding to doubles keeps the order.** -/
theorem double_mono : Monotone double := by
  intro x y h
  obtain hx | hx := le_total 0 x
  · exact double_le_of_nonneg hx h
  obtain hy | hy := le_total 0 y
  · have hneg := double_nonneg (neg_nonneg.2 hx)
    rw [double_neg] at hneg
    linarith [double_nonneg hy]
  · have hneg := double_le_of_nonneg (neg_nonneg.2 hy) (neg_le_neg h)
    rw [double_neg, double_neg] at hneg
    linarith

/-- **Numbers of 53 binary digits are doubles**, if they are neither too small nor too large. -/
theorem double_eq_self {m : ℕ} {e : ℤ} (hm : m < 2 ^ 53) (he : -1074 ≤ e) (he' : e ≤ 971) :
    double (m * 2 ^ e) = m * 2 ^ e := by
  obtain rfl | hpos := m.eq_zero_or_pos
  · simp
  have hle : (m * 2 ^ e : ℚ) ≤ topValue := calc
    (m * 2 ^ e : ℚ) ≤ 2 ^ (53 : ℤ) * 2 ^ (971 : ℤ) :=
      mul_le_mul (by exact_mod_cast hm.le) (zpow_le_zpow_right₀ (by norm_num) he')
        (two_zpow_pos e).le (two_zpow_pos 53).le
    _ = topValue := (zpow_add₀ (by norm_num) 53 971).symm
  rw [double_of_pos (mul_pos (by exact_mod_cast hpos) (two_zpow_pos e)), rounded_eq_self hm he hpos,
    min_eq_left hle]

end XmlConformance.Decimal
