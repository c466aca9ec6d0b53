import XmlConformance.Proofs.Decimal.Unpacked

/-!
# Proofs/Decimal/Doubles — arithmetic with doubles is rounded arithmetic

Mantissas are rounded by two bits behind them, which say how far it is to the next one
(`StandsFor`). Shifted to the last place that a double has there, they round to the nearest double
(`isWorth_pack_roundWithAccuracy`). So quotients do (`isWorth_div_finite`), and so do numbers with
digits behind the point (`isWorth_ofScientific`): few digits are divided by a power of ten that is a
double itself, more digits before they are rounded.
-/

namespace XmlConformance.Decimal

open Float.Model (UnpackedFloat Format totalExponent)
open Float.Model.UnpackedFloat

/-! ## Extended mantissas -/

/-- **An extended mantissa stands for a number** that is not more than one above it: its bits say
whether that is one half or more, and whether there is something else. -/
structure StandsFor (em : ExtendedMantissa) (x : ℚ) : Prop where
  le : em.mantissa ≤ x
  lt : x < em.mantissa + 1
  round : em.roundBit = true ↔ em.mantissa + 1 / 2 ≤ x
  sticky : em.stickyBit = true ↔ x ≠ em.mantissa ∧ x ≠ em.mantissa + 1 / 2

variable {em : ExtendedMantissa} {acc : Accuracy} {s : Sign} {m : ℕ} {e : ℤ} {x : ℚ}

theorem StandsFor.or_iff (h : StandsFor em x) :
    (em.roundBit || em.stickyBit) = true ↔ x ≠ em.mantissa := by
  rw [Bool.or_eq_true, h.round, h.sticky]
  constructor
  · rintro (hhalf | ⟨hne, -⟩)
    · linarith
    · exact hne
  · intro hne
    by_cases hhalf : x = em.mantissa + 1 / 2
    · exact .inl hhalf.ge
    · exact .inr ⟨hne, hhalf⟩

/-- **One place less.** -/
theorem StandsFor.shiftRightOne (h : StandsFor em x) : StandsFor em.shiftRightOne (x / 2) := by
  have hle := h.le
  have hlt := h.lt
  have hor := h.or_iff
  obtain ⟨k, hk⟩ : ∃ k, em.mantissa = 2 * k ∨ em.mantissa = 2 * k + 1 :=
    ⟨em.mantissa / 2, by omega⟩
  have hhalf : em.shiftRightOne.mantissa = k := by
    show em.mantissa / 2 = k
    omega
  have hround : em.shiftRightOne.roundBit = true ↔ em.mantissa = 2 * k + 1 := by
    show (em.mantissa % 2 != 0) = true ↔ _
    rw [bne_iff_ne]
    omega
  obtain hk | hk := hk
  · rw [hk] at hle hlt hor
    push_cast at hle hlt hor
    refine ⟨?_, ?_, ?_, ?_⟩
    · rw [hhalf]
      linarith
    · rw [hhalf]
      linarith
    · rw [hround, hhalf]
      exact iff_of_false (by omega) (by linarith)
    · refine Iff.trans hor ?_
      rw [hhalf]
      refine ⟨fun h => ⟨fun heq => h (by linarith), by linarith⟩, fun h heq => h.1 (by linarith)⟩
  · rw [hk] at hle hlt hor
    push_cast at hle hlt hor
    refine ⟨?_, ?_, ?_, ?_⟩
    · rw [hhalf]
      linarith
    · rw [hhalf]
      linarith
    · rw [hround, hhalf]
      exact iff_of_true hk (by linarith)
    · refine Iff.trans hor ?_
      rw [hhalf]
      refine ⟨fun h => ⟨by linarith, fun heq => h (by linarith)⟩, fun h heq => h.2 (by linarith)⟩

theorem StandsFor.shiftRight (h : StandsFor em x) : ∀ n : ℕ, StandsFor (em >>> n) (x / 2 ^ n)
  | 0 => by
    rw [pow_zero, div_one]
    exact h
  | n + 1 => by
    rw [pow_succ, ← div_div]
    exact (h.shiftRight n).shiftRightOne

/-- **The rounded mantissa** is the nearest integer. -/
theorem StandsFor.roundedMantissa (h : StandsFor em x) :
    (em.roundedMantissa : ℤ) = nearestEven x := by
  have hfloor : ⌊x⌋ = em.mantissa := Int.floor_eq_iff.2 ⟨by exact_mod_cast h.le, by
    exact_mod_cast h.lt⟩
  have hfract : Int.fract x = x - em.mantissa := by
    rw [Int.fract, hfloor]
    rfl
  obtain ⟨m, r, t⟩ := em
  have hround := h.round
  have hsticky := h.sticky
  have hle := h.le
  rw [nearestEven, hfract, hfloor]
  dsimp only at hround hsticky hle ⊢
  cases r
  · have hlt : x - m < 1 / 2 := by
      have := mt hround.2 Bool.false_ne_true
      linarith
    rw [if_pos hlt]
    cases t <;> rfl
  · have hhalf := hround.1 rfl
    rw [if_neg (by linarith)]
    cases t
    · have heq : x = m + 1 / 2 := by
        by_contra hne
        exact Bool.false_ne_true (hsticky.2 ⟨by linarith, hne⟩)
      rw [if_neg (by linarith)]
      show ((m + m % 2 : ℕ) : ℤ) = m + m % 2
      push_cast
      rfl
    · have hne := (hsticky.1 rfl).2
      rw [if_pos (by have := lt_of_le_of_ne hhalf (Ne.symm hne); linarith)]
      show ((m + 1 : ℕ) : ℤ) = m + 1
      push_cast
      rfl

theorem standsFor_exact (m : ℕ) :
    StandsFor (ExtendedMantissa.ofMantissaAndAccuracy m .exact) m := by
  refine ⟨le_rfl, by simp [ExtendedMantissa.ofMantissaAndAccuracy], ?_, ?_⟩
  · exact iff_of_false Bool.false_ne_true (by simp [ExtendedMantissa.ofMantissaAndAccuracy])
  · exact iff_of_false Bool.false_ne_true fun h => h.1 rfl

theorem standsFor_inexact (m : ℕ) (hpos : 0 < x) (hlt : x < 1) :
    StandsFor (ExtendedMantissa.ofMantissaAndAccuracy m (.inexact (compare x (1 / 2))))
      (m + x) := by
  have hle : (m : ℚ) ≤ m + x := by linarith
  have hlt : (m + x : ℚ) < m + 1 := by linarith
  have hne : (m + x : ℚ) ≠ m := by linarith
  obtain hhalf | rfl | hhalf := lt_trichotomy x (1 / 2)
  · rw [compare_lt_iff_lt.2 hhalf]
    refine ⟨hle, hlt, ?_, iff_of_true rfl ⟨hne, fun h => hhalf.ne (add_left_cancel h)⟩⟩
    exact iff_of_false Bool.false_ne_true (not_le.2 ((add_lt_add_iff_left _).2 hhalf))
  · rw [compare_eq_iff_eq.2 rfl]
    refine ⟨hle, hlt, iff_of_true rfl le_rfl, ?_⟩
    exact iff_of_false Bool.false_ne_true fun h => h.2 rfl
  · rw [compare_gt_iff_gt.2 hhalf]
    refine ⟨hle, hlt, ?_, iff_of_true rfl ⟨hne, fun h => hhalf.ne' (add_left_cancel h)⟩⟩
    exact iff_of_true rfl ((add_le_add_iff_left _).2 hhalf.le)

/-- **A quotient**, and what is left. -/
theorem standsFor_quotient (m : ℕ) {n : ℕ} (hn : 0 < n) : StandsFor
    (ExtendedMantissa.ofMantissaAndAccuracy (m / n) (accuracyOfFraction (m % n) n)) (m / n) := by
  have hn' : (0 : ℚ) < n := by exact_mod_cast hn
  have hsplit : (m / n : ℚ) = (m / n : ℕ) + (m % n : ℕ) / n := by
    rw [eq_comm, ← eq_sub_iff_add_eq', div_eq_iff hn'.ne', sub_mul, div_mul_cancel₀ _ hn'.ne',
      eq_sub_iff_add_eq']
    exact_mod_cast (Nat.div_add_mod' m n)
  rw [hsplit, accuracyOfFraction]
  split
  · next hzero =>
    rw [hzero, Nat.cast_zero, zero_div, add_zero]
    exact standsFor_exact (m / n)
  · next hne =>
    have hpos : (0 : ℚ) < (m % n : ℕ) / n :=
      div_pos (by exact_mod_cast Nat.pos_of_ne_zero hne) hn'
    have hlt : ((m % n : ℕ) / n : ℚ) < 1 := by
      rw [div_lt_one hn']
      exact_mod_cast Nat.mod_lt m hn
    have hcompare : compare (2 * (m % n)) n = compare ((m % n : ℕ) / n : ℚ) (1 / 2) := by
      refine compare_congr ?_ ?_
      · rw [div_lt_div_iff₀ hn' two_pos, one_mul, mul_comm]
        exact_mod_cast Iff.rfl
      · rw [div_lt_div_iff₀ two_pos hn', one_mul, mul_comm]
        exact_mod_cast Iff.rfl
    rw [hcompare]
    exact standsFor_inexact (m / n) hpos hlt

/-! ## Rounding -/

theorem targetExponent_binary64 (t : ℤ) :
    Format.binary64.targetExponent t = max (t - 53) (-1074) := by
  have hmin : Format.binary64.minExponent = -1074 := by decide
  have hbits : (Format.binary64.mantissaBits : ℤ) = 53 := by decide
  rw [Format.targetExponent, hmin, hbits]

theorem targetExponent_eq (m : ℕ) (e : ℤ) :
    Format.binary64.targetExponent (totalExponent m e) = max (m.log2 + e - 52) (-1074) := by
  rw [targetExponent_binary64, totalExponent]
  congr 1
  ring

theorem log_eq_of_le_of_lt {k : ℤ} (hle : 2 ^ k ≤ x) (hlt : x < 2 ^ (k + 1)) : Int.log 2 x = k := by
  have hpos := (two_zpow_pos k).trans_le hle
  refine le_antisymm (Int.lt_add_one_iff.1 ?_) ?_
  · exact (Int.lt_zpow_iff_log_lt (by decide) hpos).1 (by exact_mod_cast hlt)
  · exact (Int.zpow_le_iff_le_log (by decide) hpos).1 (by exact_mod_cast hle)

/-- **The last place of a number** is seen from its mantissa, unless that is zero and the last place
is the last one there is. -/
theorem StandsFor.lastPlace_eq (h : StandsFor em x) (hx : 0 < x)
    (hzero : em.mantissa = 0 → e ≤ -1074) :
    lastPlace (x * 2 ^ e) = max (em.mantissa.log2 + e - 52) (-1074) := by
  have hle := h.le
  have hlt := h.lt
  by_cases hm : em.mantissa = 0
  · have hlog : Int.log 2 (x * 2 ^ e) < e := by
      rw [← Int.lt_zpow_iff_log_lt (by decide) (mul_pos hx (two_zpow_pos e))]
      rw [hm] at hlt
      push_cast at hlt ⊢
      exact mul_lt_of_lt_one_left (two_zpow_pos e) (by linarith)
    have hleast := hzero hm
    rw [lastPlace, hm, Nat.log2_zero]
    omega
  · have hlog : Int.log 2 (x * 2 ^ e) = em.mantissa.log2 + e := by
      have hself : ((2 ^ em.mantissa.log2 : ℕ) : ℚ) ≤ em.mantissa := by
        exact_mod_cast Nat.log2_self_le hm
      have hsucc : (em.mantissa + 1 : ℚ) ≤ ((2 ^ (em.mantissa.log2 + 1) : ℕ) : ℚ) := by
        exact_mod_cast (Nat.lt_log2_self : em.mantissa < 2 ^ (em.mantissa.log2 + 1))
      push_cast at hself hsucc
      refine log_eq_of_le_of_lt ?_ ?_
      · rw [zpow_add₀ (by norm_num), zpow_natCast]
        exact mul_le_mul_of_nonneg_right (hself.trans hle) (two_zpow_pos e).le
      · rw [show (em.mantissa.log2 + e + 1 : ℤ) = ((em.mantissa.log2 + 1 : ℕ) : ℤ) + e by
          push_cast; ring, zpow_add₀ (by norm_num), zpow_natCast]
        exact mul_lt_mul_of_pos_right (hlt.trans_le hsucc) (two_zpow_pos e)
    rw [lastPlace, hlog]

theorem shiftToTargetExponent_eq (m : ℕ) (e : ℤ) (acc : Accuracy) :
    shiftToTargetExponent Format.binary64 m e acc =
      (ExtendedMantissa.ofMantissaAndAccuracy m acc >>>
        (max (m.log2 + e - 52) (-1074) - e).toNat,
        e + (max (m.log2 + e - 52) (-1074) - e).toNat) := by
  rw [shiftToTargetExponent, targetExponent_eq, shiftToExponent]

/-- A mantissa with nothing behind it, shifted to where it has 53 digits at most. -/
theorem shiftToTargetExponent_exact {t : ℤ} (ht : -1074 ≤ t) (hm : m ≤ 2 ^ 53)
    (hfull : -1074 < t → 2 ^ 52 ≤ m) :
    ∃ em d, shiftToTargetExponent Format.binary64 m t .exact = (em, d) ∧
      InForm em.mantissa d ∧ (em.mantissa * 2 ^ d : ℚ) = m * 2 ^ t := by
  obtain hlt | rfl := hm.lt_or_eq
  · have hlog : m.log2 ≤ 52 := by
      by_cases hzero : m = 0
      · rw [hzero, Nat.log2_zero]
        omega
      · exact Nat.lt_succ_iff.1 ((Nat.log2_lt hzero).2 hlt)
    refine ⟨.ofMantissaAndAccuracy m .exact, t, ?_, ⟨hlt, ht, hfull⟩, rfl⟩
    rw [shiftToTargetExponent_eq, show (max (m.log2 + t - 52) (-1074) - t).toNat = 0 by omega]
    exact Prod.ext rfl (add_zero t)
  · have hlog : (2 ^ 53 : ℕ).log2 = 53 := Nat.log2_two_pow
    refine ⟨(ExtendedMantissa.ofMantissaAndAccuracy (2 ^ 53) .exact).shiftRightOne, t + 1, ?_,
      ⟨?_, by omega, fun _ => ?_⟩, ?_⟩
    · rw [shiftToTargetExponent_eq, hlog,
        show (max (((53 : ℕ) : ℤ) + t - 52) (-1074) - t).toNat = 1 by omega]
      rfl
    · show 2 ^ 53 / 2 < 2 ^ 53
      decide
    · show 2 ^ 52 ≤ 2 ^ 53 / 2
      decide
    · show ((2 ^ 53 / 2 : ℕ) * 2 ^ (t + 1) : ℚ) = (2 ^ 53 : ℕ) * 2 ^ t
      rw [zpow_add₀ (by norm_num)]
      push_cast
      ring

/-- **Rounding.** A mantissa with what stands behind it rounds to the nearest number that has 53
digits, if the mantissa does not have too few digits itself. -/
theorem roundWithAccuracy_spec (s : Sign)
    (h : StandsFor (ExtendedMantissa.ofMantissaAndAccuracy m acc) x) (hx : 0 < x)
    (htarget : e ≤ max (m.log2 + e - 52) (-1074)) (hzero : m = 0 → e ≤ -1074) :
    (roundWithAccuracy Format.binary64 s m e acc = .zero s ∧ rounded (x * 2 ^ e) = 0) ∨
    ∃ n d hn, roundWithAccuracy Format.binary64 s m e acc = .finite s n d hn ∧ InForm n d ∧
      (n * 2 ^ d : ℚ) = rounded (x * 2 ^ e) := by
  have hmantissa : (ExtendedMantissa.ofMantissaAndAccuracy m acc).mantissa = m := by
    rcases acc with _ | (_ | _ | _) <;> rfl
  have hpos : 0 < x * 2 ^ e := mul_pos hx (two_zpow_pos e)
  have hlast : lastPlace (x * 2 ^ e) = max (m.log2 + e - 52) (-1074) := by
    rw [h.lastPlace_eq hx (by rwa [hmantissa]), hmantissa]
  have hshift : e + (lastPlace (x * 2 ^ e) - e).toNat = lastPlace (x * 2 ^ e) := by omega
  obtain ⟨k, hk⟩ : ∃ k, k = (ExtendedMantissa.ofMantissaAndAccuracy m acc >>>
    (lastPlace (x * 2 ^ e) - e).toNat).roundedMantissa := ⟨_, rfl⟩
  have hrounded := (h.shiftRight (lastPlace (x * 2 ^ e) - e).toNat).roundedMantissa
  rw [← hk, ← zpow_natCast, Int.toNat_of_nonneg (by omega), zpow_sub₀ (by norm_num),
    div_div_eq_mul_div] at hrounded
  have hmost : k ≤ 2 ^ 53 := by
    exact_mod_cast hrounded.trans_le (nearestEven_le_of_lastPlace _)
  have hfull (hlarge : -1074 < lastPlace (x * 2 ^ e)) : 2 ^ 52 ≤ k := by
    exact_mod_cast (le_nearestEven_of_lastPlace hpos hlarge).trans_eq hrounded.symm
  obtain ⟨em, d, heq, hform, hsame⟩ := shiftToTargetExponent_exact (le_lastPlace _) hmost hfull
  have hworth : (em.mantissa * 2 ^ d : ℚ) = rounded (x * 2 ^ e) := by
    rw [hsame, rounded, ← hrounded]
    rfl
  rw [roundWithAccuracy, shiftToTargetExponent_eq, ← hlast, hshift]
  simp only [← hk, heq]
  split
  · next hnone =>
    refine .inl ⟨rfl, ?_⟩
    rw [← hworth, hnone, Nat.cast_zero, zero_mul]
  · next hsome => exact .inr ⟨em.mantissa, d, Nat.pos_of_ne_zero hsome, rfl, hform, hworth⟩

/-- **Rounded and packed**, a number is worth the nearest double. -/
theorem isWorth_pack_roundWithAccuracy (s : Sign)
    (h : StandsFor (ExtendedMantissa.ofMantissaAndAccuracy m acc) x) (hx : 0 < x)
    (htarget : e ≤ max (m.log2 + e - 52) (-1074)) (hzero : m = 0 → e ≤ -1074) :
    IsWorth (unpack Format.binary64
        (pack Format.binary64 (roundWithAccuracy Format.binary64 s m e acc)))
      (signed s (double (x * 2 ^ e))) := by
  rw [double_of_pos (mul_pos hx (two_zpow_pos e))]
  obtain ⟨heq, hnone⟩ | ⟨n, d, hn, heq, hform, hworth⟩ :=
    roundWithAccuracy_spec s h hx htarget hzero
  · rw [heq, hnone, unpack_pack_zero, min_eq_left topValue_pos.le]
    refine ⟨trivial, rfl, ?_⟩
    cases s
    · exact neg_zero.symm
    · rfl
  · rw [heq, ← hworth]
    exact isWorth_pack_finite hn hform

/-! ## Quotients -/

section Quotient

variable {m₁ m₂ : ℕ} {e₁ e₂ : ℤ} {s₁ s₂ : Sign}

/-- **A quotient has enough digits** before it is rounded. -/
theorem log2_le_of_quotient (h₁ : 0 < m₁) (h₂ : 0 < m₂) (k : ℕ) :
    m₁.log2 + k ≤ (m₁ * 2 ^ k / m₂).log2 + m₂.log2 + 1 ∧
      (m₁ * 2 ^ k / m₂ = 0 → m₁.log2 + k ≤ m₂.log2) := by
  have hself : 2 ^ (m₁.log2 + k) ≤ m₁ * 2 ^ k := by
    rw [pow_add]
    exact Nat.mul_le_mul_right _ (Nat.log2_self_le h₁.ne')
  have hdivisor : m₂ < 2 ^ (m₂.log2 + 1) := Nat.lt_log2_self
  have hquotient : m₁ * 2 ^ k / m₂ + 1 ≤ 2 ^ ((m₁ * 2 ^ k / m₂).log2 + 1) := Nat.lt_log2_self
  have hless : m₁ * 2 ^ k < m₂ * (m₁ * 2 ^ k / m₂ + 1) := Nat.lt_mul_div_succ _ h₂
  constructor
  · have hpow : 2 ^ (m₁.log2 + k) <
        2 ^ (m₂.log2 + 1 + ((m₁ * 2 ^ k / m₂).log2 + 1)) := calc
      2 ^ (m₁.log2 + k) < m₂ * (m₁ * 2 ^ k / m₂ + 1) := hself.trans_lt hless
      _ ≤ 2 ^ (m₂.log2 + 1) * 2 ^ ((m₁ * 2 ^ k / m₂).log2 + 1) :=
        Nat.mul_le_mul hdivisor.le hquotient
      _ = _ := (pow_add 2 _ _).symm
    have := (Nat.pow_lt_pow_iff_right (by decide)).1 hpow
    omega
  · intro hzero
    rw [hzero, zero_add, mul_one] at hless
    have := (Nat.pow_lt_pow_iff_right (by decide)).1 ((hself.trans_lt hless).trans hdivisor)
    omega

/-- Quotients of mantissas are those of numbers, up to powers of two. -/
theorem scaled_quotient (m₁ : ℕ) (h₂ : 0 < m₂) {k : ℕ} {t : ℤ} (h : k + t + e₂ = e₁) :
    ((m₁ * 2 ^ k : ℕ) / m₂ : ℚ) * 2 ^ t = m₁ * 2 ^ e₁ / (m₂ * 2 ^ e₂) := by
  have hdivisor : (m₂ : ℚ) ≠ 0 := by exact_mod_cast h₂.ne'
  rw [← h, zpow_add₀ (by norm_num), zpow_add₀ (by norm_num), zpow_natCast,
    eq_div_iff (mul_ne_zero hdivisor (two_zpow_pos e₂).ne')]
  push_cast
  field_simp

/-- **The quotient of doubles is the double nearest to the quotient.** -/
theorem isWorth_div_finite (h₁ : 0 < m₁) (h₂ : 0 < m₂) :
    IsWorth (unpack Format.binary64 (pack Format.binary64
        (div Format.binary64 (.finite s₁ m₁ e₁ h₁) (.finite s₂ m₂ e₂ h₂))))
      (signed (s₁ / s₂) (double (m₁ * 2 ^ e₁ / (m₂ * 2 ^ e₂)))) := by
  have htarget : Format.binary64.targetExponent (totalExponent m₁ e₁ - totalExponent m₂ e₂) =
      max (m₁.log2 + e₁ - (m₂.log2 + e₂) - 53) (-1074) := by
    rw [targetExponent_binary64, totalExponent, totalExponent]
    congr 1
    ring
  rw [div, divCore, htarget, Nat.shiftLeft_eq]
  obtain ⟨t, ht⟩ : ∃ t, t = min (e₁ - e₂) (max (m₁.log2 + e₁ - (m₂.log2 + e₂) - 53 : ℤ) (-1074)) :=
    ⟨_, rfl⟩
  obtain ⟨k, hk⟩ : ∃ k, k = (e₁ - e₂ - t).toNat := ⟨_, rfl⟩
  obtain ⟨hdigits, hnone⟩ := log2_le_of_quotient h₁ h₂ k
  have hpos : (0 : ℚ) < (m₁ * 2 ^ k : ℕ) / m₂ :=
    div_pos (by exact_mod_cast Nat.mul_pos h₁ (Nat.two_pow_pos k)) (by exact_mod_cast h₂)
  have hquotient : ((m₁ * 2 ^ k : ℕ) / m₂ : ℚ) * 2 ^ t = m₁ * 2 ^ e₁ / (m₂ * 2 ^ e₂) :=
    scaled_quotient m₁ h₂ (by omega)
  rw [← hquotient]
  simp only [← ht, ← hk]
  exact isWorth_pack_roundWithAccuracy _ (standsFor_quotient _ h₂) hpos (by omega) fun hzero => by
    have := hnone hzero
    omega

end Quotient

/-! ## Numbers with digits behind the point -/

/-- A double that is worth a positive number and is not infinite is a finite one. -/
theorem IsWorth.exists_finite {u : UnpackedFloat} (h : IsWorth u x) (hpos : 0 < x)
    (hlt : x < topValue) : ∃ n d hn, u = .finite .positive n d hn ∧ (n * 2 ^ d : ℚ) = x := by
  obtain ⟨-, hnumber, rfl⟩ := h
  cases u with
  | notANumber => cases hnumber
  | zero => exact absurd hpos (lt_irrefl 0)
  | infinity s =>
    cases s
    · exact absurd hpos (not_lt.2 (neg_nonpos.2 topValue_pos.le))
    · exact absurd hlt (lt_irrefl topValue)
  | finite s n d hn =>
    cases s
    · refine absurd hpos (not_lt.2 (neg_nonpos.2 (mul_nonneg (Nat.cast_nonneg n) ?_)))
      exact (two_zpow_pos d).le
    · exact ⟨n, d, hn, rfl, rfl⟩

/-- Zeros at the end are digits. -/
theorem log2_mul_two_pow (hm : 0 < m) (k : ℕ) : (m * 2 ^ k).log2 = m.log2 + k := by
  refine (Nat.log2_eq_iff (Nat.mul_pos hm (Nat.two_pow_pos k)).ne').2 ⟨?_, ?_⟩
  · rw [pow_add]
    exact Nat.mul_le_mul_right _ (Nat.log2_self_le hm.ne')
  · rw [show m.log2 + k + 1 = m.log2 + 1 + k by omega, pow_add]
    exact Nat.mul_lt_mul_of_pos_right Nat.lt_log2_self (Nat.two_pow_pos k)

/-- **Integers of 53 digits are doubles.** -/
theorem isWorth_toFloat (hm : m < 2 ^ 53) : IsWorth m.toUInt64.toFloat.toModel.unpack m := by
  have hnat : m.toUInt64.toNat = m := UInt64.toNat_ofNat_of_lt (hm.trans (by decide))
  show IsWorth (unpack Format.binary64 (pack Format.binary64
    (ofInt Format.binary64 (m.toUInt64.toNat : ℤ)))) m
  rw [hnat, ofInt, Float.Model.UnpackedFloat.normalize]
  obtain rfl | hpos := m.eq_zero_or_pos
  · rw [Nat.cast_zero, compare_eq_iff_eq.2 rfl]
    show IsWorth (unpack Format.binary64 (pack Format.binary64 (.zero .positive))) 0
    rw [unpack_pack_zero]
    exact ⟨trivial, rfl, rfl⟩
  · have hlog : m.log2 < 53 := (Nat.log2_lt hpos.ne').2 hm
    have hlog' := log2_mul_two_pow hpos (52 - m.log2)
    have hshift : (0 - max ((m.log2 : ℤ) + 0 - 52) (-1074)).toNat = 52 - m.log2 := by omega
    have hscaled : ((m * 2 ^ (52 - m.log2) : ℕ) * 2 ^ (0 - (52 - m.log2 : ℕ) : ℤ) : ℚ) = m := by
      rw [zero_sub, zpow_neg, zpow_natCast]
      push_cast
      exact mul_inv_cancel_right₀ (by positivity) _
    have hdouble : double m = m := by
      simpa using double_eq_self (e := 0) hm (by decide) (by decide)
    have hpos' := Nat.mul_pos hpos (Nat.two_pow_pos (52 - m.log2))
    have hworth := isWorth_pack_roundWithAccuracy .positive
      (standsFor_exact (m * 2 ^ (52 - m.log2))) (e := 0 - (52 - m.log2 : ℕ))
      (by exact_mod_cast hpos') (by omega) (by omega)
    rw [hscaled, hdouble] at hworth
    rw [compare_gt_iff_gt.2 (by exact_mod_cast hpos)]
    simp only [Float.Model.UnpackedFloat.round, targetExponent_eq, decreaseExponent,
      Int.toNat_natCast, hshift, Nat.shiftLeft_eq]
    exact hworth

/-- Whether a double is a power of ten, as an integer times a power of two. -/
def isPowerOfTen (k : ℕ) : UnpackedFloat → Bool
  | .finite .positive n d _ => -52 ≤ d && n * 2 ^ (d + 52).toNat == 10 ^ k * 2 ^ 52
  | _ => false

theorem isPowerOfTen_table : ∀ k : Fin Float.exactlyRepresentablePowersOfTen.size,
    isPowerOfTen k Float.exactlyRepresentablePowersOfTen[k].toModel.unpack = true := by
  decide +kernel

theorem exists_of_isPowerOfTen {k : ℕ} {u : UnpackedFloat} (h : isPowerOfTen k u = true) :
    ∃ n d hn, u = .finite .positive n d hn ∧ (n * 2 ^ d : ℚ) = 10 ^ k := by
  unfold isPowerOfTen at h
  split at h
  · next n d hn =>
    obtain ⟨hd, heq⟩ := Bool.and_eq_true_iff.1 h
    have hd : -52 ≤ d := of_decide_eq_true hd
    have heq : (n * 2 ^ (d + 52).toNat : ℚ) = 10 ^ k * 2 ^ 52 := by exact_mod_cast eq_of_beq heq
    rw [← zpow_natCast, Int.toNat_of_nonneg (by omega), zpow_add₀ (by norm_num), ← mul_assoc] at heq
    exact ⟨n, d, hn, rfl, mul_right_cancel₀ (by norm_num) heq⟩
  · cases h

theorem toModel_div (x y : Float) : (x / y).toModel.unpack = unpack Format.binary64
    (pack Format.binary64 (div Format.binary64 x.toModel.unpack y.toModel.unpack)) := rfl

theorem exists_powerOfTen {k : ℕ} (hk : k < Float.exactlyRepresentablePowersOfTen.size) :
    ∃ n d hn, Float.exactlyRepresentablePowersOfTen[k].toModel.unpack = .finite .positive n d hn ∧
      (n * 2 ^ d : ℚ) = 10 ^ k :=
  exists_of_isPowerOfTen (isPowerOfTen_table ⟨k, hk⟩)

/-- A number with more places behind the point than digits is small. -/
theorem div_pow_lt (m k : ℕ) : (m / 10 ^ k : ℚ) < 2 ^ (m.log2 + 1 - k : ℤ) := by
  have hnum : (m : ℚ) < 2 ^ (m.log2 + 1 : ℤ) := by
    exact_mod_cast (Nat.lt_log2_self : m < 2 ^ (m.log2 + 1))
  have hden : (2 : ℚ) ^ (k : ℤ) ≤ 10 ^ k := by
    rw [zpow_natCast]
    exact pow_le_pow_left₀ (by norm_num) (by norm_num) k
  rw [zpow_sub₀ (by norm_num)]
  exact div_lt_div₀ hnum hden (two_zpow_pos _).le (two_zpow_pos _)

/-- A number that is too small is rounded to zero. -/
theorem double_eq_zero {k : ℕ} (hm : 0 < m) (h : 2 ^ 11 + m.log2 < k) :
    double (m / 10 ^ k) = 0 := by
  have hpos : (0 : ℚ) < m / 10 ^ k := div_pos (by exact_mod_cast hm) (by positivity)
  have hsmall : (m / 10 ^ k : ℚ) < 2 ^ (-1075 : ℤ) :=
    (div_pow_lt m k).trans_le (zpow_le_zpow_right₀ (by norm_num) (by omega))
  rw [double_of_pos hpos, rounded_eq_zero hpos hsmall, min_eq_left topValue_pos.le]

/-- Only zeros are worth zero. -/
theorem IsWorth.exists_zero {u : UnpackedFloat} (h : IsWorth u 0) : ∃ s, u = .zero s := by
  obtain ⟨-, hnumber, hworth⟩ := h
  cases u with
  | notANumber => cases hnumber
  | zero s => exact ⟨s, rfl⟩
  | infinity s =>
    cases s
    · exact absurd hworth (neg_ne_zero.2 topValue_pos.ne')
    · exact absurd hworth topValue_pos.ne'
  | finite s n d hn =>
    have hpos : (0 : ℚ) < n * 2 ^ d := mul_pos (by exact_mod_cast hn) (two_zpow_pos d)
    cases s
    · exact absurd hworth (neg_ne_zero.2 hpos.ne')
    · exact absurd hworth hpos.ne'

theorem isWorth_zero (s : Sign) :
    IsWorth (unpack Format.binary64 (pack Format.binary64 (.zero s))) 0 := by
  rw [unpack_pack_zero]
  exact ⟨trivial, rfl, rfl⟩

/-- **Few digits** are divided by a power of ten that is a double. -/
theorem isWorth_div_powerOfTen {k : ℕ} (hm : m < 2 ^ 53)
    (hk : k < Float.exactlyRepresentablePowersOfTen.size) :
    IsWorth (m.toUInt64.toFloat / Float.exactlyRepresentablePowersOfTen[k]).toModel.unpack
      (double (m / 10 ^ k)) := by
  obtain ⟨n, d, hn, hten, hpower⟩ := exists_powerOfTen hk
  have hfloat := isWorth_toFloat hm
  rw [toModel_div, hten]
  obtain rfl | hpos := m.eq_zero_or_pos
  · rw [Nat.cast_zero] at hfloat
    obtain ⟨s, hzero⟩ := hfloat.exists_zero
    rw [hzero, Nat.cast_zero, zero_div, double_zero]
    exact isWorth_zero _
  · have hlt : (m : ℚ) < topValue := calc
      (m : ℚ) < 2 ^ (53 : ℤ) := by exact_mod_cast hm
      _ ≤ topValue := zpow_le_zpow_right₀ (by norm_num) (by decide)
    obtain ⟨n', d', hn', hunpack, hworth⟩ :=
      hfloat.exists_finite (by exact_mod_cast hpos) hlt
    rw [hunpack, ← hworth, ← hpower]
    exact isWorth_div_finite hn' hn

theorem mul_finite {m₁ m₂ : ℕ} {e₁ e₂ : ℤ} {s₁ s₂ : Sign} (h₁ : 0 < m₁) (h₂ : 0 < m₂) :
    mul Format.binary64 (.finite s₁ m₁ e₁ h₁) (.finite s₂ m₂ e₂ h₂) =
      roundWithAccuracy Format.binary64 (s₁ * s₂) (m₁ * m₂) (e₁ + e₂) .exact := rfl

/-- **Whole numbers** are rounded after they were given enough digits. -/
theorem isWorth_whole (hm : 0 < m) : IsWorth (unpack Format.binary64 (pack Format.binary64
    (roundWithAccuracy Format.binary64 .positive (m * 2 ^ 53) (-53) .exact))) (double m) := by
  have hlog : (m * 2 ^ 53).log2 = m.log2 + 53 := log2_mul_two_pow hm 53
  have hscaled : ((m * 2 ^ 53 : ℕ) * 2 ^ (-53 : ℤ) : ℚ) = m := by
    push_cast
    rw [zpow_neg]
    exact mul_inv_cancel_right₀ (by positivity) _
  have hworth := isWorth_pack_roundWithAccuracy .positive (standsFor_exact (m * 2 ^ 53))
    (e := -53) (by positivity) (by omega) (by omega)
  rw [hscaled] at hworth
  exact hworth

/-- **Many digits** are divided by a power of ten before they are rounded. -/
theorem isWorth_model_ofScientific (m k : ℕ) :
    IsWorth (Float.Model.ofScientific m (Int.negOfNat k)).unpack (double (m / 10 ^ k)) := by
  show IsWorth (unpack Format.binary64 (pack Format.binary64
    (UnpackedFloat.ofScientific Format.binary64 m (Int.negOfNat k)))) _
  have hbits : Format.binary64.exponentBits = 11 := rfl
  have hneg : Int.negOfNat k = -k := Int.negOfNat_eq
  rw [UnpackedFloat.ofScientific, hbits, hneg]
  split
  · next hzero =>
    rw [hzero, Nat.cast_zero, zero_div, double_zero]
    exact isWorth_zero _
  next hm =>
  have hm := Nat.pos_of_ne_zero hm
  rw [if_neg (by omega)]
  split
  · next hsmall =>
    rw [double_eq_zero hm (by omega)]
    exact isWorth_zero _
  split
  · next hwhole =>
    obtain rfl : k = 0 := by omega
    rw [mul_finite]
    have hbits : Format.binary64.mantissaBits = 53 := rfl
    simp only [hbits, Nat.shiftLeft_eq, Int.ofNat_zero, neg_zero, Int.toNat_zero, pow_zero, mul_one,
      add_zero, div_one]
    exact isWorth_whole hm
  · next hsplit =>
    have hten : ((10 ^ (- -(k : ℤ)).toNat : ℕ) : ℚ) = 10 ^ k := by
      rw [neg_neg, Int.toNat_natCast, Nat.cast_pow, Nat.cast_ofNat]
    have hworth := @isWorth_div_finite m (10 ^ (- -(k : ℤ)).toNat) 0 0 .positive .positive hm
      (Nat.pow_pos (by decide))
    rw [hten, zpow_zero, mul_one, mul_one] at hworth
    exact hworth

/-- **Digits with some behind the point** are read as the nearest double. -/
theorem isWorth_ofScientific (m k : ℕ) :
    IsWorth (Float.ofScientific m true k).toModel.unpack (double (m / 10 ^ k)) := by
  rw [Float.ofScientific]
  split
  · next hfast => exact isWorth_div_powerOfTen hfast.1 (Nat.lt_succ_of_le hfast.2)
  · exact isWorth_model_ofScientific m k

/-! ## Signs -/

theorem signed_neg (s : Sign) (x : ℚ) : signed (-s) x = -signed s x := by
  cases s
  · exact (neg_neg x).symm
  · rfl

theorem isWorth_pack_neg {u : UnpackedFloat} (h : IsWorth u x) :
    IsWorth (unpack Format.binary64 (pack Format.binary64 u.neg)) (-x) := by
  obtain ⟨hcanonical, hnumber, rfl⟩ := h
  cases u with
  | notANumber => cases hnumber
  | infinity s =>
    show IsWorth (unpack Format.binary64 (pack Format.binary64 (.infinity (-s)))) _
    rw [unpack_pack_infinity]
    exact ⟨trivial, rfl, signed_neg s topValue⟩
  | zero s =>
    show IsWorth _ (-0)
    rw [neg_zero]
    exact isWorth_zero (-s)
  | finite s n d hn =>
    have hworth := isWorth_pack_finite (s := -s) hn hcanonical.1
    rw [min_eq_left (hcanonical.1.worth_lt_infinity hcanonical.2).le, signed_neg] at hworth
    exact hworth

/-- **The negative of a double.** -/
theorem IsWorth.neg {y : Float} (h : IsWorth y.toModel.unpack x) :
    IsWorth (-y).toModel.unpack (-x) :=
  isWorth_pack_neg h

end XmlConformance.Decimal
