import Mathlib
import XmlConformance.Proofs.Decimal.Rounding

/-!
# Proofs/Decimal/Unpacked — what doubles are worth

A double unpacks to a sign, an integer and an exponent of two, and these are in canonical form
(`InForm`): the integer has 53 binary digits, unless the exponent is the smallest one. Canonical
forms compare as the numbers that they are worth (`IsWorth.compare_eq`), and come back when they are
packed (`isWorth_pack_finite`), except that exponents which are too large give infinity, and
`topValue` is what stands for that.
-/

namespace XmlConformance.Decimal

open Float.Model (UnpackedFloat Format)
open Float.Model.UnpackedFloat

/-! ## Comparing numbers -/

/-- Pairs in the same order compare alike. -/
theorem compare_congr {α β : Type} [LinearOrder α] [LinearOrder β] {a b : α} {x y : β}
    (hlt : a < b ↔ x < y) (hgt : b < a ↔ y < x) : compare a b = compare x y := by
  obtain h | rfl | h := lt_trichotomy a b
  · rw [compare_lt_iff_lt.2 h, compare_lt_iff_lt.2 (hlt.1 h)]
  · have heq : x = y := le_antisymm (not_lt.1 (mt hgt.2 (lt_irrefl a)))
      (not_lt.1 (mt hlt.2 (lt_irrefl a)))
    rw [compare_eq_iff_eq.2 rfl, compare_eq_iff_eq.2 heq]
  · rw [compare_gt_iff_gt.2 h, compare_gt_iff_gt.2 (hgt.1 h)]

theorem compare_neg_neg (x y : ℚ) : compare (-x) (-y) = (compare x y).swap := by
  obtain h | rfl | h := lt_trichotomy x y
  · rw [compare_lt_iff_lt.2 h, compare_gt_iff_gt.2 (neg_lt_neg h)]
    rfl
  · rw [compare_eq_iff_eq.2 rfl, compare_eq_iff_eq.2 rfl]
    rfl
  · rw [compare_gt_iff_gt.2 h, compare_lt_iff_lt.2 (neg_lt_neg h)]
    rfl

theorem some_lt {x y : ℚ} (h : x < y) : some .lt = some (compare x y) :=
  congrArg some (compare_lt_iff_lt.2 h).symm

theorem some_gt {x y : ℚ} (h : y < x) : some .gt = some (compare x y) :=
  congrArg some (compare_gt_iff_gt.2 h).symm

theorem some_eq (x : ℚ) : some .eq = some (compare x x) :=
  congrArg some (compare_eq_iff_eq.2 rfl).symm

/-! ## Values -/

/-- A number with a sign. -/
def signed (s : Sign) (x : ℚ) : ℚ :=
  match s with
  | .negative => -x
  | .positive => x

/-- The number that an unpacked double is worth. -/
def worth : UnpackedFloat → ℚ
  | .infinity s => signed s topValue
  | .notANumber => 0
  | .zero _ => 0
  | .finite s m e _ => signed s (m * 2 ^ e)

/-- **Canonical form**: 53 binary digits, unless the exponent is the smallest one. -/
structure InForm (m : ℕ) (e : ℤ) : Prop where
  lt : m < 2 ^ 53
  least : -1074 ≤ e
  full : -1074 < e → 2 ^ 52 ≤ m

/-- An unpacked double is in canonical form, and its exponent is not too large. -/
def Canonical : UnpackedFloat → Prop
  | .finite _ m e _ => InForm m e ∧ e ≤ 971
  | _ => True

/-- **An unpacked double is worth a number.** -/
structure IsWorth (u : UnpackedFloat) (q : ℚ) : Prop where
  canonical : Canonical u
  isNumber : u.isNaN = false
  eq : worth u = q

variable {s : Sign} {m n : ℕ} {d e : ℤ}

theorem InForm.worth_lt (h : InForm m e) : (m * 2 ^ e : ℚ) < 2 ^ (53 + e) := by
  rw [zpow_add₀ (by norm_num)]
  exact mul_lt_mul_of_pos_right (by exact_mod_cast h.lt) (two_zpow_pos e)

theorem InForm.le_worth (h : InForm m e) (he : -1074 < e) : (2 ^ (52 + e) : ℚ) ≤ m * 2 ^ e := by
  rw [zpow_add₀ (by norm_num)]
  exact mul_le_mul_of_nonneg_right (by exact_mod_cast h.full he) (two_zpow_pos e).le

/-- **A larger exponent, a larger number.** -/
theorem InForm.worth_lt_worth (h : InForm m d) (h' : InForm n e) (hlt : d < e) :
    (m * 2 ^ d : ℚ) < n * 2 ^ e :=
  calc (m * 2 ^ d : ℚ) < 2 ^ (53 + d) := h.worth_lt
    _ ≤ 2 ^ (52 + e) := zpow_le_zpow_right₀ (by norm_num) (by omega)
    _ ≤ n * 2 ^ e := h'.le_worth (h.least.trans_lt hlt)

theorem InForm.compare_eq (h : InForm m d) (h' : InForm n e) :
    (compare d e).then (compare m n) = compare (m * 2 ^ d : ℚ) (n * 2 ^ e) := by
  obtain hlt | rfl | hlt := lt_trichotomy d e
  · rw [compare_lt_iff_lt.2 hlt, compare_lt_iff_lt.2 (h.worth_lt_worth h' hlt)]
    rfl
  · have hmul {a b : ℕ} : a < b ↔ (a * 2 ^ d : ℚ) < b * 2 ^ d := by
      rw [mul_lt_mul_iff_left₀ (two_zpow_pos d), Nat.cast_lt]
    rw [compare_eq_iff_eq.2 rfl]
    exact compare_congr hmul hmul
  · rw [compare_gt_iff_gt.2 hlt, compare_gt_iff_gt.2 (h'.worth_lt_worth h hlt)]
    rfl

/-- Finite numbers are smaller than what infinity is worth. -/
theorem InForm.worth_lt_infinity (h : InForm m e) (he : e ≤ 971) :
    (m * 2 ^ e : ℚ) < topValue :=
  h.worth_lt.trans_le (zpow_le_zpow_right₀ (by norm_num) (by omega))

variable {u : UnpackedFloat} {s' : Sign}

theorem worth_finite_pos (hm : 0 < m) : 0 < worth (.finite .positive m e hm) :=
  mul_pos (by exact_mod_cast hm) (two_zpow_pos e)

theorem worth_finite_neg (hm : 0 < m) : worth (.finite .negative m e hm) < 0 :=
  neg_neg_of_pos (worth_finite_pos hm)

/-- What is not infinite is worth less, on both sides. -/
theorem abs_worth_lt (hu : Canonical u) (hfinite : u.isInf = false) : |worth u| < topValue := by
  cases u with
  | infinity => cases hfinite
  | notANumber | zero => exact abs_zero.trans_lt topValue_pos
  | finite s m e hm =>
    have hlt := hu.1.worth_lt_infinity hu.2
    have hpos : (0 : ℚ) < m * 2 ^ e := worth_finite_pos hm
    cases s
    · exact (abs_neg _).trans_lt ((abs_of_pos hpos).trans_lt hlt)
    · exact (abs_of_pos hpos).trans_lt hlt

theorem compare_infinity_infinity : (UnpackedFloat.infinity s).compare (.infinity s') =
    some (compare (worth (.infinity s)) (worth (.infinity s'))) := by
  have hlt : -topValue < topValue := neg_lt_self topValue_pos
  cases s <;> cases s'
  · exact some_eq _
  · exact some_lt hlt
  · exact some_gt hlt
  · exact some_eq _

/-- **Infinity** is beyond everything else. -/
theorem compare_infinity (hu : Canonical u) (hnumber : u.isNaN = false)
    (hfinite : u.isInf = false) :
    (UnpackedFloat.infinity s).compare u = some (compare (worth (.infinity s)) (worth u)) ∧
      u.compare (.infinity s) = some (compare (worth u) (worth (.infinity s))) := by
  obtain ⟨hbelow, habove⟩ := abs_lt.1 (abs_worth_lt hu hfinite)
  cases u with
  | notANumber => cases hnumber
  | infinity => cases hfinite
  | zero | finite =>
    cases s
    · exact ⟨some_lt hbelow, some_gt hbelow⟩
    · exact ⟨some_gt habove, some_lt habove⟩

/-- **Zero** is between the signs. -/
theorem compare_zero (hm : 0 < m) : (UnpackedFloat.zero s).compare (.finite s' m e hm) =
      some (compare 0 (worth (.finite s' m e hm))) ∧
    (UnpackedFloat.finite s' m e hm).compare (.zero s) =
      some (compare (worth (.finite s' m e hm)) 0) := by
  cases s'
  · exact ⟨some_gt (worth_finite_neg hm), some_lt (worth_finite_neg hm)⟩
  · exact ⟨some_lt (worth_finite_pos hm), some_gt (worth_finite_pos hm)⟩

/-- **Finite numbers** compare by their exponents first. -/
theorem compare_finite (h : InForm m d) (h' : InForm n e) (hm : 0 < m) (hn : 0 < n) :
    (UnpackedFloat.finite s m d hm).compare (.finite s' n e hn) =
      some (compare (worth (.finite s m d hm)) (worth (.finite s' n e hn))) := by
  cases s <;> cases s'
  · show some ((compare d e).then (compare m n)).swap = _
    rw [h.compare_eq h', ← compare_neg_neg]
    rfl
  · exact some_lt ((worth_finite_neg hm).trans (worth_finite_pos hn))
  · exact some_gt ((worth_finite_neg hn).trans (worth_finite_pos hm))
  · exact congrArg some (h.compare_eq h')

/-- **Doubles compare as the numbers that they are worth.** -/
theorem IsWorth.compare_eq {a b : UnpackedFloat} {x y : ℚ} (ha : IsWorth a x) (hb : IsWorth b y) :
    a.compare b = some (compare x y) := by
  obtain ⟨ha, ha', rfl⟩ := ha
  obtain ⟨hb, hb', rfl⟩ := hb
  cases a with
  | notANumber => cases ha'
  | infinity s =>
    cases b with
    | infinity s' => exact compare_infinity_infinity
    | notANumber | zero | finite => exact (compare_infinity hb hb' rfl).1
  | zero s =>
    cases b with
    | notANumber => cases hb'
    | infinity s' => exact (compare_infinity ha ha' rfl).2
    | zero s' => exact some_eq _
    | finite s' n e hn => exact (compare_zero hn).1
  | finite s m d hm =>
    cases b with
    | notANumber => cases hb'
    | infinity s' => exact (compare_infinity ha ha' rfl).2
    | zero s' => exact (compare_zero hm).2
    | finite s' n e hn => exact compare_finite ha.1 hb.1 hm hn

section Float

variable {a b : Float} {x y : ℚ}

theorem IsWorth.lt_iff (ha : IsWorth a.toModel.unpack x) (hb : IsWorth b.toModel.unpack y) :
    a < b ↔ x < y := by
  refine decide_eq_true_iff.trans ?_
  show (a.toModel.unpack.compare b.toModel.unpack == some .lt) = true ↔ _
  rw [ha.compare_eq hb, beq_iff_eq, Option.some.injEq, compare_lt_iff_lt]

theorem IsWorth.beq_iff (ha : IsWorth a.toModel.unpack x) (hb : IsWorth b.toModel.unpack y) :
    (a == b) = true ↔ x = y := by
  show (a.toModel.unpack.compare b.toModel.unpack == some .eq) = true ↔ _
  rw [ha.compare_eq hb, beq_iff_eq, Option.some.injEq, compare_eq_iff_eq]

end Float

/-! ## Packing -/

theorem toNat_append_one (m : BitVec 52) : (1#1 ++ m).toNat = 2 ^ 52 + m.toNat := by
  rw [BitVec.toNat_append, ← Nat.shiftLeft_add_eq_or_of_lt m.isLt]
  simp [Nat.shiftLeft_eq]

theorem toNat_ne_of_ne_neg_one {e : BitVec 11} (h : e ≠ -1#11) : e.toNat ≠ 2047 :=
  fun heq => h (BitVec.eq_of_toNat_eq (heq.trans (by decide)))

theorem toNat_ne_of_ne_zero {e : BitVec 11} (h : e ≠ 0#11) : e.toNat ≠ 0 :=
  fun heq => h (BitVec.eq_of_toNat_eq (heq.trans (by decide)))

/-- By how much exponents are larger when they are packed. -/
theorem bias_eq : ((Format.binary64.exponentBias : ℤ) +
    Format.binary64.mantissaBitsWithoutImplicit) = 1075 := by decide

/-- **Whatever is unpacked is in canonical form.** -/
theorem canonical_unpack (b : BitVec 64) : Canonical (unpack Format.binary64 b) := by
  let mantissa : BitVec 52 := @unpackMantissa Format.binary64 b
  let exponent : BitVec 11 := @unpackExponent Format.binary64 b
  have hmantissa : mantissa.toNat < 2 ^ 52 := mantissa.isLt
  have hexponent : exponent.toNat < 2 ^ 11 := exponent.isLt
  simp only [unpack]
  split
  · split <;> exact trivial
  · next hone =>
    have hone : exponent.toNat ≠ 2047 := toNat_ne_of_ne_neg_one hone
    split
    · next hzero =>
      have hzero : exponent.toNat = 0 := congrArg BitVec.toNat hzero
      split
      · exact trivial
      · refine ⟨⟨?_, ?_, fun h => ?_⟩, ?_⟩
        · exact hmantissa.trans (by decide)
        · show (-1074 : ℤ) ≤ exponent.toNat - 1075 + 1
          omega
        · exact absurd h (by show ¬ (-1074 : ℤ) < exponent.toNat - 1075 + 1; omega)
        · show (exponent.toNat - 1075 + 1 : ℤ) ≤ 971
          omega
    · next hzero =>
      have hzero : exponent.toNat ≠ 0 := toNat_ne_of_ne_zero hzero
      have hnormal : (1#1 ++ mantissa).toNat = 2 ^ 52 + mantissa.toNat := toNat_append_one mantissa
      refine ⟨⟨?_, ?_, fun _ => ?_⟩, ?_⟩
      · show (1#1 ++ mantissa).toNat < 2 ^ 53
        omega
      · show (-1074 : ℤ) ≤ exponent.toNat - 1075
        omega
      · show 2 ^ 52 ≤ (1#1 ++ mantissa).toNat
        omega
      · show (exponent.toNat - 1075 : ℤ) ≤ 971
        omega

/-- What is packed comes back, if it is special. -/
theorem unpack_pack_infinity (s : Sign) :
    unpack Format.binary64 (pack Format.binary64 (.infinity s)) = .infinity s := by
  rw [pack, packedInfinity, unpack]
  simp only [unpackMantissa_packComponents, unpackExponent_packComponents,
    unpackSign_packComponents, Sign.ofBitVec_toBitVec]
  rfl

theorem unpack_pack_zero (s : Sign) :
    unpack Format.binary64 (pack Format.binary64 (.zero s)) = .zero s := by
  rw [pack, unpack_packedZero]

/-- A finite number is packed as the special one that is infinite, or by its parts. -/
theorem pack_finite (hm : 0 < m) (h : InForm m e) : pack Format.binary64 (.finite s m e hm) =
    if 971 < e then pack Format.binary64 (.infinity s)
    else packComponents Format.binary64 s
      (BitVec.ofNat 11 (if 2 ^ 52 ≤ m then (e + 1075).toNat else 0)) (BitVec.ofNat 52 m) := by
  have hbiased : (e + (Format.binary64.exponentBias : ℤ) +
      (Format.binary64.mantissaBitsWithoutImplicit : ℤ)).toNat = (e + 1075).toNat := by
    rw [add_assoc, bias_eq]
  have hbits : m.log2 + 1 = Format.binary64.mantissaBits ↔ 2 ^ 52 ≤ m := by
    rw [show Format.binary64.mantissaBits = 52 + 1 from rfl, Nat.add_right_cancel_iff,
      Nat.log2_eq_iff hm.ne', and_iff_left h.lt]
  have hlarge : 2 ^ Format.binary64.exponentBits ≤ (e + 1075).toNat + 1 ↔ 971 < e := by
    show 2 ^ 11 ≤ (e + 1075).toNat + 1 ↔ 971 < e
    omega
  simp only [pack, hbiased, hbits, hlarge]
  split_ifs <;> rfl

/-- **What parts are worth when they are packed.** -/
theorem isWorth_packComponents {exponent : BitVec 11} {mantissa : BitVec 52}
    (hone : exponent.toNat ≠ 2047) :
    IsWorth (unpack Format.binary64 (packComponents Format.binary64 s exponent mantissa))
      (signed s (if exponent.toNat = 0 then mantissa.toNat * 2 ^ (-1074 : ℤ)
        else (2 ^ 52 + mantissa.toNat : ℕ) * 2 ^ ((exponent.toNat : ℤ) - 1075))) := by
  have hone : exponent ≠ -1#11 := fun h => hone (congrArg BitVec.toNat h)
  refine and_imp.2 (IsWorth.mk (canonical_unpack _)) ?_
  simp only [unpack, unpackMantissa_packComponents, unpackExponent_packComponents,
    unpackSign_packComponents, Sign.ofBitVec_toBitVec]
  rw [if_neg hone]
  by_cases hzero : exponent = 0#11
  · have hexponent : exponent.toNat = 0 := congrArg BitVec.toNat hzero
    rw [if_pos hzero, if_pos hexponent]
    split
    · next hmantissa =>
      have hmantissa : mantissa.toNat = 0 := congrArg BitVec.toNat hmantissa
      rw [hmantissa]
      exact ⟨rfl, by cases s <;> simp [worth, signed]⟩
    · refine ⟨rfl, ?_⟩
      show signed s (mantissa.toNat * 2 ^ ((exponent.toNat : ℤ) - 1075 + 1)) = _
      rw [hexponent]
      rfl
  · rw [if_neg hzero, if_neg (toNat_ne_of_ne_zero hzero)]
    refine ⟨rfl, ?_⟩
    show signed s ((1#1 ++ mantissa).toNat * 2 ^ ((exponent.toNat : ℤ) - 1075)) = _
    rw [toNat_append_one]

theorem isWorth_packNormal (h : InForm m e) (he : e ≤ 971) (hfull : 2 ^ 52 ≤ m) :
    IsWorth (unpack Format.binary64 (packComponents Format.binary64 s
      (BitVec.ofNat 11 (e + 1075).toNat) (BitVec.ofNat 52 m))) (signed s (m * 2 ^ e)) := by
  have hlt := h.lt
  have hleast := h.least
  have hexponent : (BitVec.ofNat 11 (e + 1075).toNat).toNat = (e + 1075).toNat := by
    rw [BitVec.toNat_ofNat, Nat.mod_eq_of_lt (by omega)]
  have hmantissa : 2 ^ 52 + (BitVec.ofNat 52 m).toNat = m := by
    rw [BitVec.toNat_ofNat]
    omega
  have hworth := @isWorth_packComponents s _ (BitVec.ofNat 52 m)
    (show (BitVec.ofNat 11 (e + 1075).toNat).toNat ≠ 2047 by omega)
  rw [if_neg (by omega), hmantissa, hexponent, Int.toNat_of_nonneg (by omega),
    add_sub_cancel_right] at hworth
  exact hworth

theorem isWorth_packSubnormal (h : InForm m e) (hfull : ¬ 2 ^ 52 ≤ m) :
    IsWorth (unpack Format.binary64 (packComponents Format.binary64 s
      (BitVec.ofNat 11 0) (BitVec.ofNat 52 m))) (signed s (m * 2 ^ e)) := by
  have hleast := h.least
  have he : e = -1074 := by
    by_contra hne
    exact hfull (h.full (by omega))
  have hmantissa : (BitVec.ofNat 52 m).toNat = m := by
    rw [BitVec.toNat_ofNat]
    omega
  have hworth := @isWorth_packComponents s 0#11 (BitVec.ofNat 52 m) (by decide)
  rw [if_pos (by decide), hmantissa] at hworth
  rw [he]
  exact hworth

/-- **What a finite number is worth when it is packed**: the same, or infinity if it is too
large. -/
theorem isWorth_pack_finite (hm : 0 < m) (h : InForm m e) :
    IsWorth (unpack Format.binary64 (pack Format.binary64 (.finite s m e hm)))
      (signed s (min (m * 2 ^ e) topValue)) := by
  rw [pack_finite hm h]
  split
  · next hlarge =>
    have hle : topValue ≤ m * 2 ^ e := calc
      topValue ≤ 2 ^ (52 + e) := zpow_le_zpow_right₀ (by norm_num) (by omega)
      _ ≤ m * 2 ^ e := h.le_worth (by omega)
    rw [unpack_pack_infinity, min_eq_right hle]
    exact ⟨trivial, rfl, rfl⟩
  · next hsmall =>
    have he : e ≤ 971 := not_lt.1 hsmall
    rw [min_eq_left (h.worth_lt_infinity he).le]
    by_cases hfull : 2 ^ 52 ≤ m
    · rw [if_pos hfull]
      exact isWorth_packNormal h he hfull
    · rw [if_neg hfull]
      exact isWorth_packSubnormal h hfull

end XmlConformance.Decimal
