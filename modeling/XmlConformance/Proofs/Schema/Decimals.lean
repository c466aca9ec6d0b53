import Mathlib.Data.List.DropRight
import Mathlib.Tactic.FieldSimp
import XmlConformance.Proofs.Schema.Integers
import XmlConformance.Proofs.Text.Spacing
import XmlConformance.Schema.Facet

/-!
# Proofs/Schema/Decimals — the digits of decimal numbers

A decimal literal (`DecimalLiteral`) denotes a rational number, and the number has digits in all and
behind the point, however it is written: `HasFraction` and `HasTotal` say for which counts there is
an integer that is the number when divided by a power of ten. The digits are counted on the text,
without the zeros at both ends. What is left there is a number that ten does not divide
(`not_dvd_place`) and that is not too small (`le_place`), so the counts are the least ones
(`DecimalLiteral.digitCounts_text_eq`).
-/

namespace XmlConformance.Schema

open Builtin

/-- **A decimal literal**: an optional sign, and digits of ASCII with at most one point. -/
structure DecimalLiteral where
  sign : Sign
  whole : List Char
  /-- The digits behind the point, if there is one. -/
  fraction? : Option (List Char)
  isDigit : ∀ d ∈ whole ++ fraction?.getD [], d.isDigit = true
  hasDigit : whole ++ fraction?.getD [] ≠ []

namespace DecimalLiteral

def fraction (l : DecimalLiteral) : List Char := l.fraction?.getD []

/-- The point and what stands behind it, as far as it is there. -/
def pointed : Option (List Char) → List Char
  | none => []
  | some ds => '.' :: ds

/-- The literal without its sign. -/
def unsigned (l : DecimalLiteral) : List Char := l.whole ++ pointed l.fraction?

/-- The literal as it is written. -/
def text (l : DecimalLiteral) : String := String.ofList (l.sign.text ++ l.unsigned)

/-- The number that a literal denotes. -/
def value (l : DecimalLiteral) : ℚ :=
  l.sign.apply (place (l.whole ++ l.fraction)) / 10 ^ l.fraction.length

end DecimalLiteral

/-- A number is an integer, divided by ten some times. -/
def HasFraction (q : ℚ) (n : ℕ) : Prop := ∃ i : ℤ, q = i / 10 ^ n

/-- A number is an integer with a number of digits, divided by ten not more often than that. -/
def HasTotal (q : ℚ) (t : ℕ) : Prop := ∃ (i : ℤ) (n : ℕ), q = i / 10 ^ n ∧ |i| < 10 ^ t ∧ n ≤ t

/-! ## Least counts of digits -/

variable {q : ℚ} {s : Sign} {n k : ℕ}

theorem HasFraction.mono {m : ℕ} (h : HasFraction q n) (hle : n ≤ m) : HasFraction q m := by
  obtain ⟨i, rfl⟩ := h
  refine ⟨i * 10 ^ (m - n), ?_⟩
  rw [div_eq_div_iff (by positivity) (by positivity)]
  push_cast
  rw [mul_assoc, ← pow_add, Nat.sub_add_cancel hle]

theorem HasTotal.mono {t u : ℕ} (h : HasTotal q t) (hle : t ≤ u) : HasTotal q u := by
  obtain ⟨i, m, hq, hi, hm⟩ := h
  exact ⟨i, m, hq, hi.trans_le (pow_le_pow_right₀ (by decide) hle), hm.trans hle⟩

theorem natAbs_apply (s : Sign) (n : ℕ) : (s.apply n).natAbs = n := by
  rw [Sign.apply]
  split <;> simp

theorem cast_apply (s : Sign) (n : ℕ) : (s.apply n : ℚ) = if s.isNegative then -(n : ℚ) else n := by
  rw [Sign.apply]
  split <;> simp

/-- Equal numbers with a sign and a point have equal digits up to powers of ten. -/
theorem mul_pow_eq_of_div_eq {i : ℤ} {m : ℕ} (h : (s.apply n / 10 ^ k : ℚ) = i / 10 ^ m) :
    n * 10 ^ m = i.natAbs * 10 ^ k := by
  rw [div_eq_div_iff (by positivity) (by positivity)] at h
  have hint : s.apply n * 10 ^ m = i * 10 ^ k := by exact_mod_cast h
  simpa [Int.natAbs_mul, Int.natAbs_pow, natAbs_apply] using congrArg Int.natAbs hint

/-- **The least count of digits behind the point**, if ten does not divide the digits. -/
theorem isLeast_hasFraction (s : Sign) (h : k = 0 ∨ ¬ 10 ∣ n) :
    IsLeast {m | HasFraction (s.apply n / 10 ^ k) m} k := by
  refine ⟨⟨s.apply n, rfl⟩, fun m ⟨i, hi⟩ => ?_⟩
  by_contra hlt
  have hmul := mul_pow_eq_of_div_eq hi
  obtain ⟨j, rfl⟩ : ∃ j, k = j + 1 + m := ⟨k - m - 1, by omega⟩
  refine h.resolve_left (by omega) ⟨i.natAbs * 10 ^ j, ?_⟩
  refine Nat.eq_of_mul_eq_mul_right (Nat.pow_pos (by decide : 0 < 10)) (hmul.trans ?_)
  ring

/-- **The least count of digits in all**: as many as the digits have, if zeros in front do not
count. -/
theorem isLeast_hasTotal {w : ℕ} (s : Sign) (h : k = 0 ∨ ¬ 10 ∣ n) (hlt : n < 10 ^ (w + k))
    (hle : w ≠ 0 → 10 ^ (w + k) ≤ 10 * n) :
    IsLeast {t | HasTotal (s.apply n / 10 ^ k) t} (w + k) := by
  refine ⟨⟨s.apply n, k, rfl, ?_, Nat.le_add_left k w⟩, fun t ⟨i, m, hi, hbelow, hm⟩ => ?_⟩
  · rw [Int.abs_eq_natAbs, natAbs_apply]
    exact_mod_cast hlt
  · have hkm : k ≤ m := (isLeast_hasFraction s h).2 ⟨i, hi⟩
    by_cases hw : w = 0
    · omega
    · have hmul := mul_pow_eq_of_div_eq hi
      have hnat : i.natAbs < 10 ^ t := by
        rw [Int.abs_eq_natAbs] at hbelow
        exact_mod_cast hbelow
      have hpow : 10 ^ (w + k) * 10 ^ m < 10 ^ (t + 1) * 10 ^ k := calc
        10 ^ (w + k) * 10 ^ m ≤ 10 * n * 10 ^ m := Nat.mul_le_mul_right _ (hle hw)
        _ = 10 * (i.natAbs * 10 ^ k) := by rw [mul_assoc, hmul]
        _ < 10 * (10 ^ t * 10 ^ k) := by gcongr
        _ = 10 ^ (t + 1) * 10 ^ k := by ring
      rw [← pow_add, ← pow_add] at hpow
      have := (Nat.pow_lt_pow_iff_right (by decide)).1 hpow
      omega

/-! ## The places of digits -/

variable {c d : Char} {cs ds ws fs : List Char}

theorem place_append (cs ds : List Char) :
    place (cs ++ ds) = place cs * 10 ^ ds.length + place ds := by
  rw [place, List.reverse_append, List.map_append, Nat.ofDigits_append, List.length_map,
    List.length_reverse, Nat.add_comm, Nat.mul_comm]
  rfl

theorem place_singleton (d : Char) : place [d] = d.toNat - '0'.toNat := by
  simp [place]

theorem place_cons (d : Char) (ds : List Char) :
    place (d :: ds) = (d.toNat - '0'.toNat) * 10 ^ ds.length + place ds := by
  rw [← List.singleton_append, place_append, place_singleton]

theorem place_concat (ds : List Char) (d : Char) :
    place (ds ++ [d]) = place ds * 10 + (d.toNat - '0'.toNat) := by
  rw [place_append, place_singleton]
  rfl

theorem digit_bounds (h : d.isDigit = true) : '0'.toNat ≤ d.toNat ∧ d.toNat - '0'.toNat < 10 := by
  simp only [Char.isDigit, Bool.and_eq_true, decide_eq_true_eq, UInt32.le_iff_toNat_le] at h
  have hval : d.toNat = d.val.toNat := rfl
  simp only [hval]
  simp at h ⊢
  omega

theorem digit_pos (h : d.isDigit = true) (hd : d ≠ '0') : 0 < d.toNat - '0'.toNat := by
  have := (digit_bounds h).1
  have : d.toNat ≠ '0'.toNat := fun heq => hd (Char.toNat_inj.1 heq)
  omega

theorem place_lt (h : ∀ d ∈ ds, d.isDigit = true) : place ds < 10 ^ ds.length := by
  have hlt := Nat.ofDigits_lt_base_pow_length (b := 10)
    (l := ds.reverse.map fun d => d.toNat - '0'.toNat) (by decide) fun x hx => by
      obtain ⟨d, hd, rfl⟩ := List.mem_map.1 hx
      exact (digit_bounds (h d (List.mem_reverse.1 hd))).2
  rwa [List.length_map, List.length_reverse] at hlt

/-- Zeros in front do not count. -/
theorem place_dropWhile : ∀ ds : List Char, place (ds.dropWhile (· == '0')) = place ds
  | [] => rfl
  | d :: ds => by
    by_cases hd : d = '0'
    · rw [List.dropWhile_cons_of_pos (by simpa using hd), place_dropWhile ds, place_cons, hd,
        Nat.sub_self, Nat.zero_mul, Nat.zero_add]
    · rw [List.dropWhile_cons_of_neg (by simpa using hd)]

/-- Zeros at the end of the digits behind the point do not count. -/
theorem place_div_eq (ws fs : List Char) : (place (ws ++ fs) / 10 ^ fs.length : ℚ) =
    place (ws ++ fs.rdropWhile (· == '0')) / 10 ^ (fs.rdropWhile (· == '0')).length := by
  induction fs using List.reverseRecOn with
  | nil => simp
  | append_singleton fs d ih =>
    by_cases hd : d = '0'
    · rw [List.rdropWhile_concat_pos _ _ _ (by simpa using hd), ← ih, ← List.append_assoc,
        place_concat, hd, Nat.sub_self, Nat.add_zero, List.length_append, List.length_singleton,
        pow_succ]
      push_cast
      rw [mul_div_mul_right _ _ (by norm_num)]
    · rw [List.rdropWhile_concat_neg _ _ _ (by simpa using hd)]

/-- **Ten does not divide digits** that end in another digit than zero. -/
theorem not_dvd_place (hfs : ∀ d ∈ fs.rdropWhile (· == '0'), d.isDigit = true) :
    (fs.rdropWhile (· == '0')).length = 0 ∨ ¬ 10 ∣ place (ws ++ fs.rdropWhile (· == '0')) := by
  rw [List.length_eq_zero_iff, or_iff_not_imp_left]
  intro hne
  have hlast := List.rdropWhile_last_not (· == '0') fs hne
  have hmem := List.getLast_mem hne
  rw [← List.dropLast_append_getLast hne, ← List.append_assoc, place_concat]
  have hpos := digit_pos (hfs _ hmem) (by simpa using hlast)
  have hlt := (digit_bounds (hfs _ hmem)).2
  omega

/-- Digits that start with another digit than zero are not small. -/
theorem le_place (hws : ∀ d ∈ ws.dropWhile (· == '0'), d.isDigit = true) (fs : List Char)
    (hne : (ws.dropWhile (· == '0')).length ≠ 0) :
    10 ^ ((ws.dropWhile (· == '0')).length + fs.length) ≤
      10 * place (ws.dropWhile (· == '0') ++ fs) := by
  have hhead := List.head?_dropWhile_not (· == '0') ws
  cases hws' : ws.dropWhile (· == '0') with
  | nil => exact absurd (congrArg List.length hws') hne
  | cons d ds =>
    rw [hws'] at hws hhead
    have hpos := digit_pos (hws d List.mem_cons_self) (by simpa using hhead)
    rw [List.cons_append, place_cons, List.length_cons, List.length_append]
    calc 10 ^ (ds.length + 1 + fs.length) = 10 * (1 * 10 ^ (ds.length + fs.length)) := by ring
      _ ≤ 10 * ((d.toNat - '0'.toNat) * 10 ^ (ds.length + fs.length) + place (ds ++ fs)) := by
        refine Nat.mul_le_mul_left 10 (Nat.le_add_right_of_le ?_)
        exact Nat.mul_le_mul_right _ hpos

/-! ## Counting on the text -/

theorem utf8ByteSize_digits : ∀ {ds : List Char}, (∀ d ∈ ds, d.isDigit = true) →
    (String.ofList ds).utf8ByteSize = ds.length
  | [], _ => rfl
  | d :: ds, h => by
    obtain ⟨hd, hds⟩ := List.forall_mem_cons.1 h
    have hone : d.utf8Size = 1 := by
      rw [Char.utf8Size_eq_one_iff]
      simp only [Char.isDigit, Bool.and_eq_true, decide_eq_true_eq] at hd
      exact UInt32.le_trans hd.2 (by decide)
    rw [String.ofList_cons, String.utf8ByteSize_append, String.utf8ByteSize_singleton, hone,
      utf8ByteSize_digits hds, List.length_cons, Nat.add_comm]

theorem ne_of_isDigit (hd : d.isDigit = true) (hc : c.isDigit = false) : d ≠ c := by
  rintro rfl
  exact Bool.noConfusion (hd.symm.trans hc)

namespace DecimalLiteral

variable (l : DecimalLiteral)

theorem isDigit_whole : ∀ d ∈ l.whole, d.isDigit = true :=
  fun d h => l.isDigit d (List.mem_append_left _ h)

theorem isDigit_fraction : ∀ d ∈ l.fraction, d.isDigit = true :=
  fun d h => l.isDigit d (List.mem_append_right _ h)

theorem toList_text : l.text.toList = l.sign.text ++ l.unsigned := String.toList_ofList

/-- Without its sign, a literal starts with a digit or the point. -/
theorem head?_unsigned {c : Char} (h : l.unsigned.head? = some c) :
    c.isDigit = true ∨ c = '.' := by
  rw [unsigned, List.head?_append] at h
  cases hwhole : l.whole with
  | cons d ds =>
    rw [hwhole, List.head?_cons, Option.some_or, Option.some.injEq] at h
    exact .inl (h ▸ l.isDigit_whole d (by rw [hwhole]; exact List.mem_cons_self))
  | nil =>
    rw [hwhole, List.head?_nil, Option.none_or] at h
    cases hfraction : l.fraction? with
    | none =>
      rw [hfraction] at h
      cases h
    | some ds =>
      rw [hfraction, pointed, List.head?_cons, Option.some.injEq] at h
      exact .inr h.symm

theorem takeWhile_unsigned : l.unsigned.takeWhile (· != '.') = l.whole := by
  have hwhole : ∀ d ∈ l.whole, (d != '.') = true := fun d hd =>
    bne_iff_ne.2 (ne_of_isDigit (l.isDigit_whole d hd) rfl)
  rw [unsigned, List.takeWhile_append_of_pos hwhole]
  cases l.fraction? <;> simp [pointed]

theorem dropWhile_unsigned : (l.unsigned.dropWhile (· != '.')).drop 1 = l.fraction := by
  have hwhole : ∀ d ∈ l.whole, (d != '.') = true := fun d hd =>
    bne_iff_ne.2 (ne_of_isDigit (l.isDigit_whole d hd) rfl)
  rw [unsigned, List.dropWhile_append_of_pos hwhole, fraction]
  cases l.fraction? <;> simp [pointed]

theorem dropSign_text :
    (l.text.toList.dropWhile fun c => c == '+' || c == '-') = l.unsigned := by
  have hsign : ∀ c ∈ l.sign.text, (c == '+' || c == '-') = true := by
    cases l.sign <;> simp [Sign.text]
  rw [toList_text, List.dropWhile_append_of_pos hsign]
  refine Text.dropWhile_eq_self fun c hc => ?_
  obtain hdigit | rfl := l.head?_unsigned hc
  · simp [ne_of_isDigit hdigit]
  · rfl

/-- The digits that count, in front of the point and behind it. -/
def significant : List Char × List Char :=
  (l.whole.dropWhile (· == '0'), l.fraction.rdropWhile (· == '0'))

theorem value_eq : l.value = l.sign.apply (place (l.significant.1 ++ l.significant.2)) /
    10 ^ l.significant.2.length := by
  have hplace : (place (l.whole ++ l.fraction) / 10 ^ l.fraction.length : ℚ) =
      place (l.significant.1 ++ l.significant.2) / 10 ^ l.significant.2.length := by
    rw [place_div_eq, significant, place_append, place_append, place_dropWhile]
  rw [value, cast_apply, cast_apply]
  split
  · rw [neg_div, neg_div, hplace]
  · exact hplace

theorem isDigit_significant : (∀ d ∈ l.significant.1, d.isDigit = true) ∧
    ∀ d ∈ l.significant.2, d.isDigit = true :=
  ⟨fun d hd => l.isDigit_whole d ((List.dropWhile_suffix _).mem hd),
    fun d hd => l.isDigit_fraction d ((List.rdropWhile_prefix _ _).mem hd)⟩

theorem digitCounts_text_eq : digitCounts l.text =
    (l.significant.1.length + l.significant.2.length, l.significant.2.length) := by
  obtain ⟨hwhole, hfraction⟩ := l.isDigit_significant
  simp only [digitCounts, dropSign_text, takeWhile_unsigned, dropWhile_unsigned]
  rw [← utf8ByteSize_digits hwhole, ← utf8ByteSize_digits hfraction]
  rfl

/-- The digits behind the point are as few as the number allows. -/
theorem isLeast_fraction : IsLeast {n | HasFraction l.value n} (digitCounts l.text).2 := by
  rw [digitCounts_text_eq, value_eq]
  exact isLeast_hasFraction l.sign (not_dvd_place l.isDigit_significant.2)

/-- The digits in all are as few as the number allows. -/
theorem isLeast_total : IsLeast {t | HasTotal l.value t} (digitCounts l.text).1 := by
  obtain ⟨hwhole, hfraction⟩ := l.isDigit_significant
  have hlt := place_lt (List.forall_mem_append.2 ⟨hwhole, hfraction⟩)
  rw [List.length_append] at hlt
  rw [digitCounts_text_eq, value_eq]
  exact isLeast_hasTotal l.sign (not_dvd_place hfraction) hlt (le_place hwhole l.significant.2)

end DecimalLiteral

/-! ## Limits on digits -/

namespace Facets

variable {f : Facets} {typeName v : String} {variety : Variety}

theorem faultUnless_eq_none {α : Type} {limit : Option α} {keeps : α → Bool}
    {fault : α → ValueFault} :
    faultUnless limit keeps fault = none ↔ ∀ a, limit = some a → keeps a = true := by
  cases limit with
  | none => exact ⟨fun _ => nofun, fun _ => rfl⟩
  | some a => simp [faultUnless]

theorem digitsFault_eq_none : f.digitsFault v = none ↔
    (∀ t, f.totalDigits = some t → (digitCounts v).1 ≤ t) ∧
      ∀ n, f.fractionDigits = some n → (digitCounts v).2 ≤ n := by
  simp only [digitsFault, Option.or_eq_none_iff, faultUnless_eq_none, decide_eq_true_eq]

theorem findSome?_boundFault_eq_none {numeric : Bool} :
    [Bound.minInclusive, .maxInclusive, .minExclusive, .maxExclusive].findSome?
      (f.boundFault typeName numeric v) = none ↔ ∀ b, f.boundFault typeName numeric v b = none := by
  rw [List.findSome?_eq_none_iff]
  refine ⟨fun h b => h b ?_, fun h b _ => h b⟩
  cases b <;> decide

/-- **A value without a fault** fails none of the facets. -/
theorem fault?_eq_none : f.fault? typeName v variety = none ↔
    f.enumerationFault variety.isNumeric v = none ∧ f.patternFault typeName v = none ∧
      f.lengthFault typeName v (lengthOf variety v) = none ∧
      (∀ b, f.boundFault typeName variety.isNumeric v b = none) ∧
      (variety.isNumeric = true → f.digitsFault v = none) := by
  simp only [fault?, Option.or_eq_none_iff, findSome?_boundFault_eq_none, ite_eq_right_iff,
    and_assoc]

/-- The facets without the limits on digits. -/
def withoutDigits (f : Facets) : Facets := { f with totalDigits := none, fractionDigits := none }

theorem fault?_eq_none_iff_withoutDigits : f.fault? typeName v variety = none ↔
    f.withoutDigits.fault? typeName v variety = none ∧
      (variety.isNumeric = true → f.digitsFault v = none) := by
  rw [fault?_eq_none, fault?_eq_none]
  exact ⟨fun ⟨henumeration, hpattern, hlength, hbounds, hdigits⟩ =>
      ⟨⟨henumeration, hpattern, hlength, hbounds, fun _ => rfl⟩, hdigits⟩,
    fun ⟨⟨henumeration, hpattern, hlength, hbounds, _⟩, hdigits⟩ =>
      ⟨henumeration, hpattern, hlength, hbounds, hdigits⟩⟩

end Facets

/-- **The digits of a decimal literal are those of the number**: behind the point and in all there
are as few as there can be, so the limits on digits turn away just the numbers that need more. -/
theorem DecimalLiteral.digitCounts_and_fault (l : DecimalLiteral) :
    IsLeast {n | HasFraction l.value n} (digitCounts l.text).2 ∧
    IsLeast {t | HasTotal l.value t} (digitCounts l.text).1 ∧
    ∀ (f : Facets) (typeName : String) (variety : Variety),
      f.fault? typeName l.text variety = none ↔
        f.withoutDigits.fault? typeName l.text variety = none ∧
          (variety.isNumeric = true → (∀ t, f.totalDigits = some t → HasTotal l.value t) ∧
            ∀ n, f.fractionDigits = some n → HasFraction l.value n) := by
  refine ⟨l.isLeast_fraction, l.isLeast_total, fun f typeName variety => ?_⟩
  have htotal (t : ℕ) : (digitCounts l.text).1 ≤ t ↔ HasTotal l.value t :=
    ⟨l.isLeast_total.1.mono, fun h => l.isLeast_total.2 h⟩
  have hfraction (n : ℕ) : (digitCounts l.text).2 ≤ n ↔ HasFraction l.value n :=
    ⟨l.isLeast_fraction.1.mono, fun h => l.isLeast_fraction.2 h⟩
  rw [Facets.fault?_eq_none_iff_withoutDigits]
  simp only [Facets.digitsFault_eq_none, htotal, hfraction]

end XmlConformance.Schema
