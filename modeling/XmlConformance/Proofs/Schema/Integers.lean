import Mathlib.Data.Int.ConditionallyCompleteOrder
import Mathlib.Data.Nat.Digits.Lemmas
import Mathlib.Order.UpperLower.Basic
import XmlConformance.Decimal.Notation
import XmlConformance.Proofs.Regex.Matching
import XmlConformance.Proofs.Text.Categories
import XmlConformance.Schema.Builtin

/-!
# Proofs/Schema/Integers — the values of the integer types

A type of integers has a range (`range?`), and a text denotes an integer by a sign and digits of
ASCII (`Denotes`). Three things decide what such a type admits: the lexical form, in which digits
may be of any script (`isMatch_integer`), the integer that is read, which takes 128 bits at most
(`integer?_eq_ite`), and the bounds. They agree for the types with two bounds
(`admits_iff_of_bounded`). With fewer bounds, those 128 bits show.
-/

namespace XmlConformance.Schema.Builtin

open Regex Text

/-- The integers that a type of integers consists of. -/
def range? : Builtin → Option (Set ℤ)
  | .integer => some Set.univ
  | .nonNegativeInteger => some (Set.Ici 0)
  | .positiveInteger => some (Set.Ici 1)
  | .nonPositiveInteger => some (Set.Iic 0)
  | .negativeInteger => some (Set.Iic (-1))
  | .long => some (Set.Ico (-2 ^ 63) (2 ^ 63))
  | .int => some (Set.Ico (-2 ^ 31) (2 ^ 31))
  | .short => some (Set.Ico (-2 ^ 15) (2 ^ 15))
  | .byte => some (Set.Ico (-2 ^ 7) (2 ^ 7))
  | .unsignedLong => some (Set.Ico 0 (2 ^ 64))
  | .unsignedInt => some (Set.Ico 0 (2 ^ 32))
  | .unsignedShort => some (Set.Ico 0 (2 ^ 16))
  | .unsignedByte => some (Set.Ico 0 (2 ^ 8))
  | _ => none

/-! ## Signs and digits -/

/-- What may stand in front of digits. -/
inductive Sign where
  | none
  | plus
  | minus

/-- A sign as it is written. -/
def Sign.text : Sign → List Char
  | .none => []
  | .plus => ['+']
  | .minus => ['-']

def Sign.isNegative : Sign → Bool
  | .none | .plus => false
  | .minus => true

/-- The integer of an absolute value with a sign. -/
def Sign.apply (s : Sign) (n : ℕ) : ℤ := if s.isNegative then -n else n

/-- A text is a sign and at least one character behind it. -/
def Signed (v : String) (s : Sign) (ds : List Char) : Prop :=
  v.toList = s.text ++ ds ∧ ds ≠ []

/-- The number that digits of ASCII denote, the greatest place first. -/
def place (ds : List Char) : ℕ := Nat.ofDigits 10 (ds.reverse.map fun d => d.toNat - '0'.toNat)

/-- **A text denotes an integer**: it is an optional sign and digits of ASCII. -/
def Denotes (v : String) (i : ℤ) : Prop :=
  ∃ s ds, Signed v s ds ∧ (∀ d ∈ ds, d.isDigit = true) ∧ i = s.apply (place ds)

/-- A text is an optional sign and digits, and not all of them are of ASCII. -/
def HasForeignDigits (v : String) : Prop :=
  ∃ s ds, Signed v s ds ∧ (∀ d ∈ ds, Category.ofChar d = .decimalNumber) ∧
    ∃ d ∈ ds, d.isDigit = false

/-- An integer of 128 bits. -/
def Fits (i : ℤ) : Prop := -2 ^ 127 ≤ i ∧ i < 2 ^ 127

instance (i : ℤ) : Decidable (Fits i) := inferInstanceAs (Decidable (_ ∧ _))

/-! ## The lexical form -/

variable {b : Builtin} {v : String} {s : Sign} {ds : List Char} {range : Set ℤ}

theorem contains_digit {d : Char} :
    (CharSet.property (.category .decimalNumber)).contains d = true ↔
      Category.ofChar d = .decimalNumber := beq_iff_eq

theorem contains_single {c d : Char} : (CharSet.single d).contains c = true ↔ c = d := by
  rw [CharSet.single, CharSet.contains, Bool.and_eq_true, decide_eq_true_eq, decide_eq_true_eq]
  exact ⟨fun h => Char.le_antisymm h.2 h.1, fun h => h ▸ ⟨Char.le_refl c, Char.le_refl c⟩⟩

theorem contains_sign {c : Char} :
    (CharSet.union (.single '+') (.union (.single '-') .empty)).contains c = true ↔
      c = '+' ∨ c = '-' := by
  simp [CharSet.contains, contains_single]

theorem spans_optionalSign {before behind : Option Char} {w : List Char} :
    Lexical.optionalSign.Spans before w behind ↔ ∃ s : Sign, w = s.text := by
  rw [Lexical.optionalSign, Lexical.optional, Lexical.oneOf, spans_repeated_chars,
    show "+-".toList = ['+', '-'] from rfl]
  simp only [List.foldr, contains_sign]
  constructor
  · rintro ⟨⟨-, hlength⟩, hw⟩
    obtain rfl | ⟨c, rfl⟩ : w = [] ∨ ∃ c, w = [c] := by
      have := hlength 1 rfl
      rcases w with _ | ⟨c, _ | ⟨d, w⟩⟩
      · exact .inl rfl
      · exact .inr ⟨c, rfl⟩
      · simp at this
    · exact ⟨.none, rfl⟩
    · obtain rfl | rfl := hw c (List.mem_singleton_self c)
      · exact ⟨.plus, rfl⟩
      · exact ⟨.minus, rfl⟩
  · rintro ⟨s, rfl⟩
    cases s <;> simp [Sign.text, Within]

theorem spans_digits {before behind : Option Char} {w : List Char} :
    (Lexical.atLeastOnce Lexical.digit).Spans before w behind ↔
      w ≠ [] ∧ ∀ d ∈ w, Category.ofChar d = .decimalNumber := by
  rw [Lexical.atLeastOnce, Lexical.digit, spans_repeated_chars]
  simp only [contains_digit]
  refine and_congr_left' ⟨fun h => List.ne_nil_of_length_pos h.1, fun h => ?_⟩
  exact ⟨List.length_pos_iff.2 h, nofun⟩

/-- **The lexical form of integers**: a sign and digits of any script. -/
theorem isMatch_integer : (Lexical.whole Lexical.integer).isMatch v = true ↔
    ∃ s ds, Signed v s ds ∧ ∀ d ∈ ds, Category.ofChar d = .decimalNumber := by
  have hproper : Lexical.integer.Proper := by
    simp [Lexical.integer, Lexical.optionalSign, Lexical.optional, Lexical.oneOf,
      Lexical.atLeastOnce, Lexical.digit, Proper]
  rw [Lexical.whole, isMatch_anchored hproper, Lexical.integer, Spans, Spanning.andThen]
  simp only [spans_optionalSign, spans_digits]
  constructor
  · rintro ⟨_, ds, htext, ⟨s, rfl⟩, hne, hds⟩
    exact ⟨s, ds, ⟨htext, hne⟩, hds⟩
  · rintro ⟨s, ds, ⟨htext, hne⟩, hds⟩
    exact ⟨s.text, ds, htext, ⟨s, rfl⟩, hne, hds⟩

/-! ## Reading -/

theorem digitsValue_eq_place (ds : List Char) :
    Decimal.digitsValue ds = place ds := by
  rw [Decimal.digitsValue, place, List.map_reverse, Nat.ofDigits_eq_foldr, List.foldr_reverse,
    List.foldl_map]
  exact congrArg (fun f => ds.foldl f 0) (funext₂ fun n c => Nat.add_comm _ _)

theorem ne_sign_of_digit {d : Char} (h : Category.ofChar d = .decimalNumber) :
    d ≠ '+' ∧ d ≠ '-' := by
  constructor <;> rintro rfl
  · exact absurd (Category.ofChar_plus.symm.trans h) (by decide)
  · exact absurd (Category.ofChar_minus.symm.trans h) (by decide)

/-- Whether a text starts with a minus, and what stands behind its sign. -/
def splitSign (v : String) : Bool × List Char :=
  match v.toList.dropWhile (· == '+') with
  | '-' :: rest => (true, rest)
  | cs => (false, cs)

/-- The sign is told apart from the digits, since no digit is a sign. -/
theorem splitSign_eq (h : Signed v s ds) (hds : ∀ d ∈ ds, Category.ofChar d = .decimalNumber) :
    splitSign v = (s.isNegative, ds) := by
  obtain ⟨htext, hne⟩ := h
  obtain ⟨d, ds, rfl⟩ := List.exists_cons_of_ne_nil hne
  obtain ⟨hplus, hminus⟩ := ne_sign_of_digit (hds d List.mem_cons_self)
  have hdrop : (d :: ds).dropWhile (· == '+') = d :: ds :=
    List.dropWhile_cons_of_neg (by simpa using hplus)
  have hplain (hcs : v.toList.dropWhile (· == '+') = d :: ds) :
      splitSign v = (false, d :: ds) := by
    rw [splitSign, hcs]
    split
    · next heq => exact absurd (List.cons.inj heq).1 hminus
    · rfl
  cases s with
  | none => exact hplain (by rw [htext]; exact hdrop)
  | plus => exact hplain (by rw [htext]; exact hdrop)
  | minus =>
    rw [splitSign, htext]
    rfl

/-- What is read of a sign and digits. -/
def readSigned (negative : Bool) (ds : List Char) : Option ℤ :=
  if ds.isEmpty || !ds.all Char.isDigit then none
  else
    let n := Decimal.digitsValue ds
    if negative then if n ≤ integerLimit then some (-(n : ℤ)) else none
    else if n < integerLimit then some n else none

theorem integer?_eq_readSigned : integer? v = readSigned (splitSign v).1 (splitSign v).2 := rfl

/-- **The integer that is read**: digits of ASCII, as far as they fit into 128 bits. -/
theorem integer?_eq_ite (h : Signed v s ds)
    (hds : ∀ d ∈ ds, Category.ofChar d = .decimalNumber) :
    integer? v = if ds.all Char.isDigit = true ∧ Fits (s.apply (place ds)) then
      some (s.apply (place ds)) else none := by
  have hempty : ds.isEmpty = false := List.isEmpty_eq_false_iff.2 h.2
  rw [integer?_eq_readSigned, splitSign_eq h hds, readSigned, hempty, Bool.false_or]
  by_cases hall : ds.all Char.isDigit = true
  · have hlimit : integerLimit = 2 ^ 127 := rfl
    rw [if_neg (by simpa using hall)]
    simp only [digitsValue_eq_place, hlimit, Fits, Sign.apply]
    by_cases hneg : s.isNegative = true
    · simp only [hneg, if_true]
      exact if_congr ⟨fun h => ⟨hall, by omega⟩, fun h => by omega⟩ rfl rfl
    · simp only [Bool.eq_false_iff.2 hneg, Bool.false_eq_true, if_false]
      exact if_congr ⟨fun h => ⟨hall, by omega⟩, fun h => by omega⟩ rfl rfl
  · rw [if_neg fun h : _ ∧ _ => hall h.1, if_pos (by simpa using hall)]

/-! ## Bounds -/

/-- What the types of integers have in common: the lexical form, and bounds that give the range. -/
theorem bounds_of_range (hb : b.range? = some range) :
    b.item? = none ∧ b.lexical? = some Lexical.integer ∧ b ≠ .duration ∧
      ∃ least most, b.bounds? = some (least, most) ∧
        (∀ i, i ∈ range ↔ (∀ l, least = some l → l ≤ i) ∧ ∀ m, most = some m → i ≤ m) ∧
        (b = .integer ↔ least = none ∧ most = none) := by
  cases b <;> cases hb
  all_goals
    refine ⟨rfl, rfl, by decide, _, _, rfl, fun i => ?_, by simp⟩
    simp <;> omega

/-- **Within the bounds** of a type are the integers of its range. An integer that cannot be read
lies within bounds only if there are none. -/
theorem inBounds_iff {least most : Option ℤ}
    (hrange : ∀ i, i ∈ range ↔ (∀ l, least = some l → l ≤ i) ∧ ∀ m, most = some m → i ≤ m)
    (hinteger : b = .integer ↔ least = none ∧ most = none) (h : Signed v s ds)
    (hds : ∀ d ∈ ds, Category.ofChar d = .decimalNumber) : inBounds (least, most) v = true ↔
      if ds.all Char.isDigit = true ∧ Fits (s.apply (place ds)) then s.apply (place ds) ∈ range
      else b = .integer := by
  rw [inBounds, integer?_eq_ite h hds]
  by_cases hread : ds.all Char.isDigit = true ∧ Fits (s.apply (place ds))
  · rw [if_pos hread, if_pos hread]
    simp [hrange, Option.all_eq_true]
  · rw [if_neg hread, if_neg hread]
    simp [hinteger]

/-- A value is admitted if it has the lexical form and lies within the bounds. -/
theorem admits_iff_of_signed (hb : b.range? = some range) : b.admits v = true ↔
    ∃ s ds, Signed v s ds ∧ (∀ d ∈ ds, Category.ofChar d = .decimalNumber) ∧
      if ds.all Char.isDigit = true ∧ Fits (s.apply (place ds)) then s.apply (place ds) ∈ range
      else b = .integer := by
  obtain ⟨hitem, hlexical, hduration, least, most, hbounds, hrange, hinteger⟩ := bounds_of_range hb
  have hadmits : b.admits v = true ↔ (Lexical.whole Lexical.integer).isMatch v = true ∧
      inBounds (least, most) v = true := by
    rw [admits, hitem]
    simp [admitsItem, hlexical, hbounds, hduration]
  rw [hadmits, isMatch_integer]
  constructor
  · rintro ⟨⟨s, ds, h, hds⟩, hin⟩
    exact ⟨s, ds, h, hds, (inBounds_iff hrange hinteger h hds).1 hin⟩
  · rintro ⟨s, ds, h, hds, hin⟩
    exact ⟨⟨s, ds, h, hds⟩, (inBounds_iff hrange hinteger h hds).2 hin⟩

/-- **What the types of integers admit**: the texts that denote integers of the type, if they have
128 bits. The type without bounds admits the others as well, and digits of any script. -/
theorem admits_integer_iff (hb : b.range? = some range) (v : String) : b.admits v = true ↔
    (∃ i ∈ range, Denotes v i ∧ (Fits i ∨ b = .integer)) ∨
      b = .integer ∧ HasForeignDigits v := by
  have hmem (hinteger : b = .integer) (i : ℤ) : i ∈ range := by
    subst hinteger
    cases hb
    exact Set.mem_univ i
  rw [admits_iff_of_signed hb]
  constructor
  · rintro ⟨s, ds, h, hds, hin⟩
    by_cases hread : ds.all Char.isDigit = true ∧ Fits (s.apply (place ds))
    · rw [if_pos hread] at hin
      exact .inl ⟨_, hin, ⟨s, ds, h, List.all_eq_true.1 hread.1, rfl⟩, .inl hread.2⟩
    · rw [if_neg hread] at hin
      by_cases hall : ds.all Char.isDigit = true
      · exact .inl ⟨_, hmem hin _, ⟨s, ds, h, List.all_eq_true.1 hall, rfl⟩, .inr hin⟩
      · obtain ⟨d, hd, hforeign⟩ := List.all_eq_false.1 (Bool.eq_false_iff.2 hall)
        exact .inr ⟨hin, s, ds, h, hds, d, hd, Bool.eq_false_iff.2 hforeign⟩
  · rintro (⟨_, hi, ⟨s, ds, h, hall, rfl⟩, hfits⟩ | ⟨hinteger, s, ds, h, hds, d, hd, hforeign⟩)
    · refine ⟨s, ds, h, fun d hd => Category.ofChar_of_isDigit (hall d hd), ?_⟩
      by_cases hfits' : Fits (s.apply (place ds))
      · rwa [if_pos ⟨List.all_eq_true.2 hall, hfits'⟩]
      · rw [if_neg fun hread => hfits' hread.2]
        exact hfits.resolve_left hfits'
    · have hnot : ¬ ds.all Char.isDigit = true := fun hall =>
        Bool.false_ne_true (hforeign.symm.trans (List.all_eq_true.1 hall d hd))
      refine ⟨s, ds, h, hds, ?_⟩
      rwa [if_neg fun hread => hnot hread.1]

theorem admits_integer_iff_byte : Builtin.byte.range? = some (Set.Ico (-2 ^ 7) (2 ^ 7)) ∧
    (Builtin.byte.admits "-128" = true ↔
      (∃ i ∈ Set.Ico (-2 ^ 7 : ℤ) (2 ^ 7), Denotes "-128" i ∧ (Fits i ∨ Builtin.byte = .integer)) ∨
        Builtin.byte = .integer ∧ HasForeignDigits "-128") :=
  ⟨rfl, admits_integer_iff rfl "-128"⟩

/-- **A type with bounds on one side** turns away integers beyond 128 bits, although they are within
its bounds. -/
theorem nonNegativeInteger_turns_away :
    Builtin.nonNegativeInteger.range? = some (Set.Ici 0) ∧ (2 ^ 127 : ℤ) ∈ Set.Ici 0 ∧
      Denotes "170141183460469231731687303715884105728" (2 ^ 127) ∧
      Builtin.nonNegativeInteger.admits "170141183460469231731687303715884105728" = false := by
  refine ⟨rfl, by decide, ?_, ?_⟩
  · refine ⟨.none, "170141183460469231731687303715884105728".toList, ⟨rfl, by decide⟩, ?_, ?_⟩
    · exact List.all_eq_true.1 (by decide)
    · decide +kernel
  · have hbounds : inBounds (some 0, none) "170141183460469231731687303715884105728" = false := by
      decide +kernel
    simp [admits, item?, admitsItem, bounds?, hbounds]

/-- The types with bounds on both sides consist of integers of 128 bits. -/
theorem fits_of_bounded (hb : b.range? = some range) (hbelow : BddBelow range)
    (habove : BddAbove range) : b ≠ .integer ∧ ∀ i ∈ range, Fits i := by
  cases b <;> cases hb
  case integer => exact absurd habove (not_bddAbove_univ)
  case nonNegativeInteger | positiveInteger => exact absurd habove (not_bddAbove_Ici _)
  case nonPositiveInteger | negativeInteger => exact absurd hbelow (not_bddBelow_Iic _)
  all_goals
    refine ⟨by decide, fun i hi => ?_⟩
    obtain ⟨hleast, hmost⟩ := Set.mem_Ico.1 hi
    constructor <;> omega

/-- **With bounds on both sides** a type admits just the texts that denote its integers. -/
theorem admits_iff_of_bounded (hb : b.range? = some range) (hbelow : BddBelow range)
    (habove : BddAbove range) (v : String) :
    b.admits v = true ↔ ∃ i ∈ range, Denotes v i := by
  obtain ⟨hinteger, hfits⟩ := fits_of_bounded hb hbelow habove
  rw [admits_iff_of_signed hb]
  constructor
  · rintro ⟨s, ds, h, -, hin⟩
    by_cases hread : ds.all Char.isDigit = true ∧ Fits (s.apply (place ds))
    · rw [if_pos hread] at hin
      exact ⟨_, hin, s, ds, h, List.all_eq_true.1 hread.1, rfl⟩
    · rw [if_neg hread] at hin
      exact absurd hin hinteger
  · rintro ⟨_, hi, s, ds, h, hall, rfl⟩
    refine ⟨s, ds, h, fun d hd => Category.ofChar_of_isDigit (hall d hd), ?_⟩
    rwa [if_pos ⟨List.all_eq_true.2 hall, hfits _ hi⟩]

end XmlConformance.Schema.Builtin
