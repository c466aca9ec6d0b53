import XmlConformance.Proofs.Decimal.Doubles
import XmlConformance.Proofs.Schema.Decimals

/-!
# Proofs/Schema/Numbers — numbers compare as doubles

The values of the decimal types are a sign and digits of any script, with a point among them perhaps
(`isMatch_decimal`). A number is read of those with digits of ASCII (`number?_eq_ite`), the double
nearest to what the literal denotes (`DecimalLiteral.exists_number?`). So facets that compare
numbers compare doubles, which keep the order of the numbers, but not the difference of neighbours
(`Facets.fault?_comparing_eq_none_iff`).
-/

namespace XmlConformance.Schema

open Builtin Regex Text

/-! ## The lexical form -/

/-- A text is a sign and digits, with a point in front of some of them perhaps. -/
def Pointed (v : String) (s : Sign) (ws : List Char) (fs? : Option (List Char)) : Prop :=
  v.toList = s.text ++ (ws ++ DecimalLiteral.pointed fs?) ∧ ws ++ fs?.getD [] ≠ []

variable {b : Builtin} {v : String} {s : Sign} {ws : List Char} {fs? : Option (List Char)}
  {before behind : Option Char} {w : List Char}

theorem spans_char {c : Char} : (Lexical.char c).Spans before w behind ↔ w = [c] := by
  simp only [Lexical.char, Regex.Spans, contains_single]
  constructor
  · rintro ⟨_, rfl, rfl⟩
    rfl
  · exact fun h => ⟨c, h, rfl⟩

theorem spans_optional {r : Regex} :
    (Lexical.optional r).Spans before w behind ↔ w = [] ∨ r.Spans before w behind := by
  constructor
  · rintro ⟨n, ⟨-, hmost⟩, hn⟩
    obtain rfl | rfl : n = 0 ∨ n = 1 := by
      have := hmost 1 rfl
      omega
    · exact .inl hn
    · obtain ⟨u, _, rfl, hu, rfl⟩ := hn
      exact .inr (by simpa using hu)
  · rintro (rfl | h)
    · exact ⟨0, ⟨Nat.le_refl 0, by simp⟩, rfl⟩
    · exact ⟨1, ⟨Nat.zero_le 1, by simp⟩, w, [], by simp, by simpa using h, rfl⟩

theorem spans_manyDigits : (Lexical.many Lexical.digit).Spans before w behind ↔
    ∀ d ∈ w, Category.ofChar d = .decimalNumber := by
  rw [Lexical.many, Lexical.digit, spans_repeated_chars]
  simp [contains_digit, Within]

/-- **Digits with at most one point.** -/
theorem spans_unsignedDecimal : Lexical.unsignedDecimal.Spans before w behind ↔
    ∃ ws fs?, w = ws ++ DecimalLiteral.pointed fs? ∧ ws ++ fs?.getD [] ≠ [] ∧
      ∀ d ∈ ws ++ fs?.getD [], Category.ofChar d = .decimalNumber := by
  rw [Lexical.unsignedDecimal, Regex.Spans, Regex.Spans, Regex.Spans]
  simp only [Spanning.andThen, spans_digits, spans_optional, spans_manyDigits, spans_char,
    Regex.Spans]
  constructor
  · rintro (⟨ws, p, rfl, ⟨hne, hws⟩, rfl | ⟨_, fs, rfl, rfl, hfs⟩⟩ |
      ⟨_, fs, rfl, rfl, hne, hfs⟩)
    · exact ⟨ws, none, rfl, by simpa using hne, by simpa using hws⟩
    · exact ⟨ws, some fs, rfl, by simp [hne], List.forall_mem_append.2 ⟨hws, hfs⟩⟩
    · exact ⟨[], some fs, rfl, hne, hfs⟩
  · rintro ⟨ws, fs?, rfl, hne, hds⟩
    obtain ⟨hws, hfs⟩ := List.forall_mem_append.1 hds
    by_cases hempty : ws = []
    · subst hempty
      cases fs? with
      | none => exact absurd rfl hne
      | some fs => exact .inr ⟨['.'], fs, rfl, rfl, hne, hfs⟩
    · refine .inl ⟨ws, _, rfl, ⟨hempty, hws⟩, ?_⟩
      cases fs? with
      | none => exact .inl rfl
      | some fs => exact .inr ⟨['.'], fs, rfl, rfl, hfs⟩

/-- **The lexical form of decimal numbers**: a sign and digits of any script, with at most one
point. -/
theorem isMatch_decimal : (Lexical.whole Lexical.decimal).isMatch v = true ↔
    ∃ s ws fs?, Pointed v s ws fs? ∧
      ∀ d ∈ ws ++ fs?.getD [], Category.ofChar d = .decimalNumber := by
  have hproper : Lexical.decimal.Proper := by
    simp [Lexical.decimal, Lexical.optionalSign, Lexical.optional, Lexical.oneOf,
      Lexical.unsignedDecimal, Lexical.atLeastOnce, Lexical.many, Lexical.char, Lexical.digit,
      Proper]
  rw [Lexical.whole, isMatch_anchored hproper, Lexical.decimal, Spans, Spanning.andThen]
  simp only [spans_optionalSign, spans_unsignedDecimal]
  constructor
  · rintro ⟨_, _, htext, ⟨s, rfl⟩, ws, fs?, rfl, hne, hds⟩
    exact ⟨s, ws, fs?, ⟨htext, hne⟩, hds⟩
  · rintro ⟨s, ws, fs?, ⟨htext, hne⟩, hds⟩
    exact ⟨s.text, _, htext, ⟨s, rfl⟩, ws, fs?, rfl, hne, hds⟩

/-- The decimal type and the types of integers. -/
def Builtin.IsDecimal (b : Builtin) : Prop := b = .decimal ∨ b.range?.isSome

/-- **What the decimal types admit** is a sign and digits. -/
theorem exists_pointed_of_admits (hb : b.IsDecimal) (h : b.admits v = true) :
    ∃ s ws fs?, Pointed v s ws fs? ∧
      ∀ d ∈ ws ++ fs?.getD [], Category.ofChar d = .decimalNumber := by
  obtain rfl | hrange := hb
  · refine isMatch_decimal.1 ?_
    rw [admits] at h
    simp only [item?, admitsItem, lexical?, Option.all_some, Bool.and_eq_true] at h
    exact h.1.1
  · obtain ⟨range, hrange⟩ := Option.isSome_iff_exists.1 hrange
    obtain ⟨s, ds, ⟨htext, hne⟩, hds, -⟩ := (admits_iff_of_signed hrange).1 h
    refine ⟨s, ds, none, ⟨?_, ?_⟩, ?_⟩
    · rw [htext, DecimalLiteral.pointed, List.append_nil]
    · simpa using hne
    · simpa using hds

theorem isNumeric_of_isDecimal (hb : b.IsDecimal) : b.isNumeric = true := by
  obtain rfl | hrange := hb
  · rfl
  · cases b <;> first | rfl | cases hrange

/-! ## Reading -/

/-- The characters of a number are neither letters nor signs, apart from its sign. -/
def IsPlain (c : Char) : Prop := c.isAlpha = false ∧ c ≠ '+' ∧ c ≠ '-'

theorem isPlain_of_mem (hds : ∀ d ∈ ws ++ fs?.getD [], Category.ofChar d = .decimalNumber) :
    ∀ c ∈ ws ++ DecimalLiteral.pointed fs?, IsPlain c := by
  have hdigit {d : Char} (hd : Category.ofChar d = .decimalNumber) : IsPlain d :=
    ⟨Category.isAlpha_of_decimalNumber hd, ne_sign_of_digit hd⟩
  obtain ⟨hws, hfs⟩ := List.forall_mem_append.1 hds
  refine List.forall_mem_append.2 ⟨fun d hd => hdigit (hws d hd), fun c hc => ?_⟩
  cases fs? with
  | none => cases hc
  | some fs =>
    obtain rfl | hc := List.mem_cons.1 hc
    · exact ⟨by decide, by decide, by decide⟩
    · exact hdigit (hfs c hc)

variable {u : List Char}

/-- Without letters there is no exponent. -/
theorem ofUnsigned?_eq (hu : ∀ c ∈ u, IsPlain c) : Decimal.ofUnsigned? u = Decimal.ofDigits? u := by
  have hmark : ∀ c ∈ u, (!(c == 'e' || c == 'E')) = true := by
    intro c hc
    have halpha := (hu c hc).1
    rw [Bool.not_eq_true', Bool.or_eq_false_iff, beq_eq_false_iff_ne, beq_eq_false_iff_ne]
    constructor <;> rintro rfl
    · exact absurd halpha (by decide)
    · exact absurd halpha (by decide)
  have htake := List.takeWhile_eq_self_iff.2 hmark
  have hdrop := List.dropWhile_eq_nil_iff.2 hmark
  rw [Decimal.ofUnsigned?]
  simp only [htake, hdrop]

theorem toLower_eq_self {c : Char} (h : c.isAlpha = false) : c.toLower = c := by
  have hupper := of_decide_eq_false (Bool.or_eq_false_iff.1 h).1
  rw [Char.toLower, dif_neg hupper]

/-- **Digits with a sign in front** are read as digits. -/
theorem ofText?_eq {negative : Bool} (hu : ∀ c ∈ u, IsPlain c) :
    Decimal.ofText? (if negative then '-' :: u else u) =
      (Decimal.ofDigits? u).map fun x => if negative then -x else x := by
  have hlower : u.map Char.toLower = u :=
    (List.map_congr_left fun c hc => toLower_eq_self (hu c hc).1).trans (List.map_id u)
  -- `inf`, `infinity` and `nan` have a letter in common
  have hname {t : String} (ht : 'n' ∈ t.toList) : String.ofList u ≠ t := by
    rintro rfl
    rw [String.toList_ofList] at ht
    exact absurd (hu 'n' ht).1 (by decide)
  have hhead {c : Char} {rest : List Char} (h : u = c :: rest) : c ≠ '+' ∧ c ≠ '-' :=
    (hu c (h ▸ List.mem_cons_self)).2
  cases negative with
  | false =>
    rw [if_neg Bool.false_ne_true, Decimal.ofText?]
    · simp only [hlower, Bool.false_eq_true, if_false]
      split
      · next heq => exact absurd heq (hname (by decide))
      · next heq => exact absurd heq (hname (by decide))
      · next heq => exact absurd heq (hname (by decide))
      · rw [ofUnsigned?_eq hu]
    · exact fun rest h => (hhead h).2 rfl
    · exact fun rest h => (hhead h).1 rfl
  | true =>
    rw [if_pos rfl, Decimal.ofText?]
    simp only [hlower, if_true]
    split
    · next heq => exact absurd heq (hname (by decide))
    · next heq => exact absurd heq (hname (by decide))
    · next heq => exact absurd heq (hname (by decide))
    · rw [ofUnsigned?_eq hu]

/-- **A number** is read as its digits are, with a sign. -/
theorem number?_eq (htext : v.toList = s.text ++ u) (hu : ∀ c ∈ u, IsPlain c) :
    number? v = (Decimal.ofDigits? u).map fun x => if s.isNegative then -x else x := by
  have hletter {t : String} (ht : 'N' ∈ t.toList) : v ≠ t := by
    rintro rfl
    rw [htext] at ht
    obtain ht | ht := List.mem_append.1 ht
    · cases s <;> simp [Sign.text] at ht
    · exact absurd (hu 'N' ht).1 (by decide)
  have hdrop : u.dropWhile (· == '+') = u := Text.dropWhile_eq_self fun c hc => by
    simpa using (hu c (List.mem_of_mem_head? hc)).2.1
  have hsigned : v.toList.dropWhile (· == '+') = if s.isNegative then '-' :: u else u := by
    rw [htext]
    cases s with
    | none => exact hdrop
    | plus => exact hdrop
    | minus => rfl
  rw [number?]
  · rw [hsigned, ofText?_eq hu]
  · exact hletter (by decide)
  · exact hletter (by decide)
  · exact hletter (by decide)

/-- Digits of ASCII with at most one point are read, and digits of other scripts behind the point
are not. -/
theorem ofDigits?_of_isDigit (hne : ws ++ fs?.getD [] ≠ []) (hwhole : ∀ d ∈ ws, d.isDigit = true) :
    Decimal.ofDigits? (ws ++ DecimalLiteral.pointed fs?) =
      if (fs?.getD []).all Char.isDigit then some (Decimal.nearest ws (fs?.getD [])) else none := by
  have htake : (ws ++ DecimalLiteral.pointed fs?).takeWhile Char.isDigit = ws := by
    rw [List.takeWhile_append_of_pos hwhole]
    cases fs? <;> simp [DecimalLiteral.pointed]
  have hdrop : (ws ++ DecimalLiteral.pointed fs?).dropWhile Char.isDigit =
      DecimalLiteral.pointed fs? := by
    rw [List.dropWhile_append_of_pos hwhole]
    cases fs? <;> simp [DecimalLiteral.pointed]
  rw [Decimal.ofDigits?, htake, hdrop]
  cases fs? with
  | none =>
    have hne : ws ≠ [] := by simpa using hne
    simp [DecimalLiteral.pointed, hne]
  | some fs =>
    have hne : (ws.isEmpty && fs.isEmpty) = false := by simpa using hne
    simp [DecimalLiteral.pointed, hne]

/-- Digits of other scripts in front of the point are not read: the first of them is no point. -/
theorem ofDigits?_eq_none (hws : ∀ d ∈ ws, Category.ofChar d = .decimalNumber)
    (hforeign : ¬ ∀ d ∈ ws, d.isDigit = true) (behind : List Char) :
    Decimal.ofDigits? (ws ++ behind) = none := by
  obtain ⟨d, rest, hrest⟩ := List.exists_cons_of_ne_nil (mt List.dropWhile_eq_nil_iff.1 hforeign)
  have hmem : d ∈ ws := (List.dropWhile_suffix Char.isDigit).mem (hrest ▸ List.mem_cons_self)
  have hpoint : d ≠ '.' := by
    rintro rfl
    cases Category.ofChar_point.symm.trans (hws '.' hmem)
  rw [Decimal.ofDigits?, List.dropWhile_append, hrest]
  simp only [List.isEmpty_cons, Bool.false_eq_true, if_false, List.cons_append]
  split
  · next heq => cases heq
  · next heq => exact absurd (List.cons.inj heq).1 hpoint
  · rfl

theorem ofDigits?_eq_ite (hne : ws ++ fs?.getD [] ≠ [])
    (hds : ∀ d ∈ ws ++ fs?.getD [], Category.ofChar d = .decimalNumber) :
    Decimal.ofDigits? (ws ++ DecimalLiteral.pointed fs?) =
      if (ws ++ fs?.getD []).all Char.isDigit then some (Decimal.nearest ws (fs?.getD []))
      else none := by
  obtain ⟨hws, -⟩ := List.forall_mem_append.1 hds
  rw [List.all_append]
  by_cases hwhole : ∀ d ∈ ws, d.isDigit = true
  · rw [ofDigits?_of_isDigit hne hwhole, List.all_eq_true.2 hwhole, Bool.true_and]
  · have hall : ws.all Char.isDigit = false := Bool.eq_false_iff.2 (mt List.all_eq_true.1 hwhole)
    rw [ofDigits?_eq_none hws hwhole, hall, Bool.false_and, if_neg Bool.false_ne_true]

/-- **The number that is read** of a sign and digits: the nearest double, if all digits are of
ASCII. -/
theorem number?_eq_ite (h : Pointed v s ws fs?)
    (hds : ∀ d ∈ ws ++ fs?.getD [], Category.ofChar d = .decimalNumber) :
    number? v = if (ws ++ fs?.getD []).all Char.isDigit then
      some (if s.isNegative then -Decimal.nearest ws (fs?.getD [])
        else Decimal.nearest ws (fs?.getD [])) else none := by
  rw [number?_eq h.1 (isPlain_of_mem hds), ofDigits?_eq_ite h.2 hds, apply_ite (Option.map _)]
  simp only [Option.map_some, Option.map_none]

/-! ## Literals -/

namespace DecimalLiteral

variable (l : DecimalLiteral)

theorem pointed_text : Pointed l.text l.sign l.whole l.fraction? := ⟨l.toList_text, l.hasDigit⟩

/-- **A literal is read** as the double nearest to the number that it denotes. -/
theorem exists_number? : ∃ x, number? l.text = some x ∧
    Decimal.IsWorth x.toModel.unpack (Decimal.double l.value) := by
  have hworth : Decimal.IsWorth (Decimal.nearest l.whole l.fraction).toModel.unpack
      (Decimal.double (place (l.whole ++ l.fraction) / 10 ^ l.fraction.length)) := by
    rw [Decimal.nearest, digitsValue_eq_place]
    exact Decimal.isWorth_ofScientific _ _
  refine ⟨_, (number?_eq_ite l.pointed_text fun d hd =>
    Category.ofChar_of_isDigit (l.isDigit d hd)).trans (if_pos (List.all_eq_true.2 l.isDigit)), ?_⟩
  rw [value, cast_apply]
  split
  · rw [neg_div, Decimal.double_neg]
    exact hworth.neg
  · exact hworth

end DecimalLiteral

/-- **Only literals are read**, of what the decimal types admit. -/
theorem exists_literal_of_number? (hb : b.IsDecimal) (hv : b.admits v = true) {x : Float}
    (h : number? v = some x) : ∃ l : DecimalLiteral, l.text = v := by
  obtain ⟨s, ws, fs?, hpointed, hds⟩ := exists_pointed_of_admits hb hv
  rw [number?_eq_ite hpointed hds] at h
  split at h
  · next hall =>
    refine ⟨⟨s, ws, fs?, List.all_eq_true.1 hall, hpointed.2⟩, ?_⟩
    exact (congrArg String.ofList hpointed.1.symm).trans String.ofList_toList
  · cases h

/-! ## Comparing -/

variable {x y : Float} {q r : ℚ}

/-- What a bound demands of numbers. -/
def Bound.Holds (b : Bound) (q limit : ℚ) : Prop :=
  match b with
  | .minInclusive => limit ≤ q
  | .maxInclusive => q ≤ limit
  | .minExclusive => limit < q
  | .maxExclusive => q < limit

theorem Bound.admits_compare {b : Bound} : b.admits (some (compare q r)) = true ↔ b.Holds q r := by
  obtain h | rfl | h := lt_trichotomy q r
  · rw [compare_lt_iff_lt.2 h]
    cases b <;> simp [Bound.admits, Bound.Holds, h, h.le, h.not_ge, h.not_gt]
  · rw [compare_eq_iff_eq.2 rfl]
    cases b <;> simp [Bound.admits, Bound.Holds]
  · rw [compare_gt_iff_gt.2 h]
    cases b <;> simp [Bound.admits, Bound.Holds, h, h.le, h.not_ge, h.not_gt]

/-- **Doubles compare** as the numbers that they are worth. -/
theorem compareNumbers_eq (hx : Decimal.IsWorth x.toModel.unpack q)
    (hy : Decimal.IsWorth y.toModel.unpack r) : compareNumbers x y = some (compare q r) := by
  rw [compareNumbers]
  obtain h | rfl | h := lt_trichotomy q r
  · rw [if_pos ((hx.lt_iff hy).2 h), compare_lt_iff_lt.2 h]
  · rw [if_neg (mt (hx.lt_iff hy).1 (lt_irrefl q)), if_pos ((hx.beq_iff hy).2 rfl),
      compare_eq_iff_eq.2 rfl]
  · rw [if_neg (mt (hx.lt_iff hy).1 h.not_gt), if_neg (mt (hx.beq_iff hy).1 h.ne'),
      if_pos ((hy.lt_iff hx).2 h), compare_gt_iff_gt.2 h]

namespace DecimalLiteral

variable (l m : DecimalLiteral)

theorem compareValues_text : compareValues true l.text m.text =
    some (compare (Decimal.double l.value) (Decimal.double m.value)) := by
  obtain ⟨x, hx, hworth⟩ := l.exists_number?
  obtain ⟨y, hy, hworth'⟩ := m.exists_number?
  rw [compareValues, if_pos rfl, hx, hy]
  exact compareNumbers_eq hworth hworth'

theorem equals_text : equals true l.text m.text = true ↔
    Decimal.double l.value = Decimal.double m.value := by
  obtain ⟨x, hx, hworth⟩ := l.exists_number?
  obtain ⟨y, hy, hworth'⟩ := m.exists_number?
  rw [equals, if_pos rfl, hx, hy]
  exact (hworth'.beq_iff hworth).trans eq_comm

end DecimalLiteral

/-! ## Facets -/

/-- **Limits and members that are decimal literals.** -/
structure DecimalFacets where
  limit? : Bound → Option DecimalLiteral
  members : List DecimalLiteral

namespace DecimalFacets

/-- Nothing to compare with. -/
def empty : DecimalFacets := ⟨fun _ => none, []⟩

variable (c : DecimalFacets) (f : Facets) {typeName : String} {l : DecimalLiteral}

/-- Facets with these limits and members. -/
def on : Facets :=
  { f with
    enumeration := c.members.map (·.text)
    minInclusive := (c.limit? .minInclusive).map (·.text)
    maxInclusive := (c.limit? .maxInclusive).map (·.text)
    minExclusive := (c.limit? .minExclusive).map (·.text)
    maxExclusive := (c.limit? .maxExclusive).map (·.text) }

/-- A number keeps to the limits, and is one of the members if there are any, when all the numbers
are rounded. -/
def Admits (round : ℚ → ℚ) (q : ℚ) : Prop :=
  (∀ b m, c.limit? b = some m → b.Holds (round q) (round m.value)) ∧
    (c.members ≠ [] → ∃ m ∈ c.members, round q = round m.value)

/-- The limits and members. -/
def Mentions (m : DecimalLiteral) : Prop := (∃ b, c.limit? b = some m) ∨ m ∈ c.members

theorem limit?_on (b : Bound) : (c.on f).limit? b = (c.limit? b).map (·.text) := by
  cases b <;> rfl

theorem boundFault_on_eq_none {b : Bound} : (c.on f).boundFault typeName true v b = none ↔
    ∀ m, c.limit? b = some m → b.admits (compareValues true v m.text) = true := by
  rw [Facets.boundFault, limit?_on, Facets.faultUnless_eq_none]
  simp

theorem enumerationFault_on_eq_none : (c.on f).enumerationFault true v = none ↔
    (c.members ≠ [] → ∃ m ∈ c.members, equals true v m.text = true) := by
  simp only [Facets.enumerationFault, on, ite_eq_left_iff, reduceCtorEq, imp_false, not_not,
    Bool.or_eq_true, List.isEmpty_iff, List.map_eq_nil_iff, List.any_map, List.any_eq_true,
    Function.comp_apply]
  exact or_iff_not_imp_left

/-- **A literal** passes the limits and the enumeration just when the nearest doubles do. -/
theorem faults_text_eq_none : ((c.on f).enumerationFault true l.text = none ∧
    ∀ b, (c.on f).boundFault typeName true l.text b = none) ↔
      c.Admits Decimal.double l.value := by
  rw [enumerationFault_on_eq_none]
  simp only [boundFault_on_eq_none, DecimalLiteral.compareValues_text, Bound.admits_compare,
    DecimalLiteral.equals_text]
  exact and_comm

/-- What is not read as a number fails whatever it is compared with. -/
theorem eq_empty_of_faults (hv : number? v = none)
    (henumeration : (c.on f).enumerationFault true v = none)
    (hbound : ∀ b, (c.on f).boundFault typeName true v b = none) : c = empty := by
  have hlimit (b : Bound) : c.limit? b = none := by
    by_contra hne
    obtain ⟨m, hm⟩ := Option.ne_none_iff_exists'.1 hne
    have hadmits := (boundFault_on_eq_none c f).1 (hbound b) m hm
    rw [compareValues, if_pos rfl, hv] at hadmits
    cases b <;> cases hadmits
  have hmembers : c.members = [] := by
    by_contra hne
    obtain ⟨m, -, hequals⟩ := (enumerationFault_on_eq_none c f).1 henumeration hne
    rw [equals, if_pos rfl, hv] at hequals
    split at hequals
    · next heq => cases heq
    · cases hequals
  obtain ⟨limit?, members⟩ := c
  rw [empty, DecimalFacets.mk.injEq]
  exact ⟨funext hlimit, hmembers⟩

theorem faults_eq_none_iff (hb : b.IsDecimal) (hv : b.admits v = true) :
    ((c.on f).enumerationFault true v = none ∧
      ∀ b, (c.on f).boundFault typeName true v b = none) ↔
    c = empty ∨ ∃ l : DecimalLiteral, l.text = v ∧ c.Admits Decimal.double l.value := by
  constructor
  · intro h
    cases hnumber : number? v with
    | none => exact .inl (c.eq_empty_of_faults f hnumber h.1 h.2)
    | some x =>
      obtain ⟨l, rfl⟩ := exists_literal_of_number? hb hv hnumber
      exact .inr ⟨l, rfl, (c.faults_text_eq_none f).1 h⟩
  · rintro (rfl | ⟨l, rfl, h⟩)
    · exact ⟨(enumerationFault_on_eq_none _ f).2 fun hne => absurd rfl hne,
        fun b => (boundFault_on_eq_none _ f).2 fun m hm => by cases hm⟩
    · exact (c.faults_text_eq_none f).2 h

/-- **The facets pass** if those pass that compare no numbers, and those that do. -/
theorem fault?_on_eq_none (hb : b.IsDecimal) : (c.on f).fault? typeName v (.atomic b) = none ↔
    (empty.on f).fault? typeName v (.atomic b) = none ∧
      (c.on f).enumerationFault true v = none ∧
      ∀ b, (c.on f).boundFault typeName true v b = none := by
  have hnumeric : Variety.isNumeric (.atomic b) = true := isNumeric_of_isDecimal hb
  rw [Facets.fault?_eq_none, Facets.fault?_eq_none, hnumeric]
  constructor
  · rintro ⟨henumeration, hpattern, hlength, hbounds, hdigits⟩
    refine ⟨⟨?_, hpattern, hlength, fun b => ?_, hdigits⟩, henumeration, hbounds⟩
    · exact (enumerationFault_on_eq_none _ f).2 fun hne => absurd rfl hne
    · exact (boundFault_on_eq_none _ f).2 fun m hm => by cases hm
  · rintro ⟨⟨-, hpattern, hlength, -, hdigits⟩, henumeration, hbounds⟩
    exact ⟨henumeration, hpattern, hlength, hbounds, hdigits⟩

/-! ## Exact numbers -/

variable {q : ℚ}

theorem holds_double_iff {b : Bound} {r : ℚ} (h : Decimal.double q = Decimal.double r → q = r) :
    b.Holds (Decimal.double q) (Decimal.double r) ↔ b.Holds q r := by
  have hle : Decimal.double q ≤ Decimal.double r ↔ q ≤ r := by
    refine ⟨fun hle => ?_, fun hle => Decimal.double_mono hle⟩
    by_contra hlt
    have hge := Decimal.double_mono (not_le.1 hlt).le
    exact hlt (h (le_antisymm hle hge)).le
  have hge : Decimal.double r ≤ Decimal.double q ↔ r ≤ q := by
    refine ⟨fun hge => ?_, fun hge => Decimal.double_mono hge⟩
    by_contra hlt
    have hle := Decimal.double_mono (not_le.1 hlt).le
    exact hlt (h (le_antisymm hle hge)).ge
  cases b with
  | minInclusive => exact hge
  | maxInclusive => exact hle
  | minExclusive => exact lt_iff_lt_of_le_iff_le hle
  | maxExclusive => exact lt_iff_lt_of_le_iff_le hge

/-- **Rounding does no harm** to a number that is not rounded to the same double as another one. -/
theorem admits_double_iff
    (h : ∀ m, c.Mentions m → Decimal.double q = Decimal.double m.value → q = m.value) :
    c.Admits Decimal.double q ↔ c.Admits id q := by
  refine and_congr ?_ ?_
  · exact forall_congr' fun b => forall_congr' fun m => forall_congr' fun hm =>
      holds_double_iff (h m (.inl ⟨b, hm⟩))
  · refine forall_congr' fun _ => exists_congr fun m => and_congr_right fun hm => ?_
    exact ⟨h m (.inr hm), congrArg Decimal.double⟩

/-- **Facets compare doubles.** Limits and members that are decimal literals turn away just the
values whose nearest doubles they turn away. So the facets are exact about a number if none of the
limits and members is rounded to the same double. -/
theorem fault?_on_eq_none_iff (hb : b.IsDecimal) (hv : b.admits v = true) :
    ((c.on f).fault? typeName v (.atomic b) = none ↔
      (empty.on f).fault? typeName v (.atomic b) = none ∧
        (c = empty ∨ ∃ l : DecimalLiteral, l.text = v ∧ c.Admits Decimal.double l.value)) ∧
    ∀ l : DecimalLiteral, l.text = v →
      (∀ m, c.Mentions m → Decimal.double l.value = Decimal.double m.value → l.value = m.value) →
      ((c.on f).fault? typeName v (.atomic b) = none ↔
        (empty.on f).fault? typeName v (.atomic b) = none ∧ c.Admits id l.value) := by
  constructor
  · rw [c.fault?_on_eq_none f hb, c.faults_eq_none_iff f hb hv]
  · rintro l rfl hexact
    rw [c.fault?_on_eq_none f hb, faults_text_eq_none, c.admits_double_iff hexact]

/-- The greatest integer up to which all integers are doubles, `2 ^ 53`. -/
def lastExact : DecimalLiteral :=
  ⟨.none, "9007199254740992".toList, none, List.all_eq_true.1 (by decide), by decide⟩

/-- The integer behind it. -/
def firstInexact : DecimalLiteral :=
  ⟨.none, "9007199254740993".toList, none, List.all_eq_true.1 (by decide), by decide⟩

/-- A limit and an enumeration of one number. -/
def upToLastExact : DecimalFacets :=
  ⟨fun b => if b = .maxInclusive then some lastExact else none, [lastExact]⟩

theorem admits_firstInexact : Builtin.integer.admits firstInexact.text = true := by
  refine (admits_iff_of_signed rfl).2 ⟨.none, firstInexact.whole, ⟨by decide, by decide⟩, ?_, ?_⟩
  · exact fun d hd => Category.ofChar_of_isDigit (firstInexact.isDigit_whole d hd)
  · split
    · exact Set.mem_univ _
    · rfl

theorem fault?_on_eq_none_iff_firstInexact :
    (Builtin.integer.IsDecimal ∧ Builtin.integer.admits firstInexact.text = true) ∧
    ((upToLastExact.on {}).fault? "T" firstInexact.text (.atomic .integer) = none ↔
      (empty.on {}).fault? "T" firstInexact.text (.atomic .integer) = none ∧
        (upToLastExact = empty ∨ ∃ l : DecimalLiteral, l.text = firstInexact.text ∧
          upToLastExact.Admits Decimal.double l.value)) ∧
    ∀ l : DecimalLiteral, l.text = firstInexact.text →
      (∀ m, upToLastExact.Mentions m → Decimal.double l.value = Decimal.double m.value →
        l.value = m.value) →
      ((upToLastExact.on {}).fault? "T" firstInexact.text (.atomic .integer) = none ↔
        (empty.on {}).fault? "T" firstInexact.text (.atomic .integer) = none ∧
          upToLastExact.Admits id l.value) :=
  ⟨⟨.inr rfl, admits_firstInexact⟩,
    fault?_on_eq_none_iff upToLastExact {} (.inr rfl) admits_firstInexact⟩

theorem value_lastExact : lastExact.value = 9007199254740992 := by
  have hplace : place (lastExact.whole ++ lastExact.fraction) = 9007199254740992 := by
    decide +kernel
  rw [DecimalLiteral.value, hplace, cast_apply]
  exact div_one _

theorem value_firstInexact : firstInexact.value = 9007199254740993 := by
  have hplace : place (firstInexact.whole ++ firstInexact.fraction) = 9007199254740993 := by
    decide +kernel
  rw [DecimalLiteral.value, hplace, cast_apply]
  exact div_one _

/-- **The integer behind `2 ^ 53`** passes a limit and an enumeration as if it were `2 ^ 53`. -/
theorem firstInexact_passes :
    Builtin.integer.admits firstInexact.text = true ∧
      (upToLastExact.on {}).fault? "T" firstInexact.text (.atomic .integer) = none ∧
      ¬ firstInexact.value ≤ lastExact.value ∧ firstInexact.value ≠ lastExact.value ∧
      ¬ upToLastExact.Admits id firstInexact.value := by
  have hlt : lastExact.value < firstInexact.value := by
    rw [value_lastExact, value_firstInexact]
    norm_num
  refine ⟨admits_firstInexact, by decide +kernel, hlt.not_ge, hlt.ne', fun h => ?_⟩
  exact hlt.not_ge (h.1 .maxInclusive lastExact rfl)

end DecimalFacets

end XmlConformance.Schema
