import Mathlib.Data.List.Basic
import XmlConformance.Regex.Basic

/-!
# Proofs/Regex/Matching — what expressions match

What an expression matches depends on the text and on the characters around it, since assertions
look at them. `Regex.Spans` says so by recursion on the expression. The remainders of an expression
behind a character span the rest of a text just when the expression spans the whole
(`spans_remainders`), so the search finds a match if there is one (`isMatch_iff`), and an anchored
expression matches the texts that it spans (`isMatch_anchored`).

All of this is for expressions whose repetitions have bounds in order (`Proper`).
-/

namespace XmlConformance.Regex

/-! ## Texts between characters -/

/-- Texts, each with the characters in front of it and behind it. -/
abbrev Spanning := Option Char → List Char → Option Char → Prop

namespace Spanning

/-- A text behind a text: what is at the border is seen from both sides. -/
def andThen (P Q : Spanning) : Spanning := fun before w behind =>
  ∃ u v, w = u ++ v ∧ P before u (v.head?.or behind) ∧ Q (u.getLast?.or before) v behind

/-- A number of texts in a row. -/
def times (P : Spanning) : ℕ → Spanning
  | 0 => fun _ w _ => w = []
  | n + 1 => P.andThen (P.times n)

variable {P Q : Spanning} {before behind : Option Char} {c : Char} {w : List Char}

theorem andThen_nil :
    P.andThen Q before [] behind ↔ P before [] behind ∧ Q before [] behind := by
  constructor
  · rintro ⟨u, v, h, hP, hQ⟩
    obtain ⟨rfl, rfl⟩ := List.append_eq_nil_iff.1 h.symm
    exact ⟨hP, hQ⟩
  · exact fun ⟨hP, hQ⟩ => ⟨[], [], rfl, hP, hQ⟩

theorem getLast?_cons_or (c : Char) (u : List Char) :
    (c :: u).getLast?.or before = u.getLast?.or (some c) := by
  rw [List.getLast?_cons]
  cases u.getLast? <;> rfl

/-- The first character belongs to the first text, unless that is empty. -/
theorem andThen_cons : P.andThen Q before (c :: w) behind ↔
    (∃ u v, w = u ++ v ∧ P before (c :: u) (v.head?.or behind) ∧
      Q (u.getLast?.or (some c)) v behind) ∨
    P before [] (some c) ∧ Q before (c :: w) behind := by
  constructor
  · rintro ⟨u, v, h, hP, hQ⟩
    cases u with
    | nil =>
      obtain rfl : c :: w = v := h
      exact .inr ⟨hP, hQ⟩
    | cons d u =>
      obtain ⟨rfl, rfl⟩ := List.cons.inj h
      rw [getLast?_cons_or] at hQ
      exact .inl ⟨u, v, rfl, hP, hQ⟩
  · rintro (⟨u, v, rfl, hP, hQ⟩ | ⟨hP, hQ⟩)
    · refine ⟨c :: u, v, rfl, hP, ?_⟩
      rwa [getLast?_cons_or]
    · exact ⟨[], c :: w, rfl, hP, hQ⟩

theorem times_nil {n : ℕ} : P.times n before [] behind ↔ n = 0 ∨ P before [] behind := by
  induction n with
  | zero => simp [times]
  | succ n ih =>
    rw [times, andThen_nil, ih]
    constructor
    · exact fun h => .inr h.1
    · rintro (h | h)
      · cases h
      · exact ⟨h, .inr h⟩

/-- Empty texts may stand in front. -/
theorem times_add {n : ℕ} (hempty : P before [] (w.head?.or behind))
    (h : P.times n before w behind) : ∀ j, P.times (j + n) before w behind
  | 0 => by rwa [Nat.zero_add]
  | j + 1 => by
    rw [Nat.succ_add]
    exact ⟨[], w, rfl, hempty, times_add hempty h j⟩

/-- **The first text in a row that is not empty** holds the first character. -/
theorem times_cons {n : ℕ} : P.times n before (c :: w) behind ↔
    ∃ j k, n = j + (k + 1) ∧ (j = 0 ∨ P before [] (some c)) ∧
      ∃ u v, w = u ++ v ∧ P before (c :: u) (v.head?.or behind) ∧
        P.times k (u.getLast?.or (some c)) v behind := by
  constructor
  · intro h
    induction n with
    | zero => cases h
    | succ n ih =>
      obtain ⟨u, v, hw, hP, hrest⟩ | ⟨hempty, hrest⟩ := andThen_cons.1 h
      · exact ⟨0, n, (Nat.zero_add _).symm, .inl rfl, u, v, hw, hP, hrest⟩
      · obtain ⟨j, k, rfl, -, hfirst⟩ := ih hrest
        exact ⟨j + 1, k, by omega, .inr hempty, hfirst⟩
  · rintro ⟨j, k, rfl, hj, u, v, hw, hP, hrest⟩
    have hfirst : P.times (k + 1) before (c :: w) behind :=
      andThen_cons.2 (.inl ⟨u, v, hw, hP, hrest⟩)
    obtain rfl | hempty := hj
    · rwa [Nat.zero_add]
    · exact times_add hempty hfirst j

end Spanning

end Regex

namespace Regex

open Spanning

/-! ## Expressions -/

/-- A number is within the bounds of a repetition. -/
def Within (least : ℕ) (most : Option ℕ) (n : ℕ) : Prop :=
  least ≤ n ∧ ∀ m, most = some m → n ≤ m

/-- **The texts that an expression matches**, and the characters around them. -/
def Spans : Regex → Spanning
  | .empty => fun _ w _ => w = []
  | .chars set => fun _ w _ => ∃ c, w = [c] ∧ set.contains c = true
  | .look l => fun before w behind => w = [] ∧ l.holds ⟨before, behind⟩ = true
  | .seq a b => a.Spans.andThen b.Spans
  | .alt a b => fun before w behind => a.Spans before w behind ∨ b.Spans before w behind
  | .repeated a least most => fun before w behind =>
    ∃ n, Within least most n ∧ a.Spans.times n before w behind

/-- The bounds of repetitions are in order. -/
def Proper : Regex → Prop
  | .empty | .chars _ | .look _ => True
  | .seq a b | .alt a b => a.Proper ∧ b.Proper
  | .repeated a least most => a.Proper ∧ ∀ m, most = some m → least ≤ m

variable {r : Regex} {before behind : Option Char} {c : Char} {w : List Char}

/-- **Matching the empty text.** -/
theorem matchesEmpty_iff (hr : r.Proper) :
    r.matchesEmpty ⟨before, behind⟩ = true ↔ r.Spans before [] behind := by
  induction r with
  | empty => simp [matchesEmpty, Spans]
  | chars set => simp [matchesEmpty, Spans]
  | look l => simp [matchesEmpty, Spans]
  | seq a b iha ihb =>
    rw [matchesEmpty, Bool.and_eq_true, iha hr.1, ihb hr.2]
    exact andThen_nil.symm
  | alt a b iha ihb =>
    rw [matchesEmpty, Bool.or_eq_true, iha hr.1, ihb hr.2]
    rfl
  | repeated a least most ih =>
    rw [matchesEmpty, Bool.or_eq_true, beq_iff_eq, ih hr.1]
    constructor
    · rintro (rfl | hempty)
      · exact ⟨0, ⟨Nat.le_refl 0, fun m _ => m.zero_le⟩, rfl⟩
      · exact ⟨least, ⟨Nat.le_refl least, hr.2⟩, times_nil.2 (.inr hempty)⟩
    · rintro ⟨n, ⟨hleast, -⟩, hn⟩
      obtain rfl | hempty := times_nil.1 hn
      · exact .inl (Nat.le_zero.1 hleast)
      · exact .inr hempty

theorem spans_andThen (a b : Regex) :
    (a.andThen b).Spans before w behind ↔ a.Spans.andThen b.Spans before w behind := by
  unfold andThen
  split
  · constructor
    · exact fun h => ⟨[], w, rfl, rfl, h⟩
    · rintro ⟨u, v, rfl, rfl, h⟩
      exact h
  · rfl

/-- What remains of an expression with another one behind it. -/
theorem spans_map_andThen {b : Regex} (rs : List Regex) :
    (∃ s ∈ rs.map (·.andThen b), s.Spans before w behind) ↔
      ∃ u v, w = u ++ v ∧ (∃ s ∈ rs, s.Spans before u (v.head?.or behind)) ∧
        b.Spans (u.getLast?.or before) v behind := by
  constructor
  · rintro ⟨_, hmem, h⟩
    obtain ⟨s, hs, rfl⟩ := List.mem_map.1 hmem
    obtain ⟨u, v, hw, hu, hv⟩ := (spans_andThen s b).1 h
    exact ⟨u, v, hw, ⟨s, hs, hu⟩, hv⟩
  · rintro ⟨u, v, hw, ⟨s, hs, hu⟩, hv⟩
    exact ⟨_, List.mem_map_of_mem hs, (spans_andThen s b).2 ⟨u, v, hw, hu, hv⟩⟩

/-- **Repetitions behind the first character.** If the empty text is matched in front of it, any
number of the matches that are due may be empty. -/
theorem spans_repeated_cons {a : Regex} {least : ℕ} {most : Option ℕ} (empty : Bool)
    (hempty : empty = true ↔ a.Spans before [] (some c))
    (hbounds : ∀ m, most = some m → least ≤ m) (hmost : most ≠ some 0) :
    (repeated a least most).Spans before (c :: w) behind ↔
      ∃ u v, w = u ++ v ∧ a.Spans before (c :: u) (v.head?.or behind) ∧
        (repeated a (if empty then 0 else least - 1) (most.map (· - 1))).Spans
          (u.getLast?.or (some c)) v behind := by
  constructor
  · rintro ⟨n, ⟨hleast, hn⟩, h⟩
    obtain ⟨j, k, rfl, hj, u, v, hw, hu, hv⟩ := times_cons.1 h
    refine ⟨u, v, hw, hu, k, ⟨?_, ?_⟩, hv⟩
    · cases empty with
      | true => exact k.zero_le
      | false =>
        have hj : j = 0 := hj.resolve_right fun h => nomatch hempty.2 h
        simp only [Bool.false_eq_true, if_false]
        omega
    · rintro m hm
      obtain ⟨m, rfl, rfl⟩ := Option.map_eq_some_iff.1 hm
      have := hn m rfl
      omega
  · rintro ⟨u, v, hw, hu, k, ⟨hleast, hk⟩, hv⟩
    have hone {m : ℕ} (hm : most = some m) : k + 1 ≤ m := by
      have := hk (m - 1) (by rw [hm]; rfl)
      have : m ≠ 0 := fun h => hmost (h ▸ hm)
      omega
    cases empty with
    | true =>
      refine ⟨least - (k + 1) + (k + 1), ⟨by omega, fun m hm => ?_⟩, ?_⟩
      · have := hbounds m hm
        have := hone hm
        omega
      · exact times_cons.2 ⟨_, k, rfl, .inr (hempty.1 rfl), u, v, hw, hu, hv⟩
    | false =>
      simp only [Bool.false_eq_true, if_false] at hleast
      refine ⟨k + 1, ⟨by omega, fun m hm => hone hm⟩, ?_⟩
      exact times_cons.2 ⟨0, k, (Nat.zero_add _).symm, .inl rfl, u, v, hw, hu, hv⟩

/-- **What remains behind the first character.** -/
theorem spans_remainders (hr : r.Proper) :
    (∃ s ∈ r.remainders before c, s.Spans (some c) w behind) ↔
      r.Spans before (c :: w) behind := by
  induction r generalizing w behind with
  | empty => simp [remainders, Spans]
  | look l => simp [remainders, Spans]
  | chars set =>
    rw [remainders]
    by_cases hc : set.contains c = true
    · simp [hc, Spans]
    · simp only [if_neg hc, Spans]
      constructor
      · exact fun ⟨_, hs, _⟩ => nomatch hs
      · rintro ⟨d, hd, hcontains⟩
        obtain ⟨rfl, -⟩ := List.cons.inj hd
        exact absurd hcontains hc
  | alt a b iha ihb =>
    rw [remainders]
    simp only [List.mem_append, or_and_right, exists_or, iha hr.1, ihb hr.2]
    rfl
  | seq a b iha ihb =>
    rw [remainders]
    simp only [List.mem_append, or_and_right, exists_or, spans_map_andThen, iha hr.1]
    refine Iff.trans (or_congr Iff.rfl ?_) andThen_cons.symm
    by_cases hempty : a.matchesEmpty ⟨before, some c⟩ = true
    · rw [if_pos hempty, ihb hr.2, ← matchesEmpty_iff hr.1]
      exact ⟨fun h => ⟨hempty, h⟩, And.right⟩
    · rw [if_neg hempty, ← matchesEmpty_iff hr.1]
      exact ⟨fun ⟨_, hs, _⟩ => (by cases hs), fun h => absurd h.1 hempty⟩
  | repeated a least most ih =>
    rw [remainders]
    by_cases hmost : most = some 0
    · rw [if_pos (beq_iff_eq.2 hmost)]
      constructor
      · exact fun ⟨_, hs, _⟩ => nomatch hs
      · rintro ⟨n, hn, h⟩
        obtain rfl : n = 0 := Nat.le_zero.1 (hn.2 0 hmost)
        cases h
    · rw [if_neg (mt beq_iff_eq.1 hmost), spans_map_andThen]
      simp only [ih hr.1]
      exact (spans_repeated_cons _ (matchesEmpty_iff hr.1) hr.2 hmost).symm

theorem Proper.andThen {a b : Regex} (ha : a.Proper) (hb : b.Proper) : (a.andThen b).Proper := by
  unfold Regex.andThen
  split
  · exact hb
  · exact ⟨ha, hb⟩

/-- What remains of a proper expression is proper. -/
theorem Proper.remainders (hr : r.Proper) : ∀ s ∈ r.remainders before c, s.Proper := by
  induction r with
  | empty | look l => exact nofun
  | chars set =>
    rw [Regex.remainders]
    split
    · exact fun s hs => List.mem_singleton.1 hs ▸ trivial
    · exact nofun
  | alt a b iha ihb =>
    exact fun s hs => (List.mem_append.1 hs).elim (iha hr.1 s) (ihb hr.2 s)
  | seq a b iha ihb =>
    intro _ hmem
    obtain hmem | hs := List.mem_append.1 hmem
    · obtain ⟨s, hs, rfl⟩ := List.mem_map.1 hmem
      exact (iha hr.1 s hs).andThen hr.2
    · split at hs
      · exact ihb hr.2 _ hs
      · cases hs
  | repeated a least most ih =>
    rw [Regex.remainders]
    split
    · exact nofun
    · intro _ hmem
      obtain ⟨s, hs, rfl⟩ := List.mem_map.1 hmem
      refine (ih hr.1 s hs).andThen ⟨hr.1, fun m hm => ?_⟩
      obtain ⟨m, rfl, rfl⟩ := Option.map_eq_some_iff.1 hm
      have := hr.2 m rfl
      split <;> omega

/-! ## Searching -/

/-- Some text at the start of a text matches. -/
def Begins (r : Regex) (before : Option Char) (w : List Char) : Prop :=
  ∃ u v, w = u ++ v ∧ r.Spans before u v.head?

/-- Some part of a text matches. -/
def Occurs (r : Regex) (before : Option Char) (w : List Char) : Prop :=
  ∃ p x, w = p ++ x ∧ r.Begins (p.getLast?.or before) x

theorem begins_nil : r.Begins before [] ↔ r.Spans before [] none := by
  constructor
  · rintro ⟨u, v, h, hu⟩
    obtain ⟨rfl, rfl⟩ := List.append_eq_nil_iff.1 h.symm
    exact hu
  · exact fun h => ⟨[], [], rfl, h⟩

theorem begins_cons (hr : r.Proper) : r.Begins before (c :: w) ↔
    r.Spans before [] (some c) ∨ ∃ s ∈ r.remainders before c, s.Begins (some c) w := by
  constructor
  · rintro ⟨u, v, h, hu⟩
    cases u with
    | nil =>
      obtain rfl : c :: w = v := h
      exact .inl hu
    | cons d u =>
      obtain ⟨rfl, rfl⟩ := List.cons.inj h
      obtain ⟨s, hs, hspans⟩ := (spans_remainders hr).2 hu
      exact .inr ⟨s, hs, u, v, rfl, hspans⟩
  · rintro (h | ⟨s, hs, u, v, rfl, hspans⟩)
    · exact ⟨[], c :: w, rfl, h⟩
    · exact ⟨c :: u, v, rfl, (spans_remainders hr).1 ⟨s, hs, hspans⟩⟩

theorem occurs_nil : r.Occurs before [] ↔ r.Spans before [] none := by
  rw [← begins_nil]
  constructor
  · rintro ⟨p, x, h, hx⟩
    obtain ⟨rfl, rfl⟩ := List.append_eq_nil_iff.1 h.symm
    exact hx
  · exact fun h => ⟨[], [], rfl, h⟩

theorem occurs_cons :
    r.Occurs before (c :: w) ↔ r.Begins before (c :: w) ∨ r.Occurs (some c) w := by
  constructor
  · rintro ⟨p, x, h, hx⟩
    cases p with
    | nil =>
      obtain rfl : c :: w = x := h
      exact .inl hx
    | cons d p =>
      obtain ⟨rfl, rfl⟩ := List.cons.inj h
      rw [getLast?_cons_or] at hx
      exact .inr ⟨p, x, rfl, hx⟩
  · rintro (h | ⟨p, x, rfl, hx⟩)
    · exact ⟨[], c :: w, rfl, h⟩
    · refine ⟨c :: p, x, rfl, ?_⟩
      rwa [getLast?_cons_or]

/-- **The search** finds what begins with a state, and what occurs of the expression. -/
theorem search_iff (hr : r.Proper) : ∀ {w : List Char} {states : List Regex}
    {before : Option Char}, (∀ s ∈ states, s.Proper) →
      (search r states before w = true ↔
        (∃ s ∈ states, s.Begins before w) ∨ r.Occurs before w)
  | [], states, before, hstates => by
    have hall : ∀ s ∈ r :: states, s.Proper := List.forall_mem_cons.2 ⟨hr, hstates⟩
    have hempty : (∃ s ∈ r :: states, s.matchesEmpty ⟨before, none⟩ = true) ↔
        ∃ s ∈ r :: states, s.Begins before [] := by
      refine exists_congr fun s => and_congr_right fun hs => ?_
      rw [matchesEmpty_iff (hall s hs), begins_nil]
    rw [search, List.any_eq_true, hempty, occurs_nil, ← begins_nil, List.exists_mem_cons_iff,
      or_comm]
  | c :: w, states, before, hstates => by
    have hall : ∀ s ∈ r :: states, s.Proper := List.forall_mem_cons.2 ⟨hr, hstates⟩
    have hnext : ∀ s ∈ ((r :: states).flatMap (·.remainders before c)).eraseDups, s.Proper := by
      intro s hs
      obtain ⟨s', hs', hs⟩ := List.mem_flatMap.1 (List.mem_eraseDups.1 hs)
      exact (hall s' hs').remainders s hs
    have hbegins : (∃ s ∈ r :: states, s.Begins before (c :: w)) ↔
        (∃ s ∈ r :: states, s.matchesEmpty ⟨before, some c⟩ = true) ∨
          ∃ s ∈ ((r :: states).flatMap (·.remainders before c)).eraseDups,
            s.Begins (some c) w := by
      simp only [List.mem_eraseDups, List.mem_flatMap]
      constructor
      · rintro ⟨s, hs, h⟩
        obtain hempty | ⟨s', hs', h⟩ := (begins_cons (hall s hs)).1 h
        · exact .inl ⟨s, hs, (matchesEmpty_iff (hall s hs)).2 hempty⟩
        · exact .inr ⟨s', ⟨s, hs, hs'⟩, h⟩
      · rintro (⟨s, hs, hempty⟩ | ⟨s', ⟨s, hs, hs'⟩, h⟩)
        · exact ⟨s, hs, (begins_cons (hall s hs)).2
            (.inl ((matchesEmpty_iff (hall s hs)).1 hempty))⟩
        · exact ⟨s, hs, (begins_cons (hall s hs)).2 (.inr ⟨s', hs', h⟩)⟩
    rw [search, Bool.or_eq_true, List.any_eq_true, search_iff hr hnext, ← or_assoc, ← hbegins,
      occurs_cons, List.exists_mem_cons_iff]
    exact ⟨fun h => h.elim (fun h => h.elim (.inr ∘ .inl) .inl) (.inr ∘ .inr),
      fun h => h.elim (.inl ∘ .inr) fun h => h.elim (.inl ∘ .inl) .inr⟩

/-- **An expression matches in a text** just when it spans some part of it. -/
theorem isMatch_iff (hr : r.Proper) (text : String) : r.isMatch text = true ↔
    ∃ p u v, text.toList = p ++ (u ++ v) ∧ r.Spans p.getLast? u v.head? := by
  rw [isMatch, search_iff hr (List.forall_mem_nil _)]
  constructor
  · rintro (⟨_, hs, _⟩ | ⟨p, x, hp, u, v, rfl, hu⟩)
    · cases hs
    · rw [Option.or_none] at hu
      exact ⟨p, u, v, hp, hu⟩
  · rintro ⟨p, u, v, hp, hu⟩
    refine .inr ⟨p, u ++ v, hp, u, v, rfl, ?_⟩
    rwa [Option.or_none]

/-- **An anchored expression** matches just the texts that it spans. -/
theorem isMatch_anchored (hr : r.Proper) (text : String) :
    (seq (.look .start) (.seq r (.look .finish))).isMatch text = true ↔
      r.Spans none text.toList none := by
  have hproper : (seq (.look .start) (.seq r (.look .finish))).Proper := ⟨trivial, hr, trivial⟩
  rw [isMatch_iff hproper]
  constructor
  · rintro ⟨p, _, v, htext, _, _, rfl, ⟨rfl, hstart⟩, u, _, rfl, hu, rfl, hfinish⟩
    have hp : p = [] := by simpa [Look.holds] using hstart
    have hv : v = [] := by simpa [Look.holds] using hfinish
    subst hp hv
    simpa [htext] using hu
  · intro h
    refine ⟨[], text.toList, [], by simp, [], text.toList, rfl, ⟨rfl, rfl⟩, text.toList, [], ?_⟩
    exact ⟨by simp, by simpa using h, rfl, by simp [Look.holds]⟩

/-! ## Rows of characters -/

theorem times_chars {set : CharSet} {n : ℕ} : (chars set).Spans.times n before w behind ↔
    w.length = n ∧ ∀ c ∈ w, set.contains c = true := by
  induction n generalizing w before with
  | zero =>
    constructor
    · rintro rfl
      exact ⟨rfl, nofun⟩
    · exact fun h => List.length_eq_zero_iff.1 h.1
  | succ n ih =>
    constructor
    · rintro ⟨_, v, rfl, ⟨c, rfl, hc⟩, hv⟩
      obtain ⟨hlength, hall⟩ := ih.1 hv
      exact ⟨by simp [hlength], List.forall_mem_cons.2 ⟨hc, hall⟩⟩
    · rintro ⟨hlength, hall⟩
      obtain ⟨c, v, rfl⟩ := List.exists_cons_of_length_eq_add_one hlength
      obtain ⟨hc, hall⟩ := List.forall_mem_cons.1 hall
      exact ⟨[c], v, rfl, ⟨c, rfl, hc⟩, ih.2 ⟨Nat.succ.inj hlength, hall⟩⟩

/-- **A repeated set** spans the texts of its characters, as far as their length permits. -/
theorem spans_repeated_chars {set : CharSet} {least : ℕ} {most : Option ℕ} :
    (repeated (.chars set) least most).Spans before w behind ↔
      Within least most w.length ∧ ∀ c ∈ w, set.contains c = true := by
  constructor
  · rintro ⟨n, hn, h⟩
    obtain ⟨rfl, hall⟩ := times_chars.1 h
    exact ⟨hn, hall⟩
  · exact fun ⟨hn, hall⟩ => ⟨w.length, hn, times_chars.2 ⟨rfl, hall⟩⟩

end Regex

end XmlConformance
