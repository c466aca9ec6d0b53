import Mathlib.Algebra.GroupWithZero.Nat
import Mathlib.Data.List.Basic
import XmlConformance.Text.Category

/-!
# Proofs/Text/Categories — categories that the table gives

Bisection finds the run that holds a code point if all runs in front of it lie before the code point
and all behind it lie after (`find?_eq_some`). Since every word of the table adds runs that start
where the table ends, the words up to a code point decide its category (`ofChar_of_words`).
The first of them say what the digits, signs and letters of ASCII are.
-/

namespace XmlConformance.Text

namespace Ranges

variable {α : Type} {table : Array (ℕ × ℕ × α)} {before behind : List (ℕ × ℕ × α)}
  {code first last : ℕ} {value : α}

/-- A code point lies in a run of a table, behind some runs and before the others. -/
structure Lies (before : List (ℕ × ℕ × α)) (first last code : ℕ) (behind : List (ℕ × ℕ × α)) :
    Prop where
  after : ∀ r ∈ before, r.1 ≤ code ∧ r.2.1 < code
  inside : first ≤ code ∧ code ≤ last
  ahead : ∀ r ∈ behind, code < r.1

/-- What stands at a place of a list that is put together. -/
theorem getElem?_parts {run r : ℕ × ℕ × α} {i : ℕ}
    (h : (before ++ run :: behind)[i]? = some r) :
    i < before.length ∧ r ∈ before ∨ i = before.length ∧ r = run ∨
      before.length < i ∧ r ∈ behind := by
  obtain hlt | rfl | hgt := Nat.lt_trichotomy i before.length
  · rw [List.getElem?_append_left hlt] at h
    exact .inl ⟨hlt, List.mem_of_getElem? h⟩
  · rw [List.getElem?_append_right (Nat.le_refl _), Nat.sub_self] at h
    exact .inr (.inl ⟨rfl, (Option.some.inj h).symm⟩)
  · obtain ⟨k, rfl⟩ := Nat.exists_eq_add_of_lt hgt
    rw [List.getElem?_append_right (by omega), show before.length + k + 1 - before.length = k + 1
      by omega] at h
    exact .inr (.inr ⟨hgt, List.mem_of_getElem? h⟩)

/-- **Bisection** closes in on the run that holds the code point. -/
theorem search_eq_of_lies (htable : table.toList = before ++ (first, last, value) :: behind)
    (h : Lies before first last code behind) :
    ∀ {steps lo hi : ℕ}, lo ≤ before.length → before.length < hi → hi ≤ table.size →
      hi - lo < steps → search table code steps lo hi = some (first, value)
  | 0, _, _, _, _, _, hsteps => absurd hsteps (Nat.not_lt_zero _)
  | steps + 1, lo, hi, hlo, hhi, hsize, hsteps => by
    obtain ⟨r, hr⟩ : ∃ r, table[(lo + hi) / 2]? = some r :=
      ⟨_, Array.getElem?_eq_getElem (by omega)⟩
    have hlist := hr
    rw [← Array.getElem?_toList, htable] at hlist
    obtain ⟨f, l, v⟩ := r
    rw [search, if_neg (by omega)]
    simp only [hr]
    obtain ⟨hmid, hmem⟩ | ⟨hmid, heq⟩ | ⟨hmid, hmem⟩ := getElem?_parts hlist
    · obtain ⟨hf, hl⟩ := h.after _ hmem
      rw [if_neg (Nat.not_lt.2 hf), if_pos hl]
      exact search_eq_of_lies htable h (by omega) hhi hsize (by omega)
    · cases heq
      rw [if_neg (Nat.not_lt.2 h.inside.1), if_neg (Nat.not_lt.2 h.inside.2)]
    · rw [if_pos (h.ahead _ hmem)]
      exact search_eq_of_lies htable h hlo (by omega) (by omega) (by omega)

/-- **The run that holds a code point** is found. -/
theorem find?_eq_some (htable : table.toList = before ++ (first, last, value) :: behind)
    (h : Lies before first last code behind) : find? table code = some value := by
  have hsize : table.size = before.length + (behind.length + 1) := by
    rw [← Array.length_toList, htable, List.length_append, List.length_cons]
  have hsearch : search table code (table.size + 1) 0 table.size = some (first, value) :=
    search_eq_of_lies htable h (Nat.zero_le _) (by omega) (Nat.le_refl _) (by omega)
  rw [find?, findRun?, hsearch]
  rfl

end Ranges

namespace Category

open Ranges

/-! ## The table -/

/-- The number of code points in the runs of some words. -/
def total (ws : List String) : ℕ := (ws.map fun w => (readRun w).2).sum

/-- **A table that goes on**: the runs that are added lie between the ends of the two tables. -/
def Continues (s s' : Array (ℕ × ℕ × Category) × ℕ) : Prop :=
  s.2 ≤ s'.2 ∧ ∃ more, s'.1.toList = s.1.toList ++ more ∧
    ∀ r ∈ more, s.2 ≤ r.1 ∧ r.1 ≤ s'.2 ∧ r.2.1 ≤ s'.2 - 1

theorem Continues.refl (s : Array (ℕ × ℕ × Category) × ℕ) : Continues s s :=
  ⟨Nat.le_refl _, [], (List.append_nil _).symm, nofun⟩

theorem Continues.trans {s s' s'' : Array (ℕ × ℕ × Category) × ℕ} (h : Continues s s')
    (h' : Continues s' s'') : Continues s s'' := by
  obtain ⟨hle, more, heq, hmore⟩ := h
  obtain ⟨hle', more', heq', hmore'⟩ := h'
  refine ⟨Nat.le_trans hle hle', more ++ more', ?_, fun r hr => ?_⟩
  · rw [heq', heq, List.append_assoc]
  · obtain hr | hr := List.mem_append.1 hr
    · have := hmore r hr
      omega
    · have := hmore' r hr
      omega

theorem toList_foldl_push {run : ℕ → ℕ × ℕ × Category} :
    ∀ (is : List ℕ) (table : Array (ℕ × ℕ × Category)),
      (is.foldl (fun t i => t.push (run i)) table).toList = table.toList ++ is.map run
  | [], table => by simp
  | i :: is, table => by
    rw [List.foldl_cons, toList_foldl_push is, Array.toList_push]
    simp

theorem continues_addRun (s : Array (ℕ × ℕ × Category) × ℕ) (word : String) :
    Continues s (addRun s word) := by
  obtain ⟨table, next⟩ := s
  rw [addRun]
  split
  · next c count _ =>
    refine ⟨Nat.le_add_right _ _, [(next, next + count - 1, c)], Array.toList_push, ?_⟩
    intro r hr
    rw [List.mem_singleton.1 hr]
    exact ⟨Nat.le_refl _, Nat.le_add_right _ _, Nat.le_refl _⟩
  · next c d count _ =>
    refine ⟨Nat.le_add_right _ _, _, toList_foldl_push _ _, fun r hr => ?_⟩
    obtain ⟨i, hi, rfl⟩ := List.mem_map.1 hr
    have := List.mem_range.1 hi
    dsimp only
    omega
  · exact ⟨Nat.le_add_right _ _, [], (List.append_nil _).symm, nofun⟩

theorem addRun_snd (s : Array (ℕ × ℕ × Category) × ℕ) (word : String) :
    (addRun s word).2 = s.2 + (readRun word).2 := by
  obtain ⟨table, next⟩ := s
  rw [addRun]
  split <;> next heq => rw [heq]

theorem continues_foldl : ∀ (ws : List String) (s : Array (ℕ × ℕ × Category) × ℕ),
    Continues s (ws.foldl addRun s) ∧ (ws.foldl addRun s).2 = s.2 + total ws
  | [], s => ⟨.refl s, rfl⟩
  | w :: ws, s => by
    obtain ⟨hcontinues, hend⟩ := continues_foldl ws (addRun s w)
    refine ⟨(continues_addRun s w).trans hcontinues, ?_⟩
    rw [List.foldl_cons, hend, addRun_snd, total, total, List.map_cons, List.sum_cons,
      Nat.add_assoc]

/-- **The word that a code point is counted in** gives its category. -/
theorem ofChar_of_words {ws ws' : List String} {w : String} {k : Category} {count : ℕ} {c : Char}
    (hwords : words = ws ++ w :: ws') (hw : readRun w = ([k], count)) (hpos : 0 < c.toNat)
    (hfirst : total ws ≤ c.toNat) (hlast : c.toNat < total ws + count) : ofChar c = k := by
  obtain ⟨⟨-, before, hbefore, hafter⟩, hend⟩ := continues_foldl ws (#[], 0)
  obtain ⟨⟨-, behind, hbehind, hahead⟩, -⟩ :=
    continues_foldl ws' (addRun (ws.foldl addRun (#[], 0)) w)
  rw [Nat.zero_add] at hend
  have hrun : addRun (ws.foldl addRun (#[], 0)) w =
      ((ws.foldl addRun (#[], 0)).1.push (total ws, total ws + count - 1, k),
        total ws + count) := by
    rw [addRun, hw, ← hend]
  rw [hrun] at hbehind hahead
  have htable : table.toList = before ++ (total ws, total ws + count - 1, k) :: behind := by
    rw [table, runsOf, hwords, List.foldl_append, List.foldl_cons, hrun, hbehind,
      Array.toList_push, hbefore]
    simp
  have hlies : Lies before (total ws) (total ws + count - 1) c.toNat behind := by
    refine ⟨fun r hr => ?_, ⟨hfirst, by omega⟩, fun r hr => ?_⟩
    · have := hafter r hr
      omega
    · exact Nat.lt_of_lt_of_le hlast (hahead r hr).1
  rw [ofChar, find?_eq_some htable hlies]
  rfl

/-! ## Digits and signs -/

/-- The words of a line of the table. -/
def wordsOf (line : String) : List String := (line.toList.splitOnP (· == ' ')).map String.ofList

/-- The words of the table up to the letters of ASCII. -/
def firstWords : List String :=
  ["Cc32", "Zs1", "Po3", "Sc1", "Po3", "Ps1", "Pe1", "Po1", "Sm1", "Po1", "Pd1", "Po2", "Nd10",
    "Po2", "Sm3", "Po2", "Lu26", "Ps1", "Po1", "Pe1", "Sk1", "Pc1", "Sk1", "Ll26"]

theorem exists_words_eq : ∃ rest, words = firstWords ++ rest := by
  obtain ⟨line, line', more, hlines, hline⟩ : ∃ line line' more, lines = line :: line' :: more ∧
      (wordsOf line ++ wordsOf line').take 24 = firstWords := ⟨_, _, _, rfl, by decide +kernel⟩
  refine ⟨(wordsOf line ++ wordsOf line').drop 24 ++ more.flatMap wordsOf, ?_⟩
  rw [words, hlines, List.flatMap_cons, List.flatMap_cons, ← List.append_assoc,
    ← List.append_assoc, ← hline, List.take_append_drop]
  rfl

/-- What the words for digits, signs and letters say, and how much is counted in front of them. -/
theorem readRun_firstWords :
    (readRun "Sm1" = ([.mathSymbol], 1) ∧ total (firstWords.take 8) = 43) ∧
    (readRun "Pd1" = ([.dashPunctuation], 1) ∧ total (firstWords.take 10) = 45) ∧
    (readRun "Po2" = ([.otherPunctuation], 2) ∧ total (firstWords.take 11) = 46) ∧
    (readRun "Nd10" = ([.decimalNumber], 10) ∧ total (firstWords.take 12) = 48) ∧
    (readRun "Lu26" = ([.uppercaseLetter], 26) ∧ total (firstWords.take 16) = 65) ∧
    readRun "Ll26" = ([.lowercaseLetter], 26) ∧ total (firstWords.take 23) = 97 := by
  decide +kernel

/-- One of the words that the table starts with decides the category of the characters that are
counted in it. -/
theorem ofChar_of_firstWords {i : ℕ} {w : String} {k : Category} {count before : ℕ} {c : Char}
    (hi : firstWords[i]? = some w)
    (hw : readRun w = ([k], count) ∧ total (firstWords.take i) = before) (hpos : 0 < c.toNat)
    (hfirst : before ≤ c.toNat) (hlast : c.toNat < before + count) : ofChar c = k := by
  obtain ⟨hread, rfl⟩ := hw
  obtain ⟨rest, hwords⟩ := exists_words_eq
  have hsplit : firstWords = firstWords.take i ++ w :: firstWords.drop (i + 1) := by
    obtain ⟨h, rfl⟩ := List.getElem?_eq_some_iff.1 hi
    rw [← List.drop_eq_getElem_cons, List.take_append_drop]
  rw [hsplit, List.append_assoc, List.cons_append] at hwords
  exact ofChar_of_words hwords hread hpos hfirst hlast

/-- **ASCII digits are decimal digits.** -/
theorem ofChar_of_isDigit {c : Char} (h : c.isDigit = true) : ofChar c = .decimalNumber := by
  have hcode : 48 ≤ c.toNat ∧ c.toNat ≤ 57 := by
    simpa [Char.isDigit, UInt32.le_iff_toNat_le] using h
  have hword : firstWords[12]? = some "Nd10" := rfl
  exact ofChar_of_firstWords hword readRun_firstWords.2.2.2.1 (by omega) (by omega) (by omega)

theorem ofChar_plus : ofChar '+' = .mathSymbol := by
  have hword : firstWords[8]? = some "Sm1" := rfl
  exact ofChar_of_firstWords hword readRun_firstWords.1 (by decide) (by decide) (by decide)

theorem ofChar_minus : ofChar '-' = .dashPunctuation := by
  have hword : firstWords[10]? = some "Pd1" := rfl
  exact ofChar_of_firstWords hword readRun_firstWords.2.1 (by decide) (by decide) (by decide)

theorem ofChar_point : ofChar '.' = .otherPunctuation := by
  have hword : firstWords[11]? = some "Po2" := rfl
  exact ofChar_of_firstWords hword readRun_firstWords.2.2.1 (by decide) (by decide) (by decide)

/-! ## Letters -/

theorem ofChar_of_isUpper {c : Char} (h : c.isUpper = true) : ofChar c = .uppercaseLetter := by
  have hcode : 65 ≤ c.toNat ∧ c.toNat ≤ 90 :=
    (of_decide_eq_true h).imp UInt32.le_iff_toNat_le.1 UInt32.le_iff_toNat_le.1
  have hword : firstWords[16]? = some "Lu26" := rfl
  exact ofChar_of_firstWords hword readRun_firstWords.2.2.2.2.1 (by omega) (by omega) (by omega)

theorem ofChar_of_isLower {c : Char} (h : c.isLower = true) : ofChar c = .lowercaseLetter := by
  have hcode : 97 ≤ c.toNat ∧ c.toNat ≤ 122 :=
    (Bool.and_eq_true_iff.1 h).imp (UInt32.le_iff_toNat_le.1 ∘ of_decide_eq_true)
      (UInt32.le_iff_toNat_le.1 ∘ of_decide_eq_true)
  have hword : firstWords[23]? = some "Ll26" := rfl
  exact ofChar_of_firstWords hword readRun_firstWords.2.2.2.2.2 (by omega) (by omega) (by omega)

/-- **ASCII letters are no decimal digits.** -/
theorem isAlpha_of_decimalNumber {c : Char} (h : ofChar c = .decimalNumber) :
    c.isAlpha = false := by
  refine Bool.or_eq_false_iff.2 ⟨Bool.eq_false_iff.2 fun hupper => ?_,
    Bool.eq_false_iff.2 fun hlower => ?_⟩
  · cases (ofChar_of_isUpper hupper).symm.trans h
  · cases (ofChar_of_isLower hlower).symm.trans h

end Category

end XmlConformance.Text
