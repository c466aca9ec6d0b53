import Mathlib.Algebra.Ring.Parity
import Mathlib.Data.Bool.AllAny
import Mathlib.Data.List.DropRight
import XmlConformance.Schema.Pattern

/-!
# Proofs/Schema/Escaping — spelled patterns have no anchors

A backslash escapes what follows it, unless it is escaped itself, so it is the parity of the
backslashes in front of a character that says whether it is escaped (`Escapes`). A spelled pattern
is put together from escapes, from openings of negated classes and from characters that are neither
an anchor nor a backslash (`Unanchored`). Texts that are have no anchors: what looks like one is
escaped, or negates a class (`spell_unanchored`).
-/

namespace XmlConformance.Schema

/-- The number of backslashes at the end of a text. -/
def trailingBackslashes (cs : List Char) : ℕ := (cs.rtakeWhile (· == '\\')).length

/-- **A text ends in the middle of an escape**, so that what follows it is escaped. -/
def Escapes (front : List Char) : Prop := Odd (trailingBackslashes front)

/-- A text ends with a bracket that opens a class. -/
def OpensClass (front : List Char) : Prop :=
  ∃ before, front = before ++ ['['] ∧ ¬ Escapes before

section Escapes

variable {front : List Char} {c : Char}

theorem not_escapes_nil : ¬ Escapes [] :=
  Nat.not_odd_zero

theorem escapes_concat_backslash : Escapes (front ++ ['\\']) ↔ ¬ Escapes front := by
  unfold Escapes trailingBackslashes
  rw [List.rtakeWhile_concat_pos _ _ _ (by rfl), List.length_append, List.length_singleton,
    Nat.odd_add_one]

theorem not_escapes_concat (h : c ≠ '\\') : ¬ Escapes (front ++ [c]) := by
  unfold Escapes trailingBackslashes
  rw [List.rtakeWhile_concat_neg _ _ _ (by simpa using h)]
  exact Nat.not_odd_zero

/-- What is escaped ends its escape. -/
theorem not_escapes_escaped (h : ¬ Escapes front) (c : Char) :
    ¬ Escapes (front ++ ['\\'] ++ [c]) := by
  by_cases hc : c = '\\'
  · rw [hc, escapes_concat_backslash, escapes_concat_backslash]
    exact not_not_intro h
  · exact not_escapes_concat hc

end Escapes

/-! ## Texts without anchors -/

/-- A character that stands for itself, in front of what it may. -/
def Plain (c : Char) : Prop := c ≠ '^' ∧ c ≠ '$' ∧ c ≠ '\\'

instance (c : Char) : Decidable (Plain c) := inferInstanceAs (Decidable (_ ∧ _))

/-- **A text without anchors**: escapes, openings of negated classes, and characters that stand for
themselves. -/
inductive Unanchored : List Char → Prop
  | nil : Unanchored []
  | escape (c : Char) {rest : List Char} : Unanchored rest → Unanchored ('\\' :: c :: rest)
  | negated {rest : List Char} : Unanchored rest → Unanchored ('[' :: '^' :: rest)
  | plain {c : Char} {rest : List Char} : Plain c → Unanchored rest → Unanchored (c :: rest)

/-- **No anchor stands behind a text**: a dollar sign there is escaped, and a caret is escaped or
negates a class. -/
def Harmless (front : List Char) (c : Char) : Prop :=
  (c = '$' → Escapes front) ∧ (c = '^' → Escapes front ∨ OpensClass front)

theorem harmless_of_ne {c : Char} (hdollar : c ≠ '$') (hcaret : c ≠ '^') (front : List Char) :
    Harmless front c :=
  ⟨fun h => absurd h hdollar, fun h => absurd h hcaret⟩

theorem harmless_of_escapes {front : List Char} (h : Escapes front) (c : Char) : Harmless front c :=
  ⟨fun _ => h, fun _ => .inl h⟩

namespace Unanchored

variable {cs front : List Char}

theorem of_plain : ∀ {cs : List Char}, (∀ c ∈ cs, Plain c) → Unanchored cs
  | [], _ => .nil
  | c :: _, h => .plain (h c List.mem_cons_self) (of_plain fun d hd => h d (.tail c hd))

theorem of_all_plain (h : cs.all (fun c => Plain c) = true) : Unanchored cs :=
  of_plain (List.all_iff_forall_prop.1 h)

theorem append {more : List Char} (h : Unanchored cs) (hmore : Unanchored more) :
    Unanchored (cs ++ more) := by
  induction h with
  | nil => exact hmore
  | escape c _ ih => exact .escape c ih
  | negated _ ih => exact .negated ih
  | plain hc _ ih => exact .plain hc ih

/-- A text without anchors does not end in the middle of an escape. -/
theorem not_escapes (h : Unanchored cs) (hfront : ¬ Escapes front) : ¬ Escapes (front ++ cs) := by
  induction h generalizing front with
  | nil => rwa [List.append_nil]
  | escape c _ ih => simpa using ih (not_escapes_escaped hfront c)
  | negated _ ih =>
    have hopened : ¬ Escapes (front ++ ['['] ++ ['^']) := not_escapes_concat (by decide)
    simpa using ih hopened
  | @plain c _ hc _ ih =>
    have hplain : ¬ Escapes (front ++ [c]) := not_escapes_concat hc.2.2
    simpa using ih hplain

/-- **Nothing in a text without anchors is one**, whatever complete text stands in front of it. -/
theorem harmless (h : Unanchored cs) (hfront : ¬ Escapes front) {before behind : List Char}
    {c : Char} (hcs : cs = before ++ c :: behind) : Harmless (front ++ before) c := by
  induction h generalizing front before with
  | nil => simp at hcs
  | escape d _ ih =>
    match before with
    | [] =>
      cases hcs
      exact harmless_of_ne (by decide) (by decide) _
    | [_] =>
      cases hcs
      exact harmless_of_escapes (escapes_concat_backslash.2 hfront) _
    | _ :: _ :: before =>
      cases hcs
      simpa using ih (not_escapes_escaped hfront d) rfl
  | negated _ ih =>
    match before with
    | [] =>
      cases hcs
      exact harmless_of_ne (by decide) (by decide) _
    | [_] =>
      cases hcs
      exact ⟨nofun, fun _ => .inr ⟨front, rfl, hfront⟩⟩
    | _ :: _ :: before =>
      cases hcs
      have hopened : ¬ Escapes (front ++ ['['] ++ ['^']) := not_escapes_concat (by decide)
      simpa using ih hopened rfl
  | @plain d _ hd _ ih =>
    match before with
    | [] =>
      cases hcs
      exact harmless_of_ne hd.2.1 hd.1 _
    | _ :: before =>
      cases hcs
      have hplain : ¬ Escapes (front ++ [d]) := not_escapes_concat hd.2.2
      simpa using ih hplain rfl

end Unanchored

/-! ## Spelled patterns -/

open Unanchored in
theorem unanchored_spellEscape (c : Char) : Unanchored (spellEscape c) := by
  unfold spellEscape
  split
  · exact .of_all_plain (by decide)
  · exact .negated (@of_all_plain "_:A-Za-z]".toList (by decide))
  · exact .of_all_plain (by decide)
  · exact .negated (@of_all_plain "-._:A-Za-z0-9]".toList (by decide))
  · exact .escape _ .nil

/-- The bracket that a caret may stand behind, if it is the character in front. -/
def bracket (before : Option Char) : List Char := if before = some '[' then ['['] else []

theorem unanchored_bracket (before : Option Char) : Unanchored (bracket before) := by
  unfold bracket
  split
  · exact .of_all_plain (by decide)
  · exact .nil

/-- The bracket in front is looked at together with the caret that may follow it. -/
theorem unanchored_spellFrom (before : Option Char) (cs : List Char) :
    Unanchored (bracket before ++ spellFrom before cs) := by
  fun_induction spellFrom before cs with
  | case1 before => simpa using unanchored_bracket before
  | case2 before => exact (unanchored_bracket before).append (.escape '\\' .nil)
  | case3 before c rest ih =>
    exact (unanchored_bracket before).append ((unanchored_spellEscape c).append ih)
  | case4 before rest ih =>
    by_cases h : before = some '['
    · rw [h]
      exact .negated ih
    · rw [if_neg (by simpa using h)]
      exact (unanchored_bracket before).append (.escape '^' ih)
  | case5 before rest ih => exact (unanchored_bracket before).append (.escape '$' ih)
  | case6 before c rest hlast hescape hcaret hdollar ih =>
    refine (unanchored_bracket before).append ?_
    by_cases h : c = '['
    · rw [h] at ih ⊢
      exact ih
    · have hbackslash : c ≠ '\\' := by
        cases rest with
        | nil => exact fun hc => hlast hc rfl
        | cons d rest => exact fun hc => hescape d rest hc rfl
      rw [bracket, if_neg (by simpa using h)] at ih
      exact .plain ⟨hcaret, hdollar, hbackslash⟩ ih

theorem unanchored_spell (source : String) : Unanchored (spell source).toList := by
  rw [spell, String.toList_ofList]
  exact unanchored_spellFrom none source.toList

theorem spellFrom_of_plain {cs : List Char} (h : ∀ c ∈ cs, Plain c) (before : Option Char) :
    spellFrom before cs = cs := by
  induction cs generalizing before with
  | nil => rfl
  | cons c rest ih =>
    obtain ⟨hc, hrest⟩ := List.forall_mem_cons.1 h
    rw [spellFrom, ih hrest]
    · exact fun hbackslash _ => hc.2.2 hbackslash
    · exact fun _ _ hbackslash _ => hc.2.2 hbackslash
    · exact hc.1
    · exact hc.2.1

/-- **A spelled pattern has no anchors**: every dollar sign in it is escaped, every caret is escaped
or negates a class, and it does not end in the middle of an escape. A pattern without anchors and
backslashes is spelled as it is. -/
theorem spell_unanchored (source : String) :
    (∀ front behind, (spell source).toList = front ++ '$' :: behind →
      Odd (trailingBackslashes front)) ∧
    (∀ front behind, (spell source).toList = front ++ '^' :: behind →
      Odd (trailingBackslashes front) ∨
        ∃ before, front = before ++ ['['] ∧ Even (trailingBackslashes before)) ∧
    Even (trailingBackslashes (spell source).toList) ∧
    ((∀ c ∈ source.toList, c ≠ '^' ∧ c ≠ '$' ∧ c ≠ '\\') → spell source = source) := by
  have hspell := unanchored_spell source
  have hend := hspell.not_escapes not_escapes_nil
  rw [List.nil_append] at hend
  refine ⟨fun front behind h => ?_, fun front behind h => ?_, ?_, fun h => ?_⟩
  · exact (hspell.harmless not_escapes_nil h).1 rfl
  · refine ((hspell.harmless not_escapes_nil h).2 rfl).imp_right ?_
    rintro ⟨before, hfront, hbefore⟩
    exact ⟨before, hfront, Nat.not_odd_iff_even.1 hbefore⟩
  · exact Nat.not_odd_iff_even.1 hend
  · rw [spell, spellFrom_of_plain h, String.ofList_toList]

/-- A class that stays negated, an anchor that is escaped, and a class that is left alone. -/
theorem spell_unanchored_class :
    (spell "[^a]$").toList = "[^a]\\$".toList ∧ Odd (trailingBackslashes "[^a]\\".toList) ∧
      spell "[a]" = "[a]" :=
  ⟨by decide, (spell_unanchored "[^a]$").1 "[^a]\\".toList [] (by decide),
    (spell_unanchored "[a]").2.2.2 (List.all_iff_forall_prop.1 (by decide))⟩

end XmlConformance.Schema
