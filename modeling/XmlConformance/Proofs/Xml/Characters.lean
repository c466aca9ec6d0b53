import Mathlib.Tactic.Common
import XmlConformance.Xml.Char

/-!
# Proofs/Xml/Characters — texts of characters of a kind

What is built out of characters of a kind has only characters of this kind (`AllChars`). The kinds
that matter for documents are the characters that a document may hold (`XmlText`) and those of names
(`NameText`), which are among them.
-/

namespace XmlConformance

/-- A text of characters of a kind. -/
def AllChars (p : Char → Bool) (s : String) : Prop :=
  ∀ c ∈ s.toList, p c = true

namespace AllChars

variable {p q : Char → Bool} {s t : String}

instance : Decidable (AllChars p s) :=
  decidable_of_iff (s.toList.all p = true) List.all_eq_true

theorem ofList_iff {cs : List Char} : AllChars p (String.ofList cs) ↔ ∀ c ∈ cs, p c = true := by
  rw [AllChars, String.toList_ofList]

theorem empty : AllChars p "" := nofun

theorem mono (h : AllChars p s) (hpq : ∀ c, p c = true → q c = true) : AllChars q s :=
  fun c hc => hpq c (h c hc)

/-- A character of another kind is not there. -/
theorem notMem (h : AllChars p s) {c : Char} (hc : p c = false) : c ∉ s.toList := fun hmem =>
  Bool.false_ne_true (hc.symm.trans (h c hmem))

theorem append (hs : AllChars p s) (ht : AllChars p t) : AllChars p (s ++ t) := by
  intro c hc
  rw [String.toList_append, List.mem_append] at hc
  exact hc.elim (hs c) (ht c)

/-- A text made of characters of another. -/
theorem of_subset {cs : List Char} (hs : AllChars p s) (h : cs ⊆ s.toList) :
    AllChars p (String.ofList cs) :=
  ofList_iff.2 fun c hc => hs c (h hc)

theorem join {l : List String} (h : ∀ s ∈ l, AllChars p s) : AllChars p (String.join l) := by
  intro c hc
  rw [String.toList_join, List.mem_flatMap] at hc
  obtain ⟨s, hs, hc⟩ := hc
  exact h s hs c hc

theorem intercalate (hs : AllChars p s) :
    ∀ {l : List String}, (∀ t ∈ l, AllChars p t) → AllChars p (s.intercalate l)
  | [], _ => by
    rw [String.intercalate_nil]
    exact empty
  | [t], h => by
    rw [String.intercalate_singleton]
    exact h t (by simp)
  | t :: u :: l, h => by
    rw [String.intercalate_cons_cons]
    exact ((h t (by simp)).append hs).append (intercalate hs fun v hv => h v (by simp [hv]))

/-- A number in decimal notation. -/
theorem repr (hp : ∀ c, c.isDigit = true → p c = true) (n : ℕ) : AllChars p (toString n) := by
  intro c hc
  rw [Nat.toString_eq_repr, Nat.toList_repr] at hc
  exact hp c (Nat.isDigit_of_mem_toDigits (by decide) (by decide) hc)

end AllChars

namespace Xml

/-- A text of characters that a document may hold. -/
abbrev XmlText (s : String) : Prop := AllChars isXmlChar s

/-- A text of characters that continue a name. -/
abbrev NameText (s : String) : Prop := AllChars isNameChar s

/-- Every code point behind the controls belongs to a document, but for two. -/
theorem isXmlChar_of_toNat {c : Char} (h : 0x20 ≤ c.toNat) (h₁ : c.toNat ≠ 0xfffe)
    (h₂ : c.toNat ≠ 0xffff) : isXmlChar c = true := by
  rw [isXmlChar, if_neg (Nat.not_lt.2 h), Bool.and_eq_true, bne_iff_ne, bne_iff_ne]
  exact ⟨h₁, h₂⟩

/-- **The characters of names belong to a document.** -/
theorem isXmlChar_of_isNameChar {c : Char} (h : isNameChar c = true) : isXmlChar c = true := by
  have hcontrol : ∀ n < 0x20, isNameChar (Char.ofNat n) = false := by decide
  have hne : ∀ n, isNameChar (Char.ofNat n) = false → c.toNat ≠ n := by
    rintro _ hn rfl
    rw [Char.ofNat_toNat, h] at hn
    cases hn
  refine isXmlChar_of_toNat (Nat.not_lt.1 fun hlt => ?_) (hne _ (by decide)) (hne _ (by decide))
  exact hne c.toNat (hcontrol _ hlt) rfl

theorem isNameChar_of_isDigit {c : Char} (h : c.isDigit = true) : isNameChar c = true := by
  have hc : 48 ≤ c.toNat ∧ c.toNat ≤ 57 := by
    rw [Char.isDigit, Bool.and_eq_true, decide_eq_true_iff, decide_eq_true_iff] at h
    exact h
  rw [isNameChar, if_pos (by omega), Char.isAlphanum, h]
  simp

theorem NameText.xmlText {s : String} (h : NameText s) : XmlText s :=
  h.mono fun _ => isXmlChar_of_isNameChar

end Xml

end XmlConformance
