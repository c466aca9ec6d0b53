import XmlConformance.Proofs.Xml.Characters
import XmlConformance.Text.Case

/-!
# Proofs/Text/Casing — case mappings stay inside of documents

The upper case and the lower case of a text that a document may hold is such a text again
(`toUpper`, `toLower`): a case table admits only runs of characters as images, and below the tables
only letters change.
-/

namespace XmlConformance.Text

open Xml

/-! ## Images of case tables -/

theorem isXmlChar_ofNat {first last code : ℕ} (h : areCharacters first last = true)
    (hfirst : first ≤ code) (hlast : code ≤ last) : isXmlChar (Char.ofNat code) = true := by
  simp only [areCharacters, Bool.and_eq_true, Bool.or_eq_true, decide_eq_true_iff] at h
  have hvalid : code.isValidChar := by
    rw [Nat.isValidChar]
    omega
  have hcode : (Char.ofNat code).toNat = code := by
    rw [Char.ofNat, dif_pos hvalid]
    rfl
  exact isXmlChar_of_toNat (by omega) (by omega) (by omega)

namespace Ranges

variable {α : Type}

/-- What bisection finds is a run of the table that holds the code point. -/
theorem search_eq_some {table : Array (ℕ × ℕ × α)} {code first : ℕ} {value : α} :
    ∀ {steps lo hi : ℕ}, search table code steps lo hi = some (first, value) →
      ∃ last, (first, last, value) ∈ table ∧ first ≤ code ∧ code ≤ last
  | 0, _, _, h => by cases h
  | steps + 1, lo, hi, h => by
    rw [search] at h
    split at h
    · cases h
    · dsimp only at h
      split at h
      · cases h
      · case h_2 f l v hmid =>
        split at h
        · exact search_eq_some h
        · split at h
          · exact search_eq_some h
          · cases h
            exact ⟨l, Array.mem_of_getElem? hmid, by omega, by omega⟩

end Ranges

namespace CaseRun

theorem of?_eq_some {first last step target : ℕ} {r : ℕ × ℕ × CaseRun}
    (h : CaseRun.of? first last step target = some r) :
    areCharacters r.2.2.target (r.2.2.target + (r.2.1 - r.1)) = true := by
  unfold CaseRun.of? at h
  split at h
  · case isTrue hc =>
    cases h
    exact hc
  · cases h

theorem areCharacters_of_mem_table {text : String} {r : ℕ × ℕ × CaseRun} (h : r ∈ table text) :
    areCharacters r.2.2.target (r.2.2.target + (r.2.1 - r.1)) = true := by
  rw [table, List.mem_toArray, List.mem_filterMap] at h
  obtain ⟨word, -, hword⟩ := h
  unfold read? at hword
  split at hword
  · dsimp only at hword
    split at hword
    · exact of?_eq_some hword
    · exact of?_eq_some hword
    · exact of?_eq_some hword
  · cases hword

/-- **A case table keeps a character inside of documents.** -/
theorem isXmlChar_apply (text : String) {c : Char} (h : isXmlChar c = true) :
    isXmlChar (apply (table text) c) = true := by
  unfold apply
  split
  · case h_1 first run hrun =>
    obtain ⟨last, hmem, hfirst, hlast⟩ := Ranges.search_eq_some hrun
    split
    · exact isXmlChar_ofNat (areCharacters_of_mem_table hmem) (Nat.le_add_right ..)
        (Nat.add_le_add_left (Nat.sub_le_sub_right hlast first) _)
    · exact h
  · exact h

end CaseRun

/-! ## Upper case and lower case -/

theorem isXmlChar_toUpper {c : Char} (h : isXmlChar c = true) (hc : c.toNat < 128) :
    isXmlChar c.toUpper = true := by
  have hall : ∀ n < 128, isXmlChar (Char.ofNat n) = true →
      isXmlChar (Char.ofNat n).toUpper = true := by decide
  have := hall c.toNat hc
  rw [Char.ofNat_toNat] at this
  exact this h

theorem isXmlChar_toLower {c : Char} (h : isXmlChar c = true) (hc : c.toNat < 128) :
    isXmlChar c.toLower = true := by
  have hall : ∀ n < 128, isXmlChar (Char.ofNat n) = true →
      isXmlChar (Char.ofNat n).toLower = true := by decide
  have := hall c.toNat hc
  rw [Char.ofNat_toNat] at this
  exact this h

theorem isXmlChar_of_mem_longUpper {code : ℕ} {images : List Char} {c : Char}
    (h : longUpper.lookup code = some images) (hc : c ∈ images) : isXmlChar c = true := by
  obtain ⟨before, behind, heq, -⟩ := List.lookup_eq_some_iff.1 h
  have hmem : (code, images) ∈ longUpper := by
    rw [heq]
    simp
  rw [longUpper, List.mem_filterMap] at hmem
  obtain ⟨word, -, hword⟩ := hmem
  split at hword
  · dsimp only at hword
    split at hword
    · case isTrue hall =>
      cases hword
      obtain ⟨n, hn, rfl⟩ := List.mem_map.1 hc
      exact isXmlChar_ofNat (List.all_eq_true.1 hall n hn) (Nat.le_refl n) (Nat.le_refl n)
    · cases hword
  · cases hword

theorem isXmlChar_of_mem_upperChar {c d : Char} (h : isXmlChar c = true) (hd : d ∈ upperChar c) :
    isXmlChar d = true := by
  unfold upperChar at hd
  split at hd
  · case isTrue hc =>
    rw [List.mem_singleton.1 hd]
    exact isXmlChar_toUpper h hc
  · cases hlong : longUpper.lookup c.toNat with
    | none =>
      rw [hlong, Option.getD_none, List.mem_singleton] at hd
      rw [hd]
      exact CaseRun.isXmlChar_apply _ h
    | some images =>
      rw [hlong, Option.getD_some] at hd
      exact isXmlChar_of_mem_longUpper hlong hd

theorem isXmlChar_of_mem_lowerChar {c d : Char} (h : isXmlChar c = true) (hd : d ∈ lowerChar c) :
    isXmlChar d = true := by
  unfold lowerChar at hd
  split at hd
  · case isTrue hc =>
    rw [List.mem_singleton.1 hd]
    exact isXmlChar_toLower h hc
  · split at hd
    · obtain rfl | rfl : d = 'i' ∨ d = Char.ofNat 0x307 := by simpa using hd
      · decide
      · decide
    · rw [List.mem_singleton.1 hd]
      exact CaseRun.isXmlChar_apply _ h

theorem isXmlChar_of_mem_lowerFrom {d : Char} : ∀ {cs before : List Char},
    (∀ c ∈ cs, isXmlChar c = true) → d ∈ lowerFrom before cs → isXmlChar d = true
  | [], _, _, hd => by cases hd
  | c :: cs, before, h, hd => by
    rw [lowerFrom] at hd
    obtain hd | hd := List.mem_append.1 hd
    · split at hd
      · split at hd <;> (rw [List.mem_singleton.1 hd]; decide)
      · exact isXmlChar_of_mem_lowerChar (h c (by simp)) hd
    · exact isXmlChar_of_mem_lowerFrom (fun c hc => h c (by simp [hc])) hd

/-- **Upper case stays inside of documents.** -/
theorem xmlText_toUpper {s : String} (h : XmlText s) : XmlText (toUpper s) := by
  refine AllChars.ofList_iff.2 fun d hd => ?_
  obtain ⟨c, hc, hd⟩ := List.mem_flatMap.1 hd
  exact isXmlChar_of_mem_upperChar (h c hc) hd

/-- **Lower case stays inside of documents.** -/
theorem xmlText_toLower {s : String} (h : XmlText s) : XmlText (toLower s) :=
  AllChars.ofList_iff.2 fun _ hd => isXmlChar_of_mem_lowerFrom h hd

end XmlConformance.Text
