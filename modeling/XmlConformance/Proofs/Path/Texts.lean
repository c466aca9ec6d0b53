import XmlConformance.Proofs.Text.Casing
import XmlConformance.Proofs.Text.Spacing
import XmlConformance.Proofs.Xml.Contents
import XmlConformance.Path.Library

/-!
# Proofs/Path/Texts — the functions on texts stay inside of documents

The functions that expressions call on texts give texts that a document may hold, if their arguments
are such texts. Numbers are written with digits and a few letters.
-/

namespace XmlConformance

open Xml

/-! ## Words -/

namespace Text

/-- **Words with spaces between them stay inside of documents.** -/
theorem xmlText_normalizeSpace {s : String} (h : XmlText s) : XmlText (normalizeSpace s) := by
  refine AllChars.intercalate (by decide) fun w hw => ?_
  obtain ⟨cs, hcs, rfl⟩ := List.mem_map.1 hw
  exact h.of_subset (subset_of_mem_runsFrom hcs)

end Text

namespace Path

namespace Library

/-! ## Parts of texts -/

theorem subset_of_splitOnce {word : List Char} :
    ∀ {cs before behind : List Char}, splitOnce word cs = some (before, behind) →
      before ⊆ cs ∧ behind ⊆ cs
  | [], before, behind, h => by
    rw [splitOnce] at h
    split at h
    · cases h
      exact ⟨List.nil_subset _, List.nil_subset _⟩
    · cases h
  | c :: cs, before, behind, h => by
    rw [splitOnce] at h
    split at h
    · cases h
      exact ⟨List.nil_subset _, List.drop_subset _ _⟩
    · obtain ⟨⟨b, e⟩, hrest, heq⟩ := Option.map_eq_some_iff.1 h
      cases heq
      obtain ⟨hb, he⟩ := subset_of_splitOnce hrest
      exact ⟨List.cons_subset_cons c hb, List.Subset.trans he (List.subset_cons_self _ _)⟩

variable {text source target : String}

theorem xmlText_substringBefore (h : XmlText text) (word : String) :
    XmlText (substringBefore text word) := by
  unfold substringBefore
  cases hsplit : splitOnce word.toList text.toList with
  | none => exact .empty
  | some parts => exact h.of_subset (subset_of_splitOnce hsplit).1

theorem xmlText_substringAfter (h : XmlText text) (word : String) :
    XmlText (substringAfter text word) := by
  unfold substringAfter
  cases hsplit : splitOnce word.toList text.toList with
  | none => exact .empty
  | some parts => exact h.of_subset (subset_of_splitOnce hsplit).2

theorem xmlText_substring (h : XmlText text) (start : Float) (length : Option Float) :
    XmlText (substring text start length) := by
  refine h.of_subset fun c hc => ?_
  obtain ⟨⟨d, i⟩, hd, rfl⟩ := List.mem_map.1 hc
  exact (List.mem_zipIdx (List.mem_filter.1 hd).1).2.2 ▸ List.getElem_mem _

theorem xmlText_translate (h : XmlText text) (htarget : XmlText target) :
    XmlText (translate text source target) := by
  refine AllChars.ofList_iff.2 fun c hc => ?_
  obtain ⟨d, hd, hc⟩ := List.mem_filterMap.1 hc
  split at hc
  · exact htarget c (List.mem_of_getElem? hc)
  · rw [← Option.some.inj hc]
    exact h d hd

end Library

/-! ## Numbers -/

theorem isXmlChar_of_isDigit {c : Char} (h : c.isDigit = true) : isXmlChar c = true :=
  isXmlChar_of_isNameChar (isNameChar_of_isDigit h)

theorem isDigit_of_mem_shortest {b : Decimal.Binary} {c : Char}
    (h : c ∈ (Decimal.shortest b).digits) : c.isDigit = true := by
  have hmem : c ∈ Nat.toDigits 10 _ :=
    List.mem_reverse.1 ((List.dropWhile_suffix _).subset (List.mem_reverse.1 h))
  exact Nat.isDigit_of_mem_toDigits (by decide) (by decide) hmem

theorem isDigit_of_mem_split {d : Decimal.Digits} (hd : ∀ c ∈ d.digits, c.isDigit = true) :
    (∀ c ∈ d.split.1, c.isDigit = true) ∧ ∀ c ∈ d.split.2, c.isDigit = true := by
  have hzero : ∀ n, ∀ c ∈ List.replicate n '0', c.isDigit = true := by
    intro n c hc
    rw [(List.mem_replicate.1 hc).2]
    decide
  unfold Decimal.Digits.split
  split
  · have hfirst : ∀ c ∈ ['0'], c.isDigit = true := List.forall_mem_singleton.2 (by decide)
    refine ⟨hfirst, fun c hc => ?_⟩
    exact (List.mem_append.1 hc).elim (hzero _ c) (hd c)
  · refine ⟨fun c hc => ?_, fun c hc => hd c (List.mem_of_mem_drop hc)⟩
    exact (List.mem_append.1 hc).elim (fun hc => hd c (List.mem_of_mem_take hc)) (hzero _ c)

theorem xmlText_positional (x : Float) : XmlText (Decimal.positional x) := by
  have hsign : ∀ negative : Bool, XmlText (if negative then "-" else "") := by decide
  unfold Decimal.positional Decimal.parts
  dsimp only
  split
  · exact (hsign _).append (by decide)
  · case h_2 d hd =>
    have hdigits : ∀ c ∈ d.digits, c.isDigit = true := by
      split at hd
      · cases hd
      · cases hd
        exact fun c => isDigit_of_mem_shortest
    obtain ⟨hwhole, hfraction⟩ := isDigit_of_mem_split hdigits
    split
    · case h_1 whole heq =>
      rw [heq] at hwhole
      exact (hsign _).append (AllChars.ofList_iff.2 fun c hc => isXmlChar_of_isDigit (hwhole c hc))
    · case h_2 whole fraction _ heq =>
      rw [heq] at hwhole hfraction
      refine (((hsign _).append ?_).append (by decide)).append ?_
      · exact AllChars.ofList_iff.2 fun c hc => isXmlChar_of_isDigit (hwhole c hc)
      · exact AllChars.ofList_iff.2 fun c hc => isXmlChar_of_isDigit (hfraction c hc)

/-- **The text of a number.** -/
theorem xmlText_formatNumber (x : Float) : XmlText (formatNumber x) := by
  unfold formatNumber
  split
  · case h_1 text h =>
    unfold Decimal.special? at h
    split at h
    · cases h
      decide
    · split at h
      · cases h
        split <;> decide
      · cases h
  · split
    · refine AllChars.append ?_ (.repr (fun _ => isXmlChar_of_isDigit) _)
      split <;> decide
    · exact xmlText_positional x

end Path

end XmlConformance
