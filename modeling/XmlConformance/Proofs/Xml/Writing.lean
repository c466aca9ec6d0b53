import Mathlib.Tactic.Common
import XmlConformance.Xml.Fragment

/-!
# Proofs/Xml/Writing — the text of a fragment

A writer has a state: what is open, and whether the last start tag may still get attributes. The
text of a fragment does not depend on it. It is given by recursion on the fragment
(`Fragment.chars`), and a writer that goes through a fragment appends this text and nothing else
(`Writer.fragment_eq`).
-/

namespace XmlConformance.Xml

/-- An attribute as it is written in a start tag. -/
def attributeChars (a : String × String) : List Char :=
  ' ' :: (a.1.toList ++ '=' :: '\"' :: (a.2.toList.flatMap Writer.escapeInValue ++ ['\"']))

/-- A start tag as it is written, up to its end. -/
def tagChars (name : String) (attributes : List (String × String)) : List Char :=
  '<' :: (name.toList ++ attributes.flatMap attributeChars)

mutual

/-- **The text of a fragment.** -/
def Fragment.chars : Fragment → List Char
  | .text s => s.toList.flatMap Writer.escapeInText
  | .element name attributes [] => tagChars name attributes ++ ['/', '>']
  | .element name attributes (f :: fs) =>
    tagChars name attributes ++ '>' ::
      (f.chars ++ Fragment.charsOf fs ++ '<' :: '/' :: (name.toList ++ ['>']))

/-- The text of several fragments. -/
def Fragment.charsOf : List Fragment → List Char
  | [] => []
  | f :: fs => f.chars ++ Fragment.charsOf fs

end

namespace Writer

theorem attr_eq (w : Writer) (a : String × String) :
    w.attr a.1 a.2 = { w with output := w.output ++ String.ofList (attributeChars a) } := by
  refine congrArg (fun s => { w with output := s }) (String.toList_inj.1 ?_)
  simp [attributeChars, valueText]

theorem closeTag_of_inTag (output : String) (opened : List String) :
    closeTag ⟨output, opened, true⟩ = ⟨output ++ ">", opened, false⟩ := rfl

theorem closeTag_of_not_inTag (output : String) (opened : List String) :
    closeTag ⟨output, opened, false⟩ = ⟨output, opened, false⟩ := rfl

theorem closeTag_eq (w : Writer) : w.closeTag = ⟨w.closeTag.output, w.opened, false⟩ := by
  obtain ⟨output, opened, inTag⟩ := w
  cases inTag <;> rfl

theorem start_eq (w : Writer) (name : String) : w.start name =
    ⟨w.closeTag.output ++ String.ofList ('<' :: name.toList), name :: w.opened, true⟩ := by
  rw [start, closeTag_eq]
  refine congrArg (fun s => (⟨s, name :: w.opened, true⟩ : Writer)) (String.toList_inj.1 ?_)
  simp

theorem startWith_eq (w : Writer) (name : String) (attributes : List (String × String)) :
    w.startWith name attributes =
      ⟨w.closeTag.output ++ String.ofList (tagChars name attributes), name :: w.opened, true⟩ := by
  have hfold : ∀ (l : List (String × String)) (v : Writer), l.foldl (fun w a => w.attr a.1 a.2) v =
      { v with output := v.output ++ String.ofList (l.flatMap attributeChars) } := by
    intro l
    induction l with
    | nil => exact fun v => by simp
    | cons a l ih =>
      intro v
      rw [List.foldl_cons, ih, attr_eq]
      simp [String.append_assoc]
  rw [startWith, hfold, start_eq]
  refine congrArg (fun s => (⟨s, name :: w.opened, true⟩ : Writer)) (String.toList_inj.1 ?_)
  simp [tagChars]

theorem text_eq (w : Writer) (s : String) : w.text s =
    ⟨w.closeTag.output ++ String.ofList (s.toList.flatMap escapeInText), w.opened, false⟩ := by
  rw [text, closeTag_eq]
  rfl

theorem endElement_of_inTag (output name : String) (opened : List String) :
    endElement ⟨output, name :: opened, true⟩ = ⟨output ++ "/>", opened, false⟩ := rfl

theorem endElement_of_not_inTag (output name : String) (opened : List String) :
    endElement ⟨output, name :: opened, false⟩ =
      ⟨output ++ "</" ++ name ++ ">", opened, false⟩ := rfl

mutual

/-- **A writer appends the text of a fragment**, behind the end of a start tag that is not ended. -/
theorem fragment_eq : ∀ (f : Fragment) (w : Writer),
    w.fragment f = ⟨w.closeTag.output ++ String.ofList f.chars, w.opened, false⟩
  | .text s, w => by rw [fragment, text_eq, Fragment.chars]
  | .element name attributes [], w => by
    rw [fragment, startWith_eq, fragments, Fragment.chars, endElement_of_inTag]
    refine congrArg (fun s => (⟨s, w.opened, false⟩ : Writer)) (String.toList_inj.1 ?_)
    simp
  | .element name attributes (f :: fs), w => by
    rw [fragment, startWith_eq, fragments, fragment_eq f, fragments_eq fs, Fragment.chars,
      closeTag_of_inTag, endElement_of_not_inTag]
    refine congrArg (fun s => (⟨s, w.opened, false⟩ : Writer)) (String.toList_inj.1 ?_)
    simp

theorem fragments_eq : ∀ (fs : List Fragment) (output : String) (opened : List String),
    fragments ⟨output, opened, false⟩ fs =
      ⟨output ++ String.ofList (Fragment.charsOf fs), opened, false⟩
  | [], output, opened => by simp [fragments, Fragment.charsOf]
  | f :: fs, output, opened => by
    rw [fragments, fragment_eq f, closeTag_of_not_inTag, fragments_eq fs, Fragment.charsOf]
    simp [String.append_assoc]

end

end Writer

/-- **The text of a fragment that is rendered.** -/
theorem Fragment.toList_render (f : Fragment) : f.render.toList = f.chars := by
  rw [render, Writer.fragment_eq]
  simp [Writer.finish, Writer.empty, Writer.closeTag]

end XmlConformance.Xml
