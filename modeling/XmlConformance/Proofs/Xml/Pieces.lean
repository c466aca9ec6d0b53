import Mathlib.Data.List.Infix
import Mathlib.Data.List.TakeWhile
import XmlConformance.Proofs.Xml.Characters
import XmlConformance.Xml.Reference

/-!
# Proofs/Xml/Pieces — what readers take off a text is clean

A reader takes a piece off the front of a text and leaves an end of it. The pieces that go into a
tree are checked character by character while they are read, so they are clean whatever the text is
(`Reader.clean_readMarkup`). The one exception is the value of an entity, which nobody looks at
until it is used, and then an attribute takes it as it is: here the text itself has to be clean.
-/

namespace XmlConformance.Xml

/-- Characters that a document may hold. -/
abbrev XmlChars (cs : List Char) : Prop := ∀ c ∈ cs, isXmlChar c = true

theorem isNameChar_of_isNameStart {c : Char} (h : isNameStart c = true) : isNameChar c = true := by
  unfold isNameStart at h
  unfold isNameChar
  split at h
  · case isTrue hascii =>
    rw [if_pos hascii]
    simp only [Bool.or_eq_true] at h ⊢
    rw [Char.isAlphanum, Bool.or_eq_true]
    tauto
  · case isFalse hascii =>
    rw [if_neg hascii, h, Bool.or_true]

/-- A name as written whose parts can be written. -/
structure RawName.Clean (n : RawName) : Prop where
  label : NameText n.label
  localName : NameText n.localName

/-- An attribute as written that can be written. -/
structure RawAttribute.Clean (a : RawAttribute) : Prop where
  name : a.name.Clean
  value : XmlChars a.value

/-- A piece of markup that can be written. -/
def Markup.Clean : Markup → Prop
  | .comment cs | .cdata cs | .text cs => XmlChars cs
  | .instruction target value => XmlChars target ∧ XmlChars value
  | .openTag name attributes _ => name.Clean ∧ ∀ a ∈ attributes, a.Clean
  | .closeTag _ => True

namespace Reader

variable {cs rest : List Char}

/-! ## What is left -/

theorem skipSpaces_suffix (cs : List Char) : skipSpaces cs <:+ cs :=
  List.dropWhile_suffix _

theorem needSpaces_suffix (h : needSpaces cs = some rest) : rest <:+ cs := by
  unfold needSpaces at h
  split at h
  · split at h
    · cases h
      exact (skipSpaces_suffix _).trans (List.suffix_cons _ _)
    · cases h
  · cases h

theorem after?_suffix : ∀ {xs cs rest : List Char}, after? xs cs = some rest → rest <:+ cs
  | [], cs, rest, h => by
    cases h
    exact List.suffix_refl _
  | x :: xs, [], rest, h => by cases h
  | x :: xs, c :: cs, rest, h => by
    rw [after?] at h
    split at h
    · exact (after?_suffix h).trans (List.suffix_cons _ _)
    · cases h

/-- **What is read up to a terminator** is clean. -/
theorem upTo_eq_some {terminator : List Char} : ∀ {cs text rest : List Char},
    upTo terminator cs = some (text, rest) → XmlChars text ∧ rest <:+ cs
  | [], _, _, h => by cases h
  | c :: cs, text, rest, h => by
    rw [upTo] at h
    split at h
    · case h_1 behind hbehind =>
      cases h
      exact ⟨nofun, after?_suffix hbehind⟩
    · split at h
      · case isTrue hc =>
        obtain ⟨⟨more, rest'⟩, hmore, heq⟩ := Option.map_eq_some_iff.1 h
        cases heq
        obtain ⟨hclean, hsuffix⟩ := upTo_eq_some hmore
        exact ⟨List.forall_mem_cons.2 ⟨hc, hclean⟩, hsuffix.trans (List.suffix_cons _ _)⟩
      · cases h

theorem readComment_eq_some {text : List Char} (h : readComment cs = some (text, rest)) :
    XmlChars text ∧ rest <:+ cs := by
  unfold readComment at h
  split at h
  · case h_1 hread =>
    cases h
    exact (upTo_eq_some hread).imp_right (List.suffix_cons _ _).trans
  · cases h

theorem isNameChar_of_mem_takeWhile {c : Char} (h : c ∈ cs.takeWhile isNameChar) :
    isNameChar c = true :=
  List.mem_takeWhile_imp h

theorem readName_eq_some {name : List Char} (h : readName cs = some (name, rest)) :
    (∀ c ∈ name, isNameChar c = true) ∧ rest <:+ cs := by
  unfold readName at h
  split at h
  · split at h
    · case isTrue hc =>
      cases h
      exact ⟨List.forall_mem_cons.2
          ⟨isNameChar_of_isNameStart hc, fun _ => isNameChar_of_mem_takeWhile⟩,
        (List.dropWhile_suffix _).trans (List.suffix_cons _ _)⟩
    · cases h
  · cases h

theorem readInstruction_eq_some {target value : List Char}
    (h : readInstruction cs = some (target, value, rest)) :
    XmlChars target ∧ XmlChars value ∧ rest <:+ cs := by
  unfold readInstruction at h
  split at h
  · cases h
  · split at h
    · cases h
    · case h_2 name hname =>
      split at h
      · case h_1 hread =>
        cases h
        obtain ⟨htarget, hrest⟩ := readName_eq_some hname
        obtain ⟨hvalue, hbehind⟩ := upTo_eq_some hread
        exact ⟨fun c hc => isXmlChar_of_isNameChar (htarget c hc), hvalue,
          hbehind.trans ((skipSpaces_suffix _).trans hrest)⟩
      · cases h

theorem readRawName_eq_some {n : RawName} (h : readRawName cs = some (n, rest)) :
    n.Clean ∧ rest <:+ cs := by
  have hraw : ∀ c ∈ cs.takeWhile isNameChar, isNameChar c = true :=
    fun _ => isNameChar_of_mem_takeWhile
  unfold readRawName at h
  dsimp only at h
  split at h
  · split at h
    · cases h
      exact ⟨⟨.empty, AllChars.ofList_iff.2 hraw⟩, List.dropWhile_suffix _⟩
    · cases h
  · case h_2 colon localName hlocal =>
    split at h
    · cases h
      refine ⟨⟨AllChars.ofList_iff.2 fun c hc => hraw c ((List.takeWhile_subset _) hc),
        AllChars.ofList_iff.2 fun c hc => hraw c ?_⟩, List.dropWhile_suffix _⟩
      refine (List.dropWhile_suffix (· != ':')).subset ?_
      rw [hlocal]
      exact List.mem_cons_of_mem _ hc
    · cases h

/-! ## Attributes and tags -/

theorem readQuote_suffix {mark : Char} (h : readQuote cs = some (mark, rest)) : rest <:+ cs := by
  unfold readQuote at h
  split at h
  · split at h
    · cases h
      exact List.suffix_cons _ _
    · cases h
  · cases h

theorem readEquals_suffix (h : readEquals cs = some rest) : rest <:+ cs := by
  unfold readEquals at h
  split at h
  · case h_1 behind heq =>
    cases h
    have hbehind : behind <:+ skipSpaces cs := heq ▸ List.suffix_cons _ _
    exact (skipSpaces_suffix _).trans (hbehind.trans (skipSpaces_suffix _))
  · cases h

theorem readValue_eq_some {mark : Char} {value : List Char}
    (h : readValue mark cs = some (value, rest)) : XmlChars value ∧ rest <:+ cs := by
  unfold readValue at h
  dsimp only at h
  split at h
  · case h_1 c behind heq =>
    split at h
    · cases h
      refine ⟨fun c hc => ?_, ?_⟩
      · have hall := List.mem_takeWhile_imp hc
        simp only [Bool.and_eq_true] at hall
        exact hall.1.1
      · have hbehind :=
          List.dropWhile_suffix (l := cs) fun c => isXmlChar c && c != mark && c != '<'
        rw [heq] at hbehind
        exact (List.suffix_cons _ _).trans hbehind
    · cases h
  · cases h

theorem readAttribute_eq_some {a : RawAttribute} (h : readAttribute cs = some (a, rest)) :
    a.Clean ∧ rest <:+ cs := by
  unfold readAttribute at h
  split at h
  · cases h
  · case h_2 name behind hname =>
    split at h
    · cases h
    · case h_2 mark quoted hquote =>
      split at h
      · cases h
      · case h_2 value rest' hvalue =>
        cases h
        obtain ⟨equals, hequals, hquote⟩ := Option.bind_eq_some_iff.1 hquote
        obtain ⟨hname, hbehind⟩ := readRawName_eq_some hname
        obtain ⟨hvalue, hrest⟩ := readValue_eq_some hvalue
        exact ⟨⟨hname, hvalue⟩, hrest.trans ((readQuote_suffix hquote).trans
          ((readEquals_suffix hequals).trans hbehind))⟩

/-- Each attribute of a start tag was read as one. -/
theorem exists_readAttribute : ∀ {n : ℕ} {cs rest : List Char} {attributes : List RawAttribute}
    {selfClosing : Bool}, readAttributes n cs = some (attributes, selfClosing, rest) →
      ∀ a ∈ attributes, ∃ front behind, readAttribute front = some (a, behind)
  | 0, _, _, _, _, h => by cases h
  | n + 1, cs, rest, attributes, selfClosing, h => by
    rw [readAttributes] at h
    split at h
    · cases h
      exact nofun
    · cases h
      exact nofun
    · split at h
      · split at h
        · cases h
        · case h_2 first behind hfirst =>
          obtain ⟨⟨more, closing, rest'⟩, hmore, heq⟩ := Option.map_eq_some_iff.1 h
          cases heq
          exact List.forall_mem_cons.2 ⟨⟨_, _, hfirst⟩, exists_readAttribute hmore⟩
      · cases h

/-- **A start tag** is a name and attributes. -/
theorem readOpenTag_eq_some {m : Markup} (h : readOpenTag cs = some (m, rest)) :
    ∃ name attributes selfClosing, m = .openTag name attributes selfClosing ∧
      (∃ behind, readRawName cs = some (name, behind)) ∧
      ∀ a ∈ attributes, ∃ front behind, readAttribute front = some (a, behind) := by
  unfold readOpenTag at h
  split at h
  · cases h
  · case h_2 name behind hname =>
    obtain ⟨⟨attributes, closing, rest'⟩, hattributes, heq⟩ := Option.map_eq_some_iff.1 h
    cases heq
    exact ⟨name, attributes, closing, rfl, ⟨behind, hname⟩, exists_readAttribute hattributes⟩

theorem clean_readOpenTag {m : Markup} (h : readOpenTag cs = some (m, rest)) : m.Clean := by
  obtain ⟨name, attributes, selfClosing, rfl, ⟨_, hname⟩, hattributes⟩ := readOpenTag_eq_some h
  refine ⟨(readRawName_eq_some hname).1, fun a ha => ?_⟩
  obtain ⟨_, _, ha⟩ := hattributes a ha
  exact (readAttribute_eq_some ha).1

theorem clean_readText {m : Markup} (h : readText cs = some (m, rest)) : m.Clean := by
  unfold readText at h
  dsimp only at h
  split at h
  · case isTrue hall =>
    cases h
    exact List.all_eq_true.1 (Bool.and_eq_true_iff.1 hall).1
  · cases h

/-- **Every piece of markup is clean.** -/
theorem clean_readMarkup {m : Markup} (h : readMarkup cs = some (m, rest)) : m.Clean := by
  unfold readMarkup at h
  split at h
  · obtain ⟨⟨text, rest'⟩, hread, heq⟩ := Option.map_eq_some_iff.1 h
    cases heq
    exact (readComment_eq_some hread).1
  · obtain ⟨⟨text, rest'⟩, hread, heq⟩ := Option.map_eq_some_iff.1 h
    cases heq
    exact (upTo_eq_some hread).1
  · cases h
  · obtain ⟨⟨target, value, rest'⟩, hread, heq⟩ := Option.map_eq_some_iff.1 h
    cases heq
    exact ⟨(readInstruction_eq_some hread).1, (readInstruction_eq_some hread).2.1⟩
  · unfold readCloseTag at h
    split at h
    · cases h
    · split at h
      · cases h
        trivial
      · cases h
  · exact clean_readOpenTag h
  · exact clean_readText h

end Reader

/-! ## References -/

/-- Entities whose values can be written. -/
def CleanEntities (entities : List Entity) : Prop :=
  ∀ e ∈ entities, XmlChars e.value

theorem mem_of_find?_eq_some {entities : List Entity} {name : String} {e : Entity}
    (h : Entity.find? entities name = some e) : e ∈ entities :=
  List.mem_of_find?_eq_some h

namespace Reference

/-- A reference to a character is to one that a document may hold. -/
def Clean : Reference → Prop
  | .char c => isXmlChar c = true
  | .entity _ => True

theorem clean_ofDigits {base : ℕ} {digits : List Char} {r : Reference}
    (h : ofDigits base digits = some r) : r.Clean := by
  unfold ofDigits at h
  split at h
  · cases h
  · obtain ⟨c, hc, rfl⟩ := Option.map_eq_some_iff.1 h
    obtain ⟨-, hc⟩ := Option.ite_none_left_eq_some.1 hc
    obtain ⟨hxml, hc⟩ := Option.ite_none_right_eq_some.1 hc
    rwa [Option.some_inj.1 hc] at hxml

theorem isXmlChar_of_predefined? {name : String} {c : Char} (h : predefined? name = some c) :
    isXmlChar c = true := by
  unfold predefined? at h
  split at h <;> cases h <;> decide

theorem close_eq_some {r? : Option Reference} {cs rest : List Char} {r : Reference}
    (h : close r? cs = some (r, rest)) : r? = some r ∧ rest <:+ cs := by
  unfold close at h
  split at h
  · cases h
    exact ⟨rfl, List.suffix_cons _ _⟩
  · cases h

/-- **A reference that is read** is clean. -/
theorem read_eq_some {cs rest : List Char} {r : Reference} (h : read cs = some (r, rest)) :
    r.Clean ∧ rest <:+ cs := by
  unfold read at h
  split at h
  · obtain ⟨hr, hrest⟩ := close_eq_some h
    exact ⟨clean_ofDigits hr, hrest.trans ((List.dropWhile_suffix _).trans
      ((List.suffix_cons _ _).trans (List.suffix_cons _ _)))⟩
  · obtain ⟨hr, hrest⟩ := close_eq_some h
    exact ⟨clean_ofDigits hr, hrest.trans ((List.dropWhile_suffix _).trans (List.suffix_cons _ _))⟩
  · split at h
    · case h_1 name behind hname =>
      obtain ⟨hr, hrest⟩ := close_eq_some h
      refine ⟨?_, hrest.trans (Reader.readName_eq_some hname).2⟩
      split at hr
      · case h_1 c hc =>
        cases hr
        exact isXmlChar_of_predefined? hc
      · cases hr
        trivial
    · cases h

end Reference

/-! ## Values of attributes -/

namespace AttributeValue

variable {entities : List Entity} {cs value : List Char} {c : Char}

theorem xmlChars_plain (h : isXmlChar c = true) (rest : List Char) : XmlChars (plain c rest) := by
  have hspace : XmlChars [' '] := List.forall_mem_singleton.2 (by decide)
  unfold plain
  split
  · exact nofun
  · split
    · exact hspace
    · exact List.forall_mem_singleton.2 h

theorem xmlChars_referred {depth : ℕ} (h : isXmlChar c = true)
    (hcs : referred depth c = some cs) : XmlChars cs := by
  unfold referred at hcs
  split at hcs
  · cases hcs
    exact List.forall_mem_singleton.2 h
  · split at hcs
    · cases hcs
    · cases hcs
      exact xmlChars_plain h []

theorem xmlChars_scan {depth : ℕ}
    {expand : Entity → ℕ → Option (List Char × ℕ)}
    (hexpand : ∀ e ∈ entities, ∀ followed cs followed',
      expand e followed = some (cs, followed') → XmlChars cs) :
    ∀ {n : ℕ} {cs : List Char} {followed : ℕ} {value : List Char} {followed' : ℕ},
      XmlChars cs → scan entities depth expand n cs followed = some (value, followed') →
        XmlChars value := by
  intro n
  induction n with
  | zero => exact nofun
  | succ n ih =>
    intro cs followed value followed' hcs h
    unfold scan at h
    split at h
    · cases ‹n + 1 = 0›
    · cases h
      exact nofun
    · case h_3 m rest hm =>
      obtain rfl : n = m := Nat.succ.inj hm
      rw [XmlChars, List.forall_mem_cons] at hcs
      split at h
      · cases h
      · case h_2 c behind hread =>
        obtain ⟨hc, hbehind⟩ := Reference.read_eq_some hread
        split at h
        · case h_1 first more _ hfirst hmore =>
          cases h
          exact List.forall_mem_append.2 ⟨xmlChars_referred hc hfirst,
            ih (fun c hc => hcs.2 c (hbehind.subset hc)) hmore⟩
        · cases h
      · case h_3 name behind hread =>
        obtain ⟨-, hbehind⟩ := Reference.read_eq_some hread
        split at h
        · case h_1 e opened he _ =>
          split at h
          · cases h
          · case h_2 first between hfirst =>
            split at h
            · cases h
            · case h_2 more _ hmore =>
              cases h
              exact List.forall_mem_append.2
                ⟨hexpand e (mem_of_find?_eq_some he) _ _ _ hfirst,
                  ih (fun c hc => hcs.2 c (hbehind.subset hc)) hmore⟩
        · cases h
    · case h_4 m c rest _ hm =>
      obtain rfl : n = m := Nat.succ.inj hm
      rw [XmlChars, List.forall_mem_cons] at hcs
      obtain ⟨⟨more, followed⟩, hmore, heq⟩ := Option.map_eq_some_iff.1 h
      cases heq
      exact List.forall_mem_append.2 ⟨xmlChars_plain hcs.1 rest, ih hcs.2 hmore⟩

/-- **The value of an attribute is clean**, if what was written and all entities are. -/
theorem xmlChars_expandAt (hentities : CleanEntities entities) : ∀ {left depth : ℕ}
    {cs value : List Char} {followed followed' : ℕ}, XmlChars cs →
      expandAt entities left depth cs followed = some (value, followed') → XmlChars value
  | 0, _, _, _, _, _, hcs, h => by
    rw [expandAt] at h
    exact xmlChars_scan (by rintro _ _ _ _ _ ⟨⟩) hcs h
  | left + 1, _, _, _, _, _, hcs, h => by
    rw [expandAt] at h
    exact xmlChars_scan
      (fun e he _ _ _ h => xmlChars_expandAt hentities (hentities e he) h) hcs h

end AttributeValue

/-! ## Runs of text -/

namespace LineEnd

theorem xmlChars_push {reversed : List Char} {c : Char} (hreversed : XmlChars reversed)
    (hc : isXmlChar c = true) (atEnd : Bool) : XmlChars (push reversed c atEnd) := by
  have hfeed : isXmlChar '\n' = true := by decide
  unfold push
  split
  · case h_1 before =>
    rw [XmlChars, List.forall_mem_cons] at hreversed
    split
    · exact List.forall_mem_cons.2 ⟨hfeed, List.forall_mem_cons.2 ⟨hfeed, hreversed.2⟩⟩
    · split
      · exact List.forall_mem_cons.2 ⟨hfeed, hreversed.2⟩
      · exact List.forall_mem_cons.2 ⟨hc, List.forall_mem_cons.2 ⟨hfeed, hreversed.2⟩⟩
  · split
    · exact List.forall_mem_cons.2 ⟨hfeed, hreversed⟩
    · exact List.forall_mem_cons.2 ⟨hc, hreversed⟩

theorem xmlChars_normalizeFrom : ∀ {cs reversed : List Char}, XmlChars reversed → XmlChars cs →
    XmlChars (normalizeFrom reversed cs)
  | [], _, hreversed, _ => fun c hc => hreversed c (List.mem_reverse.1 hc)
  | c :: rest, _, hreversed, hcs => by
    rw [XmlChars, List.forall_mem_cons] at hcs
    rw [normalizeFrom]
    exact xmlChars_normalizeFrom (xmlChars_push hreversed hcs.1 _) hcs.2

theorem xmlChars_normalize {cs : List Char} (h : XmlChars cs) : XmlChars (normalize cs) :=
  xmlChars_normalizeFrom (List.forall_mem_nil _) h

end LineEnd

namespace TextPart

/-- A part of a run of text that can be written. -/
def Clean (entities : List Entity) : TextPart → Prop
  | .characters cs => XmlChars cs
  | .entity e => e ∈ entities

variable {entities : List Entity}

theorem clean_ofReversed {reversed : List Char} (h : XmlChars reversed) :
    ∀ part ∈ ofReversed reversed, part.Clean entities := by
  unfold ofReversed
  split
  · exact nofun
  · exact List.forall_mem_singleton.2 fun c hc => h c (List.mem_reverse.1 hc)

theorem clean_scan {depth : ℕ} : ∀ {n : ℕ} {reversed : List Char} {verbatim : Bool}
    {cs : List Char} {parts : List TextPart}, XmlChars reversed → XmlChars cs →
      scan entities depth n reversed verbatim cs = some parts →
        ∀ part ∈ parts, part.Clean entities := by
  intro n
  induction n with
  | zero => exact nofun
  | succ n ih =>
    intro reversed verbatim cs parts hreversed hcs h
    unfold scan at h
    split at h
    · cases ‹n + 1 = 0›
    · cases h
      exact clean_ofReversed hreversed
    · case h_3 m rest hm =>
      obtain rfl : n = m := Nat.succ.inj hm
      rw [XmlChars, List.forall_mem_cons] at hcs
      split at h
      · cases h
      · case h_2 c behind hread =>
        obtain ⟨hc, hbehind⟩ := Reference.read_eq_some hread
        have hbehind : XmlChars behind := fun c hc => hcs.2 c (hbehind.subset hc)
        split at h
        · exact ih (List.forall_mem_cons.2 ⟨hc, hreversed⟩) hbehind h
        · exact ih (LineEnd.xmlChars_push hreversed hc _) hbehind h
      · case h_3 name behind hread =>
        obtain ⟨-, hbehind⟩ := Reference.read_eq_some hread
        have hbehind : XmlChars behind := fun c hc => hcs.2 c (hbehind.subset hc)
        split at h
        · cases h
        · case h_2 e he =>
          obtain ⟨more, hmore, rfl⟩ := Option.map_eq_some_iff.1 h
          exact List.forall_mem_append.2 ⟨clean_ofReversed hreversed,
            List.forall_mem_cons.2
              ⟨mem_of_find?_eq_some he, ih (List.forall_mem_nil _) hbehind hmore⟩⟩
    · case h_4 m c rest _ hm =>
      obtain rfl : n = m := Nat.succ.inj hm
      rw [XmlChars, List.forall_mem_cons] at hcs
      split at h
      · exact ih (List.forall_mem_cons.2 ⟨hcs.1, hreversed⟩) hcs.2 h
      · exact ih (LineEnd.xmlChars_push hreversed hcs.1 _) hcs.2 h

/-- **The parts of a run of text are clean**, and its entities are declared. -/
theorem clean_ofText {depth : ℕ} {cs : List Char} {parts : List TextPart} (hcs : XmlChars cs)
    (h : ofText entities depth cs = some parts) : ∀ part ∈ parts, part.Clean entities :=
  clean_scan (List.forall_mem_nil _) hcs h

end TextPart

end XmlConformance.Xml
