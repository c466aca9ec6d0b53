import XmlConformance.Proofs.Xml.ReadingBack

/-!
# Proofs/Xml/Rereading — what was read again can only be what was written

A text that was written out of a fragment may be no document: a label may be undeclared in it, or a
character may be none of XML. If it is one, its tree is the one that `Fragment.back` gives
(`Fragment.back_of_ofText_render`). All that this takes is that the names of the fragment are names
(`Fragment.Named`). The reader cannot go past the first piece that is wrong, so a text that it gets
through has no such piece.

Texts that stand next to each other are read as one. They are joined first (`Fragment.joined`),
which leaves the written text as it is.
-/

namespace XmlConformance.Xml

theorem exists_dropWhile_append {p : Char → Bool} : ∀ {cs : List Char}, (∃ d ∈ cs, p d = false) →
    ∀ rest, ∃ d ds, d ∈ cs ∧ p d = false ∧ (cs ++ rest).dropWhile p = d :: ds
  | [], h, _ => by simp at h
  | c :: cs, h, rest => by
    by_cases hc : p c = true
    · obtain ⟨d, hd, hp⟩ := h
      have hmem : d ∈ cs := (List.mem_cons.1 hd).resolve_left fun heq => by
        rw [heq, hc] at hp
        cases hp
      obtain ⟨e, ds, he, hpe, hdrop⟩ := exists_dropWhile_append ⟨d, hmem, hp⟩ rest
      refine ⟨e, ds, List.mem_cons_of_mem _ he, hpe, ?_⟩
      rw [List.cons_append, List.dropWhile_cons_of_pos hc, hdrop]
    · rw [List.cons_append, List.dropWhile_cons_of_neg hc]
      exact ⟨c, _, List.mem_cons_self, by simpa using hc, rfl⟩

theorem exists_of_not_xmlText {s : String} (h : ¬XmlText s) :
    ∃ c ∈ s.toList, isXmlChar c = false := by
  simpa [AllChars] using h

namespace Reader

/-! ## Pieces that cannot be read -/

theorem ne_of_mem_escapeInValue {c d : Char} (hd : d ∈ Writer.escapeInValue c) : d ≠ '\"' := by
  unfold Writer.escapeInValue at hd
  split at hd
  all_goals simp only [List.mem_cons, List.not_mem_nil, or_false] at hd
  case h_6 hquot _ =>
    subst hd
    exact hquot
  all_goals
    rcases hd with rfl | rfl | rfl | rfl | rfl | rfl <;> decide

/-- A character that no document may hold is written as it is. -/
theorem escapeInValue_of_not_isXmlChar {c : Char} (h : isXmlChar c = false) :
    Writer.escapeInValue c = [c] := by
  unfold Writer.escapeInValue
  split <;> first | rfl | exact absurd h (by decide)

theorem escapeInText_of_not_isXmlChar {c : Char} (h : isXmlChar c = false) :
    Writer.escapeInText c = [c] := by
  unfold Writer.escapeInText
  split <;> first | rfl | exact absurd h (by decide)

theorem readValue_eq_none {value : String} (h : ¬XmlText value) (rest : List Char) :
    readValue '\"' (writtenValue value ++ '\"' :: rest) = none := by
  obtain ⟨c, hc, hbad⟩ := exists_of_not_xmlText h
  have hmem : c ∈ writtenValue value :=
    List.mem_flatMap.2 ⟨c, hc, by rw [escapeInValue_of_not_isXmlChar hbad]; simp⟩
  obtain ⟨d, ds, hd, -, hdrop⟩ := exists_dropWhile_append
    (p := fun c => isXmlChar c && c != '\"' && c != '<')
    ⟨c, hmem, by simp [hbad]⟩ ('\"' :: rest)
  have hne : d ≠ '\"' := by
    obtain ⟨e, -, he⟩ := List.mem_flatMap.1 hd
    exact ne_of_mem_escapeInValue he
  unfold readValue
  rw [hdrop]
  exact if_neg (by simpa using hne)

theorem readAttribute_eq_none {a : String × String} {n : RawName} (hname : rawName? a.1 = some n)
    (hvalue : ¬XmlText a.2) (rest : List Char) :
    readAttribute (a.1.toList ++ '=' :: '\"' :: (writtenValue a.2 ++ '\"' :: rest)) = none := by
  rw [readAttribute_name hname, readValue_eq_none hvalue]
  rfl

/-- **No attributes are read** if one of them has a character that no document may hold. -/
theorem readAttributes_eq_none {attributes : List (String × String)}
    (hnames : ∀ a ∈ attributes, (rawName? a.1).isSome) (hvalues : ∃ a ∈ attributes, ¬XmlText a.2)
    (rest : List Char) :
    ∀ k, readAttributes k (attributes.flatMap attributeChars ++ rest) = none := by
  induction attributes with
  | nil => simp at hvalues
  | cons a attributes ih =>
    intro k
    rw [List.forall_mem_cons] at hnames
    obtain ⟨n, hn⟩ := Option.isSome_iff_exists.1 hnames.1
    cases k with
    | zero => rfl
    | succ k =>
      rw [List.flatMap_cons, List.append_assoc]
      by_cases ha : XmlText a.2
      · have hmore : ∃ b ∈ attributes, ¬XmlText b.2 := by
          obtain ⟨b, hb, hbad⟩ := hvalues
          exact ⟨b, (List.mem_cons.1 hb).resolve_left fun heq => hbad (heq ▸ ha), hbad⟩
        rw [readAttributes_attributeChars hn ha, ih hnames.2 hmore]
        rfl
      · rw [readAttributes_cons hn, readAttribute_eq_none hn ha]

theorem readOpenTag_eq_none {name : String} {n : RawName} {attributes : List (String × String)}
    (hname : rawName? name = some n) (hnames : ∀ a ∈ attributes, (rawName? a.1).isSome)
    (hvalues : ∃ a ∈ attributes, ¬XmlText a.2) (selfClosing : Bool) (rest : List Char) :
    readOpenTag (name.toList ++ (attributes.flatMap attributeChars ++ (tagEnd selfClosing ++ rest)))
      = none := by
  unfold readOpenTag
  rw [readRawName_append hname (head_flatMap_attributeChars attributes selfClosing rest)]
  simp only [readAttributes_eq_none hnames hvalues]
  rfl

theorem readMarkup_tagChars_eq_none {name : String} {n : RawName}
    {attributes : List (String × String)} (hname : rawName? name = some n)
    (hnames : ∀ a ∈ attributes, (rawName? a.1).isSome) (hvalues : ∃ a ∈ attributes, ¬XmlText a.2)
    (selfClosing : Bool) (rest : List Char) :
    readMarkup (tagChars name attributes ++ (tagEnd selfClosing ++ rest)) = none := by
  rw [readMarkup_name hname, readOpenTag_eq_none hname hnames hvalues]

theorem ne_of_mem_writtenText {text : String} {d : Char} (hd : d ∈ writtenText text) : d ≠ '<' := by
  obtain ⟨c, -, hd⟩ := List.mem_flatMap.1 hd
  unfold Writer.escapeInText at hd
  split at hd
  all_goals simp only [List.mem_cons, List.not_mem_nil, or_false] at hd
  case h_4 hlt _ =>
    subst hd
    exact hlt
  all_goals
    rcases hd with rfl | rfl | rfl | rfl | rfl <;> decide

/-- **No text is read** if it has a character that no document may hold. -/
theorem readMarkup_writtenText_eq_none {text : String} (h : ¬XmlText text) (rest : List Char) :
    readMarkup (writtenText text ++ '<' :: rest) = none := by
  obtain ⟨c, hc, hbad⟩ := exists_of_not_xmlText h
  have hmem : c ∈ writtenText text :=
    List.mem_flatMap.2 ⟨c, hc, by rw [escapeInText_of_not_isXmlChar hbad]; simp⟩
  have hread : readText (writtenText text ++ '<' :: rest) = none := by
    unfold readText
    rw [takeWhile_append_of_head (fun d hd => by simp [ne_of_mem_writtenText hd]) (by simp)]
    refine if_neg fun hall => ?_
    rw [List.all_eq_true.1 (Bool.and_eq_true_iff.1 hall).1 c hmem] at hbad
    cases hbad
  cases hds : writtenText text with
  | nil => simp [hds] at hmem
  | cons d ds =>
    have hd : d ≠ '<' := ne_of_mem_writtenText (by rw [hds]; simp)
    rw [hds, List.cons_append] at hread
    rw [List.cons_append, readMarkup, hread]
    all_goals
      intro _ heq
      injection heq with heq
      exact hd heq

theorem named?_isSome {attributes : List (String × String)}
    (h : ∀ a ∈ attributes, (rawName? a.1).isSome) : ∃ named, named? attributes = some named := by
  induction attributes with
  | nil => exact ⟨[], rfl⟩
  | cons a attributes ih =>
    rw [List.forall_mem_cons] at h
    obtain ⟨n, hn⟩ := Option.isSome_iff_exists.1 h.1
    obtain ⟨more, hmore⟩ := ih h.2
    refine ⟨(n, a.2) :: more, ?_⟩
    unfold named? at hmore ⊢
    rw [List.mapM_cons, hn, hmore]
    rfl

end Reader

/-! ## Fragments with names -/

namespace Fragment

mutual

/-- A fragment whose names are names. -/
def Named : Fragment → Prop
  | .text _ => True
  | .element name attributes content =>
    (Reader.rawName? name).isSome ∧ (∀ a ∈ attributes, (Reader.rawName? a.1).isSome) ∧
      AllNamed content

/-- Fragments whose names are names. -/
def AllNamed : List Fragment → Prop
  | [] => True
  | f :: fs => f.Named ∧ AllNamed fs

end

mutual

/-- A fragment in which no text stands next to another. -/
def Joined : Fragment → Prop
  | .text _ => True
  | .element _ _ content => AllJoined content

/-- Fragments in which no text stands next to another. -/
def AllJoined : List Fragment → Prop
  | [] => True
  | f :: fs => f.Joined ∧ (f.isText = true → ∀ g ∈ fs.head?, g.isText = false) ∧ AllJoined fs

end

end Fragment

/-! ## Going through what was written -/

namespace Content

variable (entities : List Entity) (total : ℕ) (expand : Entity → Builder → Option Builder)

theorem addElement_asRead_eq_some {b b' : Builder} {start : ℕ} {n : RawName}
    {named : List (RawName × String)} {selfClosing : Bool}
    (h : addElement ⟨entities, total, 0, 0⟩ n (named.map Reader.asRead) selfClosing start b =
      some b') :
    ∃ own others, bindAttributes (named.map fun a => (a.1, valueBack a.2)) [] [] =
      some (own, others) ∧ ∃ tag, resolveTag b.scope own n others start = some tag := by
  obtain ⟨own, others, followed, tag, hsorted, htag, -⟩ := exists_tag_of_addElement h
  rw [sortAttributes_asRead] at hsorted
  obtain ⟨⟨own, others⟩, hbind, heq⟩ := Option.map_eq_some_iff.1 hsorted
  cases heq
  exact ⟨own, others, hbind, tag, htag⟩

theorem exists_of_read_openTag {cs rest : List Char} {n : RawName} {attributes : List RawAttribute}
    {selfClosing : Bool}
    (h : Reader.readMarkup cs = some (.openTag n attributes selfClosing, rest)) (hcs : cs ≠ [])
    {b : Builder} {k opened : ℕ} {r : Builder × List Char}
    (hread : read ⟨entities, total, 0, 0⟩ expand (k + 1) opened true b cs = some r) :
    ∃ b', addElement ⟨entities, total, 0, 0⟩ n attributes selfClosing (total - cs.length) b =
      some b' := by
  cases cs with
  | nil => exact absurd rfl hcs
  | cons c cs =>
    rw [read, h] at hread
    simp only [Nat.zero_add] at hread
    split at hread
    · cases hread
    · case h_2 b' hb' => exact ⟨b', hb'⟩

theorem read_eq_none {cs : List Char} (h : Reader.readMarkup cs = none) (hcs : cs ≠ [])
    (b : Builder) (k opened : ℕ) :
    read ⟨entities, total, 0, 0⟩ expand (k + 1) opened true b cs = none := by
  cases cs with
  | nil => exact absurd rfl hcs
  | cons c cs => rw [read, h]

variable {name : String} {attributes : List (String × String)} {b : Builder} {start k opened : ℕ}
  {rest : List Char} {r : Builder × List Char}

/-- **A start tag that the reader gets past** stands for a tag, and its values are made of
characters of XML. -/
theorem tagBack_of_read {selfClosing : Bool}
    (hname : (Reader.rawName? name).isSome)
    (hnames : ∀ a ∈ attributes, (Reader.rawName? a.1).isSome)
    (htotal : total = start + (tagChars name attributes ++
      (Reader.tagEnd selfClosing ++ rest)).length)
    (h : read ⟨entities, total, 0, 0⟩ expand (k + 1) opened true b
      (tagChars name attributes ++ (Reader.tagEnd selfClosing ++ rest)) = some r) :
    (∀ a ∈ attributes, XmlText a.2) ∧ ∃ n tag, tagBack b.scope start name attributes =
      some (n, tag) := by
  obtain ⟨n, hn⟩ := Option.isSome_iff_exists.1 hname
  have hne : tagChars name attributes ++ (Reader.tagEnd selfClosing ++ rest) ≠ [] := by
    simp [tagChars]
  have hclean : ∀ a ∈ attributes, XmlText a.2 := by
    by_contra hbad
    push Not at hbad
    rw [read_eq_none entities total expand
      (Reader.readMarkup_tagChars_eq_none hn hnames hbad selfClosing rest) hne] at h
    cases h
  obtain ⟨named, hnamed⟩ := Reader.named?_isSome hnames
  obtain ⟨b', hb'⟩ := exists_of_read_openTag entities total expand
    (Reader.readMarkup_tagChars hn hnamed hclean selfClosing rest) hne h
  obtain ⟨own, others, hbind, tag, htag⟩ := addElement_asRead_eq_some entities total hb'
  have hstart : total - (tagChars name attributes ++
      (Reader.tagEnd selfClosing ++ rest)).length = start := by omega
  rw [hstart] at htag
  exact ⟨hclean, n, tag, tagBack_eq_some_iff.2 ⟨hn, named, hnamed, own, others, hbind, htag⟩⟩

open Fragment in
mutual

/-- **A fragment that the reader gets through** is made of characters of XML, and its names stand
for what they stand for at their place. -/
theorem back_of_read_chars {b : Builder} {start k opened : ℕ} {rest : List Char}
    {r : Builder × List Char} : ∀ f : Fragment, f.Joined → f.Named →
      (f.isText = true → rest.head? = some '<') → total = start + (f.chars ++ rest).length →
      read ⟨entities, total, 0, 0⟩ expand (k + f.pieces) (opened + 1) true b (f.chars ++ rest) =
        some r → f.Clean ∧ ∃ nodes, f.back b.scope start = some nodes
  | .text s, _, _, hrest, _, h => by
    obtain ⟨rest, rfl⟩ := List.head?_eq_some_iff.1 (hrest rfl)
    refine ⟨?_, _, by rw [back]⟩
    by_contra hbad
    have hs : s ≠ "" := by
      rintro rfl
      exact hbad .empty
    rw [pieces, if_neg hs, ← writtenText_eq_chars, read_eq_none entities total expand
      (Reader.readMarkup_writtenText_eq_none hbad rest) (by simp)] at h
    cases h
  | .element name attributes [], _, hnamed, _, htotal, h => by
    rw [tagChars_selfClosing] at htotal h
    obtain ⟨hclean, n, tag, htag⟩ :=
      tagBack_of_read entities total expand hnamed.1 hnamed.2.1 htotal h
    exact ⟨⟨hclean, trivial⟩, _, back_element_eq_some_iff.2 ⟨n, tag, [], htag, rfl, rfl⟩⟩
  | .element name attributes (f :: fs), hjoined, hnamed, _, htotal, h => by
    rw [tagChars_content] at htotal h
    rw [add_pieces_content] at h
    obtain ⟨hclean, n, tag, htag⟩ :=
      tagBack_of_read entities total expand hnamed.1 hnamed.2.1 htotal h
    rw [read_tagChars entities total expand hclean htag htotal] at h
    simp only [Bool.false_eq_true, if_false] at h
    obtain ⟨hcontent, children, hchildren⟩ := backAll_of_read_charsOf
      (b := b.openElement n.label tag) (f :: fs) hjoined hnamed.2.2 (fun _ _ _ => rfl)
      (total_of_tagChars htotal) h
    exact ⟨⟨hclean, hcontent⟩, _,
      back_element_eq_some_iff.2 ⟨n, tag, children, htag, hchildren, rfl⟩⟩

theorem backAll_of_read_charsOf {b : Builder} {start k opened : ℕ} {rest : List Char}
    {r : Builder × List Char} : ∀ fs : List Fragment, AllJoined fs → AllNamed fs →
      (∀ f ∈ fs.head?, f.isText = true → b.endsInText = false) →
      total = start + (charsOf fs ++ '<' :: rest).length →
      read ⟨entities, total, 0, 0⟩ expand (k + piecesOf fs) (opened + 1) true b
          (charsOf fs ++ '<' :: rest) = some r →
        AllClean fs ∧ ∃ nodes, backAll b.scope start fs = some nodes
  | [], _, _, _, _, _ => ⟨trivial, [], rfl⟩
  | f :: fs, hjoined, hnamed, hb, htotal, h => by
    obtain ⟨hjoined, hnext, hmore⟩ := hjoined
    have hhead : f.isText = true → (charsOf fs ++ '<' :: rest).head? = some '<' :=
      fun hf => head_charsOf_append (hnext hf) rest
    rw [charsOf_cons_append] at htotal h
    rw [add_piecesOf_cons] at h
    obtain ⟨hclean, first, hfirst⟩ :=
      back_of_read_chars f hjoined hnamed.1 hhead htotal h
    rw [read_chars entities total expand f hclean hfirst (hb f rfl) hhead htotal] at h
    obtain ⟨hcleans, more, hmoreBack⟩ :=
      backAll_of_read_charsOf (b := b.addAll first) fs hmore hnamed.2
        (endsInText_addAll hnext hfirst) (total_of_chars htotal) h
    rw [Builder.scope_addAll] at hmoreBack
    exact ⟨⟨hclean, hnext, hcleans⟩, _,
      backAll_cons_eq_some_iff.2 ⟨first, more, hfirst, hmoreBack, rfl⟩⟩

end

end Content

/-! ## The whole document -/

namespace Fragment

variable {name : String} {attributes : List (String × String)} {content : List Fragment}

/-- The start tag of a root element stands for a tag if the reader gets past it. -/
theorem tagBack_of_readRoot {entities : List Entity} {selfClosing : Bool} {rest : List Char}
    {r : Builder × List Char} (hname : (Reader.rawName? name).isSome)
    (hnames : ∀ a ∈ attributes, (Reader.rawName? a.1).isSome)
    (h : Node.readRoot entities (tagChars name attributes ++
      (Reader.tagEnd selfClosing ++ rest)).length .empty
        (tagChars name attributes ++ (Reader.tagEnd selfClosing ++ rest)) = some r) :
    (∀ a ∈ attributes, XmlText a.2) ∧ ∃ n tag, tagBack [] 0 name attributes = some (n, tag) := by
  obtain ⟨n, hn⟩ := Option.isSome_iff_exists.1 hname
  obtain ⟨named, hnamed⟩ := Reader.named?_isSome hnames
  have htag : tagChars name attributes ++ (Reader.tagEnd selfClosing ++ rest) =
      '<' :: (name.toList ++ (attributes.flatMap attributeChars ++
        (Reader.tagEnd selfClosing ++ rest))) := by
    rw [tagChars, List.cons_append, List.append_assoc]
  rw [htag, Node.readRoot] at h
  have hclean : ∀ a ∈ attributes, XmlText a.2 := by
    by_contra hbad
    push Not at hbad
    rw [Reader.readOpenTag_eq_none hn hnames hbad] at h
    cases h
  rw [Reader.readOpenTag_append hn hnamed hclean] at h
  simp only [Reader.openTag, Nat.sub_self] at h
  split at h
  · cases h
  · case h_2 b' hb' =>
    obtain ⟨own, others, hbind, tag, htag⟩ :=
      Content.addElement_asRead_eq_some (b := .empty) entities _ hb'
    exact ⟨hclean, n, tag, tagBack_eq_some_iff.2 ⟨hn, named, hnamed, own, others, hbind, htag⟩⟩

/-- **A root element that the reader gets through** is read as what it stands for. -/
theorem back_of_readRoot {entities : List Entity} {r : Builder × List Char}
    (hjoined : (element name attributes content).Joined)
    (hnamed : (element name attributes content).Named)
    (h : Node.readRoot entities (element name attributes content).chars.length .empty
      (element name attributes content).chars = some r) :
    (element name attributes content).Clean ∧
      ∃ nodes, (element name attributes content).back [] 0 = some nodes := by
  cases content with
  | nil =>
    have hchars := tagChars_selfClosing name attributes []
    rw [List.append_nil] at hchars
    rw [hchars] at h
    obtain ⟨hclean, n, tag, htag⟩ := tagBack_of_readRoot hnamed.1 hnamed.2.1 h
    exact ⟨⟨hclean, trivial⟩, _, back_element_eq_some_iff.2 ⟨n, tag, [], htag, rfl, rfl⟩⟩
  | cons f fs =>
    have hchars := tagChars_content name attributes f fs []
    rw [List.append_nil] at hchars
    obtain ⟨k, hk⟩ := exists_steps_eq (f :: fs) ('/' :: (name.toList ++ ['>']))
    have htotal := length_chars_content name attributes f fs
    rw [hchars] at h htotal
    obtain ⟨hclean, n, tag, htag⟩ := tagBack_of_readRoot hnamed.1 hnamed.2.1 h
    rw [readRoot_tagChars hclean htag rfl, if_neg Bool.false_ne_true, hk] at h
    obtain ⟨hcontent, children, hchildren⟩ := Content.backAll_of_read_charsOf
      (b := .openElement .empty n.label tag) entities _ _ (f :: fs) hjoined hnamed.2.2
      (fun _ _ _ => rfl) htotal h
    exact ⟨⟨hclean, hcontent⟩, _,
      back_element_eq_some_iff.2 ⟨n, tag, children, htag, hchildren, rfl⟩⟩

/-- A fragment with names begins with one. -/
theorem exists_chars_eq_of_named (hnamed : (element name attributes content).Named) :
    ∃ c cs, (element name attributes content).chars = '<' :: c :: cs ∧ isNameChar c = true := by
  obtain ⟨n, hn⟩ := Option.isSome_iff_exists.1 hnamed.1
  obtain ⟨c, cs, hcs, hc⟩ := Reader.exists_cons_of_rawName? hn
  cases content with
  | nil => exact ⟨c, _, by rw [chars, tagChars, hcs]; rfl, hc⟩
  | cons f fs => exact ⟨c, _, by rw [chars, tagChars, hcs]; rfl, hc⟩

/-- **What is written is only read if it can be**, and then as what it stands for. -/
theorem back_of_ofText_render_of_joined {root : Node}
    (hjoined : (element name attributes content).Joined)
    (hnamed : (element name attributes content).Named)
    (h : Node.ofText (element name attributes content).render = some root) :
    (element name attributes content).Clean ∧
      ∃ n, (element name attributes content).back [] 0 = some [n] ∧ root = .root [n] := by
  have hroot : ∃ r, Node.readRoot [] (element name attributes content).chars.length .empty
      (element name attributes content).chars = some r := by
    obtain ⟨c, cs, hcs, hc⟩ := exists_chars_eq_of_named hnamed
    rw [Node.ofText, toList_render, hcs, ofChars_of_isNameChar hc] at h
    obtain ⟨r, hr, -⟩ := Option.bind_eq_some_iff.1 h
    exact ⟨r, by rw [hcs, hr]⟩
  obtain ⟨r, hr⟩ := hroot
  obtain ⟨hclean, nodes, hback⟩ := back_of_readRoot hjoined hnamed hr
  obtain ⟨tag, children, rfl⟩ := eq_singleton_of_back rfl hback
  rw [ofText_render hclean hback] at h
  exact ⟨hclean, .element tag children, hback, (Option.some.inj h).symm⟩

/-! ## Texts that stand next to each other -/

/-- Puts a fragment in front of others; a text joins a text. -/
def joinTo : Fragment → List Fragment → List Fragment
  | .text s, .text t :: fs => .text (s ++ t) :: fs
  | f, fs => f :: fs

mutual

/-- A fragment with texts that stand next to each other joined. -/
def joined : Fragment → Fragment
  | .text s => .text s
  | .element name attributes content => .element name attributes (joinedAll content)

/-- Fragments with texts that stand next to each other joined. -/
def joinedAll : List Fragment → List Fragment
  | [] => []
  | f :: fs => joinTo f.joined (joinedAll fs)

end

theorem charsOf_joinTo (f : Fragment) (fs : List Fragment) :
    charsOf (joinTo f fs) = f.chars ++ charsOf fs := by
  unfold joinTo
  split
  · rw [charsOf, charsOf, chars, chars, chars, String.toList_append, List.flatMap_append,
      List.append_assoc]
  · rw [charsOf]

theorem joinTo_ne_nil (f : Fragment) (fs : List Fragment) : joinTo f fs ≠ [] := by
  unfold joinTo
  split <;> simp

theorem chars_of_content_ne_nil (h : content ≠ []) : (element name attributes content).chars =
    tagChars name attributes ++ '>' ::
      (charsOf content ++ '<' :: '/' :: (name.toList ++ ['>'])) := by
  cases content with
  | nil => exact absurd rfl h
  | cons f fs => rw [chars, charsOf]

mutual

/-- **Joining texts leaves what is written as it is.** -/
theorem chars_joined : ∀ f : Fragment, f.joined.chars = f.chars
  | .text s => by rw [joined]
  | .element name attributes [] => by rw [joined, joinedAll]
  | .element name attributes (f :: fs) => by
    rw [joined, chars_of_content_ne_nil (by rw [joinedAll]; exact joinTo_ne_nil _ _),
      chars_of_content_ne_nil (by simp), charsOf_joinedAll]

theorem charsOf_joinedAll : ∀ fs : List Fragment, charsOf (joinedAll fs) = charsOf fs
  | [] => by rw [joinedAll]
  | f :: fs => by
    rw [joinedAll, charsOf_joinTo, chars_joined, charsOf_joinedAll, charsOf]

end

theorem allJoined_joinTo {f : Fragment} (hf : f.Joined) {fs : List Fragment} (hfs : AllJoined fs) :
    AllJoined (joinTo f fs) := by
  unfold joinTo
  split
  · exact ⟨trivial, fun _ => hfs.2.1 rfl, hfs.2.2⟩
  · case h_2 hnot =>
    refine ⟨hf, fun htext g hg => ?_, hfs⟩
    cases f with
    | element => cases htext
    | text s =>
      cases fs with
      | nil => cases hg
      | cons h fs =>
        obtain rfl := Option.some.inj hg
        cases h with
        | text t => exact absurd rfl (hnot s t fs rfl)
        | element => rfl

mutual

theorem joined_joined : ∀ f : Fragment, f.joined.Joined
  | .text s => by
    rw [joined]
    trivial
  | .element name attributes content => by
    rw [joined]
    exact allJoined_joinedAll content

theorem allJoined_joinedAll : ∀ fs : List Fragment, AllJoined (joinedAll fs)
  | [] => by
    rw [joinedAll]
    trivial
  | f :: fs => by
    rw [joinedAll]
    exact allJoined_joinTo (joined_joined f) (allJoined_joinedAll fs)

end

theorem allNamed_joinTo {f : Fragment} (hf : f.Named) {fs : List Fragment} (hfs : AllNamed fs) :
    AllNamed (joinTo f fs) := by
  unfold joinTo
  split
  · exact ⟨trivial, hfs.2⟩
  · exact ⟨hf, hfs⟩

mutual

theorem Named.joined : ∀ {f : Fragment}, f.Named → f.joined.Named
  | .text s, _ => by
    rw [Fragment.joined]
    trivial
  | .element name attributes content, h => by
    rw [Fragment.joined]
    exact ⟨h.1, h.2.1, AllNamed.joinedAll h.2.2⟩

theorem AllNamed.joinedAll : ∀ {fs : List Fragment}, AllNamed fs → AllNamed (joinedAll fs)
  | [], _ => by
    rw [Fragment.joinedAll]
    trivial
  | f :: fs, h => by
    rw [Fragment.joinedAll]
    exact allNamed_joinTo (Named.joined h.1) (AllNamed.joinedAll h.2)

end

theorem render_joinedAll (name : String) (attributes : List (String × String))
    (content : List Fragment) : (element name attributes (joinedAll content)).render =
      (element name attributes content).render := by
  rw [← String.toList_inj, toList_render, toList_render,
    ← chars_joined (element name attributes content), joined]

/-- **A fragment that was written and is read** is read as what it stands for, with texts that stand
next to each other joined. -/
theorem back_of_ofText_render {root : Node} (hnamed : (element name attributes content).Named)
    (h : Node.ofText (element name attributes content).render = some root) :
    ∃ n, (element name attributes (joinedAll content)).back [] 0 = some [n] ∧
      root = .root [n] := by
  rw [← render_joinedAll] at h
  have hjoined := joined_joined (element name attributes content)
  have hnamed := hnamed.joined
  rw [joined] at hjoined hnamed
  exact (back_of_ofText_render_of_joined hjoined hnamed h).2

end Fragment

end XmlConformance.Xml
