import XmlConformance.Proofs.Xml.Characters
import XmlConformance.Proofs.Xml.Tags
import XmlConformance.Proofs.Xml.Writing

/-!
# Proofs/Xml/Reading — the pieces of a written text are read one by one

What a writer writes is a row of pieces: start tags, texts and end tags. Each lemma here takes one
of them off the front of a text, whatever follows, and says what it is read as. A value does not
come back as it was: of the characters that attribute values are normalized for, a writer escapes
only the line feed (`valueBack`). A text comes back but for its carriage returns (`textBack`).
-/

namespace XmlConformance.Xml

/-- What is left of a text behind characters of a kind that ends there. -/
theorem takeWhile_append_of_head {p : Char → Bool} {cs rest : List Char} (hcs : ∀ c ∈ cs, p c)
    (hrest : ∀ c ∈ rest.head?, p c = false) : (cs ++ rest).takeWhile p = cs := by
  rw [List.takeWhile_append_of_pos hcs]
  cases rest with
  | nil => simp
  | cons c rest => rw [List.takeWhile_cons_of_neg (by simp [hrest c rfl]), List.append_nil]

theorem dropWhile_append_of_head {p : Char → Bool} {cs rest : List Char} (hcs : ∀ c ∈ cs, p c)
    (hrest : ∀ c ∈ rest.head?, p c = false) : (cs ++ rest).dropWhile p = rest := by
  rw [List.dropWhile_append_of_pos hcs]
  cases rest with
  | nil => rfl
  | cons c rest => rw [List.dropWhile_cons_of_neg (by simp [hrest c rfl])]

namespace Reader

/-! ## Names -/

/-- A name split at its colon. -/
def splitName (raw : List Char) : Option RawName :=
  match raw.dropWhile (· != ':') with
  | [] => if beginsName raw then some ⟨"", String.ofList raw⟩ else none
  | _ :: localName =>
    let label := raw.takeWhile (· != ':')
    if (label.isEmpty || beginsName label) && beginsName localName && !localName.contains ':' then
      some ⟨String.ofList label, String.ofList localName⟩
    else none

theorem readRawName_eq (cs : List Char) : readRawName cs =
    (splitName (cs.takeWhile isNameChar)).map fun n => (n, cs.dropWhile isNameChar) := by
  unfold readRawName splitName
  dsimp only
  cases (cs.takeWhile isNameChar).dropWhile (· != ':') with
  | nil =>
    dsimp only
    split <;> rfl
  | cons c localName =>
    dsimp only
    split <;> rfl

/-- What a name is read as, if it is one. -/
def rawName? (name : String) : Option RawName :=
  if name.toList.all isNameChar then splitName name.toList else none

theorem rawName?_eq_some {name : String} {n : RawName} (h : rawName? name = some n) :
    (∀ c ∈ name.toList, isNameChar c) ∧ splitName name.toList = some n := by
  unfold rawName? at h
  split at h
  · case isTrue hall => exact ⟨List.all_eq_true.1 hall, h⟩
  · cases h

/-- **A name is read** in front of anything that does not continue it. -/
theorem readRawName_append {name : String} {n : RawName} (h : rawName? name = some n)
    {rest : List Char} (hrest : ∀ c ∈ rest.head?, isNameChar c = false) :
    readRawName (name.toList ++ rest) = some (n, rest) := by
  obtain ⟨hall, hsplit⟩ := rawName?_eq_some h
  rw [readRawName_eq, takeWhile_append_of_head hall hrest, dropWhile_append_of_head hall hrest,
    hsplit]
  rfl

/-- A name has a first character, which continues names. -/
theorem exists_cons_of_rawName? {name : String} {n : RawName} (h : rawName? name = some n) :
    ∃ c cs, name.toList = c :: cs ∧ isNameChar c = true := by
  obtain ⟨hall, hsplit⟩ := rawName?_eq_some h
  cases hname : name.toList with
  | nil => simp [hname, splitName, beginsName] at hsplit
  | cons c cs => exact ⟨c, cs, rfl, hall c (by simp [hname])⟩

theorem not_isSpace_of_isNameChar {c : Char} (h : isNameChar c = true) : isSpace c = false := by
  by_contra hs
  simp only [isSpace, Bool.not_eq_false, Bool.or_eq_true, beq_iff_eq, or_assoc] at hs
  obtain rfl | rfl | rfl | rfl := hs <;> exact absurd h (by decide)

theorem skipSpaces_of_head {c : Char} {rest : List Char} (h : isSpace c = false) :
    skipSpaces (c :: rest) = c :: rest :=
  List.dropWhile_cons_of_neg (by simp [h])

/-! ## Attributes -/

/-- No character of a value that is written ends the value. -/
theorem isValueChar_of_mem_escapeInValue {c d : Char} (hc : isXmlChar c = true)
    (hd : d ∈ Writer.escapeInValue c) : (isXmlChar d && d != '\"' && d != '<') = true := by
  unfold Writer.escapeInValue at hd
  split at hd
  all_goals simp only [List.mem_cons, List.not_mem_nil, or_false] at hd
  case h_6 hamp hlt hgt hquot hfeed =>
    subst hd
    simp only [hc, Bool.true_and, Bool.and_eq_true, bne_iff_ne]
    exact ⟨fun h => hquot h, fun h => hlt h⟩
  all_goals
    rcases hd with rfl | rfl | rfl | rfl | rfl | rfl <;> decide

/-- A value as it stands in a start tag. -/
def writtenValue (value : String) : List Char :=
  value.toList.flatMap Writer.escapeInValue

theorem readValue_append {value : String} (h : XmlText value)
    (rest : List Char) :
    readValue '\"' (writtenValue value ++ '\"' :: rest) = some (writtenValue value, rest) := by
  have hall : ∀ c ∈ writtenValue value, (isXmlChar c && c != '\"' && c != '<') = true := by
    intro c hc
    obtain ⟨d, hd, hc⟩ := List.mem_flatMap.1 hc
    exact isValueChar_of_mem_escapeInValue (h d hd) hc
  unfold readValue
  rw [takeWhile_append_of_head hall (by simp), dropWhile_append_of_head hall (by simp)]
  simp

/-- Behind its name, an attribute is its value. -/
theorem readAttribute_name {name : String} {n : RawName} (hname : rawName? name = some n)
    (rest : List Char) : readAttribute (name.toList ++ '=' :: '\"' :: rest) =
      (readValue '\"' rest).map fun (value, rest) => (⟨n, value⟩, rest) := by
  have hequals : readEquals ('=' :: '\"' :: rest) = some ('\"' :: rest) := by
    unfold readEquals
    rw [skipSpaces_of_head (by decide)]
    simp only
    rw [skipSpaces_of_head (by decide)]
  unfold readAttribute
  rw [readRawName_append hname (by simp [show isNameChar '=' = false by decide])]
  simp only [hequals, Option.bind_some]
  rw [show readQuote ('\"' :: rest) = some ('\"', rest) from rfl]
  dsimp only
  cases hvalue : readValue '\"' rest <;> rfl

/-- **An attribute is read.** -/
theorem readAttribute_append {a : String × String} {n : RawName} (hname : rawName? a.1 = some n)
    (hvalue : XmlText a.2) (rest : List Char) :
    readAttribute (a.1.toList ++ '=' :: '\"' :: (writtenValue a.2 ++ '\"' :: rest)) =
      some (⟨n, writtenValue a.2⟩, rest) := by
  rw [readAttribute_name hname, readValue_append hvalue]
  rfl

/-- The attributes of a start tag with their names split. -/
def named? (attributes : List (String × String)) : Option (List (RawName × String)) :=
  attributes.mapM fun a => (rawName? a.1).map fun n => (n, a.2)

/-- An attribute as it is read, before its value is normalized. -/
def asRead (a : RawName × String) : RawAttribute :=
  ⟨a.1, writtenValue a.2⟩

/-- How a start tag may end, and whether it is the end of an element. -/
def tagEnd (selfClosing : Bool) : List Char :=
  if selfClosing then ['/', '>'] else ['>']

theorem readAttributes_tagEnd (n : ℕ) (selfClosing : Bool) (rest : List Char) :
    readAttributes (n + 1) (tagEnd selfClosing ++ rest) = some ([], selfClosing, rest) := by
  cases selfClosing with
  | true =>
    unfold readAttributes
    rw [show skipSpaces (tagEnd true ++ rest) = '/' :: '>' :: rest from
      skipSpaces_of_head (by decide)]
    rfl
  | false =>
    unfold readAttributes
    rw [show skipSpaces (tagEnd false ++ rest) = '>' :: rest from skipSpaces_of_head (by decide)]
    rfl

theorem skipSpaces_attributeChars {a : String × String} {n : RawName}
    (hname : rawName? a.1 = some n) (rest : List Char) :
    skipSpaces (attributeChars a ++ rest) =
      a.1.toList ++ '=' :: '\"' :: (writtenValue a.2 ++ '\"' :: rest) := by
  obtain ⟨c, cs, hcs, hc⟩ := exists_cons_of_rawName? hname
  have hdrop : attributeChars a ++ rest =
      ' ' :: (a.1.toList ++ '=' :: '\"' :: (writtenValue a.2 ++ '\"' :: rest)) := by
    simp [attributeChars, writtenValue]
  rw [hdrop, skipSpaces, List.dropWhile_cons_of_pos (by decide), hcs, List.cons_append]
  exact skipSpaces_of_head (not_isSpace_of_isNameChar hc)

/-- The first attribute of a start tag is read before the others. -/
theorem readAttributes_cons {a : String × String} {n : RawName} (hname : rawName? a.1 = some n)
    (k : ℕ) (rest : List Char) : readAttributes (k + 1) (attributeChars a ++ rest) =
      match readAttribute (a.1.toList ++ '=' :: '\"' :: (writtenValue a.2 ++ '\"' :: rest)) with
      | none => none
      | some (first, rest) => (readAttributes k rest).map fun (more, selfClosing, rest) =>
        (first :: more, selfClosing, rest) := by
  obtain ⟨c, cs, hcs, hc⟩ := exists_cons_of_rawName? hname
  have hneeds : (needSpaces (attributeChars a ++ rest)).isSome = true := by
    simp [attributeChars, needSpaces, isSpace]
  rw [readAttributes, skipSpaces_attributeChars hname, hcs, List.cons_append]
  split
  · case h_1 heq =>
    injection heq with heq
    subst heq
    exact absurd hc (by decide)
  · case h_2 heq =>
    injection heq with heq
    subst heq
    exact absurd hc (by decide)
  · exact if_pos hneeds

theorem readAttributes_attributeChars {a : String × String} {n : RawName}
    (hname : rawName? a.1 = some n) (hvalue : XmlText a.2) (k : ℕ)
    (rest : List Char) :
    readAttributes (k + 1) (attributeChars a ++ rest) =
      (readAttributes k rest).map fun (more, selfClosing, rest) =>
        (asRead (n, a.2) :: more, selfClosing, rest) := by
  rw [readAttributes_cons hname, readAttribute_append hname hvalue]
  rfl

/-- **The attributes of a start tag are read** up to its end. -/
theorem readAttributes_flatMap {attributes : List (String × String)} :
    ∀ {named : List (RawName × String)}, named? attributes = some named →
      (∀ a ∈ attributes, XmlText a.2) → ∀ (k : ℕ), attributes.length < k →
      ∀ (selfClosing : Bool) (rest : List Char),
        readAttributes k (attributes.flatMap attributeChars ++ (tagEnd selfClosing ++ rest)) =
          some (named.map asRead, selfClosing, rest) := by
  induction attributes with
  | nil =>
    intro named hnamed _ k hk selfClosing rest
    obtain ⟨k, rfl⟩ := Nat.exists_eq_succ_of_ne_zero (Nat.pos_iff_ne_zero.1 hk)
    obtain rfl : [] = named := by simpa [named?] using hnamed
    exact readAttributes_tagEnd k selfClosing rest
  | cons a attributes ih =>
    intro named hnamed hvalues k hk selfClosing rest
    obtain ⟨k, rfl⟩ := Nat.exists_eq_succ_of_ne_zero (Nat.pos_iff_ne_zero.1 (by omega : 0 < k))
    rw [named?, List.mapM_cons] at hnamed
    cases hn : rawName? a.1 with
    | none => simp [hn] at hnamed
    | some n =>
      cases hmore : named? attributes with
      | none =>
        rw [named?] at hmore
        simp [hn, hmore] at hnamed
      | some more =>
        have hih := ih hmore (fun a ha => hvalues a (by simp [ha])) k
          (by simpa using hk) selfClosing rest
        rw [named?] at hmore
        simp only [hn, hmore] at hnamed
        obtain rfl : (n, a.2) :: more = named := by simpa using hnamed
        rw [List.flatMap_cons, List.append_assoc,
          readAttributes_attributeChars hn (hvalues a (by simp)), hih]
        rfl

/-! ## Tags -/

/-- A start tag as it is read. -/
def openTag (n : RawName) (named : List (RawName × String)) (selfClosing : Bool) : Markup :=
  .openTag n (named.map asRead) selfClosing

theorem head_flatMap_attributeChars (attributes : List (String × String)) (selfClosing : Bool)
    (rest : List Char) :
    ∀ c ∈ (attributes.flatMap attributeChars ++ (tagEnd selfClosing ++ rest)).head?,
      isNameChar c = false := by
  cases attributes with
  | nil => cases selfClosing <;> simp [tagEnd] <;> decide
  | cons a attributes => simp [attributeChars]; decide

theorem length_le_length_flatMap_attributeChars (attributes : List (String × String)) :
    attributes.length ≤ (attributes.flatMap attributeChars).length := by
  induction attributes with
  | nil => simp
  | cons a attributes ih =>
    rw [List.flatMap_cons, List.length_append, attributeChars, List.length_cons, List.length_cons]
    omega

/-- What a name stands in front of is a start tag. -/
theorem readMarkup_of_isNameChar {c : Char} (hc : isNameChar c = true) (cs : List Char) :
    readMarkup ('<' :: c :: cs) = readOpenTag (c :: cs) := by
  have hne : ∀ {d : Char} {ds : List Char}, isNameChar d = false → c :: cs = d :: ds → False := by
    intro d ds hd heq
    injection heq with heq
    subst heq
    simp [hc] at hd
  rw [readMarkup]
  all_goals exact fun _ => hne (by decide)

theorem readMarkup_name {name : String} {n : RawName} (hname : rawName? name = some n)
    (attributes : List (String × String)) (rest : List Char) :
    readMarkup (tagChars name attributes ++ rest) =
      readOpenTag (name.toList ++ (attributes.flatMap attributeChars ++ rest)) := by
  obtain ⟨c, cs, hcs, hc⟩ := exists_cons_of_rawName? hname
  rw [tagChars, List.cons_append, List.append_assoc, hcs, List.cons_append,
    readMarkup_of_isNameChar hc]

/-- **A start tag is read.** -/
theorem readOpenTag_append {name : String} {n : RawName} {attributes : List (String × String)}
    {named : List (RawName × String)} (hname : rawName? name = some n)
    (hnamed : named? attributes = some named)
    (hvalues : ∀ a ∈ attributes, XmlText a.2) (selfClosing : Bool)
    (rest : List Char) :
    readOpenTag (name.toList ++ (attributes.flatMap attributeChars ++ (tagEnd selfClosing ++ rest)))
      = some (openTag n named selfClosing, rest) := by
  have hlength : attributes.length < (attributes.flatMap attributeChars ++
      (tagEnd selfClosing ++ rest)).length + 1 := by
    have := length_le_length_flatMap_attributeChars attributes
    rw [List.length_append]
    omega
  unfold readOpenTag
  rw [readRawName_append hname (head_flatMap_attributeChars attributes selfClosing rest)]
  simp only [readAttributes_flatMap hnamed hvalues _ hlength]
  rfl

theorem readMarkup_tagChars {name : String} {n : RawName} {attributes : List (String × String)}
    {named : List (RawName × String)} (hname : rawName? name = some n)
    (hnamed : named? attributes = some named)
    (hvalues : ∀ a ∈ attributes, XmlText a.2) (selfClosing : Bool)
    (rest : List Char) :
    readMarkup (tagChars name attributes ++ (tagEnd selfClosing ++ rest)) =
      some (openTag n named selfClosing, rest) := by
  rw [readMarkup_name hname, readOpenTag_append hname hnamed hvalues]

/-- **An end tag is read.** -/
theorem readMarkup_endTag {name : String} {n : RawName} (hname : rawName? name = some n)
    (rest : List Char) :
    readMarkup ('<' :: '/' :: (name.toList ++ '>' :: rest)) = some (.closeTag n, rest) := by
  rw [show readMarkup ('<' :: '/' :: (name.toList ++ '>' :: rest)) =
    readCloseTag (name.toList ++ '>' :: rest) from rfl]
  unfold readCloseTag
  rw [readRawName_append hname (by simp; decide)]
  simp only
  rw [skipSpaces_of_head (by decide)]
  rfl

/-! ## Texts -/

/-- A text as it stands in the content of an element. -/
def writtenText (text : String) : List Char :=
  text.toList.flatMap Writer.escapeInText

theorem isTextChar_of_mem_escapeInText {c d : Char} (hc : isXmlChar c = true)
    (hd : d ∈ Writer.escapeInText c) : isXmlChar d = true ∧ d ≠ '<' ∧ d ≠ '>' := by
  unfold Writer.escapeInText at hd
  split at hd
  all_goals simp only [List.mem_cons, List.not_mem_nil, or_false] at hd
  case h_4 hamp hlt hgt =>
    subst hd
    exact ⟨hc, hlt, hgt⟩
  all_goals
    rcases hd with rfl | rfl | rfl | rfl | rfl <;> decide

theorem holdsSectionEnd_of_not_mem {cs : List Char} (h : '>' ∉ cs) :
    holdsSectionEnd cs = false := by
  induction cs with
  | nil => rfl
  | cons c cs ih =>
    have hafter : after? [']', ']', '>'] (c :: cs) = none := by
      simp only [after?]
      split
      · match cs with
        | [] => rfl
        | [d] => simp only [after?]; split <;> rfl
        | d :: e :: cs =>
          have he : ('>' == e) = false := beq_false_of_ne fun he => h (by rw [he]; simp)
          simp only [after?, he]
          split <;> rfl
      · rfl
    rw [holdsSectionEnd, hafter, ih fun hcs => h (by simp [hcs])]
    rfl

theorem isTextChar_of_mem_writtenText {text : String} (h : XmlText text)
    {d : Char} (hd : d ∈ writtenText text) : isXmlChar d = true ∧ d ≠ '<' ∧ d ≠ '>' := by
  obtain ⟨c, hc, hd⟩ := List.mem_flatMap.1 hd
  exact isTextChar_of_mem_escapeInText (h c hc) hd

theorem escapeInText_ne_nil (c : Char) : Writer.escapeInText c ≠ [] := by
  unfold Writer.escapeInText
  split <;> simp

theorem writtenText_eq_nil_iff {text : String} : writtenText text = [] ↔ text = "" := by
  rw [writtenText, List.flatMap_eq_nil_iff, ← String.toList_inj]
  refine ⟨fun h => List.eq_nil_iff_forall_not_mem.2 fun c hc => escapeInText_ne_nil c (h c hc),
    fun h => by simp [h]⟩

/-- **A text is read** up to the tag behind it. -/
theorem readText_append {text : String} (h : XmlText text) (rest : List Char) :
    readText (writtenText text ++ '<' :: rest) = some (.text (writtenText text), '<' :: rest) := by
  have hne : ∀ d ∈ writtenText text, (d != '<') = true := fun d hd => by
    simp [(isTextChar_of_mem_writtenText h hd).2.1]
  have hallowed : ((writtenText text).all isXmlChar && !holdsSectionEnd (writtenText text)) = true
      := by
    rw [List.all_eq_true.2 fun d hd => (isTextChar_of_mem_writtenText h hd).1,
      holdsSectionEnd_of_not_mem fun hd => (isTextChar_of_mem_writtenText h hd).2.2 rfl]
    rfl
  unfold readText
  rw [takeWhile_append_of_head hne (by simp), dropWhile_append_of_head hne (by simp)]
  exact if_pos hallowed

theorem readMarkup_writtenText {text : String} (h : XmlText text)
    (hne : text ≠ "") (rest : List Char) :
    readMarkup (writtenText text ++ '<' :: rest) =
      some (.text (writtenText text), '<' :: rest) := by
  have hread := readText_append h rest
  cases hds : writtenText text with
  | nil => exact absurd (writtenText_eq_nil_iff.1 hds) hne
  | cons d ds =>
    have hd : d ≠ '<' := (isTextChar_of_mem_writtenText h (by rw [hds]; simp)).2.1
    rw [hds, List.cons_append] at hread
    rw [List.cons_append, readMarkup, hread]
    all_goals
      intro _ heq
      injection heq with heq
      exact hd heq

end Reader

/-! ## What written characters stand for -/

/-- **A value that was written and is read again**: a tab and a carriage return are read as
spaces. -/
def valueBack (value : String) : String :=
  value.map fun c => if c == '\t' || c == '\r' then ' ' else c

namespace AttributeValue

/-- A character of a value is written as a reference to it, or as it is. -/
theorem escapeInValue_cases (c : Char) :
    (∃ es, Writer.escapeInValue c = '&' :: es ∧
      (∀ rest, Reference.read (es ++ rest) = some (.char c, rest)) ∧ c ≠ '\t' ∧ c ≠ '\r') ∨
    (Writer.escapeInValue c = [c] ∧ c ≠ '&' ∧ c ≠ '\n') := by
  unfold Writer.escapeInValue
  split
  · exact .inl ⟨_, rfl, fun _ => rfl, by decide, by decide⟩
  · exact .inl ⟨_, rfl, fun _ => rfl, by decide, by decide⟩
  · exact .inl ⟨_, rfl, fun _ => rfl, by decide, by decide⟩
  · exact .inl ⟨_, rfl, fun _ => rfl, by decide, by decide⟩
  · exact .inl ⟨_, rfl, fun _ => rfl, by decide, by decide⟩
  · case h_6 hamp _ _ _ hfeed => exact .inr ⟨rfl, hamp, hfeed⟩

/-- No written value begins with a line feed. -/
theorem head_flatMap_escapeInValue (cs : List Char) :
    ((cs.flatMap Writer.escapeInValue).head? == some '\n') = false := by
  cases cs with
  | nil => rfl
  | cons c cs =>
    obtain ⟨es, hes, -⟩ | ⟨hc, -, hfeed⟩ := escapeInValue_cases c
    · simp [hes]
    · simp [hc, hfeed]

theorem plain_of_ne {c : Char} {rest : List Char} (hc : c ≠ '\n')
    (hrest : (rest.head? == some '\n') = false) :
    plain c rest = [if c == '\t' || c == '\r' then ' ' else c] := by
  rw [plain, hrest, Bool.and_false, beq_false_of_ne hc, Bool.false_or, Bool.or_comm]
  simp only [Bool.false_eq_true, if_false]
  split <;> rfl

variable (entities : List Entity) (expand : Entity → ℕ → Option (List Char × ℕ))

theorem scan_of_read {cs rest : List Char} {c : Char}
    (h : Reference.read cs = some (.char c, rest)) (k followed : ℕ) :
    scan entities 0 expand (k + 1) ('&' :: cs) followed =
      (scan entities 0 expand k rest followed).map fun (value, followed) =>
        (c :: value, followed) := by
  rw [scan, h]
  simp only [referred, if_true]
  cases scan entities 0 expand k rest followed <;> rfl

theorem scan_of_ne {c : Char} (h : c ≠ '&') (rest : List Char) (k followed : ℕ) :
    scan entities 0 expand (k + 1) (c :: rest) followed =
      (scan entities 0 expand k rest followed).map fun (value, followed) =>
        (plain c rest ++ value, followed) := by
  rw [scan]
  exact fun heq => h heq

theorem scan_escapeInValue (followed : ℕ) :
    ∀ (cs : List Char) (k : ℕ), (cs.flatMap Writer.escapeInValue).length < k →
      scan entities 0 expand k (cs.flatMap Writer.escapeInValue) followed =
        some (cs.map fun c => if c == '\t' || c == '\r' then ' ' else c, followed) := by
  intro cs
  induction cs with
  | nil =>
    intro k hk
    obtain ⟨k, rfl⟩ := Nat.exists_eq_succ_of_ne_zero (Nat.pos_iff_ne_zero.1 hk)
    rfl
  | cons c cs ih =>
    intro k hk
    obtain ⟨k, rfl⟩ := Nat.exists_eq_succ_of_ne_zero (Nat.pos_iff_ne_zero.1 (by omega : 0 < k))
    rw [List.flatMap_cons] at hk ⊢
    obtain ⟨es, hes, hread, htab, hreturn⟩ | ⟨hc, hamp, hfeed⟩ := escapeInValue_cases c
    · rw [hes, List.cons_append, List.length_cons, List.length_append] at hk
      rw [hes, List.cons_append, scan_of_read entities expand (hread _), ih k (by omega)]
      simp [htab, hreturn]
    · rw [hc, List.singleton_append, List.length_cons] at hk
      rw [hc, List.singleton_append, scan_of_ne entities expand hamp, ih k (by omega),
        plain_of_ne hfeed (head_flatMap_escapeInValue cs)]
      rfl

/-- **A value that was written is normalized** to what `valueBack` gives. -/
theorem expandAt_writtenValue (left followed : ℕ) (value : String) :
    expandAt entities left 0 (Reader.writtenValue value) followed =
      some ((valueBack value).toList, followed) := by
  have hback : (valueBack value).toList =
      value.toList.map fun c => if c == '\t' || c == '\r' then ' ' else c := by
    simp [valueBack]
  cases left <;>
  · rw [expandAt, Reader.writtenValue, scan_escapeInValue entities _ followed _ _ (by omega), hback]

end AttributeValue

/-- Characters of a text that are read, in reverse: what is behind a character that is escaped is
taken as it is. -/
def textBackFrom (reversed : List Char) (verbatim : Bool) : List Char → List Char
  | [] => reversed
  | c :: rest =>
    if c = '&' ∨ c = '<' ∨ c = '>' then textBackFrom (c :: reversed) true rest
    else if verbatim then textBackFrom (c :: reversed) false rest
    else textBackFrom (LineEnd.push reversed c rest.isEmpty) false rest

/-- **A text that was written and is read again**: carriage returns may become line feeds. -/
def textBack (text : String) : String :=
  String.ofList (textBackFrom [] false text.toList).reverse

namespace TextPart

theorem isEmpty_flatMap_escapeInText (cs : List Char) :
    (cs.flatMap Writer.escapeInText).isEmpty = cs.isEmpty := by
  cases cs with
  | nil => rfl
  | cons c cs =>
    cases h : Writer.escapeInText c with
    | nil => exact absurd h (Reader.escapeInText_ne_nil c)
    | cons d ds => simp [h]

/-- A character of a text is written as a reference to it, or as it is. -/
theorem escapeInText_cases (c : Char) :
    (∃ es, Writer.escapeInText c = '&' :: es ∧
      (∀ rest, Reference.read (es ++ rest) = some (.char c, rest)) ∧
        (c = '&' ∨ c = '<' ∨ c = '>')) ∨
    (Writer.escapeInText c = [c] ∧ c ≠ '&' ∧ ¬(c = '&' ∨ c = '<' ∨ c = '>')) := by
  unfold Writer.escapeInText
  split
  · exact .inl ⟨_, rfl, fun _ => rfl, by decide⟩
  · exact .inl ⟨_, rfl, fun _ => rfl, by decide⟩
  · exact .inl ⟨_, rfl, fun _ => rfl, by decide⟩
  · case h_4 hamp hlt hgt => exact .inr ⟨rfl, hamp, not_or.2 ⟨hamp, not_or.2 ⟨hlt, hgt⟩⟩⟩

variable (entities : List Entity)

theorem scan_of_read {cs rest : List Char} {c : Char}
    (h : Reference.read cs = some (.char c, rest)) (k : ℕ) (reversed : List Char)
    (verbatim : Bool) :
    scan entities 0 (k + 1) reversed verbatim ('&' :: cs) =
      scan entities 0 k (c :: reversed) true rest := by
  rw [scan, h]
  rfl

theorem scan_of_ne {c : Char} (h : c ≠ '&') (k : ℕ) (reversed : List Char) (verbatim : Bool)
    (rest : List Char) :
    scan entities 0 (k + 1) reversed verbatim (c :: rest) =
      if verbatim then scan entities 0 k (c :: reversed) false rest
      else scan entities 0 k (LineEnd.push reversed c rest.isEmpty) false rest := by
  rw [scan]
  exact fun heq => h heq

theorem scan_escapeInText :
    ∀ (cs : List Char) (k : ℕ) (reversed : List Char) (verbatim : Bool),
      (cs.flatMap Writer.escapeInText).length < k →
      scan entities 0 k reversed verbatim (cs.flatMap Writer.escapeInText) =
        some (ofReversed (textBackFrom reversed verbatim cs)) := by
  intro cs
  induction cs with
  | nil =>
    intro k reversed verbatim hk
    obtain ⟨k, rfl⟩ := Nat.exists_eq_succ_of_ne_zero (Nat.pos_iff_ne_zero.1 hk)
    rfl
  | cons c cs ih =>
    intro k reversed verbatim hk
    obtain ⟨k, rfl⟩ := Nat.exists_eq_succ_of_ne_zero (Nat.pos_iff_ne_zero.1 (by omega : 0 < k))
    rw [List.flatMap_cons] at hk ⊢
    obtain ⟨es, hes, hread, hspecial⟩ | ⟨hc, hamp, hspecial⟩ := escapeInText_cases c
    · rw [hes, List.cons_append, List.length_cons, List.length_append] at hk
      rw [hes, List.cons_append, scan_of_read entities (hread _), ih k _ _ (by omega),
        textBackFrom, if_pos hspecial]
    · rw [hc, List.singleton_append, List.length_cons] at hk
      rw [hc, List.singleton_append, scan_of_ne entities hamp, ih k _ _ (by omega),
        ih k _ _ (by omega), isEmpty_flatMap_escapeInText, textBackFrom, if_neg hspecial]
      split <;> rfl

theorem textBackFrom_ne_nil : ∀ {cs reversed : List Char} {verbatim : Bool},
    reversed ≠ [] ∨ cs ≠ [] → textBackFrom reversed verbatim cs ≠ []
  | [], _, _, h => h.resolve_right fun hcs => hcs rfl
  | c :: cs, reversed, verbatim, _ => by
    have hpush : LineEnd.push reversed c cs.isEmpty ≠ [] := by
      unfold LineEnd.push
      split
      · split
        · simp
        · split <;> simp
      · split <;> simp
    unfold textBackFrom
    split
    · exact textBackFrom_ne_nil (.inl (by simp))
    · split
      · exact textBackFrom_ne_nil (.inl (by simp))
      · exact textBackFrom_ne_nil (.inl hpush)

/-- **A text that was written is one part**, which `textBack` gives. -/
theorem ofText_writtenText {text : String} (h : text ≠ "") :
    ofText entities 0 (Reader.writtenText text) = some [.characters (textBack text).toList] := by
  have hne : textBackFrom [] false text.toList ≠ [] :=
    textBackFrom_ne_nil (.inr fun hnil => h (String.toList_inj.1 (by simp [hnil])))
  rw [ofText, Reader.writtenText, scan_escapeInText entities _ _ _ _ (by omega), ofReversed,
    if_neg (by simp [hne]), textBack, String.toList_ofList]

end TextPart

end XmlConformance.Xml
