import XmlConformance.Proofs.Xml.Reading
import XmlConformance.Xml.Fragment
import XmlConformance.Xml.Parser

/-!
# Proofs/Xml/ReadingBack — what is written is read again

A fragment that is written and read gives a tree (`Fragment.back`): the names are resolved with what
is declared at the place, values and texts come back as `valueBack` and `textBack` say, and a text
that is empty leaves nothing. The reader goes through what was written piece by piece and adds the
same nodes to the tree under construction (`read_chars`). For this the fragment has to hold nothing
but characters of XML, and no text next to another (`Fragment.Clean`).
-/

namespace XmlConformance.Xml

/-! ## Tags -/

/-- Takes attributes apart into declarations and others. -/
def bindAttributes : List (RawName × String) → List Declaration → List (RawName × String) →
    Option (List Declaration × List (RawName × String))
  | [], own, others => some (own, others)
  | a :: rest, own, others =>
    match bindingOf own a.1 a.2 with
    | .declares d => bindAttributes rest (own ++ [d]) others
    | .repeatsXml => bindAttributes rest own others
    | .forbidden => none
    | .plain => bindAttributes rest own (others ++ [a])

/-- The tag that a start tag stands for that was written in front of `start` characters. -/
def tagBack (inherited : List Declaration) (start : ℕ) (name : String)
    (attributes : List (String × String)) : Option (RawName × Tag) := do
  let n ← Reader.rawName? name
  let named ← Reader.named? attributes
  let (own, others) ← bindAttributes (named.map fun a => (a.1, valueBack a.2)) [] []
  let tag ← resolveTag inherited own n others start
  return (n, tag)

theorem sortAttributes_asRead (entities : List Entity) (followed : ℕ) :
    ∀ (named : List (RawName × String)) (own : List Declaration)
      (others : List (RawName × String)),
      sortAttributes entities 0 (named.map Reader.asRead) own others followed =
        (bindAttributes (named.map fun a => (a.1, valueBack a.2)) own others).map
          fun (own, others) => (own, others, followed)
  | [], _, _ => rfl
  | a :: named, own, others => by
    have ih := sortAttributes_asRead entities followed named
    rw [List.map_cons, List.map_cons, sortAttributes, bindAttributes, Reader.asRead,
      AttributeValue.expandAt_writtenValue]
    simp only [String.ofList_toList]
    cases bindingOf own a.1 (valueBack a.2) with
    | declares d => exact ih _ _
    | repeatsXml => exact ih _ _
    | forbidden => rfl
    | plain => exact ih _ _

/-! ## Fragments -/

namespace Fragment

def isText : Fragment → Bool
  | .text _ => true
  | .element .. => false

mutual

/-- A fragment of characters of XML in which no text stands next to another. -/
def Clean : Fragment → Prop
  | .text s => XmlText s
  | .element _ attributes content => (∀ a ∈ attributes, XmlText a.2) ∧ AllClean content

/-- Fragments of characters of XML in which no text stands next to another. -/
def AllClean : List Fragment → Prop
  | [] => True
  | f :: fs => f.Clean ∧ (f.isText = true → ∀ g ∈ fs.head?, g.isText = false) ∧ AllClean fs

end

mutual

/-- **What a fragment is read as** that was written behind `start` characters. -/
def back (inherited : List Declaration) (start : ℕ) : Fragment → Option (List Node)
  | .text s => some (if s = "" then [] else [.text (textBack s)])
  | .element name attributes content => do
    let (_, tag) ← tagBack inherited start name attributes
    let children ← backAll tag.scope (start + (tagChars name attributes).length + 1) content
    return [.element tag children]

/-- What several fragments are read as. -/
def backAll (inherited : List Declaration) (start : ℕ) : List Fragment → Option (List Node)
  | [] => some []
  | f :: fs => do
    let nodes ← f.back inherited start
    let more ← backAll inherited (start + f.chars.length) fs
    return nodes ++ more

end

section Back

variable {inherited : List Declaration} {start : ℕ} {nodes : List Node} {name : String}
  {attributes : List (String × String)} {content fs : List Fragment} {f : Fragment}

theorem back_element_eq_some_iff :
    (element name attributes content).back inherited start = some nodes ↔
      ∃ n tag children, tagBack inherited start name attributes = some (n, tag) ∧
        backAll tag.scope (start + (tagChars name attributes).length + 1) content = some children ∧
          nodes = [.element tag children] := by
  rw [back]
  simp only [Option.bind_eq_bind, Option.bind_eq_some_iff, Prod.exists, Option.pure_def,
    Option.some.injEq]
  constructor
  · rintro ⟨n, tag, htag, children, hchildren, rfl⟩
    exact ⟨n, tag, children, htag, hchildren, rfl⟩
  · rintro ⟨n, tag, children, htag, hchildren, rfl⟩
    exact ⟨n, tag, htag, children, hchildren, rfl⟩

theorem backAll_cons_eq_some_iff : backAll inherited start (f :: fs) = some nodes ↔
    ∃ first more, f.back inherited start = some first ∧
      backAll inherited (start + f.chars.length) fs = some more ∧ nodes = first ++ more := by
  rw [backAll]
  simp only [Option.bind_eq_bind, Option.bind_eq_some_iff, Option.pure_def, Option.some.injEq]
  constructor
  · rintro ⟨first, hfirst, more, hmore, rfl⟩
    exact ⟨first, more, hfirst, hmore, rfl⟩
  · rintro ⟨first, more, hfirst, hmore, rfl⟩
    exact ⟨first, hfirst, more, hmore, rfl⟩

end Back

mutual

/-- The pieces of markup that a fragment is written as. -/
def pieces : Fragment → ℕ
  | .text s => if s = "" then 0 else 1
  | .element _ _ [] => 1
  | .element _ _ (f :: fs) => f.pieces + piecesOf fs + 2

/-- The pieces of markup that several fragments are written as. -/
def piecesOf : List Fragment → ℕ
  | [] => 0
  | f :: fs => f.pieces + piecesOf fs

end

theorem writtenText_eq_chars (s : String) : Reader.writtenText s = (text s).chars := by
  rw [chars, Reader.writtenText]

theorem tagChars_selfClosing (name : String) (attributes : List (String × String))
    (rest : List Char) : (element name attributes []).chars ++ rest =
      tagChars name attributes ++ (Reader.tagEnd true ++ rest) := by
  rw [chars, List.append_assoc, Reader.tagEnd, if_pos rfl]

theorem tagChars_content (name : String) (attributes : List (String × String)) (f : Fragment)
    (fs : List Fragment) (rest : List Char) : (element name attributes (f :: fs)).chars ++ rest =
      tagChars name attributes ++ (Reader.tagEnd false ++
        (charsOf (f :: fs) ++ '<' :: '/' :: (name.toList ++ '>' :: rest))) := by
  simp [chars, charsOf, Reader.tagEnd]

mutual

theorem pieces_le_length : ∀ f : Fragment, f.pieces ≤ f.chars.length
  | .text s => by
    rw [pieces, ← writtenText_eq_chars]
    split
    · exact Nat.zero_le _
    · case isFalse hs =>
      exact List.length_pos_iff.2 fun h => hs (Reader.writtenText_eq_nil_iff.1 h)
  | .element name attributes [] => by
    rw [pieces, chars, List.length_append, List.length_cons]
    omega
  | .element name attributes (f :: fs) => by
    have hf := pieces_le_length f
    have hfs := piecesOf_le_length fs
    simp only [pieces, chars, List.length_append, List.length_cons]
    omega

theorem piecesOf_le_length : ∀ fs : List Fragment, piecesOf fs ≤ (charsOf fs).length
  | [] => Nat.le_refl 0
  | f :: fs => by
    have hf := pieces_le_length f
    have hfs := piecesOf_le_length fs
    rw [piecesOf, charsOf, List.length_append]
    omega

end

/-- What does not begin with text begins with a tag. -/
theorem head_charsOf_append {fs : List Fragment} (h : ∀ f ∈ fs.head?, f.isText = false)
    (rest : List Char) : (charsOf fs ++ '<' :: rest).head? = some '<' := by
  match fs with
  | [] => rfl
  | .text s :: fs => cases h _ rfl
  | .element name attributes [] :: fs => simp [charsOf, chars, tagChars]
  | .element name attributes (f :: content) :: fs => simp [charsOf, chars, tagChars]

theorem eq_singleton_of_back {f : Fragment} (hf : f.isText = false)
    {inherited : List Declaration} {start : ℕ} {nodes : List Node}
    (h : f.back inherited start = some nodes) :
    ∃ tag children, nodes = [.element tag children] := by
  cases f with
  | text s => cases hf
  | element name attributes content =>
    obtain ⟨n, tag, children, -, -, hnodes⟩ := back_element_eq_some_iff.1 h
    exact ⟨tag, children, hnodes⟩

section Counts

variable {name : String} {attributes : List (String × String)} {f : Fragment} {fs : List Fragment}
  {total start : ℕ} {cs : List Char}

theorem add_pieces_content (k : ℕ) : k + (element name attributes (f :: fs)).pieces =
    (k + 1 + piecesOf (f :: fs)) + 1 := by
  rw [pieces, piecesOf]
  omega

theorem add_piecesOf_cons (k : ℕ) : k + piecesOf (f :: fs) = (k + piecesOf fs) + f.pieces := by
  rw [piecesOf]
  omega

theorem charsOf_cons_append : charsOf (f :: fs) ++ cs = f.chars ++ (charsOf fs ++ cs) := by
  rw [charsOf, List.append_assoc]

/-- Where the content of an element begins. -/
theorem total_of_tagChars
    (h : total = start + (tagChars name attributes ++ (Reader.tagEnd false ++ cs)).length) :
    total = start + (tagChars name attributes).length + 1 + cs.length := by
  rw [h, List.length_append, List.length_append, Reader.tagEnd, if_neg Bool.false_ne_true,
    List.length_singleton]
  omega

/-- Where the next fragment begins. -/
theorem total_of_chars (h : total = start + (f.chars ++ cs).length) :
    total = start + f.chars.length + cs.length := by
  rw [h, List.length_append]
  omega

end Counts

end Fragment

/-! ## The tree under construction -/

namespace Builder

/-- Appends nodes. -/
def addAll (b : Builder) (nodes : List Node) : Builder :=
  nodes.foldl add b

/-- Whether the last node of the innermost open element is text. -/
def endsInText (b : Builder) : Bool :=
  match b.frames with
  | f :: _ => f.reversed.head?.any Node.isText
  | [] => b.reversed.head?.any Node.isText

@[simp] theorem addAll_nil (b : Builder) : b.addAll [] = b := rfl

theorem addAll_append (b : Builder) (ns ms : List Node) :
    b.addAll (ns ++ ms) = (b.addAll ns).addAll ms := List.foldl_append

@[simp] theorem addAll_singleton (b : Builder) (n : Node) : b.addAll [n] = b.add n := rfl

theorem addTextTo_of_not_isText {reversed : List Node}
    (h : reversed.head?.any Node.isText = false) (s : String) :
    addTextTo reversed s = .text s :: reversed := by
  unfold addTextTo
  split
  · simp [Node.isText] at h
  · rfl

theorem addText_of_not_endsInText {b : Builder} (h : b.endsInText = false) (s : String) :
    b.addText s = b.add (.text s) := by
  obtain ⟨frames, reversed, followed⟩ := b
  cases frames with
  | nil => simp only [addText, add, addTextTo_of_not_isText h]
  | cons f frames => simp only [addText, add, addTextTo_of_not_isText h]

@[simp] theorem scope_add (b : Builder) (n : Node) : (b.add n).scope = b.scope := by
  obtain ⟨frames, reversed, followed⟩ := b
  cases frames <;> rfl

@[simp] theorem scope_addAll (b : Builder) (ns : List Node) : (b.addAll ns).scope = b.scope := by
  induction ns generalizing b with
  | nil => rfl
  | cons n ns ih => exact (ih (b.add n)).trans (scope_add b n)

@[simp] theorem endsInText_add (b : Builder) (n : Node) : (b.add n).endsInText = n.isText := by
  obtain ⟨frames, reversed, followed⟩ := b
  cases frames <;> simp [add, endsInText]

theorem addAll_openElement (b : Builder) (label : String) (tag : Tag) (ns : List Node) :
    (b.openElement label tag).addAll ns =
      { b with frames := ⟨label, tag, ns.reverse⟩ :: b.frames } := by
  have h : ∀ (ns reversed : List Node),
      addAll { b with frames := ⟨label, tag, reversed⟩ :: b.frames } ns =
        { b with frames := ⟨label, tag, ns.reverse ++ reversed⟩ :: b.frames } := by
    intro ns
    induction ns with
    | nil => exact fun _ => rfl
    | cons n ns ih =>
      intro reversed
      refine (ih (n :: reversed)).trans ?_
      rw [List.reverse_cons, List.append_assoc, List.singleton_append]
  rw [openElement, h, List.append_nil]

/-- **An element is closed** with all that was added to it. -/
theorem closeElement_addAll (b : Builder) {name : RawName} {tag : Tag}
    (h : tag.name.localName = name.localName) (ns : List Node) :
    ((b.openElement name.label tag).addAll ns).closeElement name =
      some (b.add (.element tag ns)) := by
  rw [addAll_openElement]
  simp [closeElement, h]

end Builder

/-! ## Going through what was written -/

theorem tagBack_eq_some_iff {inherited : List Declaration} {start : ℕ} {name : String}
    {attributes : List (String × String)} {n : RawName} {tag : Tag} :
    tagBack inherited start name attributes = some (n, tag) ↔
      Reader.rawName? name = some n ∧ ∃ named, Reader.named? attributes = some named ∧
        ∃ own others, bindAttributes (named.map fun a => (a.1, valueBack a.2)) [] [] =
          some (own, others) ∧ resolveTag inherited own n others start = some tag := by
  simp only [tagBack, Option.bind_eq_bind, Option.bind_eq_some_iff, Option.pure_def,
    Option.some.injEq, Prod.mk.injEq, Prod.exists]
  constructor
  · rintro ⟨n, hn, named, hnamed, own, others, hbind, tag, htag, rfl, rfl⟩
    exact ⟨hn, named, hnamed, own, others, hbind, htag⟩
  · rintro ⟨hn, named, hnamed, own, others, hbind, htag⟩
    exact ⟨n, hn, named, hnamed, own, others, hbind, tag, htag, rfl, rfl⟩

namespace Content

variable (entities : List Entity) (total : ℕ) (expand : Entity → Builder → Option Builder)

theorem addElement_asRead {b : Builder} {start : ℕ} {n : RawName} {tag : Tag}
    {named : List (RawName × String)} {own : List Declaration} {others : List (RawName × String)}
    (hbind : bindAttributes (named.map fun a => (a.1, valueBack a.2)) [] [] = some (own, others))
    (htag : resolveTag b.scope own n others start = some tag) (selfClosing : Bool) :
    addElement ⟨entities, total, 0, 0⟩ n (named.map Reader.asRead) selfClosing start b =
      some (if selfClosing then b.add (.element tag []) else b.openElement n.label tag) := by
  rw [addElement, sortAttributes_asRead, hbind]
  simp only [Option.map_some, htag]

theorem read_of_openTag {cs rest : List Char} {n : RawName} {attributes : List RawAttribute}
    {selfClosing : Bool}
    (h : Reader.readMarkup cs = some (.openTag n attributes selfClosing, rest)) (hcs : cs ≠ [])
    {b b' : Builder}
    (hb : addElement ⟨entities, total, 0, 0⟩ n attributes selfClosing (total - cs.length) b =
      some b') (k opened : ℕ) :
    read ⟨entities, total, 0, 0⟩ expand (k + 1) opened true b cs =
      read ⟨entities, total, 0, 0⟩ expand k (if selfClosing then opened else opened + 1) true b'
        rest := by
  cases cs with
  | nil => exact absurd rfl hcs
  | cons c cs =>
    rw [read, h]
    simp only [Nat.zero_add, hb]

theorem read_of_closeTag {cs rest : List Char} {n : RawName}
    (h : Reader.readMarkup cs = some (.closeTag n, rest)) (hcs : cs ≠ []) {b b' : Builder}
    (hb : b.closeElement n = some b') (k opened : ℕ) :
    read ⟨entities, total, 0, 0⟩ expand (k + 1) (opened + 1) true b cs =
      if opened = 0 then some (b', rest)
      else read ⟨entities, total, 0, 0⟩ expand k opened true b' rest := by
  cases cs with
  | nil => exact absurd rfl hcs
  | cons c cs =>
    rw [read, h]
    simp [hb]

theorem read_of_text {cs raw rest : List Char} (h : Reader.readMarkup cs = some (.text raw, rest))
    (hcs : cs ≠ []) {text : String}
    (hraw : TextPart.ofText entities 0 raw = some [.characters text.toList]) (b : Builder)
    (k opened : ℕ) :
    read ⟨entities, total, 0, 0⟩ expand (k + 1) opened true b cs =
      read ⟨entities, total, 0, 0⟩ expand k opened true (b.addText text) rest := by
  cases cs with
  | nil => exact absurd rfl hcs
  | cons c cs =>
    rw [read, h]
    simp [hraw, addParts]

theorem read_tagChars {name : String} {attributes : List (String × String)} {b : Builder}
    {start : ℕ} {n : RawName} {tag : Tag} {selfClosing : Bool} {rest : List Char}
    (hclean : ∀ a ∈ attributes, XmlText a.2)
    (htag : tagBack b.scope start name attributes = some (n, tag))
    (htotal : total = start +
      (tagChars name attributes ++ (Reader.tagEnd selfClosing ++ rest)).length) (k opened : ℕ) :
    read ⟨entities, total, 0, 0⟩ expand (k + 1) opened true b
        (tagChars name attributes ++ (Reader.tagEnd selfClosing ++ rest)) =
      read ⟨entities, total, 0, 0⟩ expand k (if selfClosing then opened else opened + 1) true
        (if selfClosing then b.add (.element tag []) else b.openElement n.label tag) rest := by
  obtain ⟨hname, named, hnamed, own, others, hbind, hresolve⟩ := tagBack_eq_some_iff.1 htag
  have hstart :
      total - (tagChars name attributes ++ (Reader.tagEnd selfClosing ++ rest)).length = start := by
    omega
  exact read_of_openTag entities total expand
    (Reader.readMarkup_tagChars hname hnamed hclean selfClosing rest) (by simp [tagChars])
    (addElement_asRead entities total hbind (hstart ▸ hresolve) selfClosing) k opened

/-- Behind a fragment that is no text, or in front of one, no text is continued. -/
theorem endsInText_addAll {f : Fragment} {fs : List Fragment} {b : Builder}
    {inherited : List Declaration} {start : ℕ} {first : List Node}
    (hnext : f.isText = true → ∀ g ∈ fs.head?, g.isText = false)
    (hfirst : f.back inherited start = some first) :
    ∀ g ∈ fs.head?, g.isText = true → (b.addAll first).endsInText = false := by
  intro g hg htext
  have hf : f.isText = false := by
    by_contra hf
    rw [hnext (by simpa using hf) g hg] at htext
    cases htext
  obtain ⟨tag, children, rfl⟩ := Fragment.eq_singleton_of_back hf hfirst
  rw [Builder.addAll_singleton, Builder.endsInText_add]
  rfl

open Fragment in
mutual

/-- **The reader goes through a fragment** and adds what it is read as. -/
theorem read_chars {b : Builder} {start k opened : ℕ} {rest : List Char} {nodes : List Node} :
    ∀ f : Fragment, f.Clean → f.back b.scope start = some nodes →
      (f.isText = true → b.endsInText = false) → (f.isText = true → rest.head? = some '<') →
      total = start + (f.chars ++ rest).length →
      read ⟨entities, total, 0, 0⟩ expand (k + f.pieces) (opened + 1) true b (f.chars ++ rest) =
        read ⟨entities, total, 0, 0⟩ expand k (opened + 1) true (b.addAll nodes) rest
  | .text s, hclean, hback, hb, hrest, htotal => by
    obtain ⟨rest, rfl⟩ := List.head?_eq_some_iff.1 (hrest rfl)
    rw [back, Option.some.injEq] at hback
    rw [pieces]
    by_cases hs : s = ""
    · rw [if_pos hs] at hback
      rw [if_pos hs, ← hback, ← writtenText_eq_chars, Reader.writtenText_eq_nil_iff.2 hs]
      rfl
    · rw [if_neg hs] at hback
      rw [if_neg hs, ← hback, ← writtenText_eq_chars,
        read_of_text entities total expand (Reader.readMarkup_writtenText hclean hs rest)
          (by simp) (TextPart.ofText_writtenText entities hs),
        Builder.addText_of_not_endsInText (hb rfl), Builder.addAll_singleton]
  | .element name attributes [], hclean, hback, hb, hrest, htotal => by
    rw [Clean] at hclean
    obtain ⟨n, tag, children, htag, hchildren, rfl⟩ := back_element_eq_some_iff.1 hback
    obtain rfl : [] = children := Option.some.inj hchildren
    rw [tagChars_selfClosing] at htotal ⊢
    rw [pieces, read_tagChars entities total expand hclean.1 htag htotal]
    rfl
  | .element name attributes (f :: fs), hclean, hback, hb, hrest, htotal => by
    rw [Clean] at hclean
    obtain ⟨n, tag, children, htag, hchildren, rfl⟩ := back_element_eq_some_iff.1 hback
    obtain ⟨hname, named, hnamed, own, others, hbind, hresolve⟩ := tagBack_eq_some_iff.1 htag
    rw [tagChars_content] at htotal ⊢
    rw [add_pieces_content, read_tagChars entities total expand hclean.1 htag htotal]
    simp only [Bool.false_eq_true, if_false]
    rw [read_charsOf (b := b.openElement n.label tag) (f :: fs) hclean.2 hchildren
        (fun _ _ _ => rfl) (total_of_tagChars htotal),
      read_of_closeTag entities total expand (Reader.readMarkup_endTag hname rest) (by simp)
        (Builder.closeElement_addAll b (resolveTag_eq_some_iff.1 hresolve).localName children),
      if_neg (Nat.succ_ne_zero opened), Builder.addAll_singleton]

theorem read_charsOf {b : Builder} {start k opened : ℕ} {rest : List Char} {nodes : List Node} :
    ∀ fs : List Fragment, AllClean fs → backAll b.scope start fs = some nodes →
      (∀ f ∈ fs.head?, f.isText = true → b.endsInText = false) →
      total = start + (charsOf fs ++ '<' :: rest).length →
      read ⟨entities, total, 0, 0⟩ expand (k + piecesOf fs) (opened + 1) true b
          (charsOf fs ++ '<' :: rest) =
        read ⟨entities, total, 0, 0⟩ expand k (opened + 1) true (b.addAll nodes) ('<' :: rest)
  | [], _, hback, _, _ => by
    obtain rfl : [] = nodes := Option.some.inj hback
    rfl
  | f :: fs, hclean, hback, hb, htotal => by
    rw [AllClean] at hclean
    obtain ⟨hclean, hnext, hcleans⟩ := hclean
    obtain ⟨first, more, hfirst, hmore, rfl⟩ := backAll_cons_eq_some_iff.1 hback
    rw [charsOf_cons_append] at htotal ⊢
    rw [add_piecesOf_cons, read_chars f hclean hfirst (hb f rfl)
        (fun hf => head_charsOf_append (hnext hf) rest) htotal,
      read_charsOf fs hcleans (by rw [Builder.scope_addAll]; exact hmore)
        (endsInText_addAll hnext hfirst) (total_of_chars htotal),
      Builder.addAll_append]

end

end Content

/-! ## The whole document -/

namespace Prolog

/-- In front of a start tag there is nothing to skip. -/
theorem misc_of_isNameChar {c : Char} (hc : isNameChar c = true) (k : ℕ) (b : Builder)
    (cs : List Char) : misc (k + 1) b ('<' :: c :: cs) = some (b, '<' :: c :: cs) := by
  have hne : ∀ {d : Char}, isNameChar d = false → c ≠ d := by
    rintro d hd rfl
    simp [hc] at hd
  rw [misc, Reader.skipSpaces_of_head (by decide)]
  split
  · case h_1 heq =>
    injection heq with _ heq
    injection heq with heq
    exact absurd heq (hne (by decide))
  · case h_2 heq =>
    injection heq with _ heq
    injection heq with heq
    exact absurd heq (hne (by decide))
  · rfl

theorem misc_nil (k : ℕ) (b : Builder) : misc (k + 1) b [] = some (b, []) := rfl

end Prolog

namespace Fragment

variable {name : String} {attributes : List (String × String)} {content : List Fragment} {n : Node}

/-- The start tag of a root element is read as what it stands for. -/
theorem readRoot_tagChars {entities : List Entity} {r : RawName} {tag : Tag} {total : ℕ}
    {selfClosing : Bool} {rest : List Char} (hclean : ∀ a ∈ attributes, XmlText a.2)
    (htag : tagBack [] 0 name attributes = some (r, tag))
    (htotal : (tagChars name attributes ++ (Reader.tagEnd selfClosing ++ rest)).length = total) :
    Node.readRoot entities total .empty
        (tagChars name attributes ++ (Reader.tagEnd selfClosing ++ rest)) =
      if selfClosing then some (Builder.empty.add (.element tag []), rest)
      else Content.read ⟨entities, total, 0, 0⟩
        (Content.expandEntity entities total Reference.maxDepth 1) (rest.length + 1) 1 true
        (Builder.empty.openElement r.label tag) rest := by
  obtain ⟨hname, named, hnamed, own, others, hbind, htag⟩ := tagBack_eq_some_iff.1 htag
  have hread := Reader.readOpenTag_append hname hnamed hclean selfClosing rest
  rw [tagChars, List.cons_append, List.append_assoc] at htotal ⊢
  rw [Node.readRoot, hread, htotal]
  simp only [Reader.openTag, Nat.sub_self,
    Content.addElement_asRead (b := .empty) entities _ hbind htag]
  cases selfClosing <;> rfl

/-- Where the content of a root element begins. -/
theorem length_chars_content (name : String) (attributes : List (String × String)) (f : Fragment)
    (fs : List Fragment) : (element name attributes (f :: fs)).chars.length =
      0 + (tagChars name attributes).length + 1 +
        (charsOf (f :: fs) ++ '<' :: '/' :: (name.toList ++ ['>'])).length := by
  have hchars := tagChars_content name attributes f fs []
  rw [List.append_nil] at hchars
  refine total_of_tagChars ?_
  rw [hchars, Nat.zero_add]

/-- There are enough steps to read fragments and the end tag behind them. -/
theorem exists_steps_eq (fs : List Fragment) (rest : List Char) :
    ∃ k, (charsOf fs ++ '<' :: rest).length + 1 = k + 1 + piecesOf fs := by
  have hle : 1 + piecesOf fs ≤ (charsOf fs ++ '<' :: rest).length + 1 := by
    have := piecesOf_le_length fs
    rw [List.length_append]
    omega
  obtain ⟨k, hk⟩ := Nat.exists_eq_add_of_le' hle
  exact ⟨k, by rw [hk, Nat.add_assoc]⟩

/-- The root element is read. -/
theorem readRoot_chars (entities : List Entity) (hclean : (element name attributes content).Clean)
    (hback : (element name attributes content).back [] 0 = some [n]) :
    Node.readRoot entities (element name attributes content).chars.length .empty
      (element name attributes content).chars = some (⟨[], [n], 0⟩, []) := by
  rw [Clean] at hclean
  obtain ⟨r, tag, children, htag, hchildren, hnodes⟩ := back_element_eq_some_iff.1 hback
  obtain rfl := List.singleton_inj.1 hnodes
  cases content with
  | nil =>
    obtain rfl : [] = children := Option.some.inj hchildren
    have hchars := tagChars_selfClosing name attributes []
    rw [List.append_nil] at hchars
    rw [hchars, readRoot_tagChars hclean.1 htag rfl]
    rfl
  | cons f fs =>
    have hchars := tagChars_content name attributes f fs []
    rw [List.append_nil] at hchars
    obtain ⟨k, hk⟩ := exists_steps_eq (f :: fs) ('/' :: (name.toList ++ ['>']))
    have hcontent : Content.read ⟨entities, (element name attributes (f :: fs)).chars.length, 0, 0⟩
        (Content.expandEntity entities (element name attributes (f :: fs)).chars.length
          Reference.maxDepth 1) (k + 1 + piecesOf (f :: fs)) (0 + 1) true
        (.openElement .empty r.label tag) _ = _ :=
      Content.read_charsOf entities _ _ (f :: fs) hclean.2 hchildren (fun _ _ _ => rfl)
        (length_chars_content name attributes f fs)
    obtain ⟨hname, named, hnamed, own, others, hbind, htag'⟩ := tagBack_eq_some_iff.1 htag
    rw [hchars] at hcontent ⊢
    rw [readRoot_tagChars hclean.1 htag rfl, if_neg Bool.false_ne_true, hk, hcontent,
      Content.read_of_closeTag entities _ _ (Reader.readMarkup_endTag hname [])
        (by simp)
        (Builder.closeElement_addAll .empty (resolveTag_eq_some_iff.1 htag').localName children)]
    rfl

/-- A fragment begins with its name. -/
theorem exists_chars_eq (hback : (element name attributes content).back [] 0 = some [n]) :
    ∃ c cs, (element name attributes content).chars = '<' :: c :: cs ∧ isNameChar c = true := by
  obtain ⟨r, tag, children, htag, -⟩ := back_element_eq_some_iff.1 hback
  obtain ⟨c, cs, hcs, hc⟩ := Reader.exists_cons_of_rawName? (tagBack_eq_some_iff.1 htag).1
  cases content with
  | nil => exact ⟨c, _, by rw [chars, tagChars, hcs]; rfl, hc⟩
  | cons f fs => exact ⟨c, _, by rw [chars, tagChars, hcs]; rfl, hc⟩

/-- A text that begins with a start tag is a root element and what follows it. -/
theorem ofChars_of_isNameChar {c : Char} (hc : isNameChar c = true) (cs : List Char) :
    Node.ofChars ('<' :: c :: cs) =
      (Node.readRoot [] ('<' :: c :: cs).length .empty ('<' :: c :: cs)).bind fun r =>
        (Prolog.misc (r.2.length + 1) r.1 r.2).bind fun r =>
          if r.2.isEmpty then r.1.finish else none := by
  have hne : ∀ {d : Char}, isNameChar d = false → (d == c) = false := by
    rintro d hd
    refine beq_false_of_ne ?_
    rintro rfl
    simp [hc] at hd
  have hafter : ∀ {d : Char} (ds : List Char), isNameChar d = false →
      Reader.after? ('<' :: d :: ds) ('<' :: c :: cs) = none := by
    intro d ds hd
    simp [Reader.after?, hne hd]
  have hdeclaration := hafter ['x', 'm', 'l', ' '] (show isNameChar '?' = false by decide)
  have hdoctype :=
    hafter ['D', 'O', 'C', 'T', 'Y', 'P', 'E'] (show isNameChar '!' = false by decide)
  unfold Node.ofChars
  simp [hdeclaration, hdoctype, Prolog.misc_of_isNameChar hc,
    Reader.skipSpaces_of_head (show isSpace '<' = false by decide)]

/-- **What is written is read again.** -/
theorem ofText_render (hclean : (element name attributes content).Clean)
    (hback : (element name attributes content).back [] 0 = some [n]) :
    Node.ofText (element name attributes content).render = some (.root [n]) := by
  obtain ⟨c, cs, hcs, hc⟩ := exists_chars_eq hback
  have hroot := readRoot_chars [] hclean hback
  have helement : n.isElement = true := by
    obtain ⟨tag, children, hn⟩ := eq_singleton_of_back rfl hback
    rw [List.singleton_inj.1 hn]
    rfl
  rw [hcs] at hroot
  rw [Node.ofText, toList_render, hcs, ofChars_of_isNameChar hc, hroot]
  simp [Prolog.misc_nil, Builder.finish, helement]

end Fragment

end XmlConformance.Xml
