import XmlConformance.Proofs.Xml.Pieces
import XmlConformance.Xml.Document

/-!
# Proofs/Xml/Preserving — what reading a document preserves

A document is read by adding one piece after the other to a tree under construction. What adding a
single piece preserves (`Builder.Preserved`) holds of the whole tree when the text is at its end
(`Builder.Preserved.exists_finish`). The loops of the parser are gone through here once and for all;
a property of documents that does not depend on the order of the pieces needs no other induction.

The values of entities are the only thing that the prolog hands on. They are parts of the text, and
nobody looks at their characters until they are used; that is why a property of characters goes
along.
-/

namespace XmlConformance.Xml

/-- Entities whose values are made of characters of a kind. -/
abbrev ValuesIn (Q : Char → Prop) (entities : List Entity) : Prop :=
  ∀ e ∈ entities, ∀ c ∈ e.value, Q c

/-- **A property of trees under construction that adding a piece preserves**, when the values of
entities are made of characters of a kind. -/
structure Builder.Preserved (Q : Char → Prop) (P : Builder → Prop) : Prop where
  empty : P .empty
  counted : ∀ {b : Builder} (followed : ℕ), P b → P { b with followed := followed }
  comment : ∀ {b : Builder} {text : List Char}, XmlChars text → P b →
    P (b.add (.comment (String.ofList text)))
  instruction : ∀ {b : Builder} {target value : List Char}, XmlChars target → XmlChars value →
    P b → P (b.add (.instruction (String.ofList target) (String.ofList value)))
  text : ∀ {b : Builder} {cs : List Char}, XmlChars cs → P b → P (b.addText (String.ofList cs))
  element : ∀ {ctx : Content.Context} {name : RawName} {attributes : List RawAttribute}
    {selfClosing : Bool} {start : ℕ} {b b' : Builder} {cs rest : List Char},
    ValuesIn Q ctx.entities →
      Reader.readOpenTag cs = some (.openTag name attributes selfClosing, rest) →
      Content.addElement ctx name attributes selfClosing start b = some b' → P b → P b'
  close : ∀ {name : RawName} {b b' : Builder}, b.closeElement name = some b' → P b → P b'

/-! ## Start tags among the markup -/

/-- An element is only opened by what is read as a start tag. -/
theorem Reader.exists_readOpenTag {cs rest : List Char} {name : RawName}
    {attributes : List RawAttribute} {selfClosing : Bool}
    (h : readMarkup cs = some (.openTag name attributes selfClosing, rest)) :
    ∃ behind, readOpenTag behind = some (.openTag name attributes selfClosing, rest) := by
  unfold readMarkup at h
  split at h
  · obtain ⟨_, -, heq⟩ := Option.map_eq_some_iff.1 h
    cases heq
  · obtain ⟨_, -, heq⟩ := Option.map_eq_some_iff.1 h
    cases heq
  · cases h
  · obtain ⟨_, -, heq⟩ := Option.map_eq_some_iff.1 h
    cases heq
  · unfold readCloseTag at h
    split at h
    · cases h
    · split at h <;> cases h
  · exact ⟨_, h⟩
  · obtain ⟨-, heq⟩ := Option.ite_none_right_eq_some.1 h
    cases heq

/-! ## What is left of a text in front of the root element -/

namespace Prolog

open Reader

variable {cs rest : List Char}

theorem misc_suffix : ∀ {n : ℕ} {b b' : Builder} {cs rest : List Char},
    misc n b cs = some (b', rest) → rest <:+ cs
  | 0, _, _, _, _, h => by
    cases h
    exact List.suffix_refl _
  | n + 1, b, b', cs, rest, h => by
    have hskip := skipSpaces_suffix cs
    unfold misc at h
    split at h
    · case h_1 opened heq =>
      rw [heq] at hskip
      split at h
      · case h_1 text behind hread =>
        exact (misc_suffix h).trans ((readComment_eq_some hread).2.trans
          ((List.suffix_append ['<', '!', '-', '-'] opened).trans hskip))
      · cases h
    · case h_2 opened heq =>
      rw [heq] at hskip
      split at h
      · case h_1 target value behind hread =>
        exact (misc_suffix h).trans ((readInstruction_eq_some hread).2.2.trans
          ((List.suffix_append ['<', '?'] opened).trans hskip))
      · cases h
    · cases h
      exact hskip

theorem declarationSpace_suffix (h : declarationSpace cs = some rest) : rest <:+ cs := by
  unfold declarationSpace at h
  split at h
  · cases h
    exact List.suffix_refl _
  · cases h
    exact List.suffix_refl _
  · exact needSpaces_suffix h

theorem parameter?_suffix {name : String} (h : parameter? name cs = some rest) : rest <:+ cs := by
  unfold parameter? at h
  split at h
  · obtain ⟨⟨a, rest'⟩, hread, rfl⟩ := Option.map_eq_some_iff.1 h
    exact (readAttribute_eq_some hread).2
  · cases h

theorem declaration_suffix (h : declaration cs = some rest) : rest <:+ cs := by
  have hend : ∀ {r : List Char}, after? ['?', '>'] (skipSpaces r) = some rest → rest <:+ r :=
    fun h => (after?_suffix h).trans (skipSpaces_suffix _)
  have hstandalone : ∀ {r : List Char}, (if startsWith "standalone" r then
        (parameter? "standalone" r).bind fun rest => after? ['?', '>'] (skipSpaces rest)
      else (some r).bind fun rest => after? ['?', '>'] (skipSpaces rest)) = some rest →
        rest <:+ r := by
    intro r h
    split at h
    · obtain ⟨r', hr', h⟩ := Option.bind_eq_some_iff.1 h
      exact (hend h).trans (parameter?_suffix hr')
    · exact hend h
  simp only [declaration, Option.bind_eq_bind, Option.bind_eq_some_iff] at h
  obtain ⟨r₁, h₁, r₂, h₂, r₃, h₃, h⟩ := h
  have hencoding : rest <:+ r₃ := by
    split at h
    · obtain ⟨r, hr, h⟩ := Option.bind_eq_some_iff.1 h
      obtain ⟨r', hr', hr⟩ := Option.bind_eq_some_iff.1 hr
      exact (hstandalone h).trans ((declarationSpace_suffix hr).trans (parameter?_suffix hr'))
    · exact hstandalone h
  exact hencoding.trans ((declarationSpace_suffix h₃).trans
    ((parameter?_suffix h₂).trans (declarationSpace_suffix h₁)))

theorem quotedLiteral_eq_some {value : List Char} (h : quotedLiteral cs = some (value, rest)) :
    value ⊆ cs ∧ rest <:+ cs := by
  simp only [quotedLiteral, Option.bind_eq_bind, Option.bind_eq_some_iff, Prod.exists] at h
  obtain ⟨mark, quoted, hquote, h⟩ := h
  have hquoted := readQuote_suffix hquote
  split at h
  · case h_1 c behind heq =>
    cases h
    have hbehind := List.dropWhile_suffix (l := quoted) (· != mark)
    rw [heq] at hbehind
    exact ⟨List.Subset.trans (List.takeWhile_subset _) hquoted.subset,
      ((List.suffix_cons c _).trans hbehind).trans hquoted⟩
  · cases h

theorem externalId_suffix {found : Bool} (h : externalId cs = some (found, rest)) :
    rest <:+ cs := by
  unfold externalId at h
  split at h
  · case h_1 behind hafter =>
    simp only [Option.bind_eq_bind, Option.bind_eq_some_iff, Prod.exists] at h
    obtain ⟨spaced, hspaced, value, rest', hliteral, h⟩ := h
    cases h
    exact (quotedLiteral_eq_some hliteral).2.trans
      ((needSpaces_suffix hspaced).trans (after?_suffix hafter))
  · case h_2 behind _ hafter =>
    simp only [Option.bind_eq_bind, Option.bind_eq_some_iff, Prod.exists] at h
    obtain ⟨spaced, hspaced, value, middle, hliteral, spaced', hspaced', value', rest', hliteral',
      h⟩ := h
    cases h
    exact (quotedLiteral_eq_some hliteral').2.trans ((needSpaces_suffix hspaced').trans
      ((quotedLiteral_eq_some hliteral).2.trans
        ((needSpaces_suffix hspaced).trans (after?_suffix hafter))))
  · cases h
    exact List.suffix_refl _

theorem entityDefinition_eq_some {general : Bool} {definition : Option (List Char × List Char)}
    (h : entityDefinition general cs = some (definition, rest)) :
    (∀ d ∈ definition, d.1 ⊆ cs) ∧ rest <:+ cs := by
  unfold entityDefinition at h
  split at h
  · cases h
  · split at h
    · obtain ⟨⟨value, rest'⟩, hliteral, heq⟩ := Option.map_eq_some_iff.1 h
      cases heq
      refine ⟨fun d hd => ?_, (quotedLiteral_eq_some hliteral).2⟩
      cases hd
      exact (quotedLiteral_eq_some hliteral).1
    · split at h
      · split at h
        · case h_1 behind hexternal =>
          have hbehind := externalId_suffix hexternal
          split at h
          · case h_1 named hafter =>
            have hnamed := (after?_suffix hafter).trans ((skipSpaces_suffix _).trans hbehind)
            split at h
            · simp only [Option.bind_eq_bind, Option.bind_eq_some_iff, Prod.exists] at h
              obtain ⟨spaced, hspaced, name, rest', hname, h⟩ := h
              cases h
              exact ⟨nofun, (readName_eq_some hname).2.trans
                ((needSpaces_suffix hspaced).trans hnamed)⟩
            · cases h
              exact ⟨nofun, hbehind⟩
          · cases h
            exact ⟨nofun, hbehind⟩
        · cases h
      · cases h

/-- What is declared behind `<!ENTITY` and the sign of a parameter. -/
theorem namedEntity_eq_some {general : Bool} {e : Option Entity}
    (h : ((readName cs).bind fun n => (needSpaces n.2).bind fun r =>
      (entityDefinition general r).bind fun d => match skipSpaces d.2 with
        | '>' :: rest => some (d.1.map fun v => ⟨String.ofList n.1, v.1, v.2.length + 1⟩, rest)
        | _ => none) = some (e, rest)) :
    (∀ e' ∈ e, e'.value ⊆ cs) ∧ rest <:+ cs := by
  simp only [Option.bind_eq_some_iff, Prod.exists] at h
  obtain ⟨name, behind, hname, spaced, hspaced, definition, defined, hdefinition, h⟩ := h
  have hstart := (needSpaces_suffix hspaced).trans (readName_eq_some hname).2
  obtain ⟨hvalue, hdefined⟩ := entityDefinition_eq_some hdefinition
  have hskip := (skipSpaces_suffix defined).trans (hdefined.trans hstart)
  split at h
  · case h_1 rest' heq =>
    rw [heq] at hskip
    cases h
    refine ⟨fun e' he' => ?_, (List.suffix_cons _ _).trans hskip⟩
    obtain ⟨d, hd, rfl⟩ := Option.map_eq_some_iff.1 he'
    exact List.Subset.trans (hvalue d hd) hstart.subset
  · cases h

/-- **The value of an entity is a part of its declaration.** -/
theorem entityDeclaration_eq_some {e : Option Entity} (h : entityDeclaration cs = some (e, rest)) :
    (∀ e' ∈ e, e'.value ⊆ cs) ∧ rest <:+ cs := by
  have hnamed {r : List Char} (hr : r <:+ cs) (h : (∀ e' ∈ e, e'.value ⊆ r) ∧ rest <:+ r) :
      (∀ e' ∈ e, e'.value ⊆ cs) ∧ rest <:+ cs :=
    ⟨fun e' he' => List.Subset.trans (h.1 e' he') hr.subset, h.2.trans hr⟩
  simp only [entityDeclaration, Option.bind_eq_bind, Option.bind_eq_some_iff] at h
  obtain ⟨spaced, hspaced, h⟩ := h
  have hspaced := needSpaces_suffix hspaced
  split at h
  · obtain ⟨⟨general, r⟩, hr, h⟩ := Option.bind_eq_some_iff.1 h
    obtain ⟨r', hr', heq⟩ := Option.map_eq_some_iff.1 hr
    cases heq
    have hsign := (needSpaces_suffix hr').trans ((List.suffix_cons _ _).trans hspaced)
    exact hnamed hsign (namedEntity_eq_some h)
  · exact hnamed hspaced (namedEntity_eq_some h)

end Prolog

/-! ## Documents, part by part -/

namespace Node

/-- Reads the root element of a document and what follows it. -/
def readEnd (total : ℕ) (s : Prolog.State) (cs : List Char) : Option Node := do
  let (b, cs) ← readRoot s.entities total s.builder (Reader.skipSpaces cs)
  let (b, cs) ← Prolog.misc (cs.length + 1) b cs
  if cs.isEmpty then b.finish else none

/-- Reads a document behind its declaration. -/
def readBody (total : ℕ) (cs : List Char) : Option Node := do
  let (b, cs) ← Prolog.misc (cs.length + 1) .empty cs
  match Reader.after? "<!DOCTYPE".toList cs with
  | some rest =>
    let (s, rest) ← Prolog.doctype b rest
    let (b, rest) ← Prolog.misc (rest.length + 1) s.builder rest
    readEnd total { s with builder := b } rest
  | none => readEnd total ⟨[], b⟩ cs

/-- A text without the mark that says how it is encoded. -/
def withoutMark (text : List Char) : List Char :=
  match text with
  | c :: rest => if c.toNat = 0xfeff then rest else text
  | [] => []

theorem ofChars_eq (text : List Char) : ofChars text =
    match Reader.after? "<?xml ".toList (withoutMark text) with
    | some rest => (Prolog.declaration (' ' :: rest)).bind (readBody text.length)
    | none => readBody text.length (withoutMark text) :=
  rfl

end Node

namespace Builder.Preserved

open Reader

variable {Q : Char → Prop} {P : Builder → Prop} {b b' : Builder} {cs rest : List Char}

/-! ## Content -/

section Content

variable {ctx : Content.Context} {expand : Entity → Builder → Option Builder}

theorem addParts (h : Preserved Q P)
    (hexpand : ∀ e b b', expand e b = some b' → e ∈ ctx.entities → P b → P b') :
    ∀ {parts : List TextPart} {b : Builder}, (∀ part ∈ parts, part.Clean ctx.entities) →
      Content.addParts ctx expand parts b = some b' → P b → P b'
  | [], _, _, hadd, hb => by
    cases hadd
    exact hb
  | .characters cs :: rest, _, hparts, hadd, hb => by
    rw [List.forall_mem_cons] at hparts
    rw [Content.addParts] at hadd
    exact h.addParts hexpand hparts.2 hadd (h.text hparts.1 hb)
  | .entity e :: rest, b, hparts, hadd, hb => by
    rw [List.forall_mem_cons] at hparts
    rw [Content.addParts] at hadd
    split at hadd
    · cases hadd
    · case h_2 followed _ =>
      split at hadd
      · cases hadd
      · case h_2 between hbetween =>
        have hread := hexpand e _ _ hbetween hparts.1 (h.counted followed hb)
        exact h.addParts hexpand hparts.2 hadd (h.counted _ hread)

/-- **Reading content** preserves what adding a piece does. -/
theorem read (h : Preserved Q P) (hentities : ValuesIn Q ctx.entities)
    (hexpand : ∀ e b b', expand e b = some b' → e ∈ ctx.entities → P b → P b') :
    ∀ {n opened : ℕ} {named : Bool} {b : Builder} {cs rest : List Char},
      Content.read ctx expand n opened named b cs = some (b', rest) → P b → P b'
  | 0, _, _, _, _, _, hread, _ => by cases hread
  | n + 1, _, _, b, [], _, hread, hb => by
    cases hread
    exact hb
  | n + 1, opened, named, b, c :: cs, _, hread, hb => by
    unfold Content.read at hread
    split at hread
    · cases hread
    · case h_2 text rest hmarkup =>
      exact h.read hentities hexpand hread (h.comment (clean_readMarkup hmarkup) hb)
    · case h_3 target value rest hmarkup =>
      obtain ⟨htarget, hvalue⟩ := clean_readMarkup hmarkup
      exact h.read hentities hexpand hread (h.instruction htarget hvalue hb)
    · case h_4 text rest hmarkup =>
      have htext := LineEnd.xmlChars_normalize (clean_readMarkup hmarkup)
      exact h.read hentities hexpand hread (h.text htext hb)
    · case h_5 raw rest hmarkup =>
      split at hread
      · cases hread
      · case h_2 between hbetween =>
        obtain ⟨parts, hparts, hbetween⟩ := Option.bind_eq_some_iff.1 hbetween
        have hclean := TextPart.clean_ofText (clean_readMarkup hmarkup) hparts
        exact h.read hentities hexpand hread (h.addParts hexpand hclean hbetween hb)
    · case h_6 name attributes selfClosing rest hmarkup =>
      dsimp only at hread
      split at hread
      · cases hread
      · case h_2 between hbetween =>
        obtain ⟨_, htag⟩ := exists_readOpenTag hmarkup
        exact h.read hentities hexpand hread (h.element hentities htag hbetween hb)
    · case h_7 name rest hmarkup =>
      split at hread
      · split at hread
        · cases hread
        · case h_2 closed hclosed =>
          cases hread
          exact h.close hclosed hb
        · case h_3 closed _ hclosed =>
          split at hread
          · cases hread
            exact h.close hclosed hb
          · exact h.read hentities hexpand hread (h.close hclosed hb)
      · cases hread

theorem expandEntity (h : Preserved Q P) {entities : List Entity} (hentities : ValuesIn Q entities)
    (total : ℕ) : ∀ (left depth : ℕ) (e : Entity) (b b' : Builder),
      Content.expandEntity entities total left depth e b = some b' → P b → P b'
  | 0, _, _, _, _, hread, _ => by cases hread
  | left + 1, depth, e, b, b', hread, hb => by
    rw [Content.expandEntity] at hread
    obtain ⟨⟨b'', rest⟩, hcontent, rfl⟩ := Option.map_eq_some_iff.1 hread
    refine h.read ?_ ?_ hcontent hb
    · exact hentities
    · exact fun e b b' hread _ => h.expandEntity hentities total left (depth + 1) e b b' hread

end Content

/-! ## The prolog -/

theorem misc (h : Preserved Q P) : ∀ {n : ℕ} {b b' : Builder} {cs rest : List Char},
    Prolog.misc n b cs = some (b', rest) → P b → P b'
  | 0, _, _, _, _, hread, hb => by
    cases hread
    exact hb
  | n + 1, b, b', cs, rest, hread, hb => by
    unfold Prolog.misc at hread
    split at hread
    · split at hread
      · case h_1 hcomment =>
        exact h.misc hread (h.comment (readComment_eq_some hcomment).1 hb)
      · cases hread
    · split at hread
      · case h_1 hinstruction =>
        obtain ⟨htarget, hvalue, -⟩ := readInstruction_eq_some hinstruction
        exact h.misc hread (h.instruction htarget hvalue hb)
      · cases hread
    · cases hread
      exact hb

/-- The declarations of a document type preserve what adding a piece does, and the values of
entities are made of characters of the text. -/
theorem subset (h : Preserved Q P) : ∀ {n : ℕ} {s s' : Prolog.State} {cs rest : List Char},
    (∀ c ∈ cs, Q c) → Prolog.subset n s cs = some (s', rest) →
      ValuesIn Q s.entities → P s.builder → ValuesIn Q s'.entities ∧ P s'.builder
  | 0, _, _, _, _, _, hread, _, _ => by cases hread
  | n + 1, s, s', cs, rest, hcs, hread, hs, hb => by
    have hskip := skipSpaces_suffix cs
    have next {s₁ : Prolog.State} {left : List Char} (hleft : left <:+ cs)
        (hread : Prolog.subset n s₁ left = some (s', rest)) (hs₁ : ValuesIn Q s₁.entities)
        (hb₁ : P s₁.builder) : ValuesIn Q s'.entities ∧ P s'.builder :=
      h.subset (fun c hc => hcs c (hleft.subset hc)) hread hs₁ hb₁
    unfold Prolog.subset at hread
    split at hread
    · cases hread
      exact ⟨hs, hb⟩
    · split at hread
      · cases hread
        exact ⟨hs, hb⟩
      · cases hread
    · case h_3 opened heq =>
      rw [heq] at hskip
      split at hread
      · case h_1 text behind hcomment =>
        obtain ⟨htext, hbehind⟩ := readComment_eq_some hcomment
        have hleft := hbehind.trans ((List.suffix_append ['<', '!', '-', '-'] opened).trans hskip)
        exact next hleft hread hs (h.comment htext hb)
      · cases hread
    · case h_4 opened heq =>
      rw [heq] at hskip
      split at hread
      · case h_1 target value behind hinstruction =>
        obtain ⟨htarget, hvalue, hbehind⟩ := readInstruction_eq_some hinstruction
        have hleft := hbehind.trans ((List.suffix_append ['<', '?'] opened).trans hskip)
        exact next hleft hread hs (h.instruction htarget hvalue hb)
      · cases hread
    · split at hread
      · case h_1 behind hafter =>
        have hbehind := (after?_suffix hafter).trans hskip
        split at hread
        · case h_1 e left hdeclared =>
          obtain ⟨hvalue, hleft⟩ := Prolog.entityDeclaration_eq_some hdeclared
          have hdeclared : ValuesIn Q (s.entities ++ e.toList) :=
            List.forall_mem_append.2 ⟨hs, fun e' he' c hc =>
              hcs c (hbehind.subset (hvalue e' (Option.mem_toList.1 he') hc))⟩
          exact next (hleft.trans hbehind) hread hdeclared hb
        · cases hread
      · split at hread
        · split at hread
          · case h_1 c behind heq =>
            have hbehind := List.dropWhile_suffix (l := skipSpaces cs) (· != '>')
            rw [heq] at hbehind
            exact next ((List.suffix_cons c _).trans (hbehind.trans hskip)) hread hs hb
          · cases hread
        · cases hread

theorem doctype (h : Preserved Q P) {s : Prolog.State} (hcs : ∀ c ∈ cs, Q c)
    (hread : Prolog.doctype b cs = some (s, rest)) (hb : P b) :
    ValuesIn Q s.entities ∧ P s.builder := by
  have hnone : ValuesIn Q ([] : List Entity) := List.forall_mem_nil _
  simp only [Prolog.doctype, Option.bind_eq_bind, Option.bind_eq_some_iff, Prod.exists] at hread
  obtain ⟨r₁, h₁, name, r₂, h₂, found, r₃, h₃, hread⟩ := hread
  have hleft : skipSpaces r₃ <:+ cs :=
    (skipSpaces_suffix _).trans ((Prolog.externalId_suffix h₃).trans
      ((skipSpaces_suffix _).trans ((readName_eq_some h₂).2.trans (needSpaces_suffix h₁))))
  split at hread
  · cases hread
    exact ⟨hnone, hb⟩
  · case h_2 behind heq =>
    rw [heq] at hleft
    have hbehind : ∀ c ∈ behind, Q c := fun c hc =>
      hcs c (hleft.subset (List.mem_cons_of_mem _ hc))
    exact h.subset hbehind hread hnone hb
  · cases hread

/-! ## Documents -/

theorem readRoot (h : Preserved Q P) {entities : List Entity} (hentities : ValuesIn Q entities)
    {total : ℕ} (hread : Node.readRoot entities total b cs = some (b', rest)) (hb : P b) :
    P b' := by
  unfold Node.readRoot at hread
  split at hread
  · split at hread
    · case h_1 name attributes selfClosing behind htag =>
      dsimp only at hread
      split at hread
      · cases hread
      · case h_2 opened hopened =>
        have hopened : P opened := by
          refine h.element ?_ htag hopened hb
          exact hentities
        split at hread
        · cases hread
          exact hopened
        · refine h.read ?_ ?_ hread hopened
          · exact hentities
          · exact fun e b b' hread _ => h.expandEntity hentities total _ _ e b b' hread
    · cases hread
  · cases hread
    exact hb

theorem readEnd (h : Preserved Q P) {total : ℕ} {s : Prolog.State} {root : Node}
    (hread : Node.readEnd total s cs = some root) (hs : ValuesIn Q s.entities)
    (hb : P s.builder) : ∃ b, P b ∧ b.finish = some root := by
  simp only [Node.readEnd, Option.bind_eq_bind, Option.bind_eq_some_iff, Prod.exists] at hread
  obtain ⟨b, behind, hroot, b', left, hmisc, hread⟩ := hread
  obtain ⟨-, hread⟩ := Option.ite_none_right_eq_some.1 hread
  exact ⟨b', h.misc hmisc (h.readRoot hs hroot hb), hread⟩

theorem readBody (h : Preserved Q P) {total : ℕ} {root : Node} (hcs : ∀ c ∈ cs, Q c)
    (hread : Node.readBody total cs = some root) : ∃ b, P b ∧ b.finish = some root := by
  simp only [Node.readBody, Option.bind_eq_bind, Option.bind_eq_some_iff, Prod.exists] at hread
  obtain ⟨b, behind, hmisc, hread⟩ := hread
  have hb := h.misc hmisc h.empty
  split at hread
  · case h_1 rest hafter =>
    obtain ⟨⟨s, left⟩, hdoctype, hread⟩ := Option.bind_eq_some_iff.1 hread
    obtain ⟨⟨b', left'⟩, hmisc', hread⟩ := Option.bind_eq_some_iff.1 hread
    have hleft : rest <:+ cs := (after?_suffix hafter).trans (Prolog.misc_suffix hmisc)
    obtain ⟨hs, hb'⟩ := h.doctype (fun c hc => hcs c (hleft.subset hc)) hdoctype hb
    exact h.readEnd hread hs (h.misc hmisc' hb')
  · exact h.readEnd hread (List.forall_mem_nil _) hb

/-- **A document is the end of a construction that preserves what adding a piece does.** -/
theorem exists_finish (h : Preserved Q P) {text : String} {root : Node} (hspace : Q ' ')
    (htext : ∀ c ∈ text.toList, Q c) (hread : Node.ofText text = some root) :
    ∃ b, P b ∧ b.finish = some root := by
  have hmark : ∀ c ∈ Node.withoutMark text.toList, Q c := by
    unfold Node.withoutMark
    split
    · case h_1 c rest heq =>
      split
      · exact fun d hd => htext d (heq ▸ List.mem_cons_of_mem c hd)
      · exact htext
    · exact List.forall_mem_nil _
  rw [Node.ofText, Node.ofChars_eq] at hread
  split at hread
  · case h_1 rest hafter =>
    obtain ⟨cs, hcs, hread⟩ := Option.bind_eq_some_iff.1 hread
    refine h.readBody (fun c hc => ?_) hread
    obtain rfl | hc := List.mem_cons.1 ((Prolog.declaration_suffix hcs).subset hc)
    · exact hspace
    · exact hmark c ((after?_suffix hafter).subset hc)
  · exact h.readBody hmark hread

end Builder.Preserved

end XmlConformance.Xml
