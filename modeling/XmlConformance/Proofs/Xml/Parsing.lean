import XmlConformance.Proofs.Xml.Contents
import XmlConformance.Proofs.Xml.Preserving
import XmlConformance.Proofs.Xml.Tags

/-!
# Proofs/Xml/Parsing — clean texts are read as clean trees

The tree of a well-formed text is clean if the text is made of characters that a document may hold
(`Node.clean_ofText`). Reading a piece of content keeps the tree under construction clean
(`Builder.Clean.preserved`), whatever entity it is taken from.
-/

namespace XmlConformance.Xml

/-! ## The tree under construction -/

/-- A tree under construction whose tags and nodes can be written. -/
structure Builder.Clean (b : Builder) : Prop where
  frames : ∀ f ∈ b.frames, f.tag.Clean ∧ ∀ n ∈ f.reversed, n.Clean
  reversed : ∀ n ∈ b.reversed, n.Clean

namespace Builder.Clean

variable {b : Builder}

theorem empty : Builder.empty.Clean := ⟨nofun, nofun⟩

theorem counted (h : b.Clean) (followed : ℕ) : Builder.Clean { b with followed := followed } :=
  ⟨h.frames, h.reversed⟩

theorem scope (h : b.Clean) : ∀ d ∈ b.scope, d.Clean := by
  unfold Builder.scope
  split
  · case h_1 f outer heq =>
    have hframes := h.frames
    rw [heq, List.forall_mem_cons] at hframes
    exact hframes.1.1.scope
  · exact nofun

theorem add (h : b.Clean) {n : Node} (hn : n.Clean) : (b.add n).Clean := by
  unfold Builder.add
  split
  · case h_1 f outer heq =>
    have hframes := h.frames
    rw [heq, List.forall_mem_cons] at hframes
    exact ⟨List.forall_mem_cons.2
      ⟨⟨hframes.1.1, List.forall_mem_cons.2 ⟨hn, hframes.1.2⟩⟩, hframes.2⟩, h.reversed⟩
  · exact ⟨h.frames, List.forall_mem_cons.2 ⟨hn, h.reversed⟩⟩

theorem addTextTo {reversed : List Node} (h : ∀ n ∈ reversed, n.Clean) {s : String}
    (hs : XmlText s) : ∀ n ∈ Builder.addTextTo reversed s, n.Clean := by
  unfold Builder.addTextTo
  split
  · case h_1 t before =>
    rw [List.forall_mem_cons] at h
    have ht : XmlText t := h.1
    exact List.forall_mem_cons.2 ⟨ht.append hs, h.2⟩
  · exact List.forall_mem_cons.2 ⟨hs, h⟩

theorem addText (h : b.Clean) {s : String} (hs : XmlText s) : (b.addText s).Clean := by
  unfold Builder.addText
  split
  · case h_1 f outer heq =>
    have hframes := h.frames
    rw [heq, List.forall_mem_cons] at hframes
    exact ⟨List.forall_mem_cons.2 ⟨⟨hframes.1.1, addTextTo hframes.1.2 hs⟩, hframes.2⟩, h.reversed⟩
  · exact ⟨h.frames, addTextTo h.reversed hs⟩

theorem openElement (h : b.Clean) (label : String) {tag : Tag} (htag : tag.Clean) :
    (b.openElement label tag).Clean :=
  ⟨List.forall_mem_cons.2 ⟨⟨htag, nofun⟩, h.frames⟩, h.reversed⟩

theorem closeElement (h : b.Clean) {name : RawName} {b' : Builder}
    (hb : b.closeElement name = some b') : b'.Clean := by
  unfold Builder.closeElement at hb
  split at hb
  · case h_1 f outer heq =>
    have hframes := h.frames
    rw [heq, List.forall_mem_cons] at hframes
    split at hb
    · cases hb
      have houter : Builder.Clean { b with frames := outer } := ⟨hframes.2, h.reversed⟩
      exact houter.add ⟨hframes.1.1,
        Node.allClean_iff.2 fun n hn => hframes.1.2 n (List.mem_reverse.1 hn)⟩
    · cases hb
  · cases hb

theorem finish (h : b.Clean) {root : Node} (hroot : b.finish = some root) : root.Clean := by
  obtain ⟨-, hroot⟩ := Option.ite_none_right_eq_some.1 hroot
  rw [← Option.some_inj.1 hroot]
  exact Node.allClean_iff.2 fun n hn => h.reversed n (List.mem_reverse.1 hn)

end Builder.Clean

/-! ## Tags -/

section Tags

variable {scope inherited own : List Declaration}

theorem xmlText_xmlUri : XmlText xmlUri := by decide

theorem mem_scopeWithin {d : Declaration} (h : d ∈ scopeWithin inherited own) :
    d ∈ inherited ∨ d ∈ own := by
  have hall : ∀ d ∈ scopeWithin inherited own, d ∈ inherited ∨ d ∈ own :=
    scopeWithin_induction (P := fun scope => ∀ d ∈ scope, d ∈ inherited ∨ d ∈ own)
      (fun _ => .inl) (fun _ => .inr) fun _ hd _ _ hscope =>
        List.forall_mem_append.2 ⟨hscope, List.forall_mem_singleton.2 (.inl hd)⟩
  exact hall d h

theorem clean_of_bindingOf {name : RawName} {value : String} {d : Declaration} (hname : name.Clean)
    (hvalue : XmlText value) (h : bindingOf own name value = .declares d) : d.Clean := by
  cases binds_of_bindingOf h with
  | label =>
    refine ⟨fun l hl => ?_, hvalue⟩
    obtain rfl := Option.some.inj hl
    exact hname.localName
  | default => exact ⟨nofun, hvalue⟩

/-- **The declarations and the other attributes of a start tag are clean**. -/
theorem clean_sortAttributes {entities : List Entity} (hentities : CleanEntities entities)
    {depth followed followed' : ℕ} {attributes : List RawAttribute}
    {others : List (RawName × String)} (hattributes : ∀ a ∈ attributes, a.Clean)
    (h : sortAttributes entities depth attributes [] [] followed =
      some (own, others, followed')) :
    (∀ d ∈ own, d.Clean) ∧ ∀ a ∈ others, a.1.Clean ∧ XmlText a.2 := by
  have hvalue : ∀ a ∈ attributes, ∀ value, a.ReadAs entities depth value → XmlText value := by
    rintro a ha _ ⟨cs, _, _, hcs, rfl⟩
    exact AllChars.ofList_iff.2
      (AttributeValue.xmlChars_expandAt hentities (hattributes a ha).value hcs)
  refine preserved_sortAttributes (P := fun own => ∀ d ∈ own, d.Clean)
    (fun a ha own value d hread hd hown => ?_) (fun a ha own value hread _ => ?_)
    (List.forall_mem_nil _) (List.forall_mem_nil _) h
  · exact List.forall_mem_append.2 ⟨hown, List.forall_mem_singleton.2
      (clean_of_bindingOf (hattributes a ha).name (hvalue a ha value hread) hd)⟩
  · exact ⟨(hattributes a ha).name, hvalue a ha value hread⟩

theorem xmlText_of_elementUri (hscope : ∀ d ∈ scope, d.Clean) {label : String}
    {uri : Option String} (h : elementUri scope label = some uri) : ∀ u ∈ uri, XmlText u := by
  unfold elementUri at h
  dsimp only at h
  split at h
  · case h_1 d hd =>
    cases h
    intro u hu
    cases hu
    exact (hscope d (List.mem_of_find?_eq_some hd)).uri
  · split at h
    · cases h
      exact nofun
    · cases h

theorem xmlText_of_attributeUri (hscope : ∀ d ∈ scope, d.Clean) {label : String}
    {uri : Option String} (h : attributeUri scope label = some uri) : ∀ u ∈ uri, XmlText u := by
  unfold attributeUri at h
  split at h
  · cases h
    intro u hu
    cases hu
    exact xmlText_xmlUri
  · split at h
    · cases h
      exact nofun
    · obtain ⟨d, hd, rfl⟩ := Option.map_eq_some_iff.1 h
      intro u hu
      cases hu
      exact (hscope d (List.mem_of_find?_eq_some hd)).uri

theorem clean_resolveAttributes (hscope : ∀ d ∈ scope, d.Clean) {others : List (RawName × String)}
    {attributes : List Attribute} (hothers : ∀ a ∈ others, a.1.Clean ∧ XmlText a.2)
    (h : resolveAttributes scope [] others = some attributes) : ∀ a ∈ attributes, a.Clean := by
  intro b hb
  obtain ⟨a, ha, huri, hlocal, hvalue⟩ := exists_mem_of_resolveAttributes h b hb
  obtain ⟨hname, hclean⟩ := hothers a ha
  refine ⟨⟨xmlText_of_attributeUri hscope huri, ?_⟩, ?_⟩
  · rw [hlocal]
    exact hname.localName
  · rw [hvalue]
    exact hclean

/-- **A tag is clean** if the declarations in scope and what it was written with are. -/
theorem clean_resolveTag {name : RawName} {others : List (RawName × String)} {start : ℕ}
    {tag : Tag} (hinherited : ∀ d ∈ inherited, d.Clean) (hown : ∀ d ∈ own, d.Clean)
    (hname : name.Clean) (hothers : ∀ a ∈ others, a.1.Clean ∧ XmlText a.2)
    (h : resolveTag inherited own name others start = some tag) : tag.Clean := by
  have hscope : ∀ d ∈ scopeWithin inherited own, d.Clean := fun d hd =>
    (mem_scopeWithin hd).elim (hinherited d) (hown d)
  have hstart := resolveTag_eq_some_iff.1 h
  rw [← hstart.scope] at hscope
  refine ⟨⟨xmlText_of_elementUri hscope hstart.uri, ?_⟩,
    clean_resolveAttributes hscope hothers hstart.attributes, hscope⟩
  rw [hstart.localName]
  exact hname.localName

end Tags

/-! ## Content -/

namespace Content

variable {ctx : Context} {b b' : Builder}

theorem clean_addElement (hentities : CleanEntities ctx.entities) {name : RawName}
    {attributes : List RawAttribute} {selfClosing : Bool} {start : ℕ} (hname : name.Clean)
    (hattributes : ∀ a ∈ attributes, a.Clean) (hb : b.Clean)
    (h : addElement ctx name attributes selfClosing start b = some b') : b'.Clean := by
  obtain ⟨own, others, followed, tag, hsorted, htag, rfl⟩ := exists_tag_of_addElement h
  obtain ⟨hown, hothers⟩ := clean_sortAttributes hentities hattributes hsorted
  have htag := clean_resolveTag hb.scope hown hname hothers htag
  have hcounted := hb.counted followed
  split
  · exact hcounted.add ⟨htag, trivial⟩
  · exact hcounted.openElement _ htag

end Content

/-! ## Documents -/

/-- **Reading keeps a tree under construction clean**, if the values of entities are. -/
theorem Builder.Clean.preserved :
    Builder.Preserved (fun c => isXmlChar c = true) Builder.Clean where
  empty := .empty
  counted followed hb := hb.counted followed
  comment htext hb := hb.add (AllChars.ofList_iff.2 htext)
  instruction htarget hvalue hb :=
    hb.add ⟨AllChars.ofList_iff.2 htarget, AllChars.ofList_iff.2 hvalue⟩
  text hcs hb := hb.addText (AllChars.ofList_iff.2 hcs)
  element hentities htag hadd hb := by
    obtain ⟨hname, hattributes⟩ := Reader.clean_readOpenTag htag
    exact Content.clean_addElement hentities hname hattributes hb hadd
  close hclosed hb := hb.closeElement hclosed

/-- **The tree of a clean text is clean.** -/
theorem Node.clean_ofText {text : String} {root : Node} (htext : XmlText text)
    (h : ofText text = some root) : root.Clean := by
  obtain ⟨b, hb, hfinish⟩ := Builder.Clean.preserved.exists_finish (by decide) htext h
  exact hb.finish hfinish

/-- **A document whose text is clean is a clean tree.** -/
theorem clean_root {d : Document} (h : XmlText d.text) : d.root.Clean :=
  Node.clean_ofText h d.wellFormed

end XmlConformance.Xml
