import XmlConformance.Proofs.Xml.Names
import XmlConformance.Proofs.Xml.Rereading
import XmlConformance.Proofs.Xml.RoundTrip

/-!
# Proofs/Xml/Unlabelled — start tags with names that have no label

A start tag whose names have no label comes back as it was written: its element has the name, and
its attributes are those written, with their values normalized (`attributesBack`). The exception is
an attribute called `xmlns`. It declares the default namespace instead, and there are two namespaces
that it must not declare (`MayBeDefault`). Nothing else can go wrong (`exists_tagBack_iff`).
-/

namespace XmlConformance.Xml

/-! ## Values that come back -/

/-- Characters of a value that come back as they were. -/
def staysInValue (c : Char) : Bool :=
  !(c == '\t' || c == '\r')

theorem valueBack_eq_self {value : String} (h : AllChars staysInValue value) :
    valueBack value = value := by
  rw [← String.toList_inj, valueBack, String.toList_map]
  refine (List.map_congr_left fun c hc => ?_).trans (List.map_id _)
  have hc := h c hc
  rw [staysInValue, Bool.not_eq_true'] at hc
  exact if_neg (by simp [hc])

/-- A value that comes back without a space was written as it came back. -/
theorem eq_valueBack_iff {value text : String} (hspace : ' ' ∉ text.toList)
    (htext : AllChars staysInValue text) : valueBack value = text ↔ value = text := by
  refine ⟨fun h => ?_, fun h => by rw [h, valueBack_eq_self htext]⟩
  rw [← h]
  refine (valueBack_eq_self fun c hc => ?_).symm
  by_contra hcontrol
  refine hspace ?_
  rw [← h, valueBack, String.toList_map]
  rw [staysInValue, Bool.not_eq_true', Bool.not_eq_false] at hcontrol
  exact List.mem_map.2 ⟨c, hc, if_pos hcontrol⟩

/-! ## Attributes without labels -/

/-- Attributes whose names have no label, as they come back. -/
def attributesBack (attributes : List (String × String)) : List Attribute :=
  attributes.map fun a => ⟨⟨none, a.1⟩, valueBack a.2⟩

/-- Attributes whose names have no label, with their names split. -/
def namedPlainly (attributes : List (String × String)) : List (RawName × String) :=
  attributes.map fun a => (⟨"", a.1⟩, valueBack a.2)

section Attributes

variable {attributes : List (String × String)}

theorem named?_of_plain (h : ∀ a ∈ attributes, Reader.rawName? a.1 = some ⟨"", a.1⟩) :
    Reader.named? attributes = some (attributes.map fun a => (⟨"", a.1⟩, a.2)) := by
  induction attributes with
  | nil => rfl
  | cons a attributes ih =>
    rw [List.forall_mem_cons] at h
    have hmore := ih h.2
    unfold Reader.named? at hmore ⊢
    rw [List.mapM_cons, h.1, hmore]
    rfl

theorem bindingOf_of_plain (own : List Declaration) {name : String} (h : name ≠ "xmlns")
    (value : String) : bindingOf own ⟨"", name⟩ value = .plain := by
  rw [bindingOf, if_neg (show ¬("" == "xmlns") = true by decide), if_neg (by simpa using h)]

theorem bindAttributes_of_plain (own : List Declaration) :
    ∀ {attributes : List (String × String)} (others : List (RawName × String)),
      (∀ a ∈ attributes, a.1 ≠ "xmlns") →
        bindAttributes (namedPlainly attributes) own others =
          some (own, others ++ namedPlainly attributes)
  | [], others, _ => by rw [namedPlainly, List.map_nil, List.append_nil]; rfl
  | a :: attributes, others, h => by
    rw [List.forall_mem_cons] at h
    have ih := bindAttributes_of_plain own (others ++ [(⟨"", a.1⟩, valueBack a.2)]) h.2
    rw [namedPlainly, List.map_cons, bindAttributes, bindingOf_of_plain own h.1]
    simpa [namedPlainly] using ih

theorem resolveAttributes_of_nodup (scope : List Declaration) :
    ∀ {attributes : List (String × String)} (done : List (String × String)),
      ((done ++ attributes).map (·.1)).Nodup →
        resolveAttributes scope (attributesBack done) (namedPlainly attributes) =
          some (attributesBack (done ++ attributes))
  | [], done, _ => by rw [List.append_nil]; rfl
  | a :: attributes, done, h => by
    have hnew : (attributesBack done).any (·.name == ⟨none, a.1⟩) = false := by
      rw [List.any_eq_false]
      intro b hb heq
      obtain ⟨c, hc, rfl⟩ := List.mem_map.1 hb
      have hname : c.1 = a.1 := by simpa using heq
      rw [List.map_append, List.nodup_append] at h
      exact h.2.2 c.1 (List.mem_map_of_mem hc) a.1 (by simp) hname
    have ih := resolveAttributes_of_nodup scope (done ++ [a])
      (show ((done ++ [a] ++ attributes).map (·.1)).Nodup by simpa using h)
    rw [namedPlainly, List.map_cons, resolveAttributes]
    have huri : attributeUri scope "" = some none := by
      rw [attributeUri, if_neg (by decide), if_pos (by decide)]
    simp only [huri, hnew]
    simpa [attributesBack, namedPlainly] using ih

end Attributes

/-! ## Default namespaces -/

/-- A namespace that may be declared as the default. -/
def MayBeDefault (uri : String) : Prop := uri ≠ xmlUri ∧ uri ≠ xmlnsUri

theorem mayBeDefault_valueBack {uri : String} :
    MayBeDefault (valueBack uri) ↔ MayBeDefault uri := by
  rw [MayBeDefault, MayBeDefault, Ne, Ne, eq_valueBack_iff (by decide) (by decide),
    eq_valueBack_iff (by decide) (by decide)]

theorem bindingOf_default (own : List Declaration) (uri : String) :
    MayBeDefault uri ∧ bindingOf own ⟨"", "xmlns"⟩ uri = .declares ⟨none, uri⟩ ∨
      ¬MayBeDefault uri ∧ bindingOf own ⟨"", "xmlns"⟩ uri = .forbidden := by
  rw [bindingOf, if_neg (show ¬("" == "xmlns") = true by decide), if_pos (by decide)]
  by_cases h : (uri == xmlUri || uri == xmlnsUri) = true
  · rw [if_pos h]
    exact .inr ⟨by simpa [MayBeDefault, Classical.or_iff_not_imp_left] using h, rfl⟩
  · rw [if_neg h]
    exact .inl ⟨by simpa [MayBeDefault] using h, rfl⟩

/-- **Attributes without labels can be taken apart** unless one of them declares a namespace that
must not be the default. -/
theorem exists_bindAttributes_iff : ∀ {attributes : List (String × String)}
    {own : List Declaration} {others : List (RawName × String)},
      (∃ bound, bindAttributes (namedPlainly attributes) own others = some bound) ↔
        ∀ uri, ("xmlns", uri) ∈ attributes → MayBeDefault uri
  | [], own, others => iff_of_true ⟨_, rfl⟩ nofun
  | (name, uri) :: attributes, own, others => by
    rw [namedPlainly, List.map_cons, ← namedPlainly, bindAttributes]
    by_cases hname : name = "xmlns"
    · subst hname
      have hsplit : (∀ u, ("xmlns", u) ∈ ("xmlns", uri) :: attributes → MayBeDefault u) ↔
          MayBeDefault uri ∧ ∀ u, ("xmlns", u) ∈ attributes → MayBeDefault u := by
        simp [or_imp, forall_and]
      rw [hsplit, ← mayBeDefault_valueBack]
      obtain ⟨hmay, hbinding⟩ | ⟨hnot, hbinding⟩ := bindingOf_default own (valueBack uri)
      · rw [hbinding, and_iff_right hmay]
        exact exists_bindAttributes_iff
      · rw [hbinding]
        exact iff_of_false (by simp) fun h => hnot h.1
    · rw [bindingOf_of_plain own hname]
      refine exists_bindAttributes_iff.trans (forall_congr' fun u => ?_)
      rw [List.mem_cons, or_iff_right fun h => hname (Prod.mk.inj h).1.symm]

/-! ## Start tags -/

/-- The attributes of a start tag that declare no default namespace. -/
def withoutDefault (attributes : List (String × String)) : List (String × String) :=
  attributes.filter fun a => a.1 != "xmlns"

theorem filter_namedPlainly (attributes : List (String × String)) :
    ((namedPlainly attributes).filter fun a => !a.1.declares) =
      namedPlainly (withoutDefault attributes) := by
  rw [namedPlainly, namedPlainly, withoutDefault, List.filter_map]
  refine congrArg _ (List.filter_congr fun a _ => ?_)
  simp [RawName.declares, bne]

/-- The tag with a name, attributes and declarations in scope that was written without labels in
front of `start` characters. -/
def unlabelledTag (scope : List Declaration) (start : ℕ) (name : String)
    (attributes : List (String × String)) : Tag :=
  ⟨⟨(scope.find? (·.label == none)).map (·.uri), name⟩, attributesBack attributes, scope, start⟩

section Tags

variable {inherited : List Declaration} {start : ℕ} {name : String}
  {attributes : List (String × String)}

theorem elementUri_empty (scope : List Declaration) :
    elementUri scope "" = some ((scope.find? (·.label == none)).map (·.uri)) := by
  rw [elementUri_eq, if_pos (by decide)]
  rfl

/-- Names without labels are resolved if those of the attributes differ. -/
theorem resolveTag_of_nodup (own : List Declaration) (hnodup : (attributes.map (·.1)).Nodup) :
    resolveTag inherited own ⟨"", name⟩ (namedPlainly attributes) start =
      some (unlabelledTag (scopeWithin inherited own) start name attributes) := by
  have hattributes : resolveAttributes (scopeWithin inherited own) [] (namedPlainly attributes) =
      some (attributesBack attributes) :=
    resolveAttributes_of_nodup (scopeWithin inherited own) [] hnodup
  rw [resolveTag, if_neg (show ¬("" == "xmlns") = true by decide)]
  simp only [hattributes, elementUri_empty]
  rfl

/-- **What a start tag without labels stands for**, if its attributes can be taken apart. -/
theorem tagBack_of_unlabelled (hname : IsName name) (hnames : ∀ a ∈ attributes, IsName a.1)
    (hnodup : (attributes.map (·.1)).Nodup) : tagBack inherited start name attributes =
      (bindAttributes (namedPlainly attributes) [] []).map fun bound =>
        (⟨"", name⟩, unlabelledTag (scopeWithin inherited bound.1) start name
          (withoutDefault attributes)) := by
  have hnamed : Reader.named? attributes = some (attributes.map fun a => (⟨"", a.1⟩, a.2)) :=
    named?_of_plain hnames
  have hmap : (attributes.map fun a => ((⟨"", a.1⟩ : RawName), a.2)).map
      (fun a => (a.1, valueBack a.2)) = namedPlainly attributes := List.map_map
  have hkept : ((withoutDefault attributes).map (·.1)).Nodup :=
    hnodup.sublist (List.filter_sublist.map _)
  rw [IsName] at hname
  rw [tagBack, hname, hnamed]
  simp only [Option.bind_eq_bind, Option.bind_some, hmap]
  cases hbind : bindAttributes (namedPlainly attributes) [] [] with
  | none => rfl
  | some bound =>
    have hothers : bound.2 = namedPlainly (withoutDefault attributes) := by
      rw [(bindAttributes_eq_some hbind).2, List.nil_append, filter_namedPlainly]
    simp only [Option.bind_some, hothers, resolveTag_of_nodup bound.1 hkept]
    rfl

/-- **A start tag without labels stands for a tag** unless it declares a namespace that must not be
the default. -/
theorem exists_tagBack_iff (hname : IsName name) (hnames : ∀ a ∈ attributes, IsName a.1)
    (hnodup : (attributes.map (·.1)).Nodup) :
    (∃ back, tagBack inherited start name attributes = some back) ↔
      ∀ uri, ("xmlns", uri) ∈ attributes → MayBeDefault uri := by
  rw [tagBack_of_unlabelled hname hnames hnodup, ← exists_bindAttributes_iff]
  simp only [Option.map_eq_some_iff]
  exact ⟨fun ⟨_, bound, hbound, _⟩ => ⟨bound, hbound⟩,
    fun ⟨bound, hbound⟩ => ⟨_, bound, hbound, rfl⟩⟩

/-- **The tag of a start tag without labels** has the name and the attributes that were written. -/
theorem tag_of_tagBack (hname : IsName name) (hnames : ∀ a ∈ attributes, IsName a.1)
    (hnodup : (attributes.map (·.1)).Nodup) {n : RawName} {tag : Tag}
    (h : tagBack inherited start name attributes = some (n, tag)) :
    tag.name.localName = name ∧ tag.attributes = attributesBack (withoutDefault attributes) := by
  rw [tagBack_of_unlabelled hname hnames hnodup] at h
  obtain ⟨bound, -, hbound⟩ := Option.map_eq_some_iff.1 h
  obtain ⟨-, rfl⟩ := Prod.mk.inj hbound
  exact ⟨rfl, rfl⟩

end Tags

/-! ## Fragments -/

namespace Fragment

mutual

/-- **A fragment without labels**: its names have none, those of the attributes of an element
differ, and its values and texts are made of characters of XML. -/
def Plain : Fragment → Prop
  | .text s => XmlText s
  | .element name attributes content =>
    IsName name ∧ (∀ a ∈ attributes, IsName a.1 ∧ XmlText a.2) ∧
      (attributes.map (·.1)).Nodup ∧ AllPlain content

/-- Fragments without labels. -/
def AllPlain : List Fragment → Prop
  | [] => True
  | f :: fs => f.Plain ∧ AllPlain fs

end

theorem AllPlain.append : ∀ {fs gs : List Fragment}, AllPlain fs → AllPlain gs →
    AllPlain (fs ++ gs)
  | [], _, _, hgs => hgs
  | _ :: _, _, hfs, hgs => ⟨hfs.1, AllPlain.append hfs.2 hgs⟩

mutual

theorem Plain.named : ∀ {f : Fragment}, f.Plain → f.Named
  | .text _, _ => trivial
  | .element _ _ _, h =>
    ⟨Option.isSome_of_mem h.1, fun a ha => Option.isSome_of_mem (h.2.1 a ha).1, h.2.2.2.named⟩

theorem AllPlain.named : ∀ {fs : List Fragment}, AllPlain fs → AllNamed fs
  | [], _ => trivial
  | _ :: _, h => ⟨h.1.named, h.2.named⟩

end

mutual

theorem Plain.clean : ∀ {f : Fragment}, f.Plain → f.Joined → f.Clean
  | .text _, h, _ => h
  | .element _ _ _, h, hjoined => ⟨fun a ha => (h.2.1 a ha).2, h.2.2.2.clean hjoined⟩

theorem AllPlain.clean : ∀ {fs : List Fragment}, AllPlain fs → AllJoined fs → AllClean fs
  | [], _, _ => trivial
  | _ :: _, h, hjoined => ⟨h.1.clean hjoined.1, hjoined.2.1, h.2.clean hjoined.2.2⟩

end

theorem AllPlain.joinTo {f : Fragment} (hf : f.Plain) {fs : List Fragment} (hfs : AllPlain fs) :
    AllPlain (joinTo f fs) := by
  unfold Fragment.joinTo
  split
  · exact ⟨hf.append hfs.1, hfs.2⟩
  · exact ⟨hf, hfs⟩

mutual

theorem Plain.joined : ∀ {f : Fragment}, f.Plain → f.joined.Plain
  | .text s, h => by
    rw [Fragment.joined]
    exact h
  | .element name attributes content, h => by
    rw [Fragment.joined]
    exact ⟨h.1, h.2.1, h.2.2.1, h.2.2.2.joinedAll⟩

theorem AllPlain.joinedAll : ∀ {fs : List Fragment}, AllPlain fs → AllPlain (joinedAll fs)
  | [], h => by
    rw [Fragment.joinedAll]
    exact h
  | f :: fs, h => by
    rw [Fragment.joinedAll]
    exact .joinTo h.1.joined h.2.joinedAll

end

end Fragment

end XmlConformance.Xml
