import XmlConformance.Proofs.Schema.Assembling
import XmlConformance.Proofs.Xml.Defaulting

/-!
# Proofs/Schema/Adopting — taking over a target namespace

A schema document without a target namespace takes over the one of the schema that includes it: all
that it declares belongs to that namespace, and all that it refers to without a label. If it has no
default namespace either, then it could as well declare the namespace as its target and as its
default (`Renames`), by two more attributes of its root (`exists_renames`). Every function that
reads a part of a document comes to the same for both, so whatever the document adds to an assembly,
with all that it includes in turn, is the same (`addDocument_renamed`).
-/

namespace XmlConformance.Schema

open Xml

/-- **A document that is put into a namespace**: its root element declares the namespace as its
target and as the default. Before it had no target namespace, and none by default anywhere. -/
structure Renames (T : String) (d d' : Document) : Prop where
  base : d'.base = d.base
  untargeted : d.rootElement.1.plain? "targetNamespace" = none
  root : TakesDefault T d.rootElement.1 d'.rootElement.1
  attributes : ∃ before after, d.rootElement.1.attributes = before ++ after ∧
    d'.rootElement.1.attributes = before ++ ⟨⟨none, "targetNamespace"⟩, T⟩ :: after
  content : List.Forall₂ (Below T) d.rootElement.2 d'.rootElement.2

/-! ## What is read of an element -/

/-- A document takes over a namespace, which is not that of schemas. -/
structure Setting.Adopts (s : Setting) (T : String) : Prop where
  target : s.target = some T
  adopted : s.adopted = true
  foreign : T ≠ schemaUri

/-- The setting of a document that declares the target namespace itself. -/
def Setting.declared (s : Setting) : Setting := { s with adopted := false }

/-- An element that is as it was but for the default namespace. -/
structure Alike (T : String) (t t' : Tag) : Prop extends TakesDefault T t t' where
  attributes : t'.attributes = t.attributes

section Tags

variable {T : String} {s : Setting} {t t' : Tag}

/-- **An element of a schema stays one**, and no other becomes one. -/
theorem schemaElement?_takesDefault (ht : TakesDefault T t t') (hT : T ≠ schemaUri) :
    t'.schemaElement? = t.schemaElement? := by
  unfold Tag.schemaElement? isSchemaName
  rw [ht.name]
  cases t.name.uri with
  | none => simp [hT]
  | some u => rfl

/-- **A name stands for the same**: what has no label was adopted. -/
theorem readName_declared (hs : s.Adopts T) (ht : TakesDefault T t t') (value : String) :
    s.declared.readName t' value = s.readName t value := by
  unfold Setting.readName
  obtain ⟨label, localName⟩ := splitName (Text.trim value)
  cases label with
  | none => simp [namespaceFor, ht.undeclared, ht.declared, hs.adopted, hs.target]
  | some l => simp [namespaceFor, ht.labelled]

section Alike

variable (ht : Alike T t t')

include ht

theorem Alike.schemaElement? (hT : T ≠ schemaUri) : t'.schemaElement? = t.schemaElement? :=
  schemaElement?_takesDefault ht.toTakesDefault hT

theorem Alike.plain? : t'.plain? = t.plain? := by
  funext localName
  rw [Tag.plain?, Tag.attribute?, ht.attributes]
  rfl

theorem required_alike : required t' = required t := by
  funext attributeName
  unfold required
  rw [ht.plain?, ht.localName]

theorem isTrue_alike : isTrue t' = isTrue t := by
  funext attributeName
  unfold isTrue
  rw [ht.plain?]

theorem readOccurs_alike : readOccurs t' = readOccurs t := by
  unfold readOccurs
  rw [ht.plain?]

theorem readUse_alike : Setting.readUse t' = Setting.readUse t := by
  unfold Setting.readUse
  rw [ht.plain?]

theorem addFacet_alike (hT : T ≠ schemaUri) (f : Facets) : addFacet f t' = addFacet f t := by
  unfold addFacet facetCount facetText
  rw [required_alike ht, ht.schemaElement? hT, ht.localName]

theorem derivation?_alike (hT : T ≠ schemaUri) : derivation? t' = derivation? t := by
  unfold derivation?
  rw [ht.schemaElement? hT]

theorem initial_alike : ComplexDraft.initial t' = ComplexDraft.initial t := by
  unfold ComplexDraft.initial
  rw [isTrue_alike ht]

theorem composite_alike : Setting.composite t' = Setting.composite t := by
  funext items make
  unfold Setting.composite
  rw [readOccurs_alike ht]

theorem globalName_declared : s.declared.globalName t' = s.globalName t := by
  unfold Setting.globalName
  rw [required_alike ht]
  rfl

theorem localName_declared : s.declared.localName t' = s.localName t := by
  funext qualified
  unfold Setting.localName
  rw [required_alike ht, ht.plain?]
  rfl

theorem wildcard_declared : s.declared.wildcard t' = s.wildcard t := by
  unfold Setting.wildcard
  rw [ht.plain?]
  rfl

variable (hs : s.Adopts T)

include hs

theorem nameAttribute_declared : s.declared.nameAttribute t' = s.nameAttribute t := by
  funext attributeName
  unfold Setting.nameAttribute
  rw [ht.plain?]
  cases t.plain? attributeName with
  | none => rfl
  | some v => exact congrArg (·.map some) (readName_declared hs ht.toTakesDefault v)

theorem namedOr_declared : s.declared.namedOr t' = s.namedOr t := by
  funext attributeName absent inline
  unfold Setting.namedOr
  rw [nameAttribute_declared ht hs]

theorem namedMembers_declared : s.declared.namedMembers t' = s.namedMembers t := by
  unfold Setting.namedMembers
  rw [ht.plain?]
  simp only [readName_declared hs ht.toTakesDefault]

theorem elementDecl_declared : s.declared.elementDecl t' = s.elementDecl t := by
  funext name inline
  unfold Setting.elementDecl
  rw [nameAttribute_declared ht hs, isTrue_alike ht, ht.plain?]

theorem elementParticle_declared : s.declared.elementParticle t' = s.elementParticle t := by
  funext inline
  unfold Setting.elementParticle
  rw [nameAttribute_declared ht hs, readOccurs_alike ht, elementDecl_declared ht hs,
    localName_declared ht]
  rfl

theorem groupParticle_declared : s.declared.groupParticle t' = s.groupParticle t := by
  unfold Setting.groupParticle
  rw [nameAttribute_declared ht hs, readOccurs_alike ht]

theorem reference?_declared : reference? s.declared t' = reference? s t := by
  unfold reference?
  rw [ht.schemaElement? hs.foreign, required_alike ht, ht.plain?]
  rfl

end Alike

end Tags

/-! ## What is read of a content -/

theorem foldlM_congr {α α' γ ε : Type} {R : α → α' → Prop} {f : γ → α → Except ε γ}
    {f' : γ → α' → Except ε γ} (h : ∀ a a', R a a' → ∀ c, f' c a' = f c a) :
    ∀ {l : List α} {l' : List α'}, List.Forall₂ R l l' → ∀ c, l'.foldlM f' c = l.foldlM f c
  | _, _, .nil, _ => rfl
  | _, _, .cons hab hrest, c => by
    rw [List.foldlM_cons, List.foldlM_cons, h _ _ hab]
    exact congrArg (f c _ >>= ·) (funext fun c => foldlM_congr h hrest c)

theorem rel_head? {α β : Type} {R : α → β → Prop} {l : List α} {l' : List β}
    (h : List.Forall₂ R l l') : Option.Rel R l.head? l'.head? := by
  cases h with
  | nil => exact .none
  | cons h _ => exact .some h

section Contents

variable {T : String} {s : Setting} {cs cs' : List Node}

/-- The tags in a content are alike. -/
theorem forall₂_tags (h : List.Forall₂ (Below T) cs cs') :
    List.Forall₂ (Alike T) (cs.filterMap Node.tag?) (cs'.filterMap Node.tag?) := by
  refine List.rel_filterMap (fun n n' hn => ?_) h
  cases hn with
  | element ht hattributes _ => exact .some ⟨ht, hattributes⟩
  | text | comment | instruction => exact .none

theorem schemaElement?_below (hT : T ≠ schemaUri) {n n' : Node} (hn : Below T n n') :
    n'.tag?.bind Tag.schemaElement? = n.tag?.bind Tag.schemaElement? := by
  cases hn with
  | element ht _ _ => exact schemaElement?_takesDefault ht hT
  | text | comment | instruction => rfl

theorem readFacets_below (hT : T ≠ schemaUri) (h : List.Forall₂ (Below T) cs cs') :
    readFacets cs' = readFacets cs :=
  foldlM_congr (R := Alike T) (fun _ _ ht f => addFacet_alike ht hT f) (forall₂_tags h) {}

mutual

theorem variety?_declared (hs : s.Adopts T) : ∀ (n : Node) {n' : Node}, Below T n n' →
    s.declared.variety? n' = s.variety? n
  | .element t cs, _, .element ht hattributes hcs => by
    have ht : Alike T t _ := ⟨ht, hattributes⟩
    rw [Setting.variety?, Setting.variety?, ht.schemaElement? hs.foreign, namedOr_declared ht hs,
      namedMembers_declared ht hs, inlineType?_declared hs cs hcs, inlineTypes_declared hs cs hcs,
      readFacets_below hs.foreign hcs]
  | .text _, _, .text _ | .comment _, _, .comment _ | .instruction .., _, .instruction .. => rfl

/-- **The simple type that a content defines** is read as it was. -/
theorem simpleType_declared (hs : s.Adopts T) : ∀ (ns : List Node) {ns' : List Node},
    List.Forall₂ (Below T) ns ns' → s.declared.simpleType ns' = s.simpleType ns
  | [], _, .nil => rfl
  | n :: ns, _, .cons hn hns => by
    rw [Setting.simpleType, Setting.simpleType, variety?_declared hs n hn,
      simpleType_declared hs ns hns]

theorem inlineAt?_declared (hs : s.Adopts T) : ∀ (n : Node) {n' : Node}, Below T n n' →
    s.declared.inlineAt? n' = s.inlineAt? n
  | .element t cs, _, .element ht _ hcs => by
    rw [Setting.inlineAt?, Setting.inlineAt?, schemaElement?_takesDefault ht hs.foreign,
      simpleType_declared hs cs hcs]
  | .text _, _, .text _ | .comment _, _, .comment _ | .instruction .., _, .instruction .. => rfl

theorem inlineType?_declared (hs : s.Adopts T) : ∀ (ns : List Node) {ns' : List Node},
    List.Forall₂ (Below T) ns ns' → s.declared.inlineType? ns' = s.inlineType? ns
  | [], _, .nil => rfl
  | n :: ns, _, .cons hn hns => by
    rw [Setting.inlineType?, Setting.inlineType?, inlineAt?_declared hs n hn,
      inlineType?_declared hs ns hns]

theorem inlineTypes_declared (hs : s.Adopts T) : ∀ (ns : List Node) {ns' : List Node},
    List.Forall₂ (Below T) ns ns' → s.declared.inlineTypes ns' = s.inlineTypes ns
  | [], _, .nil => rfl
  | n :: ns, _, .cons hn hns => by
    rw [Setting.inlineTypes, Setting.inlineTypes, inlineAt?_declared hs n hn,
      inlineTypes_declared hs ns hns]

end

/-! ### Attributes -/

variable {t t' : Tag}

theorem attributeType_declared (hs : s.Adopts T) (ht : Alike T t t')
    (hcs : List.Forall₂ (Below T) cs cs') :
    s.declared.attributeType t' cs' = s.attributeType t cs := by
  unfold Setting.attributeType
  rw [nameAttribute_declared ht hs, inlineType?_declared hs cs hcs]

theorem attributeUse_declared (hs : s.Adopts T) (ht : Alike T t t')
    (hcs : List.Forall₂ (Below T) cs cs') :
    s.declared.attributeUse t' cs' = s.attributeUse t cs := by
  unfold Setting.attributeUse
  rw [nameAttribute_declared ht hs, attributeType_declared hs ht hcs, readUse_alike ht, ht.plain?,
    localName_declared ht]
  rfl

theorem attributeDecl_declared (hs : s.Adopts T) (ht : Alike T t t')
    (hcs : List.Forall₂ (Below T) cs cs') :
    s.declared.attributeDecl t' cs' = s.attributeDecl t cs := by
  unfold Setting.attributeDecl
  rw [globalName_declared ht, attributeType_declared hs ht hcs, ht.plain?]

theorem addAttribute_declared (hs : s.Adopts T) (ht : Alike T t t')
    (hcs : List.Forall₂ (Below T) cs cs') (g : AttributeGroup) :
    s.declared.addAttribute g t' cs' = s.addAttribute g t cs := by
  unfold Setting.addAttribute
  rw [ht.schemaElement? hs.foreign, attributeUse_declared hs ht hcs, nameAttribute_declared ht hs,
    wildcard_declared ht]

theorem addAttributes_declared (hs : s.Adopts T) (hcs : List.Forall₂ (Below T) cs cs')
    (g : AttributeGroup) : s.declared.addAttributes g cs' = s.addAttributes g cs := by
  refine foldlM_congr (fun n n' hn g => ?_) hcs g
  cases hn with
  | element ht hattributes hcs => exact addAttribute_declared hs ⟨ht, hattributes⟩ hcs g
  | text | comment | instruction => rfl

/-! ### Complex types -/

/-- Two elements that derive a type alike. -/
structure DeriveAlike (T : String) (e e' : Tag × List Node × Derivation) : Prop where
  tag : Alike T e.1 e'.1
  content : List.Forall₂ (Below T) e.2.1 e'.2.1
  derivation : e'.2.2 = e.2.2

/-- The derivation in a content is found again, if there is one: it is not the same, but alike. -/
theorem derivationElement_below (hT : T ≠ schemaUri) (h : List.Forall₂ (Below T) cs cs') :
    (∃ e, derivationElement cs = .error e ∧ derivationElement cs' = .error e) ∨
    ∃ e e', derivationElement cs = .ok e ∧ derivationElement cs' = .ok e' ∧ DeriveAlike T e e' := by
  unfold derivationElement
  generalize hfound : List.findSome? _ cs = found
  generalize hfound' : List.findSome? _ cs' = found'
  have hrel : Option.Rel (DeriveAlike T) found found' := by
    rw [← hfound, ← hfound', ← List.head?_filterMap, ← List.head?_filterMap]
    refine rel_head? (List.rel_filterMap (fun n n' hn => ?_) h)
    cases hn with
    | element ht hattributes hcs =>
      have ht : Alike T _ _ := ⟨ht, hattributes⟩
      dsimp only
      rw [derivation?_alike ht hT]
      cases derivation? _ with
      | none => exact .none
      | some d => exact .some ⟨ht, hcs, rfl⟩
    | text | comment | instruction => exact .none
  cases hrel with
  | none => exact .inl ⟨_, rfl, rfl⟩
  | some h => exact .inr ⟨_, _, rfl, rfl, h⟩

theorem simpleContentType_declared (hs : s.Adopts T) (h : List.Forall₂ (Below T) cs cs')
    (base : ExpandedName) (derivation : Derivation) :
    s.declared.simpleContentType base derivation cs' = s.simpleContentType base derivation cs := by
  unfold Setting.simpleContentType
  rw [inlineType?_declared hs cs h, readFacets_below hs.foreign h]

theorem addSimpleContent_declared (hs : s.Adopts T) (h : List.Forall₂ (Below T) cs cs')
    (d : ComplexDraft) : s.declared.addSimpleContent d cs' = s.addSimpleContent d cs := by
  unfold Setting.addSimpleContent
  obtain ⟨e, he, he'⟩ | ⟨⟨t, ds, derivation⟩, ⟨t', ds', _⟩, he, he', ht, hds, rfl⟩ :=
    derivationElement_below hs.foreign h
  · rw [he, he', error_bind, error_bind]
  · rw [he, he']
    simp only [ok_bind, nameAttribute_declared ht hs, simpleContentType_declared hs hds,
      addAttributes_declared hs hds]

/-! One step over an element, in each of the functions that recurse through complex types: what is
read there is the same if it is so inside the element and behind it. The functions call each other,
so the steps come first and the induction over the content, which is one for all, puts them
together. -/

section Steps

variable {ns ns' : List Node} {d : ComplexDraft} (hs : s.Adopts T) (ht : Alike T t t')

include hs ht

theorem typeInside_element (hcs : List.Forall₂ (Below T) cs cs')
    (hparts : ∀ d, s.declared.complexParts d cs' = s.complexParts d cs)
    (hrest : s.declared.typeInside ns' = s.typeInside ns) :
    s.declared.typeInside (.element t' cs' :: ns') = s.typeInside (.element t cs :: ns) := by
  simp only [Setting.typeInside, ht.schemaElement? hs.foreign, initial_alike ht, hparts,
    simpleType_declared hs cs hcs, hrest]

theorem particle?_element (htype : s.declared.typeInside cs' = s.typeInside cs)
    (hparticles : s.declared.particles cs' = s.particles cs) :
    s.declared.particle? (.element t' cs') = s.particle? (.element t cs) := by
  simp only [Setting.particle?, ht.schemaElement? hs.foreign, elementParticle_declared ht hs,
    htype, composite_alike ht, hparticles, groupParticle_declared ht hs, readOccurs_alike ht,
    wildcard_declared ht]

theorem complexParts_element (hcs : List.Forall₂ (Below T) cs cs')
    (hparticle : s.declared.particle? (.element t' cs') = s.particle? (.element t cs))
    (hderived : ∀ d, s.declared.derivedParts d cs' = s.derivedParts d cs)
    (hrest : ∀ d, s.declared.complexParts d ns' = s.complexParts d ns) :
    s.declared.complexParts d (.element t' cs' :: ns') =
      s.complexParts d (.element t cs :: ns) := by
  simp only [Setting.complexParts, ht.schemaElement? hs.foreign, hparticle, ht.plain?, hderived,
    addSimpleContent_declared hs hcs, addAttribute_declared hs ht hcs, hrest]

theorem derivedParts_element
    (hitems : ∀ d, s.declared.derivationItems d cs' = s.derivationItems d cs)
    (hrest : s.declared.derivedParts d ns' = s.derivedParts d ns) :
    s.declared.derivedParts d (.element t' cs' :: ns') =
      s.derivedParts d (.element t cs :: ns) := by
  simp only [Setting.derivedParts, derivation?_alike ht hs.foreign, nameAttribute_declared ht hs,
    hitems, hrest]

theorem derivationItems_element (hcs : List.Forall₂ (Below T) cs cs')
    (hparticle : s.declared.particle? (.element t' cs') = s.particle? (.element t cs))
    (hrest : ∀ d, s.declared.derivationItems d ns' = s.derivationItems d ns) :
    s.declared.derivationItems d (.element t' cs' :: ns') =
      s.derivationItems d (.element t cs :: ns) := by
  simp only [Setting.derivationItems, ht.schemaElement? hs.foreign, hparticle,
    addAttribute_declared hs ht hcs, hrest]

end Steps

mutual

/-- **The type inside an element declaration** is read as it was. -/
theorem typeInside_declared (hs : s.Adopts T) : ∀ (ns : List Node) {ns' : List Node},
    List.Forall₂ (Below T) ns ns' → s.declared.typeInside ns' = s.typeInside ns
  | [], _, .nil => rfl
  | .element _ cs :: ns, _, .cons (.element ht hattributes hcs) hns =>
    typeInside_element hs ⟨ht, hattributes⟩ hcs (complexParts_declared hs cs hcs)
      (typeInside_declared hs ns hns)
  | .text _ :: ns, _, .cons (.text _) hns | .comment _ :: ns, _, .cons (.comment _) hns
  | .instruction .. :: ns, _, .cons (.instruction ..) hns => (typeInside_declared hs ns hns :)

/-- **The particle of a content model** is read as it was. -/
theorem particle?_declared (hs : s.Adopts T) : ∀ (n : Node) {n' : Node}, Below T n n' →
    s.declared.particle? n' = s.particle? n
  | .element _ cs, _, .element ht hattributes hcs =>
    particle?_element hs ⟨ht, hattributes⟩ (typeInside_declared hs cs hcs)
      (particles_declared hs cs hcs)
  | .text _, _, .text _ | .comment _, _, .comment _ | .instruction .., _, .instruction .. => rfl

theorem particles_declared (hs : s.Adopts T) : ∀ (ns : List Node) {ns' : List Node},
    List.Forall₂ (Below T) ns ns' → s.declared.particles ns' = s.particles ns
  | [], _, .nil => rfl
  | n :: ns, _, .cons hn hns => by
    rw [Setting.particles, Setting.particles, particle?_declared hs n hn,
      particles_declared hs ns hns]

/-- **The parts of a complex type** are read as they were. -/
theorem complexParts_declared (hs : s.Adopts T) : ∀ (ns : List Node) {ns' : List Node},
    List.Forall₂ (Below T) ns ns' → ∀ d, s.declared.complexParts d ns' = s.complexParts d ns
  | [], _, .nil, _ => rfl
  | .element _ cs :: ns, _, .cons (.element ht hattributes hcs) hns, _ =>
    complexParts_element hs ⟨ht, hattributes⟩ hcs
      (particle?_element hs ⟨ht, hattributes⟩ (typeInside_declared hs cs hcs)
        (particles_declared hs cs hcs))
      (derivedParts_declared hs cs hcs) (complexParts_declared hs ns hns)
  | .text _ :: ns, _, .cons (.text _) hns, d | .comment _ :: ns, _, .cons (.comment _) hns, d
  | .instruction .. :: ns, _, .cons (.instruction ..) hns, d =>
    (complexParts_declared hs ns hns d :)

theorem derivedParts_declared (hs : s.Adopts T) : ∀ (ns : List Node) {ns' : List Node},
    List.Forall₂ (Below T) ns ns' → ∀ d, s.declared.derivedParts d ns' = s.derivedParts d ns
  | [], _, .nil, _ => rfl
  | .element _ cs :: ns, _, .cons (.element ht hattributes hcs) hns, d =>
    derivedParts_element hs ⟨ht, hattributes⟩ (derivationItems_declared hs cs hcs)
      (derivedParts_declared hs ns hns d)
  | .text _ :: ns, _, .cons (.text _) hns, d | .comment _ :: ns, _, .cons (.comment _) hns, d
  | .instruction .. :: ns, _, .cons (.instruction ..) hns, d =>
    (derivedParts_declared hs ns hns d :)

theorem derivationItems_declared (hs : s.Adopts T) : ∀ (ns : List Node) {ns' : List Node},
    List.Forall₂ (Below T) ns ns' → ∀ d, s.declared.derivationItems d ns' = s.derivationItems d ns
  | [], _, .nil, _ => rfl
  | .element _ cs :: ns, _, .cons (.element ht hattributes hcs) hns, _ =>
    derivationItems_element hs ⟨ht, hattributes⟩ hcs
      (particle?_element hs ⟨ht, hattributes⟩ (typeInside_declared hs cs hcs)
        (particles_declared hs cs hcs))
      (derivationItems_declared hs ns hns)
  | .text _ :: ns, _, .cons (.text _) hns, d | .comment _ :: ns, _, .cons (.comment _) hns, d
  | .instruction .. :: ns, _, .cons (.instruction ..) hns, d =>
    (derivationItems_declared hs ns hns d :)

end

theorem complexType_declared (hs : s.Adopts T) (ht : Alike T t t')
    (hcs : List.Forall₂ (Below T) cs cs') :
    s.declared.complexType t' cs' = s.complexType t cs := by
  unfold Setting.complexType
  rw [initial_alike ht, complexParts_declared hs cs hcs]

theorem groupModel_declared (hs : s.Adopts T) (h : List.Forall₂ (Below T) cs cs') :
    s.declared.groupModel cs' = s.groupModel cs := by
  unfold Setting.groupModel
  dsimp only
  simp only [← List.head?_filter]
  generalize hmodel : (fun n : Node =>
    ["sequence", "choice", "all"].contains ((n.tag?.bind Tag.schemaElement?).getD "")) = model
  have hrel : Option.Rel (Below T) (cs.filter model).head? (cs'.filter model).head? := by
    refine rel_head? (List.rel_filter (fun n n' hn => ?_) h)
    rw [← hmodel]
    dsimp only
    rw [schemaElement?_below hs.foreign hn]
  revert hrel
  generalize (cs.filter model).head? = n
  generalize (cs'.filter model).head? = n'
  rintro (hn | _)
  · simp only [particle?_declared hs _ hn]
  · rfl

/-- **A component is added** as it was. -/
theorem addComponent_declared (hs : s.Adopts T) (ht : Alike T t t')
    (hcs : List.Forall₂ (Below T) cs cs') (c : Components) :
    addComponent s.declared c t' cs' = addComponent s c t cs := by
  simp only [addComponent, ht.schemaElement? hs.foreign, elementDecl_declared ht hs,
    globalName_declared ht, typeInside_declared hs cs hcs, attributeDecl_declared hs ht hcs,
    complexType_declared hs ht hcs, simpleType_declared hs cs hcs, groupModel_declared hs hcs,
    addAttributes_declared hs hcs]

end Contents

/-! ## Documents -/

variable {T : String} {d d' : Document}

/-- Two elements that are alike, with all that is below them. -/
structure ElementAlike (T : String) (e e' : Tag × List Node) : Prop where
  tag : Alike T e.1 e'.1
  content : List.Forall₂ (Below T) e.2 e'.2

/-- The elements in a content are alike. -/
theorem forall₂_elements {cs cs' : List Node} (h : List.Forall₂ (Below T) cs cs') :
    List.Forall₂ (ElementAlike T) (Node.root cs).elements (Node.root cs').elements := by
  refine List.rel_filterMap (fun n n' hn => ?_) h
  cases hn with
  | element ht hattributes hcs => exact .some ⟨⟨ht, hattributes⟩, hcs⟩
  | text | comment | instruction => exact .none

theorem sourceOf_renamed (h : Renames T d d') (resolver : Resolver) :
    sourceOf resolver d' = sourceOf resolver d := by
  funext location
  unfold sourceOf Document.resolve
  rw [h.base]

/-- **The children of the root add the same**, whatever adds the documents that they include. -/
theorem addChildren_renamed (h : Renames T d d') {s : Setting} (hs : s.Adopts T) (library : Library)
    (resolver : Resolver) (add : Document → Option String → Assembly → Loading Assembly)
    {es es' : List (Tag × List Node)} (hes : List.Forall₂ (ElementAlike T) es es') :
    ∀ a, addChildren library resolver d' s.declared add es' a =
      addChildren library resolver d s add es a := by
  induction hes with
  | nil => exact fun _ => rfl
  | @cons e e' es es' he _ ih =>
    intro a
    obtain ⟨t, cs⟩ := e
    obtain ⟨t', cs'⟩ := e'
    rw [addChildren, addChildren, reference?_declared he.tag hs]
    simp only [addComponent_declared hs he.tag he.content, sourceOf_renamed h, ih]

/-- The root of the renamed document has the attributes of the other, and the target namespace. -/
theorem plain?_root (h : Renames T d d') (localName : String) :
    d'.rootElement.1.plain? localName =
      if localName = "targetNamespace" then some T else d.rootElement.1.plain? localName := by
  obtain ⟨before, after, hattributes, hattributes'⟩ := h.attributes
  have huntargeted := h.untargeted
  simp only [Tag.plain?, Tag.attribute?, hattributes, hattributes', List.find?_append,
    Option.map_eq_none_iff, Option.or_eq_none_iff] at huntargeted ⊢
  split
  · case isTrue heq =>
    rw [heq, huntargeted.1]
    simp
  · case isFalse hne =>
    rw [List.find?_cons_of_neg]
    simpa using Ne.symm hne

theorem settingOf_renamed (h : Renames T d d') (adoptive : Option String) :
    settingOf d'.rootElement.1 adoptive = (settingOf d.rootElement.1 (some T)).declared := by
  simp [settingOf, Setting.declared, plain?_root h, h.untargeted]

/-- **Including a document without a target namespace from a schema with one is renaming it**: it
adds the same as the document that declares the namespace as its target and as its default, whoever
includes that. -/
theorem addDocument_renamed (h : Renames T d d') (hT : T ≠ schemaUri) (library : Library)
    (resolver : Resolver) (depth : ℕ) (adoptive : Option String) (a : Assembly) :
    addDocument library resolver depth d (some T) a =
      addDocument library resolver depth d' adoptive a := by
  cases depth with
  | zero => rfl
  | succ depth =>
    have hs : (settingOf d.rootElement.1 (some T)).Adopts T :=
      ⟨by simp [settingOf, h.untargeted], by simp [settingOf, h.untargeted], hT⟩
    unfold addDocument
    dsimp only
    rw [schemaElement?_takesDefault h.root hT, h.root.localName, settingOf_renamed h,
      addChildren_renamed h hs _ _ _ (forall₂_elements h.content)]

/-! ## Documents that are written -/

/-- **Two more attributes put a written document into a namespace**: what is written with them is
read, and is the document in the namespace. -/
theorem exists_renames {name : String} {attributes : List (String × String)}
    {content : List Fragment} (hnamed : (Fragment.element name attributes content).Named)
    (hd : d.text = (Fragment.element name attributes content).render)
    (huntargeted : d.rootElement.1.plain? "targetNamespace" = none)
    (hdefault : ∀ t ∈ d.root.tags, t.lookup? none = none) (hT : XmlText T) (hmay : MayBeDefault T)
    (hback : valueBack T = T) :
    ∃ d' : Document, d'.text = (Fragment.element name
      (attributes ++ [("targetNamespace", T), ("xmlns", T)]) content).render ∧
        d'.base = d.base ∧ Renames T d d' := by
  have hread : Node.ofText (Fragment.element name attributes content).render = some d.root := by
    rw [← hd, d.wellFormed]
  have hnew : ∀ e ∈ d.root.elements.head?, e.1.plain? "targetNamespace" = none := fun e he => by
    rw [Document.rootElement, Option.mem_def.1 he] at huntargeted
    exact huntargeted
  obtain ⟨t, cs, t', cs', hroot, hread', htake, hattributes, hbelow⟩ :=
    Fragment.ofText_render_takesDefault (by decide +kernel) (by decide) hT hmay hback hnamed hread
      hdefault hnew
  have hsame : d.rootElement = (t, cs) := Document.rootElement_eq hroot
  refine ⟨⟨_, d.base, _, hread'⟩, rfl, rfl, rfl, huntargeted, ?_, ?_, ?_⟩
  · rw [hsame]
    exact htake
  · rw [hsame]
    exact ⟨t.attributes, [], (List.append_nil _).symm, hattributes⟩
  · rw [hsame]
    exact hbelow

/-- A schema document, with attributes of its root, that includes a part. What it declares refers to
each other without a label, and what it remarks is no part of the schema. -/
def orderSchema (attributes : List (String × String)) : Fragment :=
  .element "xs:schema" (("xmlns:xs", schemaUri) :: attributes)
    [.element "xs:include" [("schemaLocation", "part")] [],
      .element "xs:annotation" [] [.element "remark" [] [.text "codes"]],
      .element "xs:element" [("name", "item"), ("type", "code")] [],
      .element "xs:simpleType" [("name", "code")]
        [.element "xs:restriction" [("base", "xs:string")] []],
      .element "xs:complexType" [("name", "order")]
        [.element "xs:sequence" [] [.element "xs:element" [("ref", "item")] []]]]

theorem clean_orderSchema : (orderSchema []).Clean := by
  simp only [orderSchema, Fragment.Clean, Fragment.AllClean]
  decide +kernel

theorem named_orderSchema : (orderSchema []).Named := by
  simp only [orderSchema, Fragment.Named, Fragment.AllNamed]
  decide +kernel

/-- The tree of `orderSchema` without further attributes. -/
def orderNodes : List Node :=
  ((orderSchema []).back [] 0).getD []

theorem back_orderSchema : (orderSchema []).back [] 0 = some orderNodes := by
  have hback : ((orderSchema []).back [] 0).isSome = true := by decide +kernel
  obtain ⟨nodes, hnodes⟩ := Option.isSome_iff_exists.1 hback
  rw [orderNodes, hnodes, Option.getD_some]

/-- The document that `orderSchema` is written as. -/
def orderDocument : Document where
  text := (orderSchema []).render
  base := none
  root := .root orderNodes
  wellFormed := by
    have hback := back_orderSchema
    obtain ⟨t, cs, hnodes⟩ := Fragment.eq_singleton_of_back rfl hback
    rw [hnodes] at hback ⊢
    exact Fragment.ofText_render clean_orderSchema hback

theorem addDocument_renamed_orderDocument : ∃ d' : Document,
    d'.text = (orderSchema [("targetNamespace", "urn:t"), ("xmlns", "urn:t")]).render ∧
    Renames "urn:t" orderDocument d' ∧ "urn:t" ≠ schemaUri ∧
    (addDocument partLibrary pathResolver 2 orderDocument (some "urn:t")
        default).outcome.toOption.map (fun a => a.components.elements.map (·.1)) =
      some [⟨some "urn:t", "p"⟩, ⟨some "urn:t", "item"⟩] ∧
    ∀ library resolver depth adoptive a,
      addDocument library resolver depth orderDocument (some "urn:t") a =
        addDocument library resolver depth d' adoptive a := by
  have hread : (orderDocument.rootElement.1.plain? "targetNamespace" = none) ∧
      ∀ t ∈ orderDocument.root.tags, t.lookup? none = none := by
    decide +kernel
  obtain ⟨d', htext, -, hrenames⟩ := exists_renames (d := orderDocument) (T := "urn:t")
    named_orderSchema rfl hread.1 hread.2 (by decide) ⟨by decide, by decide⟩
    (valueBack_eq_iff.2 (by decide))
  exact ⟨d', htext, hrenames, by decide, by decide +kernel,
    addDocument_renamed hrenames (by decide)⟩

end XmlConformance.Schema
