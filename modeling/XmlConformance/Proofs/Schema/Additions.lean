import XmlConformance.Proofs.Outcome
import XmlConformance.Schema.Assembly

/-!
# Proofs/Schema/Additions — what reading a schema adds

A global element adds an entry to one table of the components, under the name that it is given, or
it adds nothing (`Addition`). A child of a schema element is such an element, or it refers to a
document, which is added in its place unless it was before (`Contributes`). Reading a schema does
nothing else to the components, through however many documents it goes: what every addition
preserves holds of each schema that is read (`Components.preserved_of_load`).
-/

namespace XmlConformance.Schema

open Xml

variable {s : Setting} {t : Tag} {cs : List Node} {c c' : Components}

/-- The elements that define a component. -/
def definingElements : List String :=
  ["element", "attribute", "complexType", "simpleType", "group", "attributeGroup"]

/-- **What a global element adds** to the components. -/
inductive Addition (s : Setting) (t : Tag) (c : Components) : Components → Prop
  | elementDecl {decl : ElementDecl} (kind : t.schemaElement? = some "element")
      (name : s.globalName t = .ok decl.name) :
      Addition s t c { c with elements := c.elements.insert decl.name decl }
  | attributeDecl {decl : AttributeDecl} (kind : t.schemaElement? = some "attribute")
      (name : s.globalName t = .ok decl.name) :
      Addition s t c { c with attributes := c.attributes.insert decl.name decl }
  | typeDefinition {n : ExpandedName} {definition : TypeDefinition}
      (kind : t.schemaElement? = some "complexType" ∨ t.schemaElement? = some "simpleType")
      (name : s.globalName t = .ok n) :
      Addition s t c { c with types := c.types.insert n definition }
  | groupModel {n : ExpandedName} {model : Particle} (kind : t.schemaElement? = some "group")
      (name : s.globalName t = .ok n) (once : model.occurs = .once) :
      Addition s t c { c with groups := c.groups.insert n model }
  | attributeGroup {n : ExpandedName} {group : AttributeGroup}
      (kind : t.schemaElement? = some "attributeGroup") (name : s.globalName t = .ok n) :
      Addition s t c { c with attributeGroups := c.attributeGroups.insert n group }
  | nothing (kind : ∀ element ∈ definingElements, t.schemaElement? ≠ some element) :
      Addition s t c c

/-! ## Components -/

theorem name_of_elementDecl {name : Except Error ExpandedName} {inline : Except Error ElementType}
    {decl : ElementDecl} (h : s.elementDecl t name inline = .ok decl) : name = .ok decl.name := by
  obtain ⟨n, hn, h⟩ := bind_eq_ok.1 h
  obtain ⟨found, -, h⟩ := bind_eq_ok.1 h
  cases found with
  | some typeName =>
    cases h
    exact hn
  | none =>
    obtain ⟨_, -, h⟩ := bind_eq_ok.1 h
    cases h
    exact hn

theorem name_of_attributeDecl {decl : AttributeDecl} (h : s.attributeDecl t cs = .ok decl) :
    s.globalName t = .ok decl.name := by
  obtain ⟨n, hn, h⟩ := bind_eq_ok.1 h
  obtain ⟨_, -, h⟩ := bind_eq_ok.1 h
  cases h
  exact hn

theorem occurs_of_groupModel {p : Particle} (h : s.groupModel cs = .ok p) : p.occurs = .once := by
  unfold Setting.groupModel at h
  dsimp only at h
  split at h
  · cases h
  obtain ⟨found, -, h⟩ := bind_eq_ok.1 h
  cases found with
  | none => cases h
  | some q =>
    cases h
    cases q <;> rfl

/-- **Adding a component** is an addition. -/
theorem addition_of_addComponent (h : addComponent s c t cs = .ok c') : Addition s t c c' := by
  unfold addComponent at h
  split at h
  · case h_1 kind =>
    obtain ⟨decl, hdecl, h⟩ := bind_eq_ok.1 h
    cases h
    exact .elementDecl kind (name_of_elementDecl hdecl)
  · case h_2 kind =>
    obtain ⟨decl, hdecl, h⟩ := bind_eq_ok.1 h
    cases h
    exact .attributeDecl kind (name_of_attributeDecl hdecl)
  · case h_3 kind =>
    obtain ⟨n, hname, h⟩ := bind_eq_ok.1 h
    obtain ⟨type, -, h⟩ := bind_eq_ok.1 h
    cases h
    exact .typeDefinition (.inl kind) hname
  · case h_4 kind =>
    obtain ⟨n, hname, h⟩ := bind_eq_ok.1 h
    obtain ⟨type, -, h⟩ := bind_eq_ok.1 h
    cases h
    exact .typeDefinition (.inr kind) hname
  · case h_5 kind =>
    obtain ⟨n, hname, h⟩ := bind_eq_ok.1 h
    obtain ⟨model, hmodel, h⟩ := bind_eq_ok.1 h
    cases h
    exact .groupModel kind hname (occurs_of_groupModel hmodel)
  · case h_6 kind =>
    obtain ⟨n, hname, h⟩ := bind_eq_ok.1 h
    obtain ⟨group, -, h⟩ := bind_eq_ok.1 h
    cases h
    exact .attributeGroup kind hname
  · cases h
    refine .nothing fun element helement kind => ?_
    simp only [definingElements, List.mem_cons, List.not_mem_nil, or_false] at helement
    obtain rfl | rfl | rfl | rfl | rfl | rfl := helement <;> contradiction

/-! ## Documents -/

section Documents

variable {library : Library} {resolver : Resolver} {d : Document} {a a' b : Assembly}
  {add : Document → Option String → Assembly → Loading Assembly}

/-- **What a child of a schema element contributes** to an assembly: a component, or the document
that it refers to, unless that was added before. -/
inductive Contributes (library : Library) (resolver : Resolver) (d : Document) (s : Setting)
    (add : Document → Option String → Assembly → Loading Assembly) (t : Tag) (a : Assembly) :
    Assembly → Prop
  | component {c : Components} (reference : reference? s t = .ok none)
      (addition : Addition s t a.components c) :
      Contributes library resolver d s add t a { a with components := c }
  | again {location : String} {given : Option String} {source : Source}
      (reference : reference? s t = .ok (some (location, given)))
      (located : sourceOf resolver d location = .ok source) (seen : source.describe ∈ a.seen) :
      Contributes library resolver d s add t a a
  | document {location : String} {given : Option String} {source : Source} {included : Document}
      {b : Assembly} (reference : reference? s t = .ok (some (location, given)))
      (located : sourceOf resolver d location = .ok source)
      (load : (library.load source).outcome = .ok included)
      (added : (add included given { a with seen := source.describe :: a.seen }).outcome = .ok b) :
      Contributes library resolver d s add t a b

/-- **Children of a schema element** contribute one after the other. -/
theorem exists_contributes {rest : List (Tag × List Node)}
    (h : (addChildren library resolver d s add ((t, cs) :: rest) a).outcome = .ok a') :
    ∃ b, Contributes library resolver d s add t a b ∧
      (addChildren library resolver d s add rest b).outcome = .ok a' := by
  unfold addChildren at h
  rw [Tracked.outcome_bind] at h
  obtain ⟨reference, hreference, h⟩ := bind_eq_ok.1 h
  replace hreference := mapError_eq_ok.1 hreference
  cases reference with
  | none =>
    simp only [Tracked.outcome_bind] at h
    obtain ⟨c, hc, h⟩ := bind_eq_ok.1 h
    exact ⟨_, .component hreference (addition_of_addComponent (mapError_eq_ok.1 hc)), h⟩
  | some place =>
    simp only [Tracked.outcome_bind] at h
    obtain ⟨source, hsource, h⟩ := bind_eq_ok.1 h
    split at h
    · case isTrue hseen =>
      exact ⟨a, .again hreference hsource (List.contains_iff_mem.1 hseen), h⟩
    · simp only [Tracked.outcome_bind] at h
      obtain ⟨included, hload, h⟩ := bind_eq_ok.1 h
      obtain ⟨b, hb, h⟩ := bind_eq_ok.1 h
      exact ⟨b, .document hreference hsource hload hb, h⟩

/-- A document contributes what the children of its schema element do. -/
theorem addChildren_of_addDocument {depth : ℕ} {adoptive : Option String}
    (h : (addDocument library resolver (depth + 1) d adoptive a).outcome = .ok a') :
    (addChildren library resolver d (settingOf d.rootElement.1 adoptive)
      (addDocument library resolver depth) (Node.root d.rootElement.2).elements a).outcome =
        .ok a' := by
  unfold addDocument at h
  dsimp only at h
  split at h
  · exact h
  · cases h

variable {P : Components → Prop}

theorem Contributes.preserved (hP : ∀ {s t c c'}, Addition s t c c' → P c → P c')
    (hadd : ∀ d adoptive a a', (add d adoptive a).outcome = .ok a' →
      P a.components → P a'.components)
    (h : Contributes library resolver d s add t a b) (ha : P a.components) : P b.components := by
  cases h with
  | component _ addition => exact hP addition ha
  | again => exact ha
  | document _ _ _ added => exact hadd _ _ _ _ added ha

theorem preserved_addChildren (hP : ∀ {s t c c'}, Addition s t c c' → P c → P c')
    (hadd : ∀ d adoptive a a', (add d adoptive a).outcome = .ok a' →
      P a.components → P a'.components) :
    ∀ children {a a'}, (addChildren library resolver d s add children a).outcome = .ok a' →
      P a.components → P a'.components
  | [], a, a', h, ha => by
    cases h
    exact ha
  | (t, cs) :: rest, a, a', h, ha => by
    obtain ⟨b, hb, h⟩ := exists_contributes h
    exact preserved_addChildren hP hadd rest h (hb.preserved hP hadd ha)

theorem preserved_addDocument (hP : ∀ {s t c c'}, Addition s t c c' → P c → P c') :
    ∀ depth d adoptive a a', (addDocument library resolver depth d adoptive a).outcome = .ok a' →
      P a.components → P a'.components
  | 0, _, _, _, _, h, _ => by cases h
  | depth + 1, _, _, _, _, h, ha =>
    preserved_addChildren hP (preserved_addDocument hP depth) _ (addChildren_of_addDocument h) ha

/-- **What every addition preserves** holds of the schemas that are read. -/
theorem Components.preserved_of_load (hP : ∀ {s t c c'}, Addition s t c c' → P c → P c')
    (hempty : P {}) {root : Document}
    (h : (Components.load library resolver root).outcome = .ok c) : P c := by
  unfold Components.load at h
  rw [Tracked.outcome_bind] at h
  obtain ⟨a, ha, h⟩ := bind_eq_ok.1 h
  cases h
  exact preserved_addDocument hP _ _ _ _ _ ha hempty

end Documents

end XmlConformance.Schema
