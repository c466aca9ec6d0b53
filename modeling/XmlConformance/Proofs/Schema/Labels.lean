import XmlConformance.Proofs.Outcome
import XmlConformance.Proofs.Xml.Subtrees
import XmlConformance.Schema.Conformance

/-!
# Proofs/Schema/Labels — labels do not matter to validity

What a check looks at of an element is its name, its attributes and its content, in which namespaces
stand for themselves. The labels in scope at it and its place in the text only go into messages, as
long as it does not name its type. So the check of a document comes to the same verdict as the check
of the tree without labels and places (`Grammar.verdict_validateNode`), and documents which differ
in these are both accepted or both rejected (`Grammar.validate_eq_ok_congr`).

The name of an element keeps apart whether it is in no namespace or in the empty one, which
`xmlns=""` declares. These are no labels, and a check tells them apart
(`Grammar.validate_emptyNamespace`).
-/

namespace XmlConformance.Xml

/-- A tag without the labels in scope and its place. -/
def Tag.eraseLabels (t : Tag) : Tag :=
  { t with scope := [], start := 0 }

namespace Node

mutual

/-- A tree of names, attributes and texts: the labels in scope and the places are left out. -/
def eraseLabels : Node → Node
  | .root cs => .root (eraseAllLabels cs)
  | .element t cs => .element t.eraseLabels (eraseAllLabels cs)
  | .text s => .text s
  | .comment s => .comment s
  | .instruction target value => .instruction target value

/-- Trees of names, attributes and texts. -/
def eraseAllLabels : List Node → List Node
  | [] => []
  | n :: ns => n.eraseLabels :: eraseAllLabels ns

end

theorem eraseAllLabels_eq_map : ∀ ns : List Node, eraseAllLabels ns = ns.map eraseLabels
  | [] => rfl
  | n :: ns => congrArg (n.eraseLabels :: ·) (eraseAllLabels_eq_map ns)

@[simp] theorem isElement_eraseLabels (n : Node) : n.eraseLabels.isElement = n.isElement := by
  cases n <;> rfl

theorem elements_eraseLabels (n : Node) : n.eraseLabels.elements =
    n.elements.map fun e => (e.1.eraseLabels, eraseAllLabels e.2) := by
  have hchildren : n.eraseLabels.children = n.children.map eraseLabels := by
    cases n <;> first | rfl | exact eraseAllLabels_eq_map _
  rw [elements, hchildren, elements, List.filterMap_map, List.map_filterMap]
  refine congrArg (n.children.filterMap ·) (funext fun c => ?_)
  cases c <;> rfl

end Node

end XmlConformance.Xml

namespace XmlConformance.Schema

open Xml

/-! ## Elements as the check sees them -/

section Erasure

variable (t : Tag) (cs : List Node)

@[simp] theorem any_isElement_eraseAllLabels :
    (Node.eraseAllLabels cs).any Node.isElement = cs.any Node.isElement := by
  rw [Node.eraseAllLabels_eq_map, List.any_map]
  exact congrArg cs.any (funext Node.isElement_eraseLabels)

@[simp] theorem ownCharacters_eraseAllLabels :
    ownCharacters (Node.eraseAllLabels cs) = ownCharacters cs := by
  rw [Node.eraseAllLabels_eq_map, ownCharacters, List.filterMap_map]
  refine congrArg (fun f => String.join (cs.filterMap f)) (funext fun n => ?_)
  cases n <;> rfl

@[simp] theorem hasCharacters_eraseAllLabels :
    hasCharacters (Node.eraseAllLabels cs) = hasCharacters cs := by
  rw [Node.eraseAllLabels_eq_map, hasCharacters, List.any_map]
  refine congrArg cs.any (funext fun n => ?_)
  cases n <;> rfl

theorem childTags_eraseAllLabels :
    childTags (Node.eraseAllLabels cs) = (childTags cs).map Tag.eraseLabels := by
  rw [Node.eraseAllLabels_eq_map, childTags, List.filterMap_map, childTags, List.map_filterMap]
  refine congrArg (cs.filterMap ·) (funext fun n => ?_)
  cases n <;> rfl

@[simp] theorem instanceAttribute?_eraseLabels (localName : String) :
    instanceAttribute? t.eraseLabels localName = instanceAttribute? t localName := rfl

@[simp] theorem ownAttributes_eraseLabels : ownAttributes t.eraseLabels = ownAttributes t := rfl

end Erasure

/-! ## Verdicts -/

/-- What a check comes to, apart from what its message says: a value, a fault of the document, or
an error of the schema. -/
def verdict {α : Type} (x : Except Violation α) : Except (Option Error) α :=
  x.mapError fun
    | .invalid _ _ => none
    | .unusable e => some e

section Verdict

variable {α β : Type} {x y : Except Violation α}

theorem verdict_eq_ok {a : α} : verdict x = .ok a ↔ x = .ok a := mapError_eq_ok

/-- **Checks behind checks of one verdict** have one verdict if the later ones have. -/
theorem verdict_bind_congr {f g : α → Except Violation β} (hx : verdict x = verdict y)
    (hf : ∀ a, verdict (f a) = verdict (g a)) : verdict (x >>= f) = verdict (y >>= g) := by
  rcases x with (⟨_, _⟩ | e) | a <;> rcases y with (⟨_, _⟩ | e') | b <;> cases hx
  · rfl
  · rfl
  · exact hf a

theorem verdict_located_congr (t u : Tag) (v : Except ValueError String) :
    verdict (located t v) = verdict (located u v) := by
  rcases v with (_ | _) | _ <;> rfl

theorem verdict_forM_congr {f g : β → Except Violation Unit} : ∀ {l : List β},
    (∀ b ∈ l, verdict (f b) = verdict (g b)) → verdict (l.forM f) = verdict (l.forM g)
  | [], _ => rfl
  | b :: l, h => by
    rw [List.forall_mem_cons] at h
    exact verdict_bind_congr h.1 fun _ => verdict_forM_congr h.2

end Verdict

/-! ## Parts of the check -/

namespace Grammar

variable {g : Grammar} {decl : ElementDecl} {c : ComplexType} {t : Tag} {cs : List Node}

theorem verdict_checkAttribute (a : Attribute) :
    verdict (g.checkAttribute c t.eraseLabels a) = verdict (g.checkAttribute c t a) := by
  unfold checkAttribute
  dsimp only
  split
  · rfl
  · rfl
  · refine verdict_bind_congr (verdict_located_congr _ _ _) fun value => ?_
    split <;> rfl

theorem verdict_checkPresence (u : AttributeUse) :
    verdict (checkPresence t.eraseLabels u) = verdict (checkPresence t u) := by
  unfold checkPresence
  rw [show t.eraseLabels.attributes = t.attributes from rfl]
  split <;> rfl

theorem verdict_checkAttributes :
    verdict (g.checkAttributes c t.eraseLabels) = verdict (g.checkAttributes c t) :=
  verdict_bind_congr (verdict_forM_congr fun a _ => verdict_checkAttribute a)
    fun _ => verdict_forM_congr fun u _ => verdict_checkPresence u

theorem verdict_checkFixed (value : String) :
    verdict (checkFixed t.eraseLabels decl value) = verdict (checkFixed t decl value) := by
  unfold checkFixed
  split <;> rfl

theorem verdict_checkSimpleElement (check : String → Except ValueError String) :
    verdict (checkSimpleElement decl t.eraseLabels (Node.eraseAllLabels cs) check) =
      verdict (checkSimpleElement decl t cs check) := by
  unfold checkSimpleElement
  rw [ownAttributes_eraseLabels, any_isElement_eraseAllLabels, ownCharacters_eraseAllLabels]
  split
  · rfl
  · split
    · rfl
    · exact verdict_bind_congr (verdict_located_congr _ _ _) verdict_checkFixed

/-- **The names of the children** say which leaves admit them. -/
theorem verdict_bind (model : Particle) :
    verdict (g.bind model t.eraseLabels (Node.eraseAllLabels cs)) =
      verdict (g.bind model t cs) := by
  have hnames : (childTags (Node.eraseAllLabels cs)).map (·.name) =
      (childTags cs).map (·.name) := by
    rw [childTags_eraseAllLabels, List.map_map]
    rfl
  unfold bind
  dsimp only
  rw [hnames]
  split
  · rfl
  · rfl
  · split <;> split <;> rfl

theorem verdict_checkContentOf {children children' : List (Option Leaf) → Except Violation Unit}
    (h : ∀ leaves, verdict (children' leaves) = verdict (children leaves)) :
    verdict (g.checkContentOf c decl t.eraseLabels (Node.eraseAllLabels cs) children') =
      verdict (g.checkContentOf c decl t cs children) := by
  unfold checkContentOf
  simp only [any_isElement_eraseAllLabels, hasCharacters_eraseAllLabels,
    ownCharacters_eraseAllLabels]
  split
  · split <;> rfl
  · split
    · rfl
    · exact verdict_bind_congr (verdict_located_congr _ _ _) verdict_checkFixed
  · split
    · rfl
    · exact verdict_bind_congr (verdict_bind _) h

theorem verdict_checkNil : verdict (checkNil decl t.eraseLabels (Node.eraseAllLabels cs)) =
    verdict (checkNil decl t cs) := by
  unfold checkNil
  simp only [instanceAttribute?_eraseLabels, any_isElement_eraseAllLabels,
    hasCharacters_eraseAllLabels]
  split
  · rfl
  · split
    · rfl
    · split
      · split <;> rfl
      · rfl

/-- The declaration governs an element that does not name its type. -/
theorem governing_of_untyped (h : instanceAttribute? t "type" = none) :
    g.governing t decl = g.declaredType decl := by
  rw [governing, instanceType, h]
  rfl

theorem verdict_checkElementWith (ht : instanceAttribute? t "type" = none)
    {children children' : List (Option Leaf) → Except Violation Unit}
    {freely freely' : Unit → Except Violation Unit}
    (hchildren : ∀ leaves, verdict (children' leaves) = verdict (children leaves))
    (hfreely : verdict (freely' ()) = verdict (freely ())) :
    verdict (g.checkElementWith decl t.eraseLabels (Node.eraseAllLabels cs) children' freely') =
      verdict (g.checkElementWith decl t cs children freely) := by
  unfold checkElementWith
  rw [governing_of_untyped ht, governing_of_untyped (t := t.eraseLabels) ht]
  split
  · rfl
  · refine verdict_bind_congr rfl fun type => ?_
    refine verdict_bind_congr verdict_checkNil fun nilled => ?_
    split
    · split
      · exact verdict_checkAttributes
      · rfl
    · split
      · exact hfreely
      · exact verdict_checkSimpleElement _
      · exact verdict_checkSimpleElement _
      · exact verdict_bind_congr verdict_checkAttributes fun _ => verdict_checkContentOf hchildren

/-! ## The check -/

/-- No element among some nodes names its type. -/
def Untyped (ns : List Node) : Prop :=
  ∀ t cs, Node.element t cs ∈ ns → instanceAttribute? t "type" = none

/-- The nodes behind and below an element. -/
theorem Untyped.parts {t : Tag} {cs rest : List Node}
    (h : Untyped (Node.subtrees (.element t cs :: rest))) :
    Untyped (Node.element t cs).subtree ∧ Untyped (Node.subtrees cs) ∧
      Untyped (Node.subtrees rest) :=
  ⟨fun u ds hu => h u ds (List.mem_append_left _ hu),
    fun u ds hu => h u ds (List.mem_append_left _ (List.mem_cons_of_mem _ hu)),
    fun u ds hu => h u ds (List.mem_append_right _ hu)⟩

open Node in
mutual

/-- **The check of an element** comes to the verdict on the tree without labels. -/
theorem verdict_validateNode (g : Grammar) : ∀ (decl : ElementDecl) (n : Node), Untyped n.subtree →
    verdict (g.validateNode decl n.eraseLabels) = verdict (g.validateNode decl n)
  | decl, .element t cs, h => by
    have hcs : Untyped (subtrees cs) := fun u ds hu => h u ds (List.mem_cons_of_mem _ hu)
    rw [eraseLabels, validateNode, validateNode]
    exact verdict_checkElementWith (h t cs List.mem_cons_self)
      (fun leaves => verdict_validateChildren g leaves cs hcs) (verdict_validateFreely g cs hcs)
  | _, .root _, _ | _, .text _, _ | _, .comment _, _ | _, .instruction .., _ => rfl

/-- The check of children against leaves comes to the verdict on the trees without labels. -/
theorem verdict_validateChildren (g : Grammar) : ∀ (leaves : List (Option Leaf)) (ns : List Node),
    Untyped (subtrees ns) →
    verdict (g.validateChildren leaves (eraseAllLabels ns)) = verdict (g.validateChildren leaves ns)
  | _, [], _ => rfl
  | [], .element t cs :: rest, _ => rfl
  | none :: leaves, .element t cs :: rest, h => verdict_validateChildren g leaves rest h.parts.2.2
  | some (.element decl) :: leaves, .element t cs :: rest, h => by
    rw [eraseAllLabels, eraseLabels, validateChildren, validateChildren]
    exact verdict_bind_congr (verdict_validateNode g decl (.element t cs) h.parts.1)
      fun _ => verdict_validateChildren g leaves rest h.parts.2.2
  | some (.wildcard w) :: leaves, .element t cs :: rest, h => by
    have hmore := verdict_validateChildren g leaves rest h.parts.2.2
    rw [eraseAllLabels, eraseLabels, validateChildren, validateChildren,
      show t.eraseLabels.name = t.name from rfl]
    split
    · exact hmore
    · exact verdict_bind_congr (verdict_validateNode g _ (.element t cs) h.parts.1) fun _ => hmore
    · exact verdict_bind_congr (verdict_validateFreely g cs h.parts.2.1) fun _ => hmore
    · rfl
  | leaves, .root _ :: rest, h | leaves, .text _ :: rest, h | leaves, .comment _ :: rest, h
  | leaves, .instruction .. :: rest, h => by
    have hrest := verdict_validateChildren g leaves rest fun u ds hu =>
      h u ds (List.mem_append_right _ hu)
    simpa only [eraseAllLabels, eraseLabels, validateChildren] using hrest

/-- The check where any content is admitted comes to the verdict on the trees without labels. -/
theorem verdict_validateFreely (g : Grammar) : ∀ ns : List Node, Untyped (subtrees ns) →
    verdict (g.validateFreely (eraseAllLabels ns)) = verdict (g.validateFreely ns)
  | [], _ => rfl
  | .element t cs :: rest, h => by
    have hmore := verdict_validateFreely g rest h.parts.2.2
    rw [eraseAllLabels, eraseLabels, validateFreely, validateFreely,
      show t.eraseLabels.name = t.name from rfl]
    split
    · exact verdict_bind_congr (verdict_validateNode g _ (.element t cs) h.parts.1) fun _ => hmore
    · exact verdict_bind_congr (verdict_validateFreely g cs h.parts.2.1) fun _ => hmore
  | .root _ :: rest, h | .text _ :: rest, h | .comment _ :: rest, h
  | .instruction .. :: rest, h => by
    have hrest := verdict_validateFreely g rest fun u ds hu => h u ds (List.mem_append_right _ hu)
    simpa only [eraseAllLabels, eraseLabels, validateFreely] using hrest

end

/-! ## Documents -/

/-- A document whose elements do not name their types has such a root element. -/
theorem untyped_rootElement {d : Document} (h : Untyped d.root.subtree) :
    Untyped (Node.element d.rootElement.1 d.rootElement.2).subtree := by
  unfold Document.rootElement
  cases hroot : d.root.elements.head? with
  | none =>
    intro t cs ht
    obtain ⟨rfl, rfl⟩ := Node.element.inj (List.mem_singleton.1 ht)
    rfl
  | some e =>
    exact fun u ds hu => h u ds (Node.subtree_subset (Document.element_mem_subtree hroot) hu)

/-- A root element without labels is that of the document without labels. -/
theorem rootElement_of_eraseLabels_eq {d d' : Document}
    (h : d.root.eraseLabels = d'.root.eraseLabels) :
    d.rootElement.1.eraseLabels = d'.rootElement.1.eraseLabels ∧
      Node.eraseAllLabels d.rootElement.2 = Node.eraseAllLabels d'.rootElement.2 := by
  have hhead := congrArg (·.elements.head?) h
  simp only [Node.elements_eraseLabels, List.head?_map] at hhead
  unfold Document.rootElement
  cases hd : d.root.elements.head? with
  | none =>
    rw [hd, Option.map_none, eq_comm, Option.map_eq_none_iff] at hhead
    rw [hhead]
    exact ⟨rfl, rfl⟩
  | some e =>
    rw [hd, Option.map_some, eq_comm, Option.map_eq_some_iff] at hhead
    obtain ⟨e', he', hhead⟩ := hhead
    rw [he']
    exact ⟨(Prod.mk.inj hhead).1.symm, (Prod.mk.inj hhead).2.symm⟩

theorem verdict_validate {t : Tag} {cs : List Node} (h : Untyped (Node.element t cs).subtree) :
    verdict (g.validate (t.eraseLabels, Node.eraseAllLabels cs)) =
      verdict (g.validate (t, cs)) := by
  unfold validate
  dsimp only
  rw [show t.eraseLabels.name = t.name from rfl]
  split
  · exact verdict_validateNode g _ (.element t cs) h
  · rfl

/-- **Documents that differ in labels only are accepted or rejected together**, if no element of
them names its type: documents which are the same tree of names, attributes and texts. -/
theorem validate_eq_ok_congr (g : Grammar) {d d' : Document}
    (h : d.root.eraseLabels = d'.root.eraseLabels) (hd : Untyped d.root.subtree)
    (hd' : Untyped d'.root.subtree) :
    g.validate d.rootElement = .ok () ↔ g.validate d'.rootElement = .ok () := by
  obtain ⟨htag, hcontent⟩ := rootElement_of_eraseLabels_eq h
  have hverdict : verdict (g.validate d.rootElement) = verdict (g.validate d'.rootElement) := by
    rw [← verdict_validate (untyped_rootElement hd), ← verdict_validate (untyped_rootElement hd'),
      htag, hcontent]
  rw [← verdict_eq_ok, hverdict, verdict_eq_ok]

/-- The tag of an element that is all that a document consists of. -/
def onlyTag? : Node → Option Tag
  | .root [.element t []] => some t
  | _ => none

theorem eq_of_onlyTag? {n : Node} {t : Tag} (h : onlyTag? n = some t) :
    n = .root [.element t []] := by
  unfold onlyTag? at h
  split at h
  · cases h
    rfl
  · cases h

theorem untyped_onlyTag {t : Tag} (h : instanceAttribute? t "type" = none) :
    Untyped (Node.root [.element t []]).subtree := by
  intro u cs hu
  obtain hu | hu := List.mem_cons.1 hu
  · cases hu
  · cases List.mem_singleton.1 hu
    exact h

/-- A schema that declares an element for any content. -/
def anyContent (n : ExpandedName) : Components :=
  { elements := [(n, ⟨n, .any, false, false, none⟩)] }

theorem validate_otherLabels : ∃ g d d', (anyContent ⟨some "u", "a"⟩).resolve = .ok g ∧
    Document.ofText "<p:a xmlns:p=\"u\" p:b=\"x\"/>" none = .ok d ∧
    Document.ofText "<a xmlns=\"u\" xmlns:q=\"u\" q:b=\"x\"/>" none = .ok d' ∧
    d.root.eraseLabels = d'.root.eraseLabels ∧ Untyped d.root.subtree ∧ Untyped d'.root.subtree ∧
    (g.validate d.rootElement = .ok () ↔ g.validate d'.rootElement = .ok ()) := by
  have hread : ((anyContent ⟨some "u", "a"⟩).resolve.toOption.any fun _ =>
      (Document.ofText "<p:a xmlns:p=\"u\" p:b=\"x\"/>" none).toOption.any fun d =>
      (Document.ofText "<a xmlns=\"u\" xmlns:q=\"u\" q:b=\"x\"/>" none).toOption.any fun d' =>
      (onlyTag? d.root).any fun t => (onlyTag? d'.root).any fun u =>
        t.eraseLabels == u.eraseLabels && instanceAttribute? t "type" == none) = true := by
    decide +kernel
  obtain ⟨g, hg, hread⟩ := exists_of_any_toOption hread
  obtain ⟨d, hd, hread⟩ := exists_of_any_toOption hread
  obtain ⟨d', hd', hread⟩ := exists_of_any_toOption hread
  obtain ⟨t, ht, hread⟩ := (Option.any_eq_true _ _).1 hread
  obtain ⟨u, hu, hread⟩ := (Option.any_eq_true _ _).1 hread
  obtain ⟨herased, huntyped⟩ := Bool.and_eq_true_iff.1 hread
  replace herased := eq_of_beq herased
  replace huntyped := eq_of_beq huntyped
  have hroots : d.root.eraseLabels = d'.root.eraseLabels := by
    rw [eq_of_onlyTag? ht, eq_of_onlyTag? hu]
    exact congrArg (fun t => Node.root [.element t []]) herased
  have huntyped' : instanceAttribute? u "type" = none := by
    rw [← instanceAttribute?_eraseLabels, ← herased]
    exact huntyped
  have hd₁ : Untyped d.root.subtree := eq_of_onlyTag? ht ▸ untyped_onlyTag huntyped
  have hd₂ : Untyped d'.root.subtree := eq_of_onlyTag? hu ▸ untyped_onlyTag huntyped'
  exact ⟨g, d, d', hg, hd, hd', hroots, hd₁, hd₂, validate_eq_ok_congr g hroots hd₁ hd₂⟩

/-- **An element in the empty namespace is no element without one**: the documents are of one
element `a` without a namespace, and one of them says so. -/
theorem validate_emptyNamespace : ∃ g d d' t u, (anyContent ⟨none, "a"⟩).resolve = .ok g ∧
    Document.ofText "<a/>" none = .ok d ∧ d.root = .root [.element t []] ∧
    Document.ofText "<a xmlns=\"\"/>" none = .ok d' ∧ d'.root = .root [.element u []] ∧
    t.name = ⟨none, "a"⟩ ∧ u.name = ⟨some "", "a"⟩ ∧ t.attributes = [] ∧ u.attributes = [] ∧
    g.validate d.rootElement = .ok () ∧ g.validate d'.rootElement ≠ .ok () := by
  have hread : ((anyContent ⟨none, "a"⟩).resolve.toOption.any fun g =>
      (Document.ofText "<a/>" none).toOption.any fun d =>
      (Document.ofText "<a xmlns=\"\"/>" none).toOption.any fun d' =>
      (onlyTag? d.root).any fun t => (onlyTag? d'.root).any fun u =>
        t.name == ⟨none, "a"⟩ && u.name == ⟨some "", "a"⟩ && t.attributes == [] &&
          u.attributes == [] && (g.validate d.rootElement).toOption == some () &&
            (g.validate d'.rootElement).toOption == none) = true := by
    decide +kernel
  obtain ⟨g, hg, hread⟩ := exists_of_any_toOption hread
  obtain ⟨d, hd, hread⟩ := exists_of_any_toOption hread
  obtain ⟨d', hd', hread⟩ := exists_of_any_toOption hread
  obtain ⟨t, ht, hread⟩ := (Option.any_eq_true _ _).1 hread
  obtain ⟨u, hu, hread⟩ := (Option.any_eq_true _ _).1 hread
  simp only [Bool.and_eq_true, beq_iff_eq] at hread
  obtain ⟨⟨⟨⟨⟨htname, huname⟩, hta⟩, hua⟩, hvalid⟩, hinvalid⟩ := hread
  refine ⟨g, d, d', t, u, hg, hd, eq_of_onlyTag? ht, hd', eq_of_onlyTag? hu, htname, huname, hta,
    hua, ?_, fun h => ?_⟩
  · cases h : g.validate d.rootElement with
    | ok => rfl
    | error e => simp [h, Except.toOption] at hvalid
  · simp [h, Except.toOption] at hinvalid

end Grammar

end XmlConformance.Schema
