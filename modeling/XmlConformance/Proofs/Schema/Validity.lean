import XmlConformance.Proofs.Schema.Binding
import XmlConformance.Schema.Validation

/-!
# Proofs/Schema/Validity — when an element is valid

Validity as a relation, apart from any order in which things are checked: an element is valid
against a declaration (`Grammar.ValidElement`) if its attributes and its content are, and its
content is if some word of the content model admits the children and each of them is valid under the
leaf that admits it (`Grammar.ValidUnder`). Where any content is admitted, children that are
declared have to be valid, and those that are not declared are gone through in the same way
(`Grammar.ValidFreely`).

An element that says it is nil is valid without content; where its type is simple, nothing else is
asked of it. What the values of simple types are, is left to `Grammar.check`.
-/

namespace XmlConformance.Schema

open Xml

/-- An element: its tag and the nodes directly below it. -/
abbrev Element := Tag × List Node

/-- The elements among some nodes. -/
def childElements (cs : List Node) : List Element :=
  cs.filterMap fun
    | .element t cs => some (t, cs)
    | _ => none

@[simp] theorem childElements_nil : childElements [] = [] := rfl

@[simp] theorem childElements_cons_element (t : Tag) (cs rest : List Node) :
    childElements (.element t cs :: rest) = (t, cs) :: childElements rest := rfl

theorem childElements_cons_other {n : Node} (h : n.isElement = false) (rest : List Node) :
    childElements (n :: rest) = childElements rest := by
  cases n with
  | element => cases h
  | root | text | comment | instruction => rfl

theorem any_isElement_iff : ∀ {cs : List Node},
    cs.any Node.isElement = true ↔ childElements cs ≠ []
  | [] => by simp
  | n :: rest => by
    cases h : n.isElement with
    | true =>
      cases n with
      | element t cs => simp [h]
      | root | text | comment | instruction => cases h
    | false => rw [childElements_cons_other h, List.any_cons, h, Bool.false_or, any_isElement_iff]

theorem childTags_eq : ∀ cs : List Node, childTags cs = (childElements cs).map Prod.fst
  | [] => rfl
  | n :: rest => by
    cases n with
    | element t cs => exact congrArg (t :: ·) (childTags_eq rest)
    | root | text | comment | instruction => exact childTags_eq rest

/-- A value is accepted by a check, and is the one that is prescribed, white space around them
apart. -/
def Accepts (check : String → Except ValueError String) (fixed : Option String) (text : String) :
    Prop :=
  ∃ value, check text = .ok value ∧ ∀ f, fixed = some f → Text.trim f = Text.trim value

/-- No texts but white space. -/
def NoCharacters (cs : List Node) : Prop := hasCharacters cs = false

/-- The attribute that makes an element nil says so. -/
def IsNilled (t : Tag) : Prop :=
  ∃ value, instanceAttribute? t "nil" = some value ∧ Text.trim value ∈ ["true", "1"]

namespace Grammar

/-! ## Types and attributes -/

/-- **The type that governs an element**: the one that it names itself, or else the one that its
declaration gives it. -/
inductive Governs (g : Grammar) (t : Tag) (decl : ElementDecl) : Governing → Prop
  | named {value : String} {n : ExpandedName} {type : Governing}
      (hvalue : instanceAttribute? t "type" = some value)
      (hname : readTypeName? t value = some n) (htype : g.typeNamed? n = some type) :
      Governs g t decl type
  | declared {type : Governing} (hvalue : instanceAttribute? t "type" = none)
      (htype : g.declaredType decl = .ok type) : Governs g t decl type

/-- **An attribute is valid**: it is declared by the type or admitted by its wildcard, and if there
is a declaration that applies, its value is accepted. -/
inductive ValidAttribute (g : Grammar) (c : ComplexType) (a : Attribute) : Prop
  | declared {u : AttributeUse} (huse : c.attributes.find? (·.name == a.name) = some u)
      (hvalue : Accepts (g.check u.type) u.fixed a.value)
  | skipped {w : Wildcard} (hnone : c.attributes.find? (·.name == a.name) = none)
      (hwildcard : c.wildcard = some w) (hallows : w.allows a.name.uri = true)
      (hskip : w.processing = .skip)
  | admitted {w : Wildcard} {d : AttributeDecl}
      (hnone : c.attributes.find? (·.name == a.name) = none)
      (hwildcard : c.wildcard = some w) (hallows : w.allows a.name.uri = true)
      (hskip : w.processing ≠ .skip) (hdecl : g.attributes.find? a.name = some d)
      (hvalue : Accepts (g.check d.type) d.fixed a.value)
  | undeclared {w : Wildcard} (hnone : c.attributes.find? (·.name == a.name) = none)
      (hwildcard : c.wildcard = some w) (hallows : w.allows a.name.uri = true)
      (hdecl : g.attributes.find? a.name = none)
      (hlax : w.processing = .lax ∨ w.processing = .strict ∧ a.name.uri = some xmlUri)

/-- **The attributes of an element are valid**: each one that is not in the namespace for instances,
and none is missing. -/
structure ValidAttributes (g : Grammar) (c : ComplexType) (t : Tag) : Prop where
  each : ∀ a ∈ t.attributes, a.name.uri ≠ some instanceUri → g.ValidAttribute c a
  required : ∀ u ∈ c.attributes, u.use = .required → ∃ a ∈ t.attributes, a.name = u.name

/-- **An element with a simple type is valid**: no attributes, no children, and an accepted text. -/
structure ValidSimple (decl : ElementDecl) (e : Element)
    (check : String → Except ValueError String) : Prop where
  attributes : ∀ a ∈ e.1.attributes, a.name.uri = some instanceUri
  children : childElements e.2 = []
  value : Accepts check decl.fixed (ownCharacters e.2)

/-! ## Elements -/

mutual

/-- **An element is valid against a declaration.** -/
inductive ValidElement (g : Grammar) : ElementDecl → Element → Prop
  | filled {decl : ElementDecl} {e : Element} {type : Governing}
      (habstract : decl.isAbstract = false)
      (htype : g.Governs e.1 decl type)
      (hnil : instanceAttribute? e.1 "nil" ≠ none → decl.nillable = true)
      (hfilled : ¬ IsNilled e.1)
      (hattributes : ∀ c, type = .complex c → g.ValidAttributes c e.1)
      (hcontent : ValidContent g decl type e) : ValidElement g decl e
  /-- Without content, where the attribute for that says so. -/
  | nilled {decl : ElementDecl} {e : Element} {type : Governing}
      (habstract : decl.isAbstract = false)
      (htype : g.Governs e.1 decl type) (hnil : decl.nillable = true) (hnilled : IsNilled e.1)
      (hchildren : childElements e.2 = []) (hcharacters : NoCharacters e.2)
      (hattributes : ∀ c, type = .complex c → g.ValidAttributes c e.1) : ValidElement g decl e

/-- The content of an element is valid, given the type that governs it. -/
inductive ValidContent (g : Grammar) : ElementDecl → Governing → Element → Prop
  | any {decl : ElementDecl} {e : Element}
      (hchildren : ∀ child ∈ childElements e.2, ValidFreely g child) : ValidContent g decl .any e
  | simple {decl : ElementDecl} {r : SimpleTypeRef} {e : Element}
      (hsimple : ValidSimple decl e (g.check (some r))) : ValidContent g decl (.simple r) e
  | inline {decl : ElementDecl} {s : SimpleType} {e : Element}
      (hsimple : ValidSimple decl e (g.checkInline s)) : ValidContent g decl (.inline s) e
  | empty {decl : ElementDecl} {c : ComplexType} {e : Element} (hcontent : c.content = .empty)
      (hchildren : childElements e.2 = [])
      (hcharacters : c.mixed = true ∨ NoCharacters e.2) : ValidContent g decl (.complex c) e
  | value {decl : ElementDecl} {c : ComplexType} {r : SimpleTypeRef} {e : Element}
      (hcontent : c.content = .simple r) (hchildren : childElements e.2 = [])
      (hvalue : Accepts (g.check (some r)) decl.fixed (ownCharacters e.2)) :
      ValidContent g decl (.complex c) e
  | elements {decl : ElementDecl} {c : ComplexType} {model : Particle} {e : Element}
      {leaves : List Leaf} (hcontent : c.content = .elements model)
      (hcharacters : c.mixed = true ∨ NoCharacters e.2)
      (hleaves : leaves ∈ model.words g.elements)
      (hadmits : Admit leaves ((childElements e.2).map (·.1.name)))
      (hchildren : ∀ p ∈ leaves.zip (childElements e.2), ValidUnder g p.1 p.2) :
      ValidContent g decl (.complex c) e

/-- An element is valid under the leaf that admits it. -/
inductive ValidUnder (g : Grammar) : Leaf → Element → Prop
  | element {decl : ElementDecl} {e : Element} (hvalid : ValidElement g decl e) :
      ValidUnder g (.element decl) e
  | skipped {w : Wildcard} {e : Element} (hskip : w.processing = .skip) :
      ValidUnder g (.wildcard w) e
  | declared {w : Wildcard} {e : Element} {decl : ElementDecl} (hskip : w.processing ≠ .skip)
      (hdecl : g.elements.find? e.1.name = some decl) (hvalid : ValidElement g decl e) :
      ValidUnder g (.wildcard w) e
  | undeclared {w : Wildcard} {e : Element} (hlax : w.processing = .lax)
      (hdecl : g.elements.find? e.1.name = none)
      (hchildren : ∀ child ∈ childElements e.2, ValidFreely g child) :
      ValidUnder g (.wildcard w) e

/-- An element is valid where any content is admitted. -/
inductive ValidFreely (g : Grammar) : Element → Prop
  | declared {e : Element} {decl : ElementDecl} (hdecl : g.elements.find? e.1.name = some decl)
      (hvalid : ValidElement g decl e) : ValidFreely g e
  | undeclared {e : Element} (hdecl : g.elements.find? e.1.name = none)
      (hchildren : ∀ child ∈ childElements e.2, ValidFreely g child) : ValidFreely g e

end

/-- **A document is valid**: its root is declared, and valid against its declaration. -/
def ValidDocument (g : Grammar) (root : Element) : Prop :=
  ∃ decl, g.elements.find? root.1.name = some decl ∧ g.ValidElement decl root

/-! ## The content models of a grammar -/

mutual

/-- A declaration is one of a grammar: a global one, or one in the content of a type. -/
inductive Declares (g : Grammar) : ElementDecl → Prop
  | global {n : ExpandedName} {d : ElementDecl} (h : g.elements.find? n = some d) : Declares g d
  | inner {c : ComplexType} {model : Particle} {leaves : List Leaf} {d : ElementDecl}
      (hc : Defines g c) (hmodel : c.content = .elements model)
      (hleaves : leaves ∈ model.words g.elements) (hd : .element d ∈ leaves) : Declares g d

/-- A complex type is one of a grammar: it has a name, or a declaration holds it. -/
inductive Defines (g : Grammar) : ComplexType → Prop
  | named {n : ExpandedName} {c : ComplexType} (h : g.types.find? n = some (.complex c)) :
      Defines g c
  | inline {d : ElementDecl} {c : ComplexType} (hd : Declares g d) (h : d.type = .complex c) :
      Defines g c

end

/-- **All content models of a grammar are unambiguous.** -/
def Unambiguous (g : Grammar) : Prop :=
  ∀ c model, g.Defines c → c.content = .elements model → model.Unambiguous g.elements

end Grammar

end XmlConformance.Schema
