import XmlConformance.Proofs.Outcome
import XmlConformance.Schema.Resolution

/-!
# Proofs/Schema/Failing — failing without following references

Groups and bases apart, little can go wrong when components are resolved: a name stands for nothing,
or attribute groups are nested too deep (`Error.IsPlain`). Attributes, the names of the types of
elements and the check of references fail with such errors only.
-/

namespace XmlConformance.Schema

open Xml

/-- Errors that no group and no base has a part in. -/
inductive Error.IsPlain : Error → Prop
  | unresolved (n : ExpandedName) (kind : ComponentKind) : IsPlain (.unresolved n kind)
  | attributeGroupsTooDeep : IsPlain .attributeGroupsTooDeep

namespace Components

theorem failsWith_resolveUse (c : Components) (u : AttributeUse) :
    FailsWith Error.IsPlain (c.resolveUse u) := by
  unfold resolveUse
  split
  · split
    · exact .ok _
    · exact .error (.unresolved _ _)
  · exact .ok u

theorem failsWith_addGroups (c : Components)
    {expand : AttributeGroup → Except Error (List AttributeUse × Option Wildcard)}
    (h : ∀ g, FailsWith Error.IsPlain (expand g)) :
    ∀ names found, FailsWith Error.IsPlain (c.addGroups expand names found)
  | [], found => .ok found
  | n :: rest, (uses, wildcard) => by
    unfold addGroups
    split
    · exact .error (.unresolved _ _)
    · exact (h _).bind fun _ _ => failsWith_addGroups c h rest _

/-- **Attributes** of types and groups. -/
theorem failsWith_attributesOf (c : Components) :
    ∀ depth g, FailsWith Error.IsPlain (c.attributesOf depth g)
  | 0, _ => .error .attributeGroupsTooDeep
  | depth + 1, g => (FailsWith.mapM c.failsWith_resolveUse g.attributes).bind fun _ _ =>
      c.failsWith_addGroups (c.failsWith_attributesOf depth) g.groups _

theorem failsWith_resolveTypeName (c : Components) (n : ExpandedName) :
    FailsWith Error.IsPlain (c.resolveTypeName n) := by
  unfold resolveTypeName
  dsimp only
  generalize (if isSchemaName n then _ else _ : Bool) = known
  cases known with
  | true => exact .ok (ElementType.named n)
  | false => exact .error (.unresolved _ _)

end Components

namespace Grammar

mutual

theorem failsWith_checkSimple (g : Grammar) : ∀ t, FailsWith Error.IsPlain (g.checkSimple t)
  | .restriction base _ => g.failsWith_checkSimpleRef base
  | .list item => g.failsWith_checkSimpleRef item
  | .union members => g.failsWith_checkSimpleRefs members

theorem failsWith_checkSimpleRef (g : Grammar) : ∀ r, FailsWith Error.IsPlain (g.checkSimpleRef r)
  | .named n => by
    unfold checkSimpleRef
    split
    · exact .ok ()
    · exact .error (.unresolved _ _)
  | .inline t => g.failsWith_checkSimple t

theorem failsWith_checkSimpleRefs (g : Grammar) :
    ∀ rs, FailsWith Error.IsPlain (g.checkSimpleRefs rs)
  | [] => .ok ()
  | r :: rs => (g.failsWith_checkSimpleRef r).bind fun _ _ => g.failsWith_checkSimpleRefs rs

end

theorem failsWith_checkAttributeType (g : Grammar) :
    ∀ type, FailsWith Error.IsPlain (g.checkAttributeType type)
  | some r => g.failsWith_checkSimpleRef r
  | none => .ok ()

mutual

theorem failsWith_checkParticle (g : Grammar) : ∀ p, FailsWith Error.IsPlain (g.checkParticle p)
  | .element _ decl => g.failsWith_checkElement decl
  | .reference _ n => by
    unfold checkParticle
    split
    · exact .ok ()
    · exact .error (.unresolved _ _)
  | .sequence _ items => g.failsWith_checkParticles items
  | .choice _ items => g.failsWith_checkParticles items
  | .all _ items => g.failsWith_checkParticles items
  | .group _ _ => .error (.unresolved _ _)
  | .any _ _ => .ok ()

theorem failsWith_checkParticles (g : Grammar) :
    ∀ ps, FailsWith Error.IsPlain (g.checkParticles ps)
  | [] => .ok ()
  | p :: ps => (g.failsWith_checkParticle p).bind fun _ _ => g.failsWith_checkParticles ps

theorem failsWith_checkElement (g : Grammar) : ∀ d, FailsWith Error.IsPlain (g.checkElement d)
  | ⟨_, type, _, _, _⟩ => g.failsWith_checkElementType type

theorem failsWith_checkElementType (g : Grammar) :
    ∀ t, FailsWith Error.IsPlain (g.checkElementType t)
  | .complex t => g.failsWith_checkComplex t
  | .simple t => g.failsWith_checkSimple t
  | .any => .ok ()
  | .named _ => .ok ()

theorem failsWith_checkComplex (g : Grammar) : ∀ t, FailsWith Error.IsPlain (g.checkComplex t)
  | ⟨_, _, content, attributes, _, _⟩ =>
    (FailsWith.forM (fun u : AttributeUse => g.failsWith_checkAttributeType u.type)
      attributes).bind fun _ _ => g.failsWith_checkContent content

theorem failsWith_checkContent (g : Grammar) : ∀ t, FailsWith Error.IsPlain (g.checkContent t)
  | .empty => .ok ()
  | .elements p => g.failsWith_checkParticle p
  | .simple t => g.failsWith_checkSimpleRef t

end

theorem failsWith_checkDefinition (g : Grammar) :
    ∀ d, FailsWith Error.IsPlain (g.checkDefinition d)
  | .complex t => g.failsWith_checkComplex t
  | .simple t => g.failsWith_checkSimple t

/-- **The check of references.** -/
theorem failsWith_checkReferences (g : Grammar) : FailsWith Error.IsPlain g.checkReferences :=
  have helement (e : ExpandedName × ElementDecl) := g.failsWith_checkElement e.2
  have hattribute (e : ExpandedName × AttributeDecl) := g.failsWith_checkAttributeType e.2.type
  have htype (e : ExpandedName × TypeDefinition) := g.failsWith_checkDefinition e.2
  (FailsWith.forM helement g.elements).bind fun _ _ =>
    (FailsWith.forM hattribute g.attributes).bind fun _ _ => FailsWith.forM htype g.types

end Grammar

end XmlConformance.Schema
