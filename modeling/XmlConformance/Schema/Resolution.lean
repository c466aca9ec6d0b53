import XmlConformance.Schema.Datatype

/-!
# Schema/Resolution — from components to a grammar

A complex type takes over the attributes of its base, and, if it extends it, the content as well.
References to groups give way to what the groups hold. What is still referred to by name has to be
there. A type cannot be derived from itself.

Groups and bases are looked up by functions that are given (`Lookup`), so the recursion here is on
the components themselves. `lookup` ties the knot. It bounds how often one definition is entered
from within another, since types without a name can hold a group that holds them: such components
unfold without end (`Error.endlessUnfolding`).
-/

namespace XmlConformance.Schema

open Xml

/-- How deep references to groups may be nested. -/
def groupLimit : Nat := 33

/-! ## Attributes -/

/-- The attributes that need no declaration. -/
def xmlAttribute? (n : ExpandedName) : Option AttributeDecl :=
  if n.uri == some xmlUri && ["lang", "space", "base", "id"].contains n.localName then
    some ⟨n, none, none⟩
  else none

/-- Replaces the first attribute of a name, or adds one. -/
def overrideOne : List AttributeUse → AttributeUse → List AttributeUse
  | [], u => [u]
  | v :: rest, u => if v.name == u.name then u :: rest else v :: overrideOne rest u

/-- Attributes together with those that take the place of some of them. -/
def override (inherited own : List AttributeUse) : List AttributeUse :=
  own.foldl overrideOne inherited

namespace Components

/-- An attribute with the type and fixed value of the declaration that it refers to. -/
def resolveUse (c : Components) (u : AttributeUse) : Except Error AttributeUse :=
  if u.isGlobal then
    match (c.attributes.find? u.name).or (xmlAttribute? u.name) with
    | some d => .ok { u with type := d.type, fixed := u.fixed.or d.fixed }
    | none => .error (.unresolved u.name .attribute)
  else .ok u

/-- Adds what attribute groups hold; `expand` gives it for each group. -/
def addGroups (c : Components)
    (expand : AttributeGroup → Except Error (List AttributeUse × Option Wildcard)) :
    List ExpandedName → List AttributeUse × Option Wildcard →
      Except Error (List AttributeUse × Option Wildcard)
  | [], found => .ok found
  | n :: rest, (uses, wildcard) =>
    match c.attributeGroups.find? n with
    | none => .error (.unresolved n .attributeGroup)
    | some g => do
      let (inner, innerWildcard) ← expand g
      addGroups c expand rest (override uses inner, wildcard.or innerWildcard)

/-- The attributes and the wildcard of a group in which others may be nested `depth` deep. -/
def attributesOf (c : Components) : (depth : Nat) → AttributeGroup →
    Except Error (List AttributeUse × Option Wildcard)
  | 0, _ => .error .attributeGroupsTooDeep
  | depth + 1, g => do
    let uses ← g.attributes.mapM c.resolveUse
    c.addGroups (c.attributesOf depth) g.groups (uses, g.wildcard)

end Components

/-! ## Content -/

/-- How references to other definitions are followed. -/
structure Lookup where
  /-- What a group holds, if groups may be nested to a depth in it. -/
  group : Nat → ExpandedName → Except Error Particle
  /-- The base of a type, if it is a complex type of the schema. -/
  base : ExpandedName → Except Error (Option ComplexType)

/-- How references are followed while some types are being resolved. -/
abbrev Following := List ExpandedName → Lookup

/-- The content of a type that extends another. -/
def extendContent (inherited own : Content) : Content :=
  match inherited, own with
  | .elements p, .elements q => .elements (.sequence .once [p, q])
  | .elements p, .empty => .elements p
  | _, own => own

/-- A type without base, given what is known of its base. -/
def derive (mixed : Bool) (content : Content) (uses : List AttributeUse)
    (wildcard : Option Wildcard) (base : Option (ComplexType × Derivation)) : ComplexType :=
  let kept (uses : List AttributeUse) : List AttributeUse := uses.filter (·.use != .prohibited)
  match base with
  | none => ⟨mixed, none, content, kept uses, [], wildcard⟩
  | some (b, .restriction) =>
    ⟨mixed, none, content, kept (override b.attributes uses), [], wildcard⟩
  | some (b, .extension) =>
    ⟨mixed || b.mixed, none, extendContent b.content content, kept (override b.attributes uses), [],
      wildcard.or b.wildcard⟩

namespace Components

/-- Follows the base of a type. -/
def resolveBase (l : Lookup) : Option (ExpandedName × Derivation) →
    Except Error (Option (ComplexType × Derivation))
  | none => .ok none
  | some (n, derivation) => do return (← l.base n).map fun b => (b, derivation)

/-- The name of the type of an element, which has to be there. -/
def resolveTypeName (c : Components) (n : ExpandedName) : Except Error ElementType :=
  let known :=
    if isSchemaName n then n.localName == "anyType" || (Builtin.ofName? n.localName).isSome
    else (c.types.find? n).isSome
  if known then .ok (.named n) else .error (.unresolved n .type)

mutual

/-- A particle without references to groups. -/
def resolveParticle (c : Components) (l : Lookup) (depth : Nat) : Particle → Except Error Particle
  | .element o decl => do return .element o (← c.resolveElement l decl)
  | .reference o n => .ok (.reference o n)
  | .sequence o items => do return .sequence o (← c.resolveParticles l depth items)
  | .choice o items => do return .choice o (← c.resolveParticles l depth items)
  | .all o items => do return .all o (← c.resolveParticles l depth items)
  | .group o n => do return (← l.group depth n).withOccurs o
  | .any o w => .ok (.any o w)

/-- Particles without references to groups. -/
def resolveParticles (c : Components) (l : Lookup) (depth : Nat) :
    List Particle → Except Error (List Particle)
  | [] => .ok []
  | p :: ps => do
    let first ← c.resolveParticle l depth p
    let more ← c.resolveParticles l depth ps
    return first :: more

/-- A declaration whose type is there. -/
def resolveElement (c : Components) (l : Lookup) : ElementDecl → Except Error ElementDecl
  | ⟨name, type, nillable, isAbstract, fixed⟩ => do
    return ⟨name, ← c.resolveType l type, nillable, isAbstract, fixed⟩

/-- The type of an element, if it is there. -/
def resolveType (c : Components) (l : Lookup) : ElementType → Except Error ElementType
  | .any => .ok .any
  | .named n => c.resolveTypeName n
  | .complex t => do return .complex (← c.resolveComplex l t)
  | .simple t => .ok (.simple t)

/-- A complex type without base and groups. -/
def resolveComplex (c : Components) (l : Lookup) : ComplexType → Except Error ComplexType
  | ⟨mixed, base, content, attributes, attributeGroups, wildcard⟩ => do
    let (uses, wildcard) ← c.attributesOf groupLimit ⟨attributes, attributeGroups, wildcard⟩
    let content ← c.resolveContent l content
    let base ← resolveBase l base
    return derive mixed content uses wildcard base

/-- Content without references to groups. -/
def resolveContent (c : Components) (l : Lookup) : Content → Except Error Content
  | .empty => .ok .empty
  | .elements p => do return .elements (← c.resolveParticle l groupLimit p)
  | .simple t => .ok (.simple t)

end

/-- A definition of a type without base and groups. -/
def resolveDefinition (c : Components) (l : Lookup) : TypeDefinition → Except Error TypeDefinition
  | .complex t => do return .complex (← c.resolveComplex l t)
  | .simple t => .ok (.simple t)

/-- Follows references while the types `inside` are being resolved; references in what they lead to
are followed as given. -/
def enter (c : Components) (follow : Following) (inside : List ExpandedName) : Lookup where
  group depth n :=
    match depth with
    | 0 => .error (.circularGroup n)
    | depth + 1 =>
      match c.groups.find? n with
      | none => .error (.unresolved n .group)
      | some g => c.resolveParticle (follow inside) depth g
  base n :=
    if isSchemaName n then .ok none
    else if inside.contains n then .error (.circularType n)
    else
      match c.types.find? n with
      | none => .error (.unresolved n .type)
      | some (.simple _) => .ok none
      | some (.complex t) => (c.resolveComplex (follow (n :: inside)) t).map some

/-- How references are followed while some types are being resolved, if definitions may be entered
from within others `steps` times. -/
def lookup (c : Components) : (steps : Nat) → Following
  | 0 => fun _ =>
    { group := fun _ _ => .error .endlessUnfolding
      base := fun _ => .error .endlessUnfolding }
  | steps + 1 => c.enter (c.lookup steps)

/-- How often definitions can be entered from within others before one of them is entered in the
same circumstances again: between two types, every group at every depth. -/
def stepLimit (c : Components) : Nat :=
  (c.types.length + 2) * (c.groups.length * (groupLimit + 1) + 2)

/-- Resolves definitions of types. -/
def resolveTypes (c : Components) (follow : Following) :
    Table TypeDefinition → Except Error (Table TypeDefinition)
  | [] => .ok []
  | (n, d) :: rest => do
    let first ← c.resolveDefinition (follow [n]) d
    let more ← c.resolveTypes follow rest
    return (n, first) :: more

/-- Resolves global declarations of elements. -/
def resolveElements (c : Components) (follow : Following) :
    Table ElementDecl → Except Error (Table ElementDecl)
  | [] => .ok []
  | (n, d) :: rest => do
    let first ← c.resolveElement (follow []) d
    let more ← c.resolveElements follow rest
    return (n, first) :: more

end Components

/-! ## References -/

namespace Grammar

mutual

/-- Whether all names in a simple type stand for simple types; if not, the first fault. -/
def checkSimple (g : Grammar) : SimpleType → Except Error Unit
  | .restriction base _ => g.checkSimpleRef base
  | .list item => g.checkSimpleRef item
  | .union members => g.checkSimpleRefs members

/-- Whether a reference and all names inside it stand for simple types. -/
def checkSimpleRef (g : Grammar) : SimpleTypeRef → Except Error Unit
  | .named n => if g.resolves (.named n) then .ok () else .error (.unresolved n .simpleType)
  | .inline t => g.checkSimple t

/-- Whether several references stand for simple types. -/
def checkSimpleRefs (g : Grammar) : List SimpleTypeRef → Except Error Unit
  | [] => .ok ()
  | r :: rs => do
    g.checkSimpleRef r
    g.checkSimpleRefs rs

end

/-- Whether the type of an attribute is there. -/
def checkAttributeType (g : Grammar) (type : Option SimpleTypeRef) : Except Error Unit :=
  match type with
  | some r => g.checkSimpleRef r
  | none => .ok ()

mutual

/-- Whether all names in a particle stand for something. -/
def checkParticle (g : Grammar) : Particle → Except Error Unit
  | .element _ decl => g.checkElement decl
  | .reference _ n =>
    if (g.elements.find? n).isSome then .ok () else .error (.unresolved n .element)
  | .sequence _ items | .choice _ items | .all _ items => g.checkParticles items
  | .group _ n => .error (.unresolved n .group)
  | .any _ _ => .ok ()

/-- Whether all names in some particles stand for something. -/
def checkParticles (g : Grammar) : List Particle → Except Error Unit
  | [] => .ok ()
  | p :: ps => do
    g.checkParticle p
    g.checkParticles ps

/-- Whether all names in a declaration stand for something. -/
def checkElement (g : Grammar) : ElementDecl → Except Error Unit
  | ⟨_, type, _, _, _⟩ => g.checkElementType type

/-- Whether all names in the type of an element stand for something. -/
def checkElementType (g : Grammar) : ElementType → Except Error Unit
  | .complex t => g.checkComplex t
  | .simple t => g.checkSimple t
  | .any | .named _ => .ok ()

/-- Whether all names in a complex type stand for something. -/
def checkComplex (g : Grammar) : ComplexType → Except Error Unit
  | ⟨_, _, content, attributes, _, _⟩ => do
    attributes.forM fun u => g.checkAttributeType u.type
    g.checkContent content

/-- Whether all names in some content stand for something. -/
def checkContent (g : Grammar) : Content → Except Error Unit
  | .empty => .ok ()
  | .elements p => g.checkParticle p
  | .simple t => g.checkSimpleRef t

end

/-- Whether all names in a definition stand for something. -/
def checkDefinition (g : Grammar) : TypeDefinition → Except Error Unit
  | .complex t => g.checkComplex t
  | .simple t => g.checkSimple t

/-- Whether all names in a grammar stand for something; if not, the first fault. -/
def checkReferences (g : Grammar) : Except Error Unit := do
  g.elements.forM fun (_, d) => g.checkElement d
  g.attributes.forM fun (_, d) => g.checkAttributeType d.type
  g.types.forM fun (_, d) => g.checkDefinition d

end Grammar

/-- Makes a grammar of components, with references followed as given. -/
def Components.resolveWith (c : Components) (follow : Following) :
    Except Error Grammar := do
  let types ← c.resolveTypes follow c.types
  let elements ← c.resolveElements follow c.elements
  let g : Grammar := ⟨elements, c.attributes, types⟩
  g.checkReferences
  return g

/-- **Makes a grammar of components.** -/
def Components.resolve (c : Components) : Except Error Grammar :=
  c.resolveWith (c.lookup c.stepLimit)

end XmlConformance.Schema
