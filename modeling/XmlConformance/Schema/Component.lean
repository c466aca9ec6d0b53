import XmlConformance.Regex.Basic
import XmlConformance.Schema.Vocabulary
import XmlConformance.Schema.WhiteSpace

/-!
# Schema/Component — what schemas consist of

Components are declarations of elements and attributes, definitions of types, and groups. As they
are read (`Components`), they refer to each other by name. In a `Grammar`, derivations and groups
are written out; only elements and types are still referred to by name.
-/

namespace XmlConformance.Schema

open Xml

/-! ## Tables -/

/-- Components of one kind by name, in the order in which they were added. -/
abbrev Table (α : Type) := List (ExpandedName × α)

namespace Table

/-- The component with a name. -/
def find? {α : Type} (t : Table α) (name : ExpandedName) : Option α := t.lookup name

/-- Adds a component, which takes the place of an earlier one with the name. -/
def insert {α : Type} (t : Table α) (name : ExpandedName) (a : α) : Table α :=
  t.filter (·.1 != name) ++ [(name, a)]

end Table

/-! ## Wildcards -/

/-- What is done with what a wildcard admits. -/
inductive Processing where
  | strict
  | lax
  | skip
deriving DecidableEq, Repr, Inhabited

/-- The namespaces that a wildcard admits. -/
inductive NamespaceConstraint where
  | any
  /-- Any namespace but the one given and no namespace. -/
  | except (uri : Option String)
  | among (uris : List (Option String))
deriving DecidableEq, Repr, Inhabited

/-- Admits elements or attributes by their namespace. -/
structure Wildcard where
  namespaces : NamespaceConstraint
  processing : Processing
deriving DecidableEq, Repr, Inhabited

namespace Wildcard

/-- Whether a wildcard admits names of a namespace. -/
def allows (w : Wildcard) (uri : Option String) : Bool :=
  match w.namespaces with
  | .any => true
  | .except excluded => uri.isSome && uri != excluded
  | .among uris => uris.contains uri

/-- How messages write a wildcard. -/
def display (w : Wildcard) : String :=
  match w.namespaces with
  | .any => "WC[##any]"
  | .except (some uri) => "WC[##other:\"" ++ uri ++ "\"]"
  | .except none => "WC[##other]"
  | .among uris =>
    "WC[" ++ ", ".intercalate (uris.map fun
      | some uri => "\"" ++ uri ++ "\""
      | none => "##local") ++ "]"

end Wildcard

/-! ## Simple types -/

/-- A pattern that values have to match: as written, in the notation of `Regex`, and read. -/
structure Pattern where
  source : String
  spelled : String
  regex : Regex
deriving Inhabited

/-- The bounds on values that a restriction may set. -/
inductive Bound where
  | minInclusive
  | maxInclusive
  | minExclusive
  | maxExclusive
deriving DecidableEq, Repr, Inhabited

/-- What a restriction demands of values. -/
structure Facets where
  enumeration : List String := []
  /-- Alternatives. -/
  patterns : List Pattern := []
  length : Option Nat := none
  minLength : Option Nat := none
  maxLength : Option Nat := none
  minInclusive : Option String := none
  maxInclusive : Option String := none
  minExclusive : Option String := none
  maxExclusive : Option String := none
  totalDigits : Option Nat := none
  fractionDigits : Option Nat := none
  whiteSpace : Option WhiteSpace := none
deriving Inhabited

mutual

/-- A simple type as it is defined. -/
inductive SimpleType where
  | restriction (base : SimpleTypeRef) (facets : Facets)
  | list (item : SimpleTypeRef)
  | union (members : List SimpleTypeRef)

/-- A simple type by name or as it is defined. -/
inductive SimpleTypeRef where
  | named (name : ExpandedName)
  | inline (type : SimpleType)

end

instance : Inhabited SimpleTypeRef := ⟨.named default⟩

instance : Inhabited SimpleType := ⟨.union []⟩

/-! ## Attributes -/

/-- Whether an attribute may or must be there. -/
inductive Use where
  | optional
  | required
  | prohibited
deriving DecidableEq, Repr, Inhabited

/-- An attribute in a complex type or attribute group. -/
structure AttributeUse where
  name : ExpandedName
  /-- `none` admits any value. -/
  type : Option SimpleTypeRef
  use : Use
  fixed : Option String
  /-- Whether it refers to a declaration. -/
  isGlobal : Bool
deriving Inhabited

/-- A declaration of an attribute. -/
structure AttributeDecl where
  name : ExpandedName
  type : Option SimpleTypeRef
  fixed : Option String
deriving Inhabited

/-- Attributes under a name. -/
structure AttributeGroup where
  attributes : List AttributeUse := []
  groups : List ExpandedName := []
  wildcard : Option Wildcard := none
deriving Inhabited

/-! ## Content -/

/-- How often something occurs; `none` stands for any number. -/
structure Occurs where
  least : Nat
  most : Option Nat
deriving DecidableEq, Repr, Inhabited

/-- Exactly once. -/
def Occurs.once : Occurs := ⟨1, some 1⟩

/-- How a type is derived from its base. -/
inductive Derivation where
  | extension
  | restriction
deriving DecidableEq, Repr, Inhabited

mutual

/-- A part of a content model. -/
inductive Particle where
  | element (occurs : Occurs) (decl : ElementDecl)
  /-- An element declared elsewhere. -/
  | reference (occurs : Occurs) (name : ExpandedName)
  | sequence (occurs : Occurs) (items : List Particle)
  | choice (occurs : Occurs) (items : List Particle)
  /-- All items in any order. -/
  | all (occurs : Occurs) (items : List Particle)
  /-- A group defined elsewhere. -/
  | group (occurs : Occurs) (name : ExpandedName)
  | any (occurs : Occurs) (wildcard : Wildcard)

/-- A declaration of an element. -/
structure ElementDecl where
  name : ExpandedName
  type : ElementType
  nillable : Bool
  isAbstract : Bool
  fixed : Option String

/-- The type of an element. -/
inductive ElementType where
  /-- Any content and attributes. -/
  | any
  | named (name : ExpandedName)
  | complex (type : ComplexType)
  | simple (type : SimpleType)

/-- A complex type: attributes, and the content of an element. -/
structure ComplexType where
  mixed : Bool
  base : Option (ExpandedName × Derivation)
  content : Content
  attributes : List AttributeUse
  attributeGroups : List ExpandedName
  wildcard : Option Wildcard

/-- What an element may hold. -/
inductive Content where
  | empty
  | elements (model : Particle)
  | simple (type : SimpleTypeRef)

end

instance : Inhabited Particle := ⟨.sequence default []⟩

instance : Inhabited ElementDecl := ⟨⟨default, .any, false, false, none⟩⟩

instance : Inhabited ComplexType := ⟨⟨false, none, .empty, [], [], none⟩⟩

namespace Particle

/-- How often a particle occurs. -/
def occurs : Particle → Occurs
  | .element o _ | .reference o _ | .sequence o _ | .choice o _ | .all o _ | .group o _
  | .any o _ => o

/-- A particle with other bounds. -/
def withOccurs (o : Occurs) : Particle → Particle
  | .element _ decl => .element o decl
  | .reference _ name => .reference o name
  | .sequence _ items => .sequence o items
  | .choice _ items => .choice o items
  | .all _ items => .all o items
  | .group _ name => .group o name
  | .any _ wildcard => .any o wildcard

end Particle

/-- A definition of a type. -/
inductive TypeDefinition where
  | complex (type : ComplexType)
  | simple (type : SimpleType)
deriving Inhabited

/-- The components of a schema as they are read. -/
structure Components where
  elements : Table ElementDecl := []
  attributes : Table AttributeDecl := []
  types : Table TypeDefinition := []
  groups : Table Particle := []
  attributeGroups : Table AttributeGroup := []
deriving Inhabited

/-- A schema that instances can be checked against. -/
structure Grammar where
  elements : Table ElementDecl
  attributes : Table AttributeDecl
  types : Table TypeDefinition
deriving Inhabited

end XmlConformance.Schema
