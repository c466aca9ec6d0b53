import XmlConformance.Xml.Name

/-!
# Schema/Error — why a schema cannot be used

The faults of schemas, apart from documents that cannot be loaded.
-/

namespace XmlConformance.Schema

open Xml

/-- What a name in a schema may stand for. -/
inductive ComponentKind where
  | type
  | simpleType
  | element
  | attribute
  | group
  | attributeGroup
deriving DecidableEq, Repr, Inhabited

/-- How messages call what a name should stand for. -/
def ComponentKind.description : ComponentKind → String
  | .type => "type definition"
  | .simpleType => "simpleType definition"
  | .element => "element declaration"
  | .attribute => "attribute declaration"
  | .group => "group"
  | .attributeGroup => "attribute group"

/-- A fault of a schema. -/
inductive Error where
  | notASchema (root : String)
  | nestedTooDeeply
  | missingAttribute (element attributeName : String)
  | unboundLabel (value : String)
  | attributeGroupWithoutRef
  | invalidBound (value : String)
  | boundsReversed (least : Nat)
  | groupWithoutRef
  | groupWithoutModel
  | simpleContentWithoutBase
  | complexContentWithoutBase
  | simpleTypeWithoutVariety
  | restrictionWithoutBase
  | listWithoutItem
  | invalidFacet (facet value : String)
  | invalidPattern (source : String)
  | invalidWhiteSpace
  | contentWithoutDerivation
  | unresolved (name : ExpandedName) (kind : ComponentKind)
  | circularType (name : ExpandedName)
  | attributeGroupsTooDeep
  | circularGroup (name : ExpandedName)
  /-- Groups hold types that hold the groups again. No schema and no other fault comes of it. -/
  | endlessUnfolding
  | derivationTooDeep
  | notABuiltin (localName : String)
  | notASimpleType (name : ExpandedName)
  | undefinedType (name element : ExpandedName)
  | tooManyStates (limit : Nat)
  | allInsideModel
  | groupInsideAll
deriving DecidableEq, Repr, Inhabited

def Error.message : Error → String
  | .notASchema root => "root element '" ++ root ++ "' is not xs:schema"
  | .nestedTooDeeply => "schema includes are nested too deeply"
  | .missingAttribute element a =>
    "xs:" ++ element ++ " is missing the '" ++ a ++ "' attribute"
  | .unboundLabel value => "undeclared namespace prefix in '" ++ value ++ "'"
  | .attributeGroupWithoutRef => "attribute group reference without 'ref'"
  | .invalidBound value => "invalid occurrence bound '" ++ value ++ "'"
  | .boundsReversed least => "maxOccurs is less than minOccurs (" ++ toString least ++ ")"
  | .groupWithoutRef => "model group reference without 'ref'"
  | .groupWithoutModel => "model group definition without a model group"
  | .simpleContentWithoutBase => "simple content derivation without 'base'"
  | .complexContentWithoutBase => "complex content derivation without 'base'"
  | .simpleTypeWithoutVariety => "simple type without restriction, list or union"
  | .restrictionWithoutBase => "restriction without a base type"
  | .listWithoutItem => "list without an item type"
  | .invalidFacet facet value => "invalid " ++ facet ++ " value '" ++ value ++ "'"
  | .invalidPattern source => "invalid pattern '" ++ source ++ "'"
  | .invalidWhiteSpace => "invalid whiteSpace facet"
  | .contentWithoutDerivation => "content model without extension or restriction"
  | .unresolved n kind =>
    "src-resolve: Cannot resolve the name '" ++ n.display ++ "' to a(n) '" ++ kind.description ++
      "' component."
  | .circularType n =>
    "ct-props-correct.3: Circular definitions detected for type '" ++ n.display ++ "'."
  | .attributeGroupsTooDeep => "attribute groups are nested too deeply"
  | .circularGroup n => "model group '" ++ n.display ++ "' refers to itself"
  | .endlessUnfolding => "definitions hold each other without end"
  | .derivationTooDeep => "simple type derivation is too deep"
  | .notABuiltin localName => "'" ++ localName ++ "' is not a built-in simple type"
  | .notASimpleType n => "'" ++ n.display ++ "' is not a simple type"
  | .undefinedType n element =>
    "type '" ++ n.display ++ "' of element '" ++ element.display ++ "' is not defined"
  | .tooManyStates limit => "content model needs more than " ++ toString limit ++ " states"
  | .allInsideModel => "an xs:all group must be the whole content model"
  | .groupInsideAll => "an xs:all group may only contain element declarations"

end XmlConformance.Schema
