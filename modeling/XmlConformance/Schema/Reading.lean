import XmlConformance.Schema.Error
import XmlConformance.Schema.Pattern
import XmlConformance.Text.Space

/-!
# Schema/Reading — from the elements of a schema document to components

The functions that read something nested recurse on the content of an element, which is a list of
nodes; what is not an element of the schema language is passed over. A name without a label belongs
to the default namespace, or, in a document without a target namespace that is included from a
schema with one, to that target namespace.
-/

namespace XmlConformance.Schema

open Xml

/-- What reading depends on, for the elements of one document. -/
structure Setting where
  target : Option String
  /-- Whether the document takes its target namespace from the schema that includes it. -/
  adopted : Bool
  elementsQualified : Bool
  attributesQualified : Bool
deriving DecidableEq, Repr, Inhabited

/-! ## Attributes of schema elements -/

/-- An attribute that an element must have. -/
def required (t : Tag) (attributeName : String) : Except Error String :=
  match t.plain? attributeName with
  | some v => .ok v
  | none => .error (.missingAttribute t.name.localName attributeName)

/-- Whether an attribute is `true`. -/
def isTrue (t : Tag) (attributeName : String) : Bool :=
  t.plain? attributeName == some "true"

namespace Setting

/-- The name that a value of an attribute stands for. -/
def readName (s : Setting) (t : Tag) (value : String) : Except Error ExpandedName :=
  let (label, localName) := splitName (Text.trim value)
  match namespaceFor t label with
  | some uri => .ok ⟨some uri, localName⟩
  | none =>
    if label.isSome then .error (.unboundLabel value)
    else .ok ⟨if s.adopted then s.target else none, localName⟩

/-- The name that an attribute stands for, if it is there. -/
def nameAttribute (s : Setting) (t : Tag) (attributeName : String) :
    Except Error (Option ExpandedName) :=
  match t.plain? attributeName with
  | some v => (s.readName t v).map some
  | none => .ok none

/-- The name of a global component. -/
def globalName (s : Setting) (t : Tag) : Except Error ExpandedName :=
  (required t "name").map fun n => ⟨s.target, n⟩

/-- The name of a local declaration, which has the target namespace if it is qualified. -/
def localName (s : Setting) (t : Tag) (qualified : Bool) : Except Error ExpandedName := do
  let n ← required t "name"
  let qualified := ((t.plain? "form").map (· == "qualified")).getD qualified
  return ⟨if qualified then s.target else none, n⟩

/-- The wildcard that an element describes. -/
def wildcard (s : Setting) (t : Tag) : Wildcard :=
  let namespaces : NamespaceConstraint :=
    match (t.plain? "namespace").map Text.trim with
    | none | some "##any" => .any
    | some "##other" => .except s.target
    | some uris =>
      .among ((Text.words uris).map fun
        | "##targetNamespace" => s.target
        | "##local" => none
        | uri => some uri)
  let processing : Processing :=
    match t.plain? "processContents" with
    | some "lax" => .lax
    | some "skip" => .skip
    | _ => .strict
  ⟨namespaces, processing⟩

end Setting

/-- Reads a number without a sign, or with a plus sign, up to a limit. -/
def readCount (limit : Nat) (value : String) : Option Nat :=
  let digits :=
    match (Text.trim value).toList with
    | '+' :: rest => rest
    | cs => cs
  if digits.isEmpty || !digits.all Char.isDigit then none
  else
    let n := digits.foldl (fun n c => 10 * n + (c.toNat - 48)) 0
    if n ≤ limit then some n else none

/-- The greatest bound on occurrences. -/
def occursLimit : Nat := Nat.pow 2 32 - 1

def readBound (value : String) : Except Error Nat :=
  match readCount occursLimit value with
  | some n => .ok n
  | none => .error (.invalidBound value)

/-- How often the particle that an element describes occurs. -/
def readOccurs (t : Tag) : Except Error Occurs := do
  let least ←
    match t.plain? "minOccurs" with
    | some v => readBound v
    | none => .ok 1
  let most ←
    match (t.plain? "maxOccurs").map Text.trim with
    | some "unbounded" => .ok none
    | some v => (readBound v).map some
    | none => .ok (some 1)
  if most.any (· < least) then .error (.boundsReversed least) else return ⟨least, most⟩

/-! ## Facets -/

/-- The greatest count that a facet may have. -/
def countLimit : Nat := Nat.pow 2 64 - 1

/-- The count that a facet sets. -/
def facetCount (t : Tag) : Except Error Nat := do
  let v ← required t "value"
  match readCount countLimit v with
  | some n => return n
  | none => .error (.invalidFacet t.name.localName v)

/-- The trimmed text that a facet sets. -/
def facetText (t : Tag) : Except Error String :=
  (required t "value").map Text.trim

/-- Adds what a facet element demands. -/
def addFacet (f : Facets) (t : Tag) : Except Error Facets := do
  match t.schemaElement? with
  | some "enumeration" => return { f with enumeration := f.enumeration ++ [← required t "value"] }
  | some "pattern" =>
    let source ← required t "value"
    match Pattern.ofText? source with
    | some p => return { f with patterns := f.patterns ++ [p] }
    | none => .error (.invalidPattern source)
  | some "length" => return { f with length := some (← facetCount t) }
  | some "minLength" => return { f with minLength := some (← facetCount t) }
  | some "maxLength" => return { f with maxLength := some (← facetCount t) }
  | some "totalDigits" => return { f with totalDigits := some (← facetCount t) }
  | some "fractionDigits" => return { f with fractionDigits := some (← facetCount t) }
  | some "minInclusive" => return { f with minInclusive := some (← facetText t) }
  | some "maxInclusive" => return { f with maxInclusive := some (← facetText t) }
  | some "minExclusive" => return { f with minExclusive := some (← facetText t) }
  | some "maxExclusive" => return { f with maxExclusive := some (← facetText t) }
  | some "whiteSpace" =>
    match WhiteSpace.ofName? (← facetText t) with
    | some w => return { f with whiteSpace := some w }
    | none => .error .invalidWhiteSpace
  | _ => return f

/-- The facets among the content of an element. -/
def readFacets (cs : List Node) : Except Error Facets :=
  (cs.filterMap Node.tag?).foldlM addFacet {}

/-! ## Simple types -/

namespace Setting

/-- A type by name if an attribute names one, and otherwise as `inline` gives it. -/
def namedOr (s : Setting) (t : Tag) (attributeName : String) (absent : Error)
    (inline : Except Error (Option SimpleType)) : Except Error SimpleTypeRef := do
  match ← s.nameAttribute t attributeName with
  | some n => return .named n
  | none =>
    match ← inline with
    | some type => return .inline type
    | none => .error absent

/-- The members of a union that it names. -/
def namedMembers (s : Setting) (t : Tag) : Except Error (List SimpleTypeRef) :=
  (Text.words ((t.plain? "memberTypes").getD "")).mapM fun n => (s.readName t n).map .named

mutual

/-- The type that an element in the content of a `simpleType` element defines, if it is one that
does. -/
def variety? (s : Setting) : Node → Option (Except Error SimpleType)
  | .element t cs =>
    match t.schemaElement? with
    | some "restriction" => some do
      let base ← s.namedOr t "base" .restrictionWithoutBase (s.inlineType? cs)
      return .restriction base (← readFacets cs)
    | some "list" => some do
      return .list (← s.namedOr t "itemType" .listWithoutItem (s.inlineType? cs))
    | some "union" => some do
      let named ← s.namedMembers t
      let inline ← s.inlineTypes cs
      return .union (named ++ inline.map .inline)
    | _ => none
  | _ => none

/-- The type that the content of a `simpleType` element defines: the first there. -/
def simpleType (s : Setting) : List Node → Except Error SimpleType
  | [] => .error .simpleTypeWithoutVariety
  | n :: rest =>
    match s.variety? n with
    | some t => t
    | none => s.simpleType rest

/-- The type that a node defines, if it is a `simpleType` element. -/
def inlineAt? (s : Setting) : Node → Option (Except Error SimpleType)
  | .element t cs =>
    if t.schemaElement? == some "simpleType" then some (s.simpleType cs) else none
  | _ => none

/-- The first `simpleType` in the content of an element. -/
def inlineType? (s : Setting) : List Node → Except Error (Option SimpleType)
  | [] => .ok none
  | n :: rest =>
    match s.inlineAt? n with
    | some t => t.map some
    | none => s.inlineType? rest

/-- Every `simpleType` in the content of an element. -/
def inlineTypes (s : Setting) : List Node → Except Error (List SimpleType)
  | [] => .ok []
  | n :: rest =>
    match s.inlineAt? n with
    | some t => do
      let first ← t
      return first :: (← s.inlineTypes rest)
    | none => s.inlineTypes rest

end

/-! ## Attributes -/

/-- The type of an attribute. -/
def attributeType (s : Setting) (t : Tag) (cs : List Node) :
    Except Error (Option SimpleTypeRef) := do
  match ← s.nameAttribute t "type" with
  | some n => return some (.named n)
  | none => return (← s.inlineType? cs).map .inline

/-- Whether an attribute may or must be there. -/
def readUse (t : Tag) : Use :=
  match t.plain? "use" with
  | some "required" => .required
  | some "prohibited" => .prohibited
  | _ => .optional

def attributeUse (s : Setting) (t : Tag) (cs : List Node) : Except Error AttributeUse := do
  let use := readUse t
  let fixed := t.plain? "fixed"
  match ← s.nameAttribute t "ref" with
  | some n => return ⟨n, none, use, fixed, true⟩
  | none =>
    let n ← s.localName t s.attributesQualified
    return ⟨n, ← s.attributeType t cs, use, fixed, false⟩

def attributeDecl (s : Setting) (t : Tag) (cs : List Node) : Except Error AttributeDecl := do
  let n ← s.globalName t
  return ⟨n, ← s.attributeType t cs, t.plain? "fixed"⟩

/-- Adds an attribute, a reference to an attribute group or a wildcard. -/
def addAttribute (s : Setting) (g : AttributeGroup) (t : Tag) (cs : List Node) :
    Except Error AttributeGroup := do
  match t.schemaElement? with
  | some "attribute" => return { g with attributes := g.attributes ++ [← s.attributeUse t cs] }
  | some "attributeGroup" =>
    match ← s.nameAttribute t "ref" with
    | some n => return { g with groups := g.groups ++ [n] }
    | none => .error .attributeGroupWithoutRef
  | some "anyAttribute" => return { g with wildcard := some (s.wildcard t) }
  | _ => return g

/-- The attributes among the content of an element. -/
def addAttributes (s : Setting) (g : AttributeGroup) (cs : List Node) :
    Except Error AttributeGroup :=
  cs.foldlM (fun g n =>
    match n with
    | .element t cs => s.addAttribute g t cs
    | _ => .ok g) g

end Setting

/-! ## Complex types -/

/-- What was read of a complex type. -/
structure ComplexDraft where
  mixed : Bool
  base : Option (ExpandedName × Derivation)
  content : Content
  attributes : AttributeGroup

namespace ComplexDraft

/-- Nothing read yet. -/
def initial (t : Tag) : ComplexDraft := ⟨isTrue t "mixed", none, .empty, {}⟩

def finish (d : ComplexDraft) : ComplexType :=
  ⟨d.mixed, d.base, d.content, d.attributes.attributes, d.attributes.groups, d.attributes.wildcard⟩

/-- Takes a particle for the content. -/
def withModel (d : ComplexDraft) (p : Option Particle) : ComplexDraft :=
  match p with
  | some p => { d with content := .elements p }
  | none => d

end ComplexDraft

/-- Whether an element describes a model that may be the content of a complex type. -/
def isModel (localName : String) : Bool :=
  ["sequence", "choice", "all", "group"].contains localName

/-- Whether an element describes attributes of a complex type. -/
def isAttributeItem (localName : String) : Bool :=
  ["attribute", "attributeGroup", "anyAttribute"].contains localName

/-- How an element derives a type. -/
def derivation? (t : Tag) : Option Derivation :=
  match t.schemaElement? with
  | some "extension" => some .extension
  | some "restriction" => some .restriction
  | _ => none

/-- The element of some content that derives a type. -/
def derivationElement (cs : List Node) : Except Error (Tag × List Node × Derivation) :=
  match (cs.findSome? fun
    | .element t cs => (derivation? t).map fun d => (t, cs, d)
    | _ => none) with
  | some found => .ok found
  | none => .error .contentWithoutDerivation

namespace Setting

/-- The type of the values that a derivation of simple content admits. -/
def simpleContentType (s : Setting) (base : ExpandedName) (derivation : Derivation)
    (cs : List Node) : Except Error SimpleTypeRef := do
  match derivation with
  | .extension => return .named base
  | .restriction =>
    let restricted := ((← s.inlineType? cs).map SimpleTypeRef.inline).getD (.named base)
    return .inline (.restriction restricted (← readFacets cs))

/-- Adds the simple content that the content of a `simpleContent` element describes. -/
def addSimpleContent (s : Setting) (d : ComplexDraft) (cs : List Node) :
    Except Error ComplexDraft := do
  let (t, cs, derivation) ← derivationElement cs
  match ← s.nameAttribute t "base" with
  | none => .error .simpleContentWithoutBase
  | some base =>
    let type ← s.simpleContentType base derivation cs
    let attributes ← s.addAttributes d.attributes cs
    return { d with content := .simple type, attributes, base := some (base, derivation) }

/-- Reads a declaration of an element, given its type as defined inside it. -/
def elementDecl (s : Setting) (t : Tag) (name : Except Error ExpandedName)
    (inline : Except Error ElementType) : Except Error ElementDecl := do
  let n ← name
  let type ←
    match ← s.nameAttribute t "type" with
    | some typeName => Except.ok (ElementType.named typeName)
    | none => inline
  return ⟨n, type, isTrue t "nillable", isTrue t "abstract", t.plain? "fixed"⟩

/-- Reads the element of a content model, given its type as defined inside it. -/
def elementParticle (s : Setting) (t : Tag) (inline : Except Error ElementType) :
    Except Error Particle := do
  match ← s.nameAttribute t "ref" with
  | some n => return .reference (← readOccurs t) n
  | none =>
    let decl ← s.elementDecl t (s.localName t s.elementsQualified) inline
    return .element (← readOccurs t) decl

/-- Reads a particle that holds others. -/
def composite (t : Tag) (items : Except Error (List Particle))
    (make : Occurs → List Particle → Particle) : Except Error (Option Particle) := do
  let items ← items
  return some (make (← readOccurs t) items)

/-- Reads a reference to a group. -/
def groupParticle (s : Setting) (t : Tag) : Except Error (Option Particle) := do
  match ← s.nameAttribute t "ref" with
  | some n => return some (.group (← readOccurs t) n)
  | none => .error .groupWithoutRef

mutual

/-- The type that the content of an element declaration defines. -/
def typeInside (s : Setting) : List Node → Except Error ElementType
  | [] => .ok .any
  | .element t cs :: rest =>
    match t.schemaElement? with
    | some "complexType" => do
      let d ← s.complexParts (.initial t) cs
      return .complex d.finish
    | some "simpleType" => (s.simpleType cs).map .simple
    | _ => s.typeInside rest
  | _ :: rest => s.typeInside rest

/-- The particle that a node describes, if any. -/
def particle? (s : Setting) : Node → Except Error (Option Particle)
  | .element t cs =>
    match t.schemaElement? with
    | some "element" => (s.elementParticle t (s.typeInside cs)).map some
    | some "sequence" => composite t (s.particles cs) .sequence
    | some "choice" => composite t (s.particles cs) .choice
    | some "all" => composite t (s.particles cs) .all
    | some "group" => s.groupParticle t
    | some "any" => do return some (.any (← readOccurs t) (s.wildcard t))
    | _ => .ok none
  | _ => .ok none

/-- The particles that nodes describe. -/
def particles (s : Setting) : List Node → Except Error (List Particle)
  | [] => .ok []
  | n :: rest => do
    let first ← s.particle? n
    return first.toList ++ (← s.particles rest)

/-- Adds what the content of a `complexType` element describes. -/
def complexParts (s : Setting) (d : ComplexDraft) : List Node → Except Error ComplexDraft
  | [] => .ok d
  | .element t cs :: rest =>
    match t.schemaElement? with
    | some "simpleContent" => do
      let d ← s.addSimpleContent d cs
      s.complexParts d rest
    | some "complexContent" => do
      let mixed := ((t.plain? "mixed").map (· == "true")).getD d.mixed
      let d ← s.derivedParts { d with mixed } cs
      s.complexParts d rest
    | some other => do
      if isModel other then
        let p ← s.particle? (.element t cs)
        s.complexParts (d.withModel p) rest
      else if isAttributeItem other then
        let attributes ← s.addAttribute d.attributes t cs
        s.complexParts { d with attributes } rest
      else s.complexParts d rest
    | none => s.complexParts d rest
  | _ :: rest => s.complexParts d rest

/-- Adds what the first derivation in the content of a `complexContent` element describes. -/
def derivedParts (s : Setting) (d : ComplexDraft) : List Node → Except Error ComplexDraft
  | [] => .error .contentWithoutDerivation
  | .element t cs :: rest =>
    match derivation? t with
    | none => s.derivedParts d rest
    | some derivation => do
      match ← s.nameAttribute t "base" with
      | none => .error .complexContentWithoutBase
      | some base =>
        let d ← s.derivationItems d cs
        return { d with base := some (base, derivation) }
  | _ :: rest => s.derivedParts d rest

/-- Adds the models and attributes of a derivation. -/
def derivationItems (s : Setting) (d : ComplexDraft) : List Node → Except Error ComplexDraft
  | [] => .ok d
  | .element t cs :: rest => do
    if t.schemaElement?.any isModel then
      let p ← s.particle? (.element t cs)
      s.derivationItems (d.withModel p) rest
    else
      let attributes ← s.addAttribute d.attributes t cs
      s.derivationItems { d with attributes } rest
  | _ :: rest => s.derivationItems d rest

end

/-- The type that a `complexType` element defines. -/
def complexType (s : Setting) (t : Tag) (cs : List Node) : Except Error ComplexType :=
  (s.complexParts (.initial t) cs).map ComplexDraft.finish

/-- The model that a `group` element defines. -/
def groupModel (s : Setting) (cs : List Node) : Except Error Particle :=
  let isDefinition (n : Node) : Bool :=
    ["sequence", "choice", "all"].contains ((n.tag?.bind Tag.schemaElement?).getD "")
  match cs.find? isDefinition with
  | none => .error .groupWithoutModel
  | some n => do
    match ← s.particle? n with
    | some p => return p.withOccurs .once
    | none => .error .groupWithoutModel

end Setting

end XmlConformance.Schema
