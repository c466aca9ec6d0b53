import XmlConformance.Loading
import XmlConformance.Schema.Reading

/-!
# Schema/Assembly — schemas in several documents

A schema includes and imports other schema documents, each of which is loaded once. A resolver may
send a reference to another place than the one that it names. Documents are nested at most
`includeLimit` deep.
-/

namespace XmlConformance.Schema

open Xml

/-- Where references of schemas lead to, if not to where they say. -/
abbrev Resolver := String → Option Source

/-- How deep schema documents may be nested. -/
def includeLimit : Nat := 33

/-- What was read so far: the components, and what messages call the documents. -/
structure Assembly where
  components : Components
  seen : List String
deriving Inhabited

/-- The failure for a fault of a schema. -/
def faulty {α : Type} (x : Except Error α) : Except Failure α :=
  x.mapError .schema

/-- What reading a schema document depends on. -/
def settingOf (t : Tag) (adoptive : Option String) : Setting where
  target := (t.plain? "targetNamespace").or adoptive
  adopted := (t.plain? "targetNamespace").isNone && adoptive.isSome
  elementsQualified := t.plain? "elementFormDefault" == some "qualified"
  attributesQualified := t.plain? "attributeFormDefault" == some "qualified"

/-- Adds the component that an element defines, if it defines one. -/
def addComponent (s : Setting) (c : Components) (t : Tag) (cs : List Node) :
    Except Error Components := do
  match t.schemaElement? with
  | some "element" =>
    let decl ← s.elementDecl t (s.globalName t) (s.typeInside cs)
    return { c with elements := c.elements.insert decl.name decl }
  | some "attribute" =>
    let decl ← s.attributeDecl t cs
    return { c with attributes := c.attributes.insert decl.name decl }
  | some "complexType" =>
    let n ← s.globalName t
    return { c with types := c.types.insert n (.complex (← s.complexType t cs)) }
  | some "simpleType" =>
    let n ← s.globalName t
    return { c with types := c.types.insert n (.simple (← s.simpleType cs)) }
  | some "group" =>
    let n ← s.globalName t
    return { c with groups := c.groups.insert n (← s.groupModel cs) }
  | some "attributeGroup" =>
    let n ← s.globalName t
    return { c with attributeGroups := c.attributeGroups.insert n (← s.addAttributes {} cs) }
  | _ => return c

/-- The place that an element refers to for another schema document, and the target namespace that
a document without one gets there. -/
def reference? (s : Setting) (t : Tag) : Except Error (Option (String × Option String)) :=
  match t.schemaElement? with
  | some "include" | some "redefine" | some "override" =>
    (required t "schemaLocation").map fun location => some (location, s.target)
  | some "import" =>
    .ok (if t.plain? "namespace" == some xmlUri then none
      else (t.plain? "schemaLocation").map fun location => (location, none))
  | _ => .ok none

/-- Where a reference of a document leads to. -/
def sourceOf (resolver : Resolver) (d : Document) (location : String) : Except Failure Source :=
  match resolver location with
  | some source => .ok source
  | none => (d.resolve location).map .url

/-- Adds the components that the children of a schema element define; `add` is what adds another
document. -/
def addChildren (library : Library) (resolver : Resolver) (d : Document) (s : Setting)
    (add : Document → Option String → Assembly → Loading Assembly) :
    List (Tag × List Node) → Assembly → Loading Assembly
  | [], a => Tracked.pure a
  | (t, cs) :: rest, a => do
    match ← Tracked.of (faulty (reference? s t)) with
    | none =>
      let c ← Tracked.of (faulty (addComponent s a.components t cs))
      addChildren library resolver d s add rest { a with components := c }
    | some (location, adoptive) =>
      let source ← Tracked.of (sourceOf resolver d location)
      let key := source.describe
      if a.seen.contains key then addChildren library resolver d s add rest a
      else
        let included ← library.load source
        let a ← add included adoptive { a with seen := key :: a.seen }
        addChildren library resolver d s add rest a

/-- Adds the components of a document in which other documents may be nested `depth` deep. A
document without a target namespace takes the one of the schema that includes it. -/
def addDocument (library : Library) (resolver : Resolver) :
    (depth : Nat) → Document → Option String → Assembly → Loading Assembly
  | 0, _, _, _ => .fail (.schema .nestedTooDeeply)
  | depth + 1, d, adoptive, a =>
    let (t, cs) := d.rootElement
    if t.schemaElement? == some "schema" then
      addChildren library resolver d (settingOf t adoptive) (addDocument library resolver depth)
        (Node.root cs).elements a
    else .fail (.schema (.notASchema t.name.localName))

/-- **Reads a schema** with all the documents that it includes and imports. -/
def Components.load (library : Library) (resolver : Resolver) (d : Document) :
    Loading Components := do
  let seen := d.base.toList.map Url.toString
  let a ← addDocument library resolver includeLimit d none ⟨{}, seen⟩
  return a.components

end XmlConformance.Schema
