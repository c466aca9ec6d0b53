import XmlConformance.Loading
import XmlConformance.Rules.Schema

/-!
# Rules/Inclusion — rule schemas in several documents

A rule schema refers to fragments in other documents, by `include` or by `extends` with an `href`.
Every reference is replaced by the element it leads to, or by what that element holds. References
inside a fragment are relative to the fragment's own document. Fragments are nested at most
`nestingLimit` deep, which also ends circular references.
-/

namespace XmlConformance.Rules

open Xml

/-- How deep fragments may be nested. -/
def nestingLimit : Nat := 16

/-- Whether an element refers to a fragment. -/
def isReference (t : Tag) : Bool :=
  t.isRule "include" || (t.isRule "extends" && (t.plain? "href").isSome)

mutual

/-- A copy of a node in which `replace` gives what stands in for a reference. -/
def merge (replace : Tag → Loading (List Fragment)) (scope : Option Tag) :
    Node → Loading (List Fragment)
  | .text s => Tracked.pure [.text s]
  | .element t cs =>
    if isReference t then replace t
    else do
      let content ← mergeAll replace (some t) cs
      return [copyOf t scope id content]
  | .root _ | .comment _ | .instruction .. => Tracked.pure []

/-- A copy of several nodes in which `replace` gives what stands in for a reference. -/
def mergeAll (replace : Tag → Loading (List Fragment)) (scope : Option Tag) :
    List Node → Loading (List Fragment)
  | [] => Tracked.pure []
  | n :: ns => do
    let first ← merge replace scope n
    let more ← mergeAll replace scope ns
    return first ++ more

end

/-- The element of a document that a URL with a fragment leads to. -/
def fragmentTarget? (d : Document) (id : Option String) : Option (Tag × List Node) :=
  match id.filter (!·.isEmpty) with
  | none => some d.rootElement
  | some id =>
    d.root.subtree.findSome? fun
      | .element t cs => if t.plain? "id" == some id then some (t, cs) else none
      | _ => none

/-- What stands in for a reference in a document, if fragments may be nested `depth` deep in it. -/
def replacement (library : Library) : (depth : Nat) → Document → Tag → Loading (List Fragment)
  | depth, d, t =>
    match t.plain? "href" with
    | none => .fail (.rules (.missingHref t.name.localName))
    | some href =>
      match depth with
      | 0 => .fail (.rules (.nestedTooDeeply href))
      | depth + 1 => do
        let url ← Tracked.of (d.resolve href)
        let included ← library.load (.url { url with fragment := none })
        match fragmentTarget? included url.fragment with
        | none => .fail (.reference href (.noElement (url.fragment.getD "")))
        | some (target, content) =>
          let replace := replacement library depth included
          if target.isRule "schema" || t.isRule "extends" then mergeAll replace none content
          else merge replace none (.element target content)

/-- **Merges the fragments that a rule schema refers to.** -/
def includeFragments (library : Library) (d : Document) : Loading Document := do
  let (t, cs) ← Tracked.of (schemaElement d)
  let merged ← merge (replacement library nestingLimit d) none (.element t cs)
  Tracked.of (writtenAll merged d)

end XmlConformance.Rules
