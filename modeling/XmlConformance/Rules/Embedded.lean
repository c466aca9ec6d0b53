import XmlConformance.Rules.Schema
import XmlConformance.Schema.Vocabulary

/-!
# Rules/Embedded — the rules embedded in a grammar

Grammars carry rules and keys in the `xs:appinfo` elements of their annotations. They are collected
in a rule schema. A loose rule gets a pattern of its own, and a loose assertion a rule of its own
for the element in whose declaration it stands.
-/

namespace XmlConformance.Rules

open Xml

/-- An annotation: what is in it, and the name of the element declaration around it. -/
structure Annotation where
  context : Option String
  content : List Node

/-- The name that an element gives to the annotations inside it: that of an element declaration, or
else the one that it gets from around it. -/
def contextInside (t : Tag) (outer : Option String) : Option String :=
  if t.name == Schema.schemaName "element" then
    (t.plain? "name").or ((t.plain? "ref").or outer)
  else outer

mutual

/-- The annotations in a node, in document order. -/
def annotations (context : Option String) : Node → List Annotation
  | .root cs => annotationsOf context cs
  | .element t cs =>
    (if t.name == Schema.schemaName "appinfo" then [⟨context, cs⟩] else []) ++
      annotationsOf (contextInside t context) cs
  | _ => []

/-- The annotations in several nodes, in document order. -/
def annotationsOf (context : Option String) : List Node → List Annotation
  | [] => []
  | n :: ns => annotations context n ++ annotationsOf context ns

end

/-- A pattern with some content. -/
def patternOf (content : List Fragment) : Fragment :=
  .element "sch:pattern" [] content

mutual

/-- What a rule schema gets for a node of an annotation. -/
def embeddedNode (context : Option String) : Node → List Fragment
  | .element t cs =>
    if t.isKey then copyRules none (.element t cs)
    else
      match t.ruleName? with
      | none => []
      | some "schema" => embeddedNodes context cs
      | some "rule" => [patternOf (copyRules none (.element t cs))]
      | some localName =>
        if localName == "assert" || localName == "report" then
          match context with
          | some c =>
            [patternOf [.element "sch:rule" [("context", c)] (copyRules none (.element t cs))]]
          | none => []
        else copyRules none (.element t cs)
  | _ => []

/-- What a rule schema gets for several nodes of an annotation. -/
def embeddedNodes (context : Option String) : List Node → List Fragment
  | [] => []
  | n :: ns => embeddedNode context n ++ embeddedNodes context ns

end

/-- The attributes of the first rule schema in the annotations. -/
def embeddedAttributes (as : List Annotation) : List (String × String) :=
  match (as.flatMap fun a => rulesNamed "schema" a.content).head? with
  | some (t, _) =>
    (t.attributes.filter (·.name.uri.isNone)).map fun a => (a.name.localName, a.value)
  | none => []

/-- The rule schema that a grammar embeds. -/
def embeddedSchema (grammar : Node) : Fragment :=
  let as := annotations none grammar
  .element "sch:schema" (("xmlns:sch", ruleUri) :: embeddedAttributes as)
    (as.flatMap fun a => embeddedNodes a.context a.content)

/-- **Collects the rules of a grammar.** -/
def extract (grammar : Document) : Except Failure Document :=
  written (embeddedSchema grammar.root) grammar

end XmlConformance.Rules
