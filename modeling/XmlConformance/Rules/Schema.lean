import XmlConformance.Rules.Vocabulary
import XmlConformance.Xml.Document

/-!
# Rules/Schema — rule schemas as documents

A rule schema goes through several steps before it can be applied. Each step reads one document and
writes another, which keeps the base URL of the first (`written`).
-/

namespace XmlConformance.Rules

open Xml

/-- The document that a step writes, in place of the one that it reads. -/
def written (f : Fragment) (source : Document) : Except Failure Document :=
  Document.ofText f.render source.base

/-- The document that a step writes if it writes any number of fragments. -/
def writtenAll (fs : List Fragment) (source : Document) : Except Failure Document :=
  Document.ofText (Fragment.renderAll fs) source.base

/-- The root element of a rule schema. -/
def schemaElement (d : Document) : Except Failure (Tag × List Node) :=
  let root := d.rootElement
  if root.1.isRule "schema" then .ok root
  else .error (.rules (.notASchema root.1.name.localName))

end XmlConformance.Rules
