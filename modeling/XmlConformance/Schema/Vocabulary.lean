import XmlConformance.Xml.Tree

/-!
# Schema/Vocabulary — the namespaces of schemas and their instances
-/

namespace XmlConformance.Schema

open Xml

/-- The namespace of schema elements and built-in types. -/
def schemaUri : String := "http://www.w3.org/2001/XMLSchema"

/-- The namespace of the attributes with which an instance refers to its schema. -/
def instanceUri : String := "http://www.w3.org/2001/XMLSchema-instance"

/-- The name of a schema element or built-in type. -/
def schemaName (localName : String) : ExpandedName := ⟨some schemaUri, localName⟩

/-- Whether a name belongs to the namespace of schemas. -/
def isSchemaName (n : ExpandedName) : Bool := n.uri == some schemaUri

/-- The namespace that a label, or no label, stands for at an element. -/
def namespaceFor (t : Tag) (label : Option String) : Option String :=
  if label == some "xml" then some xmlUri else t.lookup? label

/-- Splits a qualified name into its label, if any, and the rest. -/
def splitName (value : String) : Option String × String :=
  let cs := value.toList
  match cs.dropWhile (· != ':') with
  | _ :: rest => (some (String.ofList (cs.takeWhile (· != ':'))), String.ofList rest)
  | [] => (none, value)

end XmlConformance.Schema

namespace XmlConformance.Xml.Tag

/-- The local name of an element of a schema. -/
def schemaElement? (t : Tag) : Option String :=
  if Schema.isSchemaName t.name then some t.name.localName else none

end XmlConformance.Xml.Tag
