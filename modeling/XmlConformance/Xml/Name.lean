/-!
# Xml/Name — names of elements and attributes

An expanded name is a local name with the namespace it belongs to, if any. The empty namespace `""`,
which `xmlns=""` declares, is a namespace of its own here and differs from having none.
-/

namespace XmlConformance.Xml

/-- The namespace that the label `xml` is always bound to. -/
def xmlUri : String := "http://www.w3.org/XML/1998/namespace"

/-- The namespace of namespace declarations, to which nothing can be bound. -/
def xmlnsUri : String := "http://www.w3.org/2000/xmlns/"

/-- A local name with its namespace. -/
structure ExpandedName where
  uri : Option String
  localName : String
deriving DecidableEq, Repr, Inhabited, Hashable

/-- How messages write a name: the namespace in quotes, a colon and the local name. -/
def ExpandedName.display (n : ExpandedName) : String :=
  match n.uri with
  | some uri => "\"" ++ uri ++ "\":" ++ n.localName
  | none => n.localName

/-- A namespace declaration: a label, or `none` for the default, and the namespace it stands for. -/
structure Declaration where
  label : Option String
  uri : String
deriving DecidableEq, Repr, Inhabited

end XmlConformance.Xml
