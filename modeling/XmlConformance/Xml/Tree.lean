import XmlConformance.Xml.Name

/-!
# Xml/Tree — documents as trees

A document is a tree of nodes below a root. An element keeps the namespace declarations in scope at
it, its own first, and the place in the text where it starts. Attributes are no nodes; they belong
to their element.
-/

namespace XmlConformance.Xml

/-- An attribute with its normalized value. -/
structure Attribute where
  name : ExpandedName
  value : String
deriving DecidableEq, Repr, Inhabited

/-- What an element is apart from its content. -/
structure Tag where
  name : ExpandedName
  attributes : List Attribute
  /-- The declarations in scope: those of the element itself in the order written, then the
  inherited ones. -/
  scope : List Declaration
  /-- The number of characters in front of the element. -/
  start : Nat
deriving DecidableEq, Repr, Inhabited

/-- A node of a document. -/
inductive Node where
  | root (children : List Node)
  | element (tag : Tag) (children : List Node)
  | text (value : String)
  | comment (value : String)
  | instruction (target value : String)
deriving Repr, Inhabited

namespace Tag

/-- The value of the attribute with a given expanded name. -/
def attribute? (t : Tag) (name : ExpandedName) : Option String :=
  (t.attributes.find? (·.name == name)).map (·.value)

/-- The value of the attribute with a given local name and no namespace. -/
def plain? (t : Tag) (localName : String) : Option String :=
  t.attribute? ⟨none, localName⟩

/-- The namespace that a label, or no label, stands for. -/
def lookup? (t : Tag) (label : Option String) : Option String :=
  (t.scope.find? (·.label == label)).map (·.uri)

/-- The label of the first declaration in scope for a namespace; `some none` is the default
declaration. -/
def labelFor? (t : Tag) (uri : String) : Option (Option String) :=
  (t.scope.find? (·.uri == uri)).map (·.label)

/-- The first label in scope for a namespace, the default declaration apart. -/
def properLabelFor? (t : Tag) (uri : String) : Option String :=
  (t.scope.filter (·.uri == uri)).findSome? (·.label)

end Tag

/-- Joins a label and a local name. -/
def joinName (label : Option String) (localName : String) : String :=
  match label with
  | some label => label ++ ":" ++ localName
  | none => localName

namespace Tag

/-- The name of an element as it would be written at its place. -/
def qualifiedName (t : Tag) : String :=
  joinName (t.name.uri.bind fun uri => (t.labelFor? uri).join) t.name.localName

/-- The label of an attribute name as it would be written at its element. -/
def attributeLabel (t : Tag) (name : ExpandedName) : Option String :=
  name.uri.bind fun uri => if uri == xmlUri then some "xml" else t.properLabelFor? uri

/-- The name of an attribute as it would be written at its element. -/
def attributeName (t : Tag) (name : ExpandedName) : String :=
  joinName (t.attributeLabel name) name.localName

end Tag

namespace Node

/-- The nodes directly below a node. -/
def children : Node → List Node
  | .root cs | .element _ cs => cs
  | _ => []

/-- The tag of an element. -/
def tag? : Node → Option Tag
  | .element t _ => some t
  | _ => none

def isElement : Node → Bool
  | .element .. => true
  | _ => false

def isText : Node → Bool
  | .text _ => true
  | _ => false

/-- The elements directly below a node. -/
def elements (n : Node) : List (Tag × List Node) :=
  n.children.filterMap fun
    | .element t cs => some (t, cs)
    | _ => none

/-- The text of the first child, if it is a text node. -/
def leadingText? (children : List Node) : Option String :=
  match children with
  | .text s :: _ => some s
  | _ => none

mutual

/-- The characters of all text nodes in a subtree, in document order. -/
def characters : Node → List Char
  | .root cs | .element _ cs => charactersOf cs
  | .text s => s.toList
  | .comment _ | .instruction .. => []

/-- The characters of all text nodes in several subtrees. -/
def charactersOf : List Node → List Char
  | [] => []
  | n :: ns => n.characters ++ charactersOf ns

end

/-- The string value of a node: the characters of its text nodes, or its own text. -/
def stringValue : Node → String
  | .root cs | .element _ cs => String.ofList (charactersOf cs)
  | .text s | .comment s | .instruction _ s => s

mutual

/-- A node followed by all nodes below it, in document order. -/
def subtree : Node → List Node
  | .root cs => .root cs :: subtrees cs
  | .element t cs => .element t cs :: subtrees cs
  | n => [n]

/-- The nodes of several subtrees in document order. -/
def subtrees : List Node → List Node
  | [] => []
  | n :: ns => n.subtree ++ subtrees ns

end

end Node

end XmlConformance.Xml
