import XmlConformance.Xml.Tree
import XmlConformance.Xml.Writer

/-!
# Xml/Fragment — trees to be written

A fragment is an element as it is to be written, with its name and attributes spelt out, or a text.
Rendering a fragment makes a writer go through it. A node is copied by the fragment that `ofNode`
gives, in which every declaration appears that is not in scope at the place of the copy.
-/

namespace XmlConformance.Xml

/-- A piece of a document to be written. -/
inductive Fragment where
  | element (name : String) (attributes : List (String × String)) (content : List Fragment)
  | text (value : String)
deriving Repr, Inhabited

namespace Writer

/-- Starts an element with attributes. -/
def startWith (w : Writer) (name : String) (attributes : List (String × String)) : Writer :=
  attributes.foldl (fun w (a, v) => w.attr a v) (w.start name)

mutual

/-- Writes a fragment. -/
def fragment (w : Writer) : Fragment → Writer
  | .element name attributes content =>
    ((w.startWith name attributes).fragments content).endElement
  | .text value => w.text value

/-- Writes several fragments. -/
def fragments (w : Writer) : List Fragment → Writer
  | [] => w
  | f :: fs => (w.fragment f).fragments fs

end

end Writer

namespace Fragment

/-- The text of a fragment. -/
def render (f : Fragment) : String :=
  (Writer.empty.fragment f).finish

/-- The text of several fragments. -/
def renderAll (fs : List Fragment) : String :=
  (Writer.empty.fragments fs).finish

end Fragment

/-! ## Copies of nodes -/

/-- A namespace declaration as an attribute. -/
def Declaration.written (d : Declaration) : String × String :=
  match d.label with
  | some label => ("xmlns:" ++ label, d.uri)
  | none => ("xmlns", d.uri)

namespace Tag

/-- The declarations at an element that are not in scope at another. -/
def newDeclarations (t : Tag) (scope : Option Tag) : List Declaration :=
  match scope with
  | some outer => t.scope.filter fun d => !outer.scope.contains d
  | none => t.scope

/-- The attributes of an element as they are written, with their values passed through `f`. -/
def writtenAttributes (t : Tag) (f : String → String) : List (String × String) :=
  t.attributes.map fun a => (t.attributeName a.name, f a.value)

/-- What the start tag of a copy of an element holds: the declarations that are not in scope, and
the attributes, with their values passed through `f`. -/
def copiedAttributes (t : Tag) (scope : Option Tag) (f : String → String) :
    List (String × String) :=
  (t.newDeclarations scope).map Declaration.written ++ t.writtenAttributes f

end Tag

namespace Fragment

mutual

/-- A copy of a node with all below it; comments and processing instructions are left out. -/
def ofNode (scope : Option Tag) : Node → List Fragment
  | .text s => [.text s]
  | .element t cs => [.element t.qualifiedName (t.copiedAttributes scope id) (ofNodes (some t) cs)]
  | .root _ | .comment _ | .instruction .. => []

/-- A copy of several nodes. -/
def ofNodes (scope : Option Tag) : List Node → List Fragment
  | [] => []
  | n :: ns => ofNode scope n ++ ofNodes scope ns

end

end Fragment

end XmlConformance.Xml
