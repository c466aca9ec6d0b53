import XmlConformance.Failure
import XmlConformance.Url.Parser
import XmlConformance.Xml.Parser

/-!
# Xml/Document — documents and where they come from

A document is a text with the tree it stands for (`wellFormed`) and the URL that references inside
it are relative to. Places in it are given by line and column.
-/

namespace XmlConformance

/-- A well-formed document. -/
structure Document where
  text : String
  base : Option Url
  root : Xml.Node
  wellFormed : Xml.Node.ofText text = some root

namespace Document

/-- How messages call a document. -/
def nameOf (base : Option Url) : String :=
  match base with
  | some url => url.toString
  | none => "<inline document>"

/-- Reads a document. -/
def ofText (text : String) (base : Option Url) : Except Failure Document :=
  match h : Xml.Node.ofText text with
  | some root => .ok ⟨text, base, root, h⟩
  | none => .error (.malformed (nameOf base))

/-- The URL that a reference inside a document leads to. -/
def resolve (d : Document) (href : String) : Except Failure Url :=
  let url :=
    match d.base with
    | some base => base.join href
    | none => Url.ofText href
  url.mapError fun e => .reference href (.unreadable e)

/-- The root element: its tag and its children. -/
def rootElement (d : Document) : Xml.Tag × List Xml.Node :=
  (d.root.elements.head?).getD default

/-- Line and column of the place behind a number of characters, both counted from one. -/
def place (d : Document) (offset : Nat) : Nat × Nat :=
  let before := d.text.toList.take offset
  (before.count '\n' + 1, (before.reverse.takeWhile (· != '\n')).length + 1)

end Document

/-- Where a document comes from. -/
inductive Source where
  | path (path : String)
  | url (url : Url)
  | text (text : String) (base : Option Url)
deriving DecidableEq, Repr, Inhabited

/-- How messages call a source. -/
def Source.describe : Source → String
  | .path name => name
  | .url location => location.toString
  | .text _ base => Document.nameOf base

end XmlConformance
