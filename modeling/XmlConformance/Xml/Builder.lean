import XmlConformance.Xml.Reference
import XmlConformance.Xml.Tree

/-!
# Xml/Builder — a tree under construction

The elements that are open, innermost first, each with the children it has so far. Names are
resolved when an element is opened: its own declarations come into scope first, and then those of
its parent that it does not redeclare. Adjacent text forms one node.
-/

namespace XmlConformance.Xml

/-- An element that is open. Its children are held in reverse. -/
structure Frame where
  /-- The label that the start tag was written with. -/
  label : String
  tag : Tag
  reversed : List Node
deriving Inhabited

/-- A tree under construction. -/
structure Builder where
  /-- The open elements, innermost first. -/
  frames : List Frame
  /-- The children of the root, in reverse. -/
  reversed : List Node
  /-- How many references were followed on the way of the present one. -/
  followed : Nat
deriving Inhabited

/-! ## Namespaces -/

/-- The declarations in scope at an element. -/
def scopeWithin (inherited own : List Declaration) : List Declaration :=
  if own.isEmpty then inherited
  else
    inherited.foldl
      (fun scope d => if scope.any (·.label == d.label) then scope else scope ++ [d]) own

/-- Whether a label may be bound to a namespace. -/
def mayBind (label : String) (uri : String) : Bool :=
  uri != xmlnsUri && (label == "xml") == (uri == xmlUri)

/-- What an attribute as written declares, if it declares a namespace: `none` if it does not or may
not, and otherwise the declaration, unless it repeats the fixed one of `xml`. -/
inductive Binding where
  | declares (d : Declaration)
  | repeatsXml
  | forbidden
  | plain

/-- How an attribute with a given value binds a namespace. -/
def bindingOf (own : List Declaration) (name : RawName) (value : String) : Binding :=
  if name.label == "xmlns" then
    if !mayBind name.localName value || own.any (·.label == some name.localName) then .forbidden
    else if value == xmlUri then .repeatsXml
    else .declares ⟨some name.localName, value⟩
  else if name.localName == "xmlns" then
    if value == xmlUri || value == xmlnsUri then .forbidden else .declares ⟨none, value⟩
  else .plain

/-- The namespace of an element name. A label has to be declared; without one, the default
declaration counts, if there is one. -/
def elementUri (scope : List Declaration) (label : String) : Option (Option String) :=
  let wanted := if label.isEmpty then none else some label
  match scope.find? (·.label == wanted) with
  | some d => some (some d.uri)
  | none => if label.isEmpty then some none else none

/-- The namespace of an attribute name. -/
def attributeUri (scope : List Declaration) (label : String) : Option (Option String) :=
  if label == "xml" then some (some xmlUri)
  else if label.isEmpty then some none
  else (scope.find? (·.label == some label)).map fun d => some d.uri

/-- Resolves the names of attributes, which have to differ from each other. -/
def resolveAttributes (scope : List Declaration) :
    List Attribute → List (RawName × String) → Option (List Attribute)
  | done, [] => some done
  | done, (name, value) :: rest =>
    match attributeUri scope name.label with
    | none => none
    | some uri =>
      let name : ExpandedName := ⟨uri, name.localName⟩
      if done.any (·.name == name) then none
      else resolveAttributes scope (done ++ [⟨name, value⟩]) rest

/-- Takes the attributes of a start tag apart into declarations and others, with their values
normalized. -/
def sortAttributes (entities : List Entity) (depth : Nat) :
    List RawAttribute → List Declaration → List (RawName × String) → Nat →
      Option (List Declaration × List (RawName × String) × Nat)
  | [], own, others, followed => some (own, others, followed)
  | a :: rest, own, others, followed =>
    match AttributeValue.expandAt entities (Reference.maxDepth - depth) depth a.value followed with
    | none => none
    | some (cs, followed) =>
      let value := String.ofList cs
      match bindingOf own a.name value with
      | .declares d => sortAttributes entities depth rest (own ++ [d]) others followed
      | .repeatsXml => sortAttributes entities depth rest own others followed
      | .forbidden => none
      | .plain => sortAttributes entities depth rest own (others ++ [(a.name, value)]) followed

/-- The tag that a start tag as written stands for below the given declarations. -/
def resolveTag (inherited own : List Declaration) (name : RawName)
    (others : List (RawName × String)) (start : Nat) : Option Tag :=
  let scope := scopeWithin inherited own
  if name.label == "xmlns" then none
  else
    match resolveAttributes scope [] others, elementUri scope name.label with
    | some attributes, some uri => some ⟨⟨uri, name.localName⟩, attributes, scope, start⟩
    | _, _ => none

namespace Builder

/-- No node yet. -/
def empty : Builder := ⟨[], [], 0⟩

/-- The declarations in scope where the next node goes. -/
def scope (b : Builder) : List Declaration :=
  match b.frames with
  | f :: _ => f.tag.scope
  | [] => []

/-- Appends a node to the innermost open element. -/
def add (b : Builder) (n : Node) : Builder :=
  match b.frames with
  | f :: outer => { b with frames := { f with reversed := n :: f.reversed } :: outer }
  | [] => { b with reversed := n :: b.reversed }

/-- Appends text to nodes held in reverse: to the last one, if it is text. -/
def addTextTo (reversed : List Node) (s : String) : List Node :=
  match reversed with
  | .text t :: before => .text (t ++ s) :: before
  | _ => .text s :: reversed

/-- Appends text to the innermost open element. -/
def addText (b : Builder) (s : String) : Builder :=
  match b.frames with
  | f :: outer => { b with frames := { f with reversed := addTextTo f.reversed s } :: outer }
  | [] => { b with reversed := addTextTo b.reversed s }

/-- Opens an element. -/
def openElement (b : Builder) (label : String) (tag : Tag) : Builder :=
  { b with frames := ⟨label, tag, []⟩ :: b.frames }

/-- Closes the innermost open element, which has to have the name as written. -/
def closeElement (b : Builder) (name : RawName) : Option Builder :=
  match b.frames with
  | f :: outer =>
    if f.label == name.label && f.tag.name.localName == name.localName then
      some ({ b with frames := outer }.add (.element f.tag f.reversed.reverse))
    else none
  | [] => none

/-- The finished root: every element is closed and there is an element. -/
def finish (b : Builder) : Option Node :=
  if b.frames.isEmpty && b.reversed.any Node.isElement then some (.root b.reversed.reverse)
  else none

end Builder

end XmlConformance.Xml
