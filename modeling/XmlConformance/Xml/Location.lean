import XmlConformance.Xml.Position

/-!
# Xml/Location — how reports name places

The location of a node is the path to it from the root: at each step the name of the element, or the
kind of another node, and its number among the siblings of the same name or kind.
-/

namespace XmlConformance.Xml

namespace Node

/-- Whether two nodes are counted together: elements of one name, or other nodes of one kind. -/
def sameKind : Node → Node → Bool
  | .element t _, .element u _ => t.name == u.name
  | .text _, .text _ => true
  | .comment _, .comment _ => true
  | .instruction .., .instruction .. => true
  | .root _, .root _ => true
  | _, _ => false

/-- How a location names a node. -/
def stepName : Node → String
  | .element t _ => t.qualifiedName
  | .text _ => "text()"
  | _ => "node()"

/-- The step of a location that leads to the child `i` among its siblings. -/
def locationStep (siblings : List Node) (i : Nat) : String :=
  match siblings[i]? with
  | some n =>
    n.stepName ++ "[" ++ toString ((siblings.take (i + 1)).countP n.sameKind) ++ "]"
  | none => ""

/-- The steps of the location of a node below `n`. -/
def locationSteps (n : Node) : Position → List String
  | [] => []
  | i :: p =>
    locationStep n.children i ::
      (match n.children[i]? with
        | some c => c.locationSteps p
        | none => [])

/-- **The location of a node** of a document. -/
def location (root : Node) (p : Position) : String :=
  "/" ++ "/".intercalate (root.locationSteps p)

end Node

end XmlConformance.Xml
