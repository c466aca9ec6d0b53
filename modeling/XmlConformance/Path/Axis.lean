import XmlConformance.Path.Expr
import XmlConformance.Path.Item

/-!
# Path/Axis — where a step leads

The items on an axis from a node or an attribute, nearest first, and the test that a step puts on
them. An attribute has the axes of its owner, from a place between the owner and its children.
-/

namespace XmlConformance.Path

namespace Axis

/-- The nodes on an axis from the node at a position, nearest first. -/
def fromNode (root : Xml.Node) (p : Xml.Position) : Axis → Sequence
  | .child => (root.childrenAt p).map .node
  | .descendant => ((root.positionsAt p).drop 1).map .node
  | .descendantOrSelf => (root.positionsAt p).map .node
  | .parent => p.parent?.toList.map .node
  | .ancestor => p.ancestors.map .node
  | .ancestorOrSelf => (p :: p.ancestors).map .node
  | .followingSibling => (root.followingSiblings p).map .node
  | .precedingSibling => (Xml.Node.precedingSiblings p).map .node
  | .following => (root.following p).map .node
  | .preceding => (root.preceding p).map .node
  | .self => [.node p]
  | .attribute =>
    match Item.ownerTag? root p with
    | some t => (List.range t.attributes.length).map (.attribute p)
    | none => []

/-- The items on an axis from an attribute, nearest first. -/
def fromAttribute (root : Xml.Node) (owner : Xml.Position) (index : Nat) : Axis → Sequence
  | .self => [.attribute owner index]
  | .parent => [.node owner]
  | .ancestor => fromNode root owner .ancestorOrSelf
  | .ancestorOrSelf => .attribute owner index :: fromNode root owner .ancestorOrSelf
  | .following => fromNode root owner .descendant ++ fromNode root owner .following
  | .preceding => fromNode root owner .preceding
  | _ => []

end Axis

namespace NodeTest

/-- Whether a node passes a test. -/
def admitsNode (test : NodeTest) (n : Xml.Node) : Bool :=
  match test, n with
  | .node, _ => true
  | .text, .text _ => true
  | .comment, .comment _ => true
  | .instruction, .instruction .. => true
  | .any, .element .. => true
  | .name uri part, .element t _ => t.name == ⟨uri, part⟩
  | .namespaceOf uri, .element t _ => t.name.uri == some uri
  | .localName part, .element t _ => t.name.localName == part
  | _, _ => false

/-- Whether an attribute passes a test; by its name it does so on the attribute axis only. -/
def admitsAttribute (test : NodeTest) (axis : Axis) (name : Xml.ExpandedName) : Bool :=
  match test with
  | .node => true
  | .any => axis == .attribute
  | .name uri part => axis == .attribute && name == ⟨uri, part⟩
  | .namespaceOf uri => axis == .attribute && name.uri == some uri
  | .localName part => axis == .attribute && name.localName == part
  | _ => false

/-- Whether an item passes a test. -/
def admits (test : NodeTest) (axis : Axis) (root : Xml.Node) (item : Item) : Bool :=
  match item with
  | .node p => ((root.at? p).map test.admitsNode).getD false
  | .attribute p i =>
    ((Item.attribute? root p i).map fun a => test.admitsAttribute axis a.name).getD false
  | _ => false

end NodeTest

/-- The items on an axis from an item that pass a test, nearest first. -/
def candidates (root : Xml.Node) (axis : Axis) (test : NodeTest) (item : Item) : Option Sequence :=
  match item with
  | .node p => some ((axis.fromNode root p).filter (test.admits axis root))
  | .attribute p i => some ((axis.fromAttribute root p i).filter (test.admits axis root))
  | _ => none

end XmlConformance.Path
