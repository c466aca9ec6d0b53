import XmlConformance.Xml.Tree

/-!
# Xml/Position — the places of nodes in a tree, and document order

A node is addressed by its position: the child indices on the way to it from the root. Ancestors are
the prefixes of a position, and document order is lexicographic order, in which a node comes before
all that lies below it. The attributes of an element come behind it and before its children.
-/

namespace XmlConformance.Xml

/-- The child indices on the way to a node. -/
abbrev Position := List Nat

namespace Position

/-- The position of a child. -/
def child (p : Position) (i : Nat) : Position := p ++ [i]

/-- The position of the parent. -/
def parent? (p : Position) : Option Position :=
  if p.isEmpty then none else some p.dropLast

/-- The positions of the ancestors, nearest first. -/
def ancestors (p : Position) : List Position :=
  (List.range p.length).reverse.map p.take

/-- Whether a position is at or below another. -/
def isWithin (p top : Position) : Bool :=
  top.isPrefixOf p

/-- Document order: whether a position is not behind another. -/
def le : Position → Position → Bool
  | [], _ => true
  | _ :: _, [] => false
  | i :: p, j :: q => i < j || (i == j && le p q)

end Position

namespace Node

/-- The node at a position. -/
def at? (n : Node) : Position → Option Node
  | [] => some n
  | i :: p =>
    match n.children[i]? with
    | some c => c.at? p
    | none => none

mutual

/-- The positions of a node and of all nodes below it, in document order. -/
def positions : Node → List Position
  | .root cs | .element _ cs => [] :: positionsFrom 0 cs
  | _ => [[]]

/-- The positions below a parent, from its child `i` on. -/
def positionsFrom (i : Nat) : List Node → List Position
  | [] => []
  | c :: cs => c.positions.map (i :: ·) ++ positionsFrom (i + 1) cs

end

/-- The number of children of the node at a position. -/
def childCount (root : Node) (p : Position) : Nat :=
  match root.at? p with
  | some n => n.children.length
  | none => 0

/-- The positions of the node at a position and of all below it, in document order. -/
def positionsAt (root : Node) (p : Position) : List Position :=
  match root.at? p with
  | some n => n.positions.map (p ++ ·)
  | none => []

/-- The positions of the children of the node at a position. -/
def childrenAt (root : Node) (p : Position) : List Position :=
  (List.range (root.childCount p)).map p.child

/-- The positions of the siblings behind a node, nearest first. -/
def followingSiblings (root : Node) (p : Position) : List Position :=
  match p.getLast? with
  | some i =>
    ((List.range (root.childCount p.dropLast)).drop (i + 1)).map (Position.child p.dropLast)
  | none => []

/-- The positions of the siblings in front of a node, nearest first. -/
def precedingSiblings (p : Position) : List Position :=
  match p.getLast? with
  | some i => (List.range i).reverse.map (Position.child p.dropLast)
  | none => []

/-- The positions of the nodes behind a node, its descendants apart, in document order. -/
def following (root : Node) (p : Position) : List Position :=
  (p :: p.ancestors).flatMap fun a => (root.followingSiblings a).flatMap root.positionsAt

/-- The positions of the nodes in front of a node, its ancestors apart, in reverse document
order. -/
def preceding (root : Node) (p : Position) : List Position :=
  (p :: p.ancestors).flatMap fun a =>
    (precedingSiblings a).flatMap fun s => (root.positionsAt s).reverse

end Node

end XmlConformance.Xml
