import XmlConformance.Path.Item
import XmlConformance.Xml.Location

/-!
# Path/Location — how reports name items

The location of a node, or for an attribute the location of its element and its name.
-/

namespace XmlConformance.Path.Item

/-- The name of an element, or of an attribute at its element. -/
def name (root : Xml.Node) : Item → String
  | .node p =>
    match root.at? p with
    | some (.element t _) => t.qualifiedName
    | _ => ""
  | .attribute p i =>
    match ownerTag? root p, attribute? root p i with
    | some t, some a => t.attributeName a.name
    | _, _ => ""
  | _ => ""

/-- **The location of a node or attribute.** -/
def location (root : Xml.Node) : Item → String
  | .node p => root.location p
  | .attribute p i => root.location p ++ "/@" ++ (Item.attribute p i).name root
  | _ => ""

end XmlConformance.Path.Item
