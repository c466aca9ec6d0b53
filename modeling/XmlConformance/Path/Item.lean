import XmlConformance.Path.Number
import XmlConformance.Xml.Position

/-!
# Path/Item — the items of a result

A result is a sequence of items: nodes, attributes and atomic values. Nodes and attributes are given
by their place in the document that an expression is evaluated against. `inDocumentOrder` sorts a
sequence and leaves every node and attribute in it once.
-/

namespace XmlConformance.Path

/-- An item of a result. -/
inductive Item where
  | node (position : Xml.Position)
  /-- An attribute of the element at a position, by its index. -/
  | attribute (owner : Xml.Position) (index : Nat)
  | string (value : String)
  | number (value : Float)
  | boolean (value : Bool)
deriving Inhabited

/-- The result of an expression. -/
abbrev Sequence := List Item

namespace Item

/-- Nodes and attributes, in contrast to atomic values. -/
def isNode : Item → Bool
  | .node _ | .attribute .. => true
  | _ => false

/-- The place of a node or attribute: the position of the node or owner, and the index of the
attribute. -/
def place? : Item → Option (Xml.Position × Option Nat)
  | .node p => some (p, none)
  | .attribute p i => some (p, some i)
  | _ => none

/-- Whether an item is not behind another in document order; atomic values come first. -/
def le (a b : Item) : Bool :=
  match a.place?, b.place? with
  | none, _ => true
  | some _, none => false
  | some (p, i), some (q, j) =>
    if p == q then
      match i, j with
      | none, _ => true
      | some _, none => false
      | some i, some j => i ≤ j
    else p.le q

/-- Whether two items have the same place. -/
def samePlace (a b : Item) : Bool :=
  a.place? == b.place?

/-- The element that holds an attribute. -/
def ownerTag? (root : Xml.Node) (owner : Xml.Position) : Option Xml.Tag :=
  (root.at? owner).bind Xml.Node.tag?

/-- The attribute at a place. -/
def attribute? (root : Xml.Node) (owner : Xml.Position) (index : Nat) : Option Xml.Attribute :=
  (ownerTag? root owner).bind (·.attributes[index]?)

/-- The string value of an item. -/
def stringValue (root : Xml.Node) : Item → String
  | .node p => ((root.at? p).map Xml.Node.stringValue).getD ""
  | .attribute p i => ((attribute? root p i).map (·.value)).getD ""
  | .string s => s
  | .number x => formatNumber x
  | .boolean b => if b then "true" else "false"

/-- The numeric value of an item. -/
def numberValue (root : Xml.Node) : Item → Float
  | .number x => x
  | .boolean b => if b then 1.0 else 0.0
  | item => toNumber (item.stringValue root)

/-- Whether an item counts as true. -/
def isTrue : Item → Bool
  | .boolean b => b
  | .number x => x != 0.0 && !x.isNaN
  | .string s => !s.isEmpty
  | .node _ | .attribute .. => true

end Item

/-- Drops every item that has the same place as the one before it; `last` is the item before. -/
def dropRepeatedFrom (last : Item) : Sequence → Sequence
  | [] => []
  | item :: rest =>
    if item.samePlace last then dropRepeatedFrom last rest else item :: dropRepeatedFrom item rest

/-- Drops every item that has the same place as the one before it. -/
def dropRepeated : Sequence → Sequence
  | [] => []
  | item :: rest => item :: dropRepeatedFrom item rest

/-- A sequence in document order, without repetitions. -/
def inDocumentOrder (items : Sequence) : Sequence :=
  dropRepeated (items.mergeSort Item.le)

end XmlConformance.Path
