import XmlConformance.Path.Compare
import XmlConformance.Regex.Parser

/-!
# Path/Library — the functions on texts, names and sequences

What the functions compute that depend on the values of their arguments only. Positions in a text
count characters.
-/

namespace XmlConformance.Path.Library

/-- The text of the first item. -/
def firstString (root : Xml.Node) (items : Sequence) : String :=
  ((items.head?).map (·.stringValue root)).getD ""

/-- The number of the first item. -/
def firstNumber (root : Xml.Node) (items : Sequence) : Float :=
  ((items.head?).map (·.numberValue root)).getD notANumber

/-- The part of a text in front of a word and the part behind it, at the first place where the word
occurs. -/
def splitOnce (word : List Char) : List Char → Option (List Char × List Char)
  | [] => if word.isEmpty then some ([], []) else none
  | c :: rest =>
    if word.isPrefixOf (c :: rest) then some ([], (c :: rest).drop word.length)
    else (splitOnce word rest).map fun (before, behind) => (c :: before, behind)

def contains (text word : String) : Bool :=
  (splitOnce word.toList text.toList).isSome

def startsWith (text word : String) : Bool :=
  word.toList.isPrefixOf text.toList

def endsWith (text word : String) : Bool :=
  word.toList.reverse.isPrefixOf text.toList.reverse

def substringBefore (text word : String) : String :=
  String.ofList (((splitOnce word.toList text.toList).map (·.1)).getD [])

def substringAfter (text word : String) : String :=
  String.ofList (((splitOnce word.toList text.toList).map (·.2)).getD [])

/-- The nearest whole number, a half going up. -/
def round (x : Float) : Float :=
  (x + 0.5).floor

/-- The characters whose positions, counted from one, are at least `start` and less than `length`
further. -/
def substring (text : String) (start : Float) (length : Option Float) : String :=
  String.ofList <| (text.toList.zipIdx.filter fun (_, i) =>
    let position := (i + 1).toFloat
    start ≤ position &&
      (match length with
        | some n => position < start + n
        | none => true)).map (·.1)

/-- Replaces every character of `source` by the one at its place in `target`, or by none. -/
def translate (text source target : String) : String :=
  String.ofList <| text.toList.filterMap fun c =>
    match source.toList.findIdx? (· == c) with
    | some i => target.toList[i]?
    | none => some c

/-- The flags that some letters stand for. -/
def flagsOf (letters : String) : Regex.Flags :=
  let cs := letters.toList
  { Regex.Flags.initial with
    anyCase := cs.contains 'i'
    dotAll := cs.contains 's'
    lines := cs.contains 'm'
    layout := cs.contains 'x' }

/-- Whether some part of a text matches a pattern. -/
def matchesPattern (text pattern flags : String) : Except EvalError Bool :=
  match Regex.read? (flagsOf flags) pattern with
  | some r => .ok (r.isMatch text)
  | none => .error (.invalidPattern pattern)

/-- Adds up from the negative zero, which changes no number. -/
def sum (numbers : List Float) : Float :=
  numbers.foldl (· + ·) (-0.0)

/-- The first item of every text; nodes give way to their texts. -/
def distinct (root : Xml.Node) (seen : List String) : Sequence → Sequence
  | [] => []
  | item :: rest =>
    let text := item.stringValue root
    if seen.contains text then distinct root seen rest
    else
      let value :=
        match item with
        | .number _ | .boolean _ => item
        | _ => .string text
      value :: distinct root (text :: seen) rest

/-- The name of a node or attribute as it would be written in its place. -/
def name (root : Xml.Node) : Item → String
  | .node p =>
    match root.at? p with
    | some (.element t _) => t.qualifiedName
    | some (.instruction target _) => target
    | _ => ""
  | .attribute p i =>
    match Item.ownerTag? root p, Item.attribute? root p i with
    | some t, some a => t.attributeName a.name
    | _, _ => ""
  | _ => ""

/-- The local name of a node or attribute. -/
def localName (root : Xml.Node) : Item → String
  | .node p =>
    match root.at? p with
    | some (.element t _) => t.name.localName
    | some (.instruction target _) => target
    | _ => ""
  | .attribute p i => ((Item.attribute? root p i).map (·.name.localName)).getD ""
  | _ => ""

/-- The namespace of a node or attribute. -/
def namespaceUri (root : Xml.Node) : Item → String
  | .node p => ((Item.ownerTag? root p).bind (·.name.uri)).getD ""
  | .attribute p i => ((Item.attribute? root p i).bind (·.name.uri)).getD ""
  | _ => ""

/-- Whether an item lies at or below another. -/
def isWithin (item top : Item) : Bool :=
  match item, top with
  | .node p, .node q | .attribute p _, .node q => p.isWithin q
  | .attribute .., .attribute .. | .node _, .attribute .. => item.samePlace top
  | _, _ => false

end XmlConformance.Path.Library
