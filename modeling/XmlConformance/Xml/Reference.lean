import XmlConformance.Xml.Markup

/-!
# Xml/Reference — references, line ends and attribute values

What the characters of a text or of an attribute value stand for. Line ends become line feeds in
text, white space becomes spaces in attribute values, and character references stand for their
character as it is. An entity reference stands for a declared text, which may hold references
itself; entities may be nested ten deep, and one reference may lead to at most 255 further ones.
-/

namespace XmlConformance.Xml

/-- A declared entity. -/
structure Entity where
  name : String
  value : List Char
  /-- The number of characters of the document behind the value. -/
  behind : Nat
deriving Repr, Inhabited

/-- What a reference refers to. -/
inductive Reference where
  | char (c : Char)
  | entity (name : String)
deriving DecidableEq, Repr, Inhabited

namespace Reference

/-- How deep entities may be nested. -/
def maxDepth : Nat := 10

/-- How many references may be followed on the way of one. -/
def maxFollowed : Nat := 255

/-- The entities that need no declaration. -/
def predefined? : String → Option Char
  | "quot" => some '\"'
  | "amp" => some '&'
  | "apos" => some '\''
  | "lt" => some '<'
  | "gt" => some '>'
  | _ => none

def isHexDigit (c : Char) : Bool :=
  c.isDigit || ('a' ≤ c && c ≤ 'f') || ('A' ≤ c && c ≤ 'F')

def hexValue (c : Char) : Nat :=
  if c.isDigit then c.toNat - 48 else if c.toNat < 97 then c.toNat - 55 else c.toNat - 87

/-- The number that digits of a base stand for. -/
def number (base : Nat) (digits : List Char) : Nat :=
  digits.foldl (fun n c => base * n + hexValue c) 0

/-- The character with a code point; what is no character stands for the replacement character. -/
def charOf (code : Nat) : Option Char :=
  if Nat.pow 2 32 ≤ code then none
  else
    let c := if h : code.isValidChar then Char.ofNatAux code h else Char.ofNat 0xfffd
    if isXmlChar c then some c else none

/-- A character reference given by its digits. -/
def ofDigits (base : Nat) (digits : List Char) : Option Reference :=
  if digits.isEmpty then none else (charOf (number base digits)).map .char

/-- What a reference ends with. -/
def close : Option Reference → List Char → Option (Reference × List Char)
  | some r, ';' :: rest => some (r, rest)
  | _, _ => none

/-- The rest of a reference behind `&`. -/
def read : List Char → Option (Reference × List Char)
  | '#' :: 'x' :: rest =>
    close (ofDigits 16 (rest.takeWhile isHexDigit)) (rest.dropWhile isHexDigit)
  | '#' :: rest =>
    close (ofDigits 10 (rest.takeWhile Char.isDigit)) (rest.dropWhile Char.isDigit)
  | cs =>
    match Reader.readName cs with
    | some (name, rest) =>
      let name := String.ofList name
      close (some (match predefined? name with
        | some c => .char c
        | none => .entity name)) rest
    | none => none

end Reference

/-- The first declaration of an entity counts. -/
def Entity.find? (entities : List Entity) (name : String) : Option Entity :=
  List.find? (·.name == name) entities

/-- Counts a reference that is followed while others are open. -/
def countReference (depth followed : Nat) : Option Nat :=
  if depth = 0 then some followed
  else if followed < Reference.maxFollowed then some (followed + 1)
  else none

/-- The count of followed references behind one that was followed at a depth. -/
def leaveReference (depth followed : Nat) : Nat :=
  if depth = 0 then 0 else followed

/-! ## Attribute values -/

namespace AttributeValue

/-- A character of an attribute value, in front of `rest`; of a line end of two characters only the
second counts. -/
def plain (c : Char) (rest : List Char) : List Char :=
  if c == '\r' && rest.head? == some '\n' then []
  else if c == '\n' || c == '\r' || c == '\t' then [' ']
  else [c]

/-- A character that a reference stands for. Inside an entity it counts as if it were written, and
`<` is forbidden. -/
def referred (depth : Nat) (c : Char) : Option (List Char) :=
  if depth = 0 then some [c]
  else if c == '<' then none
  else some (plain c [])

/-- The value that characters stand for, where `expand` gives the value of an entity and the number
bounds the steps. -/
def scan (entities : List Entity) (depth : Nat)
    (expand : Entity → Nat → Option (List Char × Nat)) :
    Nat → List Char → Nat → Option (List Char × Nat)
  | 0, _, _ => none
  | _ + 1, [], followed => some ([], followed)
  | n + 1, '&' :: rest, followed =>
    match Reference.read rest with
    | none => none
    | some (.char c, rest) =>
      match referred depth c, scan entities depth expand n rest followed with
      | some cs, some (value, followed) => some (cs ++ value, followed)
      | _, _ => none
    | some (.entity name, rest) =>
      match Entity.find? entities name, countReference depth followed with
      | some entity, some followed =>
        match expand entity followed with
        | none => none
        | some (cs, followed) =>
          match scan entities depth expand n rest (leaveReference depth followed) with
          | none => none
          | some (value, followed) => some (cs ++ value, followed)
      | _, _ => none
  | n + 1, c :: rest, followed =>
    (scan entities depth expand n rest followed).map fun (value, followed) =>
      (plain c rest ++ value, followed)

/-- The value that characters stand for inside entities nested `depth` deep, when `left` further
ones may be opened. -/
def expandAt (entities : List Entity) : Nat → Nat → List Char → Nat → Option (List Char × Nat)
  | 0, depth, cs, followed => scan entities depth (fun _ _ => none) (cs.length + 1) cs followed
  | left + 1, depth, cs, followed =>
    scan entities depth (fun e followed => expandAt entities left (depth + 1) e.value followed)
      (cs.length + 1) cs followed

/-- The normalized value of an attribute. -/
def normalize (entities : List Entity) (cs : List Char) (followed : Nat) :
    Option (List Char × Nat) :=
  expandAt entities Reference.maxDepth 0 cs followed

end AttributeValue

/-! ## Text -/

namespace LineEnd

/-- Appends a character to a text, which is held in reverse. A carriage return becomes a line feed
once it is clear whether a line feed follows it. -/
def push (reversed : List Char) (c : Char) (atEnd : Bool) : List Char :=
  match reversed with
  | '\r' :: before =>
    if atEnd && c == '\r' then '\n' :: '\n' :: before
    else if c == '\n' then '\n' :: before
    else c :: '\n' :: before
  | _ => if atEnd && c == '\r' then '\n' :: reversed else c :: reversed

/-- A text with line feeds for line ends. -/
def normalizeFrom (reversed : List Char) : List Char → List Char
  | [] => reversed.reverse
  | c :: rest => normalizeFrom (push reversed c rest.isEmpty) rest

/-- A text with line feeds for line ends. -/
def normalize (cs : List Char) : List Char :=
  normalizeFrom [] cs

end LineEnd

/-- A part of a run of text: characters, or an entity to be read in their place. -/
inductive TextPart where
  | characters (cs : List Char)
  | entity (entity : Entity)
deriving Repr, Inhabited

namespace TextPart

/-- Characters held in reverse, as a part, unless there are none. -/
def ofReversed (reversed : List Char) : List TextPart :=
  if reversed.isEmpty then [] else [.characters reversed.reverse]

/-- The parts of a run of text. `verbatim` says that the next character is taken as it is, which it
is behind a character reference outside of entities; the number bounds the steps. -/
def scan (entities : List Entity) (depth : Nat) :
    Nat → List Char → Bool → List Char → Option (List TextPart)
  | 0, _, _, _ => none
  | _ + 1, reversed, _, [] => some (ofReversed reversed)
  | n + 1, reversed, _, '&' :: rest =>
    match Reference.read rest with
    | none => none
    | some (.char c, rest) =>
      if depth = 0 then scan entities depth n (c :: reversed) true rest
      else scan entities depth n (LineEnd.push reversed c rest.isEmpty) false rest
    | some (.entity name, rest) =>
      match Entity.find? entities name with
      | none => none
      | some e =>
        (scan entities depth n [] false rest).map fun parts =>
          ofReversed reversed ++ .entity e :: parts
  | n + 1, reversed, verbatim, c :: rest =>
    if verbatim then scan entities depth n (c :: reversed) false rest
    else scan entities depth n (LineEnd.push reversed c rest.isEmpty) false rest

/-- The parts of a run of text inside entities nested `depth` deep. -/
def ofText (entities : List Entity) (depth : Nat) (cs : List Char) : Option (List TextPart) :=
  scan entities depth (cs.length + 1) [] false cs

end TextPart

end XmlConformance.Xml
