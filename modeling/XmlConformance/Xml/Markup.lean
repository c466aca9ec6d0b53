import XmlConformance.Xml.Char

/-!
# Xml/Markup — one piece of markup at a time

Readers for the pieces a document is made of: tags, comments, processing instructions, character
data sections and runs of text. Each takes characters off the front of a text and gives back what
follows, or `none` where the text is not well-formed. Names are only split at their colon and
attribute values are left as written; namespaces and references are resolved later.
-/

namespace XmlConformance.Xml

/-- A name as written, split at its colon; a missing label is empty. -/
structure RawName where
  label : String
  localName : String
deriving DecidableEq, Repr, Inhabited

/-- An attribute as written. -/
structure RawAttribute where
  name : RawName
  value : List Char
deriving DecidableEq, Repr, Inhabited

/-- A piece of the content of an element. -/
inductive Markup where
  | comment (text : List Char)
  | instruction (target value : List Char)
  | cdata (text : List Char)
  | openTag (name : RawName) (attributes : List RawAttribute) (selfClosing : Bool)
  | closeTag (name : RawName)
  | text (raw : List Char)
deriving Repr, Inhabited

namespace Reader

/-- Drops white space. -/
def skipSpaces (cs : List Char) : List Char :=
  cs.dropWhile isSpace

/-- Drops white space, of which there has to be some. -/
def needSpaces : List Char → Option (List Char)
  | c :: rest => if isSpace c then some (skipSpaces rest) else none
  | [] => none

/-- What follows a given text. -/
def after? : List Char → List Char → Option (List Char)
  | [], cs => some cs
  | x :: xs, c :: cs => if x == c then after? xs cs else none
  | _ :: _, [] => none

/-- The text in front of a terminator and what follows the terminator. Every character of the text
has to be allowed in a document. -/
def upTo (terminator : List Char) : List Char → Option (List Char × List Char)
  | [] => none
  | c :: rest =>
    match after? terminator (c :: rest) with
    | some behind => some ([], behind)
    | none =>
      if isXmlChar c then (upTo terminator rest).map fun (text, behind) => (c :: text, behind)
      else none

/-- A name, colons included. -/
def readName : List Char → Option (List Char × List Char)
  | c :: rest =>
    if isNameStart c then some (c :: rest.takeWhile isNameChar, rest.dropWhile isNameChar) else none
  | [] => none

/-- Whether a part of a name begins as a name has to. -/
def beginsName : List Char → Bool
  | c :: _ => isNameStart c && c != ':'
  | [] => false

/-- A name with at most one colon, split there. -/
def readRawName (cs : List Char) : Option (RawName × List Char) :=
  let raw := cs.takeWhile isNameChar
  let behind := cs.dropWhile isNameChar
  match raw.dropWhile (· != ':') with
  | [] => if beginsName raw then some (⟨"", String.ofList raw⟩, behind) else none
  | _ :: localName =>
    let label := raw.takeWhile (· != ':')
    if (label.isEmpty || beginsName label) && beginsName localName && !localName.contains ':' then
      some (⟨String.ofList label, String.ofList localName⟩, behind)
    else none

/-- The rest of a comment behind its opening. Two hyphens end it, whatever follows. -/
def readComment (cs : List Char) : Option (List Char × List Char) :=
  match upTo ['-', '-'] cs with
  | some (text, '>' :: behind) => some (text, behind)
  | _ => none

/-- The rest of a processing instruction behind `<?`. -/
def readInstruction (cs : List Char) : Option (List Char × List Char × List Char) :=
  if (after? ['x', 'm', 'l', ' '] cs).isSome then none
  else
    match readName cs with
    | none => none
    | some (target, rest) =>
      match upTo ['?', '>'] (skipSpaces rest) with
      | some (value, behind) => some (target, value, behind)
      | none => none

/-- A quotation mark. -/
def readQuote : List Char → Option (Char × List Char)
  | c :: rest => if c == '\"' || c == '\'' then some (c, rest) else none
  | [] => none

/-- The equals sign of an attribute with the white space around it. -/
def readEquals (cs : List Char) : Option (List Char) :=
  match skipSpaces cs with
  | '=' :: rest => some (skipSpaces rest)
  | _ => none

/-- The rest of an attribute value behind its opening quotation mark. -/
def readValue (mark : Char) (cs : List Char) : Option (List Char × List Char) :=
  let value := cs.takeWhile fun c => isXmlChar c && c != mark && c != '<'
  match cs.dropWhile fun c => isXmlChar c && c != mark && c != '<' with
  | c :: rest => if c == mark then some (value, rest) else none
  | [] => none

/-- One attribute. -/
def readAttribute (cs : List Char) : Option (RawAttribute × List Char) :=
  match readRawName cs with
  | none => none
  | some (name, rest) =>
    match (readEquals rest).bind readQuote with
    | none => none
    | some (mark, rest) =>
      match readValue mark rest with
      | none => none
      | some (value, rest) => some (⟨name, value⟩, rest)

/-- The attributes of a tag up to its end, and whether the tag closes itself; the number bounds the
attributes. -/
def readAttributes : Nat → List Char → Option (List RawAttribute × Bool × List Char)
  | 0, _ => none
  | n + 1, cs =>
    match skipSpaces cs with
    | '/' :: '>' :: rest => some ([], true, rest)
    | '>' :: rest => some ([], false, rest)
    | rest =>
      if (needSpaces cs).isSome then
        match readAttribute rest with
        | none => none
        | some (first, rest) =>
          (readAttributes n rest).map fun (more, selfClosing, rest) =>
            (first :: more, selfClosing, rest)
      else none

/-- The rest of a start tag behind `<`. -/
def readOpenTag (cs : List Char) : Option (Markup × List Char) :=
  match readRawName cs with
  | none => none
  | some (name, rest) =>
    (readAttributes (rest.length + 1) rest).map fun (attributes, selfClosing, rest) =>
      (.openTag name attributes selfClosing, rest)

/-- The rest of an end tag behind `</`. -/
def readCloseTag (cs : List Char) : Option (Markup × List Char) :=
  match readRawName cs with
  | none => none
  | some (name, rest) =>
    match skipSpaces rest with
    | '>' :: rest => some (.closeTag name, rest)
    | _ => none

/-- Whether a text holds `]]>`. -/
def holdsSectionEnd : List Char → Bool
  | [] => false
  | c :: rest => (after? [']', ']', '>'] (c :: rest)).isSome || holdsSectionEnd rest

/-- A run of text up to the next tag. -/
def readText (cs : List Char) : Option (Markup × List Char) :=
  let raw := cs.takeWhile (· != '<')
  if raw.all isXmlChar && !holdsSectionEnd raw then some (.text raw, cs.dropWhile (· != '<'))
  else none

/-- The piece of markup at the front of the content of an element. -/
def readMarkup : List Char → Option (Markup × List Char)
  | '<' :: '!' :: '-' :: '-' :: rest =>
    (readComment rest).map fun (text, rest) => (.comment text, rest)
  | '<' :: '!' :: '[' :: 'C' :: 'D' :: 'A' :: 'T' :: 'A' :: '[' :: rest =>
    (upTo [']', ']', '>'] rest).map fun (text, rest) => (.cdata text, rest)
  | '<' :: '!' :: _ => none
  | '<' :: '?' :: rest =>
    (readInstruction rest).map fun (target, value, rest) => (.instruction target value, rest)
  | '<' :: '/' :: rest => readCloseTag rest
  | '<' :: rest => readOpenTag rest
  | cs => readText cs

end Reader

end XmlConformance.Xml
