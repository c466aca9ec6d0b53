import XmlConformance.Xml.Builder

/-!
# Xml/Parser — from text to tree

`Node.ofText` reads a document. In front of the root element may stand a declaration, comments,
processing instructions and a document type, of which only entity declarations, comments and
processing instructions have an effect. The content of elements is read piece by piece
(`Reader.readMarkup`) into a tree under construction (`Builder`). An entity in content is read as
content of its own, inside which only elements that it opened may be closed first.
-/

namespace XmlConformance.Xml

namespace Content

/-- Where a piece of content is read: in the document itself, or in an entity. -/
structure Context where
  entities : List Entity
  /-- The number of characters of the document. -/
  total : Nat
  /-- How many entities are open. -/
  depth : Nat
  /-- The number of characters of the document behind the text that is read. -/
  behind : Nat

/-- Appends the parts of a run of text, where `expand` reads an entity. -/
def addParts (ctx : Context) (expand : Entity → Builder → Option Builder) :
    List TextPart → Builder → Option Builder
  | [], b => some b
  | .characters cs :: rest, b => addParts ctx expand rest (b.addText (String.ofList cs))
  | .entity e :: rest, b =>
    match countReference ctx.depth b.followed with
    | none => none
    | some followed =>
      match expand e { b with followed := followed } with
      | none => none
      | some b =>
        addParts ctx expand rest { b with followed := leaveReference ctx.depth b.followed }

/-- Opens the element of a start tag that began at `start`, and closes it if it is empty. -/
def addElement (ctx : Context) (name : RawName) (attributes : List RawAttribute)
    (selfClosing : Bool) (start : Nat) (b : Builder) : Option Builder :=
  match sortAttributes ctx.entities ctx.depth attributes [] [] b.followed with
  | none => none
  | some (own, others, followed) =>
    match resolveTag b.scope own name others start with
    | none => none
    | some tag =>
      let b := { b with followed := followed }
      some (if selfClosing then b.add (.element tag []) else b.openElement name.label tag)

/-- Reads content until the element or entity that it belongs to ends. `opened` counts the elements
that were opened and not closed, and `named` says whether any was opened; the first number bounds
the pieces of markup. -/
def read (ctx : Context) (expand : Entity → Builder → Option Builder) :
    Nat → Nat → Bool → Builder → List Char → Option (Builder × List Char)
  | 0, _, _, _, _ => none
  | _ + 1, _, _, b, [] => some (b, [])
  | n + 1, opened, named, b, c :: cs =>
    match Reader.readMarkup (c :: cs) with
    | none => none
    | some (.comment text, rest) =>
      read ctx expand n opened named (b.add (.comment (String.ofList text))) rest
    | some (.instruction target value, rest) =>
      read ctx expand n opened named
        (b.add (.instruction (String.ofList target) (String.ofList value))) rest
    | some (.cdata text, rest) =>
      read ctx expand n opened named (b.addText (String.ofList (LineEnd.normalize text))) rest
    | some (.text raw, rest) =>
      match (TextPart.ofText ctx.entities ctx.depth raw).bind (addParts ctx expand · b) with
      | none => none
      | some b => read ctx expand n opened named b rest
    | some (.openTag name attributes selfClosing, rest) =>
      let start := ctx.total - (ctx.behind + (c :: cs).length)
      match addElement ctx name attributes selfClosing start b with
      | none => none
      | some b => read ctx expand n (if selfClosing then opened else opened + 1) true b rest
    | some (.closeTag name, rest) =>
      if named then
        match b.closeElement name, opened with
        | none, _ => none
        | some b, 0 => some (b, rest)
        | some b, opened + 1 =>
          if opened = 0 && ctx.depth = 0 then some (b, rest)
          else read ctx expand n opened named b rest
      else none

/-- Reads an entity in content, when `left` further ones may be opened inside it. -/
def expandEntity (entities : List Entity) (total : Nat) :
    Nat → Nat → Entity → Builder → Option Builder
  | 0, _, _, _ => none
  | left + 1, depth, e, b =>
    (read ⟨entities, total, depth, e.behind⟩ (expandEntity entities total left (depth + 1))
      (e.value.length + 1) 0 false b e.value).map (·.1)

end Content

namespace Prolog

/-- What was read in front of the root element. -/
structure State where
  entities : List Entity
  builder : Builder

/-- Comments and processing instructions, with white space between them; the number bounds them. -/
def misc : Nat → Builder → List Char → Option (Builder × List Char)
  | 0, b, cs => some (b, cs)
  | n + 1, b, cs =>
    match Reader.skipSpaces cs with
    | '<' :: '!' :: '-' :: '-' :: rest =>
      match Reader.readComment rest with
      | some (text, rest) => misc n (b.add (.comment (String.ofList text))) rest
      | none => none
    | '<' :: '?' :: rest =>
      match Reader.readInstruction rest with
      | some (target, value, rest) =>
        misc n (b.add (.instruction (String.ofList target) (String.ofList value))) rest
      | none => none
    | rest => some (b, rest)

/-! ## The declaration -/

/-- White space, or the end of the declaration. -/
def declarationSpace (cs : List Char) : Option (List Char) :=
  match cs with
  | [] => some []
  | '?' :: '>' :: _ => some cs
  | _ => Reader.needSpaces cs

/-- Whether a text begins with a given one. -/
def startsWith (start : String) (cs : List Char) : Bool :=
  (Reader.after? start.toList cs).isSome

/-- A parameter of the declaration whose name begins with a given one; its value is not looked
at. -/
def parameter? (name : String) (cs : List Char) : Option (List Char) :=
  if startsWith name cs then (Reader.readAttribute cs).map (·.2) else none

/-- The rest of the declaration behind `<?xml`. -/
def declaration (cs : List Char) : Option (List Char) := do
  let rest ← declarationSpace cs
  let rest ← parameter? "version" rest
  let rest ← declarationSpace rest
  let rest ←
    if startsWith "encoding" rest then (parameter? "encoding" rest).bind declarationSpace
    else some rest
  let rest ← if startsWith "standalone" rest then parameter? "standalone" rest else some rest
  Reader.after? ['?', '>'] (Reader.skipSpaces rest)

/-! ## The document type -/

/-- A literal in quotation marks. -/
def quotedLiteral (cs : List Char) : Option (List Char × List Char) := do
  let (mark, rest) ← Reader.readQuote cs
  match rest.dropWhile (· != mark) with
  | _ :: behind => some (rest.takeWhile (· != mark), behind)
  | [] => none

/-- An external identifier, if there is one. -/
def externalId (cs : List Char) : Option (Bool × List Char) :=
  match Reader.after? "SYSTEM".toList cs, Reader.after? "PUBLIC".toList cs with
  | some rest, _ => do
    let (_, rest) ← quotedLiteral (← Reader.needSpaces rest)
    some (true, rest)
  | none, some rest => do
    let (_, rest) ← quotedLiteral (← Reader.needSpaces rest)
    let (_, rest) ← quotedLiteral (← Reader.needSpaces rest)
    some (true, rest)
  | none, none => some (false, cs)

/-- What an entity is declared to be: a value, or something outside of the document. -/
def entityDefinition (general : Bool) (cs : List Char) :
    Option (Option (List Char × List Char) × List Char) :=
  match cs with
  | [] => none
  | c :: _ =>
    if c == '\"' || c == '\'' then
      (quotedLiteral cs).map fun (value, rest) => (some (value, rest), rest)
    else if c == 'S' || c == 'P' then
      match externalId cs with
      | some (true, rest) =>
        match Reader.after? "NDATA".toList (Reader.skipSpaces rest) with
        | some behind =>
          if general then do
            let (_, rest) ← Reader.readName (← Reader.needSpaces behind)
            some (none, rest)
          else some (none, rest)
        | none => some (none, rest)
      | _ => none
    else none

/-- The rest of an entity declaration behind `<!ENTITY`. -/
def entityDeclaration (cs : List Char) : Option (Option Entity × List Char) := do
  let rest ← Reader.needSpaces cs
  let (general, rest) ←
    match rest with
    | '%' :: rest => (Reader.needSpaces rest).map fun rest => (false, rest)
    | rest => some (true, rest)
  let (name, rest) ← Reader.readName rest
  let rest ← Reader.needSpaces rest
  let (definition, rest) ← entityDefinition general rest
  match Reader.skipSpaces rest with
  | '>' :: rest =>
    let entity? := definition.map fun (value, behind) =>
      ⟨String.ofList name, value, behind.length + 1⟩
    some (entity?, rest)
  | _ => none

/-- Whether a text begins with a declaration that is skipped. -/
def startsSkipped (cs : List Char) : Bool :=
  ["<!ELEMENT", "<!ATTLIST", "<!NOTATION"].any (startsWith · cs)

/-- The declarations of a document type up to its end; the number bounds them. -/
def subset : Nat → State → List Char → Option (State × List Char)
  | 0, _, _ => none
  | n + 1, s, cs =>
    match Reader.skipSpaces cs with
    | [] => some (s, [])
    | ']' :: rest =>
      match Reader.skipSpaces rest with
      | '>' :: rest => some (s, rest)
      | _ => none
    | '<' :: '!' :: '-' :: '-' :: rest =>
      match Reader.readComment rest with
      | some (text, rest) =>
        subset n { s with builder := s.builder.add (.comment (String.ofList text)) } rest
      | none => none
    | '<' :: '?' :: rest =>
      match Reader.readInstruction rest with
      | some (target, value, rest) =>
        let added := s.builder.add (.instruction (String.ofList target) (String.ofList value))
        subset n { s with builder := added } rest
      | none => none
    | rest =>
      match Reader.after? "<!ENTITY".toList rest with
      | some rest =>
        match entityDeclaration rest with
        | some (e, rest) => subset n { s with entities := s.entities ++ e.toList } rest
        | none => none
      | none =>
        if startsSkipped rest then
          match rest.dropWhile (· != '>') with
          | _ :: rest => subset n s rest
          | [] => none
        else none

/-- The rest of a document type behind `<!DOCTYPE`. -/
def doctype (b : Builder) (cs : List Char) : Option (State × List Char) := do
  let rest ← Reader.needSpaces cs
  let (_, rest) ← Reader.readName rest
  let (_, rest) ← externalId (Reader.skipSpaces rest)
  match Reader.skipSpaces rest with
  | '>' :: rest => some (⟨[], b⟩, rest)
  | '[' :: rest => subset (rest.length + 1) ⟨[], b⟩ rest
  | _ => none

end Prolog

namespace Node

/-- Reads a root element, if one begins here. -/
def readRoot (entities : List Entity) (total : Nat) (b : Builder) (cs : List Char) :
    Option (Builder × List Char) :=
  match cs with
  | '<' :: rest =>
    match Reader.readOpenTag rest with
    | some (.openTag name attributes selfClosing, behind) =>
      let ctx : Content.Context := ⟨entities, total, 0, 0⟩
      match Content.addElement ctx name attributes selfClosing (total - cs.length) b with
      | none => none
      | some b =>
        if selfClosing then some (b, behind)
        else
          Content.read ctx (Content.expandEntity entities total Reference.maxDepth 1)
            (behind.length + 1) 1 true b behind
    | _ => none
  | _ => some (b, cs)

/-- **Reads a document**: the tree that a text stands for, if it is well-formed. -/
def ofChars (text : List Char) : Option Node := do
  let total := text.length
  let cs :=
    match text with
    | c :: rest => if c.toNat = 0xfeff then rest else text
    | [] => []
  let cs ←
    match Reader.after? "<?xml ".toList cs with
    | some rest => Prolog.declaration (' ' :: rest)
    | none => some cs
  let (b, cs) ← Prolog.misc (cs.length + 1) .empty cs
  let (s, cs) ←
    match Reader.after? "<!DOCTYPE".toList cs with
    | some rest => do
      let (s, rest) ← Prolog.doctype b rest
      let (b, rest) ← Prolog.misc (rest.length + 1) s.builder rest
      some ({ s with builder := b }, rest)
    | none => some (⟨[], b⟩, cs)
  let (b, cs) ← readRoot s.entities total s.builder (Reader.skipSpaces cs)
  let (b, cs) ← Prolog.misc (cs.length + 1) b cs
  if cs.isEmpty then b.finish else none

/-- **Reads a document.** -/
def ofText (text : String) : Option Node :=
  ofChars text.toList

end Node

end XmlConformance.Xml
