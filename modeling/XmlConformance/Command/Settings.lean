/-!
# Command/Settings — configuration files

A configuration file may name a schema and a phase. It consists of lines with a key, an equals sign
and a text in quotes; everything else that its notation allows is refused, because there are no
other keys and no other kinds of values. A text in double quotes has escapes, one in single quotes
has none, and with three quotes a text may go over several lines.
-/

namespace XmlConformance.Command

/-- What a configuration file sets. -/
structure Settings where
  schema : Option String := none
  phase : Option String := none
deriving DecidableEq, Repr, Inhabited

namespace Settings

/-- Reads something off the front of a text. -/
abbrev Read (α : Type) := List Char → Option (α × List Char)

/-- Characters that may not stand in a configuration file. -/
def isForbidden (c : Char) : Bool :=
  (c.toNat < 0x20 && c != '\t') || c.toNat == 0x7f

def isSpace (c : Char) : Bool := c == ' ' || c == '\t'

/-- The rest behind spaces and tabs. -/
def skipSpace (cs : List Char) : List Char := cs.dropWhile isSpace

/-- The rest behind a line break. -/
def newline? : List Char → Option (List Char)
  | '\n' :: rest => some rest
  | '\r' :: '\n' :: rest => some rest
  | _ => none

/-! ## Texts in quotes -/

def hexDigit? (c : Char) : Option Nat :=
  if c.isDigit then some (c.toNat - 48)
  else if 'a' ≤ c && c ≤ 'f' then some (c.toNat - 87)
  else if 'A' ≤ c && c ≤ 'F' then some (c.toNat - 55)
  else none

/-- The character whose code point is written with a number of digits. -/
def codePoint (count : Nat) : Read Char := fun cs => do
  let digits := cs.take count
  if digits.length < count then none
  else
    let values ← digits.mapM hexDigit?
    let n := values.foldl (fun n d => 16 * n + d) 0
    if n.isValidChar then some (Char.ofNat n, cs.drop count) else none

/-- The character that an escape stands for. -/
def escape : Read Char
  | 'b' :: rest => some ('\x08', rest)
  | 't' :: rest => some ('\t', rest)
  | 'n' :: rest => some ('\n', rest)
  | 'f' :: rest => some ('\x0c', rest)
  | 'r' :: rest => some ('\r', rest)
  | 'e' :: rest => some ('\x1b', rest)
  | '\"' :: rest => some ('\"', rest)
  | '\\' :: rest => some ('\\', rest)
  | 'x' :: rest => codePoint 2 rest
  | 'u' :: rest => codePoint 4 rest
  | 'U' :: rest => codePoint 8 rest
  | _ => none

/-- The rest behind an escaped line break and all space around it. -/
def foldedLine? (cs : List Char) : Option (List Char) :=
  (newline? (skipSpace cs)).map fun rest =>
    rest.dropWhile fun c => isSpace c || c == '\n' || c == '\r'

/-- Characters up to a quote, on one line. The number bounds the steps. -/
def lineText (quote : Char) (escapes : Bool) : Nat → List Char → Read String
  | 0, _, _ => none
  | _ + 1, _, [] => none
  | steps + 1, found, c :: rest =>
    if c == quote then some (String.ofList found.reverse, rest)
    else if c == '\\' && escapes then
      match escape rest with
      | some (e, rest) => lineText quote escapes steps (e :: found) rest
      | none => none
    else if isForbidden c then none
    else lineText quote escapes steps (c :: found) rest

/-- Characters up to three quotes, over any number of lines. Up to two quotes in front of these
belong to the text. The number bounds the steps. -/
def blockText (quote : Char) (escapes : Bool) : Nat → List Char → Read String
  | 0, _, _ => none
  | _ + 1, _, [] => none
  | steps + 1, found, c :: rest =>
    if c == quote then
      let quotes := (c :: rest).takeWhile (· == quote)
      if quotes.length < 3 then blockText quote escapes steps (c :: found) rest
      else
        let inner := min (quotes.length - 3) 2
        some (String.ofList ((quotes.take inner) ++ found).reverse, (c :: rest).drop (inner + 3))
    else if c == '\\' && escapes then
      match foldedLine? rest with
      | some rest => blockText quote escapes steps found rest
      | none =>
        match escape rest with
        | some (e, rest) => blockText quote escapes steps (e :: found) rest
        | none => none
    else
      match newline? (c :: rest) with
      | some rest => blockText quote escapes steps ('\n' :: found) rest
      | none =>
        if isForbidden c then none else blockText quote escapes steps (c :: found) rest

/-- A text in quotes. -/
def quotedText (blocks : Bool) : Read String
  | q :: rest =>
    if q == '\"' || q == '\'' then
      let steps := rest.length + 1
      match rest with
      | q' :: q'' :: body =>
        if blocks && q' == q && q'' == q then
          blockText q (q == '\"') steps [] ((newline? body).getD body)
        else lineText q (q == '\"') steps [] rest
      | _ => lineText q (q == '\"') steps [] rest
    else none
  | [] => none

/-! ## Lines -/

/-- A key, with or without quotes. -/
def key : Read String := fun cs =>
  let isBare (c : Char) : Bool := c.isAlphanum || c == '_' || c == '-'
  match cs.takeWhile isBare with
  | [] => quotedText false cs
  | bare => some (String.ofList bare, cs.dropWhile isBare)

/-- The rest behind the end of a line, in front of which there may be a comment. -/
def endOfLine (cs : List Char) : Option (List Char) :=
  let cs :=
    match skipSpace cs with
    | '#' :: comment => comment.dropWhile fun c => !isForbidden c
    | cs => cs
  match cs with
  | [] => some []
  | cs => newline? cs

/-- Sets a key, which can be done once only. -/
def set (s : Settings) (key value : String) : Option Settings :=
  match key with
  | "schema" => if s.schema.isSome then none else some { s with schema := some value }
  | "phase" => if s.phase.isSome then none else some { s with phase := some value }
  | _ => none

/-- Reads a line with a key and a value. -/
def assignment (s : Settings) (cs : List Char) : Option (Settings × List Char) := do
  let (k, rest) ← key cs
  match skipSpace rest with
  | '=' :: rest =>
    let (v, rest) ← quotedText true (skipSpace rest)
    let s ← s.set k v
    return (s, ← endOfLine rest)
  | _ => none

/-- Reads lines. The number bounds how many. -/
def lines : Nat → Settings → List Char → Option Settings
  | _, s, [] => some s
  | 0, _, _ => none
  | steps + 1, s, cs =>
    match endOfLine cs with
    | some rest => lines steps s rest
    | none =>
      match assignment s (skipSpace cs) with
      | some (s, rest) => lines steps s rest
      | none => none

/-- **Reads a configuration file.** -/
def ofText? (text : String) : Option Settings :=
  let cs :=
    match text.toList with
    | '\ufeff' :: rest => rest
    | cs => cs
  lines (cs.length + 1) {} cs

end Settings

end XmlConformance.Command
