import XmlConformance.Url.Host

/-!
# Url/Parser — reading URLs, alone or against a base

`Url.ofText` reads an absolute URL and `Url.join` a reference against a base. The well-known schemes
need a host, treat a backslash like a slash, and always have a path; the scheme `file` has rules of
its own for hosts and drive letters. A path is cleared of its dot segments while it is read.
-/

namespace XmlConformance.Url

/-- The families of schemes. -/
inductive SchemeKind where
  | file
  /-- A well-known scheme, with its usual port. -/
  | special (port : Nat)
  | other
deriving DecidableEq, Repr, Inhabited

def SchemeKind.ofName : String → SchemeKind
  | "file" => .file
  | "http" | "ws" => .special 80
  | "https" | "wss" => .special 443
  | "ftp" => .special 21
  | _ => .other

def SchemeKind.isSpecial : SchemeKind → Bool
  | .other => false
  | _ => true

/-- The kind of the scheme of a URL. -/
def kind (u : Url) : SchemeKind :=
  .ofName u.scheme

/-- The segments of a path. -/
def segments (u : Url) : List String :=
  match u.path with
  | .segments parts => parts
  | .flat _ => []

namespace Reader

/-- Removes what surrounds a URL, and line ends and tabs inside it. -/
def clean (cs : List Char) : List Char :=
  let trimmed := cs.dropWhile (·.toNat ≤ 0x20)
  let trimmed := (trimmed.reverse.dropWhile (·.toNat ≤ 0x20)).reverse
  trimmed.filter fun c => !(c == '\t' || c == '\n' || c == '\r')

/-- A scheme with its colon. -/
def scheme? (cs : List Char) : Option (String × List Char) :=
  let isSchemeChar (c : Char) := c.isAlphanum || c == '+' || c == '-' || c == '.'
  match cs with
  | c :: _ =>
    if c.isAlpha then
      match cs.dropWhile isSchemeChar with
      | ':' :: rest =>
        some (String.ofList ((cs.takeWhile isSchemeChar).map Char.toLower), rest)
      | _ => none
    else none
  | [] => none

/-- Whether a character separates the segments of a path. -/
def isSlash (special : Bool) (c : Char) : Bool :=
  c == '/' || (special && c == '\\')

/-- Whether a character ends a path. -/
def endsPath (c : Char) : Bool :=
  c == '?' || c == '#'

/-! ## Paths -/

def isSingleDot (s : String) : Bool :=
  s == "." || s.toLower == "%2e"

def isDoubleDot (s : String) : Bool :=
  s == ".." || s.toLower == ".%2e" || s.toLower == "%2e." || s.toLower == "%2e%2e"

/-- A letter with a colon or bar. -/
def isDriveLetter (s : String) : Bool :=
  match s.toList with
  | [a, b] => a.isAlpha && (b == ':' || b == '|')
  | _ => false

/-- A letter with a colon. -/
def isNormalDriveLetter (s : String) : Bool :=
  match s.toList with
  | [a, b] => a.isAlpha && b == ':'
  | _ => false

/-- Removes the last segment; the drive of a file stays. -/
def shorten (kind : SchemeKind) (parts : List String) : List String :=
  match kind, parts with
  | .file, [drive] => if isNormalDriveLetter drive then parts else []
  | _, _ => parts.dropLast

/-- Appends a segment, or does what a dot segment asks for. `last` says that no slash follows. -/
def addSegment (kind : SchemeKind) (parts : List String) (segment : String) (last : Bool) :
    List String :=
  if isDoubleDot segment then
    let parts := shorten kind parts
    if last then parts ++ [""] else parts
  else if isSingleDot segment then if last then parts ++ [""] else parts
  else if kind == .file && parts.isEmpty && isDriveLetter segment then
    [String.ofList (segment.toList.take 1) ++ ":"]
  else parts ++ [segment]

/-- The pieces of a path between its slashes. -/
def pieces (special : Bool) : List Char → List (List Char)
  | [] => [[]]
  | c :: rest =>
    if isSlash special c then [] :: pieces special rest
    else
      match pieces special rest with
      | part :: parts => (c :: part) :: parts
      | [] => [[c]]

/-- Appends the pieces of a path. -/
def addPieces (kind : SchemeKind) : List String → List (List Char) → List String
  | parts, [] => parts
  | parts, [piece] => addSegment kind parts (String.ofList (encode inPath piece)) true
  | parts, piece :: rest =>
    addPieces kind (addSegment kind parts (String.ofList (encode inPath piece)) false) rest

/-- The path of a file has no empty segments in front. -/
def dropEmptyFront : List String → List String
  | "" :: part :: rest => dropEmptyFront (part :: rest)
  | parts => parts

/-- Reads a path behind its first slash, on top of some segments. -/
def path (kind : SchemeKind) (parts : List String) (cs : List Char) : List String × List Char :=
  let read := addPieces kind parts (pieces kind.isSpecial (cs.takeWhile (!endsPath ·)))
  (if kind == .file then dropEmptyFront read else read, cs.dropWhile (!endsPath ·))

/-- Reads a path that may be missing. -/
def pathStart (kind : SchemeKind) (cs : List Char) : List String × List Char :=
  match cs with
  | c :: rest =>
    if isSlash kind.isSpecial c then path kind [] rest
    else if kind.isSpecial then path kind [] cs
    else ([], cs)
  | [] => if kind.isSpecial then ([""], []) else ([], [])

/-! ## Query and fragment -/

/-- Completes a URL with the query and the fragment at its end. -/
def finish (u : Url) (cs : List Char) : Url :=
  let fragment (cs : List Char) : Option String :=
    match cs with
    | '#' :: rest => some (String.ofList (encode inFragment rest))
    | _ => none
  match cs with
  | '?' :: rest =>
    let set := if u.kind.isSpecial then inSpecialQuery else inQuery
    { u with
      query := some (String.ofList (encode set (rest.takeWhile (· != '#'))))
      fragment := fragment (rest.dropWhile (· != '#')) }
  | _ => { u with query := none, fragment := fragment cs }

/-! ## Authorities -/

/-- Whether a character ends an authority. -/
def endsAuthority (special : Bool) (c : Char) : Bool :=
  c == '/' || c == '?' || c == '#' || (special && c == '\\')

/-- The part in front of the last `@`, and the part behind it. -/
def splitLastAt (cs : List Char) : Option (List Char × List Char) :=
  let reversed := cs.reverse
  match reversed.dropWhile (· != '@') with
  | _ :: front => some (front.reverse, (reversed.takeWhile (· != '@')).reverse)
  | [] => none

/-- A host in front of its port; a colon inside brackets belongs to the host. -/
def splitHost : Bool → List Char → List Char × List Char
  | _, [] => ([], [])
  | inside, c :: rest =>
    if c == ':' && !inside then ([], c :: rest)
    else
      let inside := if c == '[' then true else if c == ']' then false else inside
      let (host, behind) := splitHost inside rest
      (c :: host, behind)

/-- A port behind its colon; the usual port of the scheme is left out. -/
def port (kind : SchemeKind) (cs : List Char) : Except ParseError (Option Nat) :=
  if cs.isEmpty then .ok none
  else if !cs.all Char.isDigit then .error .invalidPort
  else
    match (String.ofList cs).toNat? with
    | some n =>
      if n > 65535 then .error .invalidPort
      else if kind == .special n then .ok none
      else .ok (some n)
    | none => .error .invalidPort

/-- Reads an authority behind its slashes. -/
def authority (kind : SchemeKind) (cs : List Char) : Except ParseError (Authority × List Char) := do
  let special := kind.isSpecial
  let text := cs.takeWhile (!endsAuthority special ·)
  let behind := cs.dropWhile (!endsAuthority special ·)
  let userinfo := splitLastAt text
  let hostPort := (userinfo.map (·.2)).getD text
  let user := (userinfo.map (·.1)).getD []
  if userinfo.isSome && hostPort.isEmpty then throw .emptyHost
  let (hostText, portText) := splitHost false hostPort
  if special && hostText.isEmpty then throw .emptyHost
  let host ← if special then Host.ofChars hostText else Host.ofOtherChars hostText
  if hostText.isEmpty && !(portText.isEmpty && user.isEmpty) then throw .emptyHost
  let portNumber ← port kind (portText.drop 1)
  let name := user.takeWhile (· != ':')
  let secret := (user.dropWhile (· != ':')).drop 1
  return (⟨String.ofList (encode inUserinfo name),
    if secret.isEmpty then none else some (String.ofList (encode inUserinfo secret)),
    host, portNumber⟩, behind)

/-- Reads what follows the slashes of an authority. -/
def behindSlashes (scheme : String) (cs : List Char) : Except ParseError Url := do
  let kind := SchemeKind.ofName scheme
  let (a, rest) ← authority kind cs
  let (parts, rest) := pathStart kind rest
  return finish ⟨scheme, some a, .segments parts, none, none⟩ rest

/-! ## Files -/

/-- The authority of a local file. -/
def localAuthority : Authority := ⟨"", none, .domain "", none⟩

/-- A file on a host, or on none. -/
def fileAt (host : Host) (parts : List String) (rest : List Char) : Url :=
  finish ⟨"file", some { localAuthority with host := host }, .segments parts, none, none⟩ rest

/-- Whether a text begins with a drive letter as a segment of its own. -/
def startsWithDrive (cs : List Char) : Bool :=
  match cs with
  | a :: b :: rest =>
    isDriveLetter (String.ofList [a, b]) &&
      (match rest with
        | c :: _ => c == '/' || c == '\\' || endsPath c
        | [] => true)
  | _ => false

/-- Reads a file reference behind two slashes. -/
def fileHost (cs : List Char) : Except ParseError Url := do
  let text := cs.takeWhile (!endsAuthority true ·)
  let behind := cs.dropWhile (!endsAuthority true ·)
  if isDriveLetter (String.ofList text) then
    let (parts, rest) := path .file [] cs
    return fileAt (.domain "") parts rest
  else
    let host ←
      if text.isEmpty then pure (Host.domain "")
      else
        match ← Host.ofChars text with
        | .domain "localhost" => pure (Host.domain "")
        | host => pure host
    let (parts, rest) := pathStart .file behind
    let host := if (parts.head?.map isNormalDriveLetter).getD false then .domain "" else host
    return fileAt host parts rest

/-- The host of a file. -/
def hostOf (u : Url) : Host :=
  (u.authority.map (·.host)).getD (.domain "")

/-- Reads a file reference behind a single slash; it stays on the drive or host of the base. -/
def fileFromRoot (base : Option Url) (rest : List Char) : Url :=
  let base := if startsWithDrive rest then none else base
  let drive :=
    match base.map segments with
    | some (first :: _) => if isNormalDriveLetter first then [first] else []
    | _ => []
  let host :=
    match base with
    | some b => if drive.isEmpty then hostOf b else .domain ""
    | none => .domain ""
  let (parts, rest) := path .file drive rest
  fileAt host parts rest

/-- Reads a file reference. -/
def file (base : Option Url) (cs : List Char) : Except ParseError Url :=
  match cs with
  | c :: rest =>
    if isSlash true c then
      match rest with
      | d :: behind =>
        if isSlash true d then fileHost behind else .ok (fileFromRoot base rest)
      | [] => .ok (fileFromRoot base rest)
    else
      match base with
      | some b =>
        if c == '?' then .ok (finish { b with query := none, fragment := none } cs)
        else if c == '#' then
          .ok { finish { b with fragment := none } cs with query := b.query }
        else if startsWithDrive cs then
          let (parts, rest) := path .file [] cs
          .ok (fileAt (.domain "") parts rest)
        else
          let (parts, rest) := path .file (shorten .file b.segments) cs
          .ok (fileAt (hostOf b) parts rest)
      | none =>
        let (parts, rest) := path .file [] cs
        .ok (fileAt (.domain "") parts rest)
  | [] =>
    match base with
    | some b => .ok b.withoutFragment
    | none => .ok (fileAt (.domain "") [""] [])

/-! ## References -/

/-- Reads a reference without a scheme against a base that is no file. -/
def relative (b : Url) (cs : List Char) : Except ParseError Url :=
  let special := b.kind.isSpecial
  match cs with
  | [] => .ok b.withoutFragment
  | '?' :: _ => .ok (finish { b with query := none, fragment := none } cs)
  | '#' :: _ => .ok { finish { b with fragment := none } cs with query := b.query }
  | c :: rest =>
    if isSlash special c then
      match rest with
      | d :: behind =>
        if isSlash special d then
          behindSlashes b.scheme (if special then behind.dropWhile (isSlash special) else behind)
        else
          let (parts, rest) := path b.kind [] rest
          .ok (finish { b with path := .segments parts } rest)
      | [] => .ok (finish { b with path := .segments [""] } [])
    else
      let (parts, rest) := path b.kind b.segments.dropLast cs
      .ok (finish { b with path := .segments parts } rest)

/-- Reads what follows a scheme. -/
def behindScheme (base : Option Url) (scheme : String) (cs : List Char) : Except ParseError Url :=
  match SchemeKind.ofName scheme with
  | .file => file (base.filter (·.scheme == "file")) cs
  | .special _ =>
    let slashes := (cs.takeWhile (isSlash true)).length
    match base.filter (·.scheme == scheme) with
    | some b => if slashes < 2 then relative b cs else behindSlashes scheme (cs.drop slashes)
    | none => behindSlashes scheme (cs.drop slashes)
  | .other =>
    match cs with
    | '/' :: '/' :: rest => behindSlashes scheme rest
    | '/' :: rest =>
      let (parts, rest) := path .other [] rest
      .ok (finish ⟨scheme, none, .segments parts, none, none⟩ rest)
    | _ =>
      let flat := encode isControlOrBeyond (cs.takeWhile (!endsPath ·))
      .ok (finish ⟨scheme, none, .flat (String.ofList flat), none, none⟩
        (cs.dropWhile (!endsPath ·)))

/-- Reads a URL, against a base if there is one. -/
def read (base : Option Url) (text : String) : Except ParseError Url :=
  let cs := clean text.toList
  match scheme? cs with
  | some (scheme, rest) => behindScheme base scheme rest
  | none =>
    match base with
    | none => .error .relativeWithoutBase
    | some b =>
      match cs, b.path with
      | '#' :: _, _ => .ok { finish { b with fragment := none } cs with query := b.query }
      | _, .flat _ => .error .relativeWithFlatBase
      | _, _ => if b.scheme == "file" then file (some b) cs else relative b cs

end Reader

/-- Reads an absolute URL. -/
def ofText (text : String) : Except ParseError Url :=
  Reader.read none text

/-- Reads a reference against a base. -/
def join (base : Url) (reference : String) : Except ParseError Url :=
  Reader.read (some base) reference

/-! ## Files on disk -/

/-- The file that a URL names: absolute, and on this host. -/
def toFilePath? (u : Url) : Option String :=
  let onThisHost :=
    match u.authority with
    | some a => a.host == .domain "" || a.host == .domain "localhost"
    | none => true
  match u.path with
  | .segments parts =>
    if onThisHost && !parts.isEmpty then decode? (String.join (parts.map ("/" ++ ·))).toList
    else none
  | .flat _ => none

/-- The URL of a file given by an absolute path. -/
def ofFilePath? (path : String) : Option Url :=
  match path.toList with
  | '/' :: _ =>
    let parts := (path.splitOn "/").filter fun p => !(p.isEmpty || p == ".")
    let parts := parts.map fun p => String.ofList (encode inSegment p.toList)
    let parts := if parts.isEmpty then [""] else parts
    some ⟨"file", some Reader.localAuthority, .segments parts, none, none⟩
  | _ => none

end XmlConformance.Url
