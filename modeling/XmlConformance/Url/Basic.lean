/-!
# Url/Basic — the parts of a URL

A URL has a scheme, perhaps an authority, a path and perhaps a query and a fragment. All parts are
held as they are written, that is percent-encoded; `Url.toString` puts them together.
-/

namespace XmlConformance

namespace Url

/-- Why a text is no URL. -/
inductive ParseError where
  | emptyHost
  | invalidDomain
  | invalidCharacter
  | invalidPort
  | invalidIpv4
  | invalidIpv6
  | relativeWithoutBase
  | relativeWithFlatBase
deriving DecidableEq, Repr, Inhabited

def ParseError.message : ParseError → String
  | .emptyHost => "empty host"
  | .invalidDomain => "invalid international domain name"
  | .invalidCharacter => "invalid domain character"
  | .invalidPort => "invalid port number"
  | .invalidIpv4 => "invalid IPv4 address"
  | .invalidIpv6 => "invalid IPv6 address"
  | .relativeWithoutBase => "relative URL without a base"
  | .relativeWithFlatBase => "relative URL with a cannot-be-a-base base"

/-- A host. -/
inductive Host where
  /-- A name, in ASCII; the empty name is that of a local file. -/
  | domain (name : String)
  | ipv4 (address : Nat)
  /-- The eight pieces of an address. -/
  | ipv6 (pieces : List Nat)
deriving DecidableEq, Repr, Inhabited

/-- The part of a URL between `//` and the path. -/
structure Authority where
  user : String
  password : Option String
  host : Host
  port : Option Nat
deriving DecidableEq, Repr, Inhabited

/-- A path: a list of segments, each behind a slash, or a flat text. -/
inductive Path where
  | segments (parts : List String)
  | flat (text : String)
deriving DecidableEq, Repr, Inhabited

end Url

/-- A URL. -/
structure Url where
  scheme : String
  authority : Option Url.Authority
  path : Url.Path
  query : Option String
  fragment : Option String
deriving DecidableEq, Repr, Inhabited

namespace Url

/-- A number below `2 ^ 16` with the fewest hexadecimal digits. -/
def hexPiece (n : Nat) : String :=
  String.ofList (Nat.toDigits 16 n)

/-- The length of the run of zeros at the front. -/
def leadingZeros (pieces : List Nat) : Nat :=
  (pieces.takeWhile (· == 0)).length

/-- Start and length of the first longest run of zeros, from piece `i` on. -/
def longestZeros : Nat → List Nat → Nat × Nat
  | _, [] => (0, 0)
  | i, piece :: rest =>
    let here := leadingZeros (piece :: rest)
    let (start, length) := longestZeros (i + 1) rest
    if here ≥ length && here > 0 then (i, here) else (start, length)

/-- The text of an address; its first longest run of at least two zeros is left out. -/
def ipv6Text (pieces : List Nat) : String :=
  let (start, length) := longestZeros 0 pieces
  if length < 2 then ":".intercalate (pieces.map hexPiece)
  else
    ":".intercalate ((pieces.take start).map hexPiece) ++ "::" ++
      ":".intercalate ((pieces.drop (start + length)).map hexPiece)

def Host.toString : Host → String
  | .domain name => name
  | .ipv4 a =>
    ".".intercalate ([(a >>> 24) % 256, (a >>> 16) % 256, (a >>> 8) % 256, a % 256].map
      fun n => s!"{n}")
  | .ipv6 pieces => "[" ++ ipv6Text pieces ++ "]"

def Authority.toString (a : Authority) : String :=
  let user :=
    match a.user, a.password with
    | "", none => ""
    | user, none => user ++ "@"
    | user, some password => user ++ ":" ++ password ++ "@"
  let port :=
    match a.port with
    | some n => s!":{n}"
    | none => ""
  user ++ a.host.toString ++ port

def Path.toString : Path → String
  | .segments parts => String.join (parts.map ("/" ++ ·))
  | .flat text => text

/-- The text of a URL. A path that begins with two slashes is kept apart from an authority. -/
def toString (u : Url) : String :=
  let authority :=
    match u.authority, u.path with
    | some a, _ => "//" ++ a.toString
    | none, .segments ("" :: _ :: _) => "/."
    | none, _ => ""
  let query :=
    match u.query with
    | some q => "?" ++ q
    | none => ""
  let fragment :=
    match u.fragment with
    | some f => "#" ++ f
    | none => ""
  u.scheme ++ ":" ++ authority ++ u.path.toString ++ query ++ fragment

instance : ToString Url := ⟨toString⟩

/-- The same URL without its fragment. -/
def withoutFragment (u : Url) : Url :=
  { u with fragment := none }

end Url

end XmlConformance
