import XmlConformance.Text.Case
import XmlConformance.Url.Basic
import XmlConformance.Url.Percent

/-!
# Url/Host — hosts

A host is an address or a domain. Domains are lower case and ASCII; a label with other characters is
written in punycode.
-/

namespace XmlConformance.Url

/-! ## Punycode -/

namespace Punycode

/-- Scales a difference down; the first number bounds the steps. -/
def settle : Nat → Nat → Nat → Nat
  | 0, k, _ => k
  | n + 1, k, delta =>
    if delta > 455 then settle n (k + 36) (delta / 35) else k + 36 * delta / (delta + 38)

/-- The bias of the next number behind a difference. -/
def adapt (delta points : Nat) (first : Bool) : Nat :=
  let delta := if first then delta / 700 else delta / 2
  settle 64 0 (delta + delta / points)

def digit (n : Nat) : Char :=
  if n < 26 then Char.ofNat (97 + n) else Char.ofNat (22 + n)

/-- A number in digits of growing weight; the first number bounds them. -/
def encodeNumber (bias : Nat) : Nat → Nat → Nat → List Char
  | 0, _, _ => []
  | n + 1, q, k =>
    let t := if k ≤ bias then 1 else if k ≥ bias + 26 then 26 else k - bias
    if q < t then [digit q]
    else digit (t + (q - t) % (36 - t)) :: encodeNumber bias n ((q - t) / (36 - t)) (k + 36)

/-- One pass over a label for the next code point. -/
structure State where
  output : List Char
  delta : Nat
  bias : Nat
  handled : Nat

def pass (basic code : Nat) (s : State) (c : Nat) : State :=
  if c < code then { s with delta := s.delta + 1 }
  else if c = code then
    { output := s.output ++ encodeNumber s.bias 64 s.delta 36
      delta := 0
      bias := adapt s.delta (s.handled + 1) (s.handled == basic)
      handled := s.handled + 1 }
  else s

/-- The code points of a label from the least to the greatest. -/
def encodeFrom (label : List Nat) (basic : Nat) : Nat → Nat → State → State
  | 0, _, s => s
  | n + 1, code, s =>
    match ((label.filter (code ≤ ·)).min?) with
    | none => s
    | some next =>
      let s := { s with delta := s.delta + (next - code) * (s.handled + 1) }
      let s := label.foldl (pass basic next) s
      encodeFrom label basic n (next + 1) { s with delta := s.delta + 1 }

/-- A label in punycode, without its mark. -/
def encode (label : List Char) : List Char :=
  let basic := label.filter (·.toNat < 128)
  let front := if basic.isEmpty then [] else basic ++ ['-']
  let s := encodeFrom (label.map (·.toNat)) basic.length label.length 128
    ⟨[], 0, 72, basic.length⟩
  front ++ s.output

end Punycode

/-! ## Domains -/

/-- ASCII characters that no domain holds. -/
def isForbiddenInDomain (c : Char) : Bool :=
  c.toNat ≤ 0x20 || c.toNat == 0x7f || "#/:<>?@[\\]^|%".toList.contains c

/-- ASCII characters that no host holds. -/
def isForbiddenInHost (c : Char) : Bool :=
  [0, 9, 10, 13, 32].contains c.toNat || "#/:<>?@[\\]^|".toList.contains c

/-- Splits at every occurrence of a character. -/
def splitAt (mark : Char) : List Char → List (List Char)
  | [] => [[]]
  | c :: rest =>
    if c == mark then [] :: splitAt mark rest
    else
      match splitAt mark rest with
      | part :: parts => (c :: part) :: parts
      | [] => [[c]]

/-- A label in lower case and ASCII. -/
def asciiLabel (label : List Char) : List Char :=
  let label := (Text.toLower (String.ofList label)).toList
  if label.all (·.toNat < 128) then label else "xn--".toList ++ Punycode.encode label

/-- A domain in lower case and ASCII. -/
def asciiDomain (cs : List Char) : Except ParseError (List Char) :=
  let domain := ['.'].intercalate ((splitAt '.' cs).map asciiLabel)
  if domain.any isForbiddenInDomain then .error .invalidDomain
  else if domain.isEmpty then .error .emptyHost
  else .ok domain

/-! ## Addresses of four bytes -/

/-- A number of an address: hexadecimal behind `0x`, octal behind `0`. -/
def ipv4Number? (cs : List Char) : Option Nat :=
  let read (base : Nat) (digits : List Char) : Option Nat :=
    digits.foldl (fun n c => do
      let n ← n
      let d ← hexValue? c
      if d < base then some (base * n + d) else none) (some 0)
  match cs with
  | [] => none
  | ['0'] => some 0
  | '0' :: 'x' :: digits | '0' :: 'X' :: digits => read 16 digits
  | '0' :: digits => read 8 digits
  | digits => read 10 digits

/-- Whether a domain has to be read as an address, because its last label is a number. -/
def endsInNumber (cs : List Char) : Bool :=
  let parts := splitAt '.' cs
  let parts := if parts.getLast? == some [] && parts.length > 1 then parts.dropLast else parts
  match parts.getLast? with
  | some last =>
    (!last.isEmpty && last.all Char.isDigit) ||
      (match last with
        | '0' :: 'x' :: _ | '0' :: 'X' :: _ => (ipv4Number? last).isSome
        | _ => false)
  | none => false

/-- An address of up to four numbers, the last of which fills the bytes that are left. -/
def ipv4? (cs : List Char) : Option Nat := do
  let parts := splitAt '.' cs
  let parts := if parts.getLast? == some [] && parts.length > 1 then parts.dropLast else parts
  if parts.length > 4 then none
  else
    let numbers ← parts.mapM ipv4Number?
    let last ← numbers.getLast?
    let front := numbers.dropLast
    if front.any (· > 255) || last ≥ Nat.pow 256 (5 - numbers.length) then none
    else
      some (front.zipIdx.foldl (fun sum (n, i) => sum + n * Nat.pow 256 (3 - i)) last)

/-! ## Addresses of eight pieces -/

/-- Pieces of an address between colons; the last may be an address of four bytes. -/
def ipv6Pieces? (cs : List Char) : Option (List Nat) :=
  if cs.isEmpty then some []
  else
    let parts := splitAt ':' cs
    let piece (part : List Char) : Option Nat :=
      if part.isEmpty || part.length > 4 then none
      else part.foldl (fun n c => do return 16 * (← n) + (← hexValue? c)) (some 0)
    match parts.getLast? with
    | none => none
    | some last =>
      if last.contains '.' then do
        let front ← parts.dropLast.mapM piece
        let bytes ← (splitAt '.' last).mapM fun b =>
          if b.isEmpty || !b.all Char.isDigit || (b.length > 1 && b.head? == some '0') then none
          else (String.ofList b).toNat?
        match bytes with
        | [a, b, c, d] =>
          if bytes.any (· > 255) then none else some (front ++ [256 * a + b, 256 * c + d])
        | _ => none
      else parts.mapM piece

/-- The two sides of the first double colon. -/
def splitDoubleColon : List Char → Option (List Char × List Char)
  | ':' :: ':' :: rest => some ([], rest)
  | c :: rest => (splitDoubleColon rest).map fun (a, b) => (c :: a, b)
  | [] => none

/-- The pieces of an address; a double colon stands for as many zeros as are missing. -/
def ipv6? (cs : List Char) : Option (List Nat) := do
  match splitDoubleColon cs with
  | none =>
    let pieces ← ipv6Pieces? cs
    if pieces.length = 8 then some pieces else none
  | some (a, b) =>
    let front ← ipv6Pieces? a
    let back ← ipv6Pieces? b
    let count := front.length + back.length
    if count ≤ 7 then some (front ++ List.replicate (8 - count) 0 ++ back) else none

/-! ## Hosts -/

/-- An address in brackets. -/
def bracketed? (cs : List Char) : Except ParseError Host :=
  match cs.reverse with
  | ']' :: inner =>
    match ipv6? inner.reverse with
    | some pieces => .ok (.ipv6 pieces)
    | none => .error .invalidIpv6
  | _ => .error .invalidIpv6

/-- The host of a URL with a well-known scheme. -/
def Host.ofChars (cs : List Char) : Except ParseError Host :=
  match cs with
  | '[' :: rest => bracketed? rest
  | _ => do
    let decoded := (decode? cs).getD (String.ofList cs)
    let domain ← asciiDomain decoded.toList
    if endsInNumber domain then
      match ipv4? domain with
      | some address => return .ipv4 address
      | none => throw .invalidIpv4
    else return .domain (String.ofList domain)

/-- The host of a URL with any other scheme. -/
def Host.ofOtherChars (cs : List Char) : Except ParseError Host :=
  match cs with
  | '[' :: rest => bracketed? rest
  | _ =>
    if cs.any isForbiddenInHost then .error .invalidCharacter
    else .ok (.domain (String.ofList (encode isControlOrBeyond cs)))

end XmlConformance.Url
