/-!
# Url/Percent — percent-encoding

Characters that must not stand in some part of a URL are written as the bytes of their encoding,
each as `%` and two digits. Which ASCII characters these are depends on the part; the others always
are.
-/

namespace XmlConformance.Url

/-- A digit of base sixteen, in upper case. -/
def hexDigit (n : Nat) : Char :=
  if n < 10 then Char.ofNat (48 + n) else Char.ofNat (55 + n)

/-- A byte as `%` and two digits. -/
def encodeByte (b : UInt8) : List Char :=
  ['%', hexDigit (b.toNat / 16), hexDigit (b.toNat % 16)]

/-- A character as its bytes, percent-encoded. -/
def encodeChar (c : Char) : List Char :=
  (String.utf8EncodeChar c).flatMap encodeByte

/-- Controls and characters beyond ASCII. -/
def isControlOrBeyond (c : Char) : Bool :=
  c.toNat < 0x20 || c.toNat ≥ 0x7f

/-- A set of characters to be encoded: the controls, the characters beyond ASCII and those given. -/
def setOf (characters : String) : Char → Bool :=
  let listed := characters.toList
  fun c => isControlOrBeyond c || listed.contains c

def inFragment : Char → Bool := setOf " \"<>\x60"
def inQuery : Char → Bool := setOf " \"#<>"
def inSpecialQuery : Char → Bool := setOf " \"#<>'"
def inPath : Char → Bool := setOf " \"<>\x60#?\x7b\x7d"
def inUserinfo : Char → Bool := setOf " \"<>\x60#?\x7b\x7d/:;=@[\\]^|"
def inSegment : Char → Bool := setOf " \"<>\x60#?\x7b\x7d/%\\"

/-- Encodes the characters of a set. -/
def encode (set : Char → Bool) (cs : List Char) : List Char :=
  cs.flatMap fun c => if set c then encodeChar c else [c]

/-- Value of a hexadecimal digit. -/
def hexValue? (c : Char) : Option Nat :=
  if c.isDigit then some (c.toNat - 48)
  else if 'a' ≤ c && c ≤ 'f' then some (c.toNat - 87)
  else if 'A' ≤ c && c ≤ 'F' then some (c.toNat - 55)
  else none

/-- The bytes that a percent-encoded text stands for. -/
def decodeBytes : List Char → List UInt8
  | '%' :: a :: b :: rest =>
    match hexValue? a, hexValue? b with
    | some x, some y => UInt8.ofNat (16 * x + y) :: decodeBytes rest
    | _, _ => '%'.val.toUInt8 :: decodeBytes (a :: b :: rest)
  | c :: rest => String.utf8EncodeChar c ++ decodeBytes rest
  | [] => []

/-- The text that a percent-encoded text stands for, if its bytes encode one. -/
def decode? (cs : List Char) : Option String :=
  String.fromUTF8? (ByteArray.mk (decodeBytes cs).toArray)

end XmlConformance.Url
