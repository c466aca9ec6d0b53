import XmlConformance.Schema.Component

/-!
# Schema/Builtin — the built-in simple types

Each built-in type has a lexical form, which the regular expression `lexical?` describes, and a way
to normalize white space. The integer types have bounds as well.
-/

namespace XmlConformance.Schema

/-- A built-in simple type. -/
inductive Builtin where
  | anySimpleType
  | string
  | normalizedString
  | token
  | language
  | name
  | ncName
  | id
  | idRef
  | idRefs
  | entity
  | entities
  | nmToken
  | nmTokens
  | qName
  | notationName
  | anyUri
  | boolean
  | decimal
  | integer
  | nonNegativeInteger
  | positiveInteger
  | nonPositiveInteger
  | negativeInteger
  | long
  | int
  | short
  | byte
  | unsignedLong
  | unsignedInt
  | unsignedShort
  | unsignedByte
  | double
  | float
  | date
  | dateTime
  | time
  | gYear
  | gYearMonth
  | gMonth
  | gDay
  | gMonthDay
  | duration
  | hexBinary
  | base64Binary
deriving DecidableEq, Repr, Inhabited

/-! ## Lexical forms -/

namespace Lexical

open Regex

def char (c : Char) : Regex := .chars (.single c)

/-- A row of characters. -/
def literal (s : String) : Regex :=
  s.toList.foldr (fun c r => .seq (char c) r) .empty

/-- One of some characters. -/
def oneOf (s : String) : Regex :=
  .chars (s.toList.foldr (fun c set => .union (.single c) set) .empty)

def run (first last : Char) : Regex := .chars (.run first last)

def optional (r : Regex) : Regex := .repeated r 0 (some 1)

def many (r : Regex) : Regex := .repeated r 0 none

def atLeastOnce (r : Regex) : Regex := .repeated r 1 none

def row (rs : List Regex) : Regex := rs.foldr .seq .empty

/-- One of several expressions. -/
def choice (r : Regex) (rs : List Regex) : Regex := rs.foldl .alt r

/-- A decimal digit of any script. -/
def digit : Regex := .chars (.property (.category .decimalNumber))

def digits (n : Nat) : Regex := .repeated digit n (some n)

def optionalSign : Regex := optional (oneOf "+-")

def letters : CharSet := .property .letter

/-- The characters that names may go on with, apart from the colon. -/
def nameRest : CharSet :=
  .union letters (.union (.property .number)
    ("._-\u00b7".toList.foldr (fun c set => .union (.single c) set) .empty))

def ncName : Regex :=
  .seq (.chars (.union letters (.single '_'))) (many (.chars nameRest))

def name : Regex :=
  .seq (.chars (.union letters (.union (.single '_') (.single ':'))))
    (many (.chars (.union nameRest (.single ':'))))

def nmToken : Regex := atLeastOnce (.chars (.union nameRest (.single ':')))

def qName : Regex := .seq (optional (.seq ncName (char ':'))) ncName

def asciiLetter : CharSet := .union (.run 'a' 'z') (.run 'A' 'Z')

def language : Regex :=
  .seq (.repeated (.chars asciiLetter) 1 (some 8))
    (many (.seq (char '-')
      (.repeated (.chars (.union asciiLetter (.run '0' '9'))) 1 (some 8))))

def boolean : Regex := choice (literal "true") [literal "false", literal "1", literal "0"]

/-- Digits with at most one point. -/
def unsignedDecimal : Regex :=
  .alt (.seq (atLeastOnce digit) (optional (.seq (char '.') (many digit))))
    (.seq (char '.') (atLeastOnce digit))

def decimal : Regex := .seq optionalSign unsignedDecimal

def integer : Regex := .seq optionalSign (atLeastOnce digit)

def double : Regex :=
  let exponent := row [oneOf "eE", optionalSign, atLeastOnce digit]
  choice (row [optionalSign, unsignedDecimal, optional exponent])
    [literal "INF", literal "-INF", literal "NaN"]

def timezone : Regex :=
  optional (.alt (char 'Z') (row [oneOf "+-", digits 2, char ':', digits 2]))

def year : Regex := .seq (optional (char '-')) (.repeated digit 4 none)

def month : Regex := .alt (.seq (char '0') (run '1' '9')) (.seq (char '1') (run '0' '2'))

def day : Regex :=
  choice (.seq (char '0') (run '1' '9'))
    [.seq (oneOf "12") digit, .seq (char '3') (oneOf "01")]

def date : Regex := row [year, char '-', month, char '-', day]

def time : Regex :=
  let hour := Regex.alt (.seq (oneOf "01") digit) (.seq (char '2') (run '0' '3'))
  let sixtieth := Regex.seq (run '0' '5') digit
  row [hour, char ':', sixtieth, char ':', sixtieth, optional (.seq (char '.') (atLeastOnce digit))]

def duration : Regex :=
  let part (mark : Char) : Regex := optional (.seq (atLeastOnce digit) (char mark))
  let fraction := Regex.seq (char '.') (atLeastOnce digit)
  let seconds := optional (row [atLeastOnce digit, optional fraction, char 'S'])
  row [optional (char '-'), char 'P', part 'Y', part 'M', part 'D',
    optional (row [char 'T', part 'H', part 'M', seconds])]

def hexBinary : Regex :=
  let hex := Regex.chars (.union (.run '0' '9') (.union (.run 'a' 'f') (.run 'A' 'F')))
  many (.seq hex hex)

def base64Binary : Regex :=
  many (.chars (.union asciiLetter (.union (.run '0' '9')
    ("+/= ".toList.foldr (fun c set => .union (.single c) set) .empty))))

/-- Nothing but what an expression matches. -/
def whole (r : Regex) : Regex := .seq (.look .start) (.seq r (.look .finish))

end Lexical

namespace Builtin

/-- The built-in types by name. -/
def names : List (String × Builtin) :=
  [("anySimpleType", .anySimpleType), ("anyAtomicType", .anySimpleType), ("string", .string),
   ("normalizedString", .normalizedString), ("token", .token), ("language", .language),
   ("Name", .name), ("NCName", .ncName), ("ID", .id), ("IDREF", .idRef), ("IDREFS", .idRefs),
   ("ENTITY", .entity), ("ENTITIES", .entities), ("NMTOKEN", .nmToken), ("NMTOKENS", .nmTokens),
   ("QName", .qName), ("NOTATION", .notationName), ("anyURI", .anyUri), ("boolean", .boolean),
   ("decimal", .decimal), ("integer", .integer), ("nonNegativeInteger", .nonNegativeInteger),
   ("positiveInteger", .positiveInteger), ("nonPositiveInteger", .nonPositiveInteger),
   ("negativeInteger", .negativeInteger), ("long", .long), ("int", .int), ("short", .short),
   ("byte", .byte), ("unsignedLong", .unsignedLong), ("unsignedInt", .unsignedInt),
   ("unsignedShort", .unsignedShort), ("unsignedByte", .unsignedByte), ("double", .double),
   ("float", .float), ("date", .date), ("dateTime", .dateTime), ("time", .time),
   ("gYear", .gYear), ("gYearMonth", .gYearMonth), ("gMonth", .gMonth), ("gDay", .gDay),
   ("gMonthDay", .gMonthDay), ("duration", .duration), ("hexBinary", .hexBinary),
   ("base64Binary", .base64Binary)]

/-- The built-in type with a name. -/
def ofName? (localName : String) : Option Builtin := names.lookup localName

/-- How a type normalizes white space. -/
def whiteSpace : Builtin → WhiteSpace
  | .string | .anySimpleType => .preserve
  | .normalizedString => .replace
  | _ => .collapse

/-- The type of the items, for a type of lists. -/
def item? : Builtin → Option Builtin
  | .idRefs => some .idRef
  | .entities => some .entity
  | .nmTokens => some .nmToken
  | _ => none

/-- The least and the greatest value of a type of integers, as far as there are any. -/
def bounds? : Builtin → Option (Option Int × Option Int)
  | .integer => some (none, none)
  | .nonNegativeInteger => some (some 0, none)
  | .positiveInteger => some (some 1, none)
  | .nonPositiveInteger => some (none, some 0)
  | .negativeInteger => some (none, some (-1))
  | .long => some (some (-9223372036854775808), some 9223372036854775807)
  | .int => some (some (-2147483648), some 2147483647)
  | .short => some (some (-32768), some 32767)
  | .byte => some (some (-128), some 127)
  | .unsignedLong => some (some 0, some 18446744073709551615)
  | .unsignedInt => some (some 0, some 4294967295)
  | .unsignedShort => some (some 0, some 65535)
  | .unsignedByte => some (some 0, some 255)
  | _ => none

/-- Whether values are compared as numbers. -/
def isNumeric (b : Builtin) : Bool :=
  b == .decimal || b == .double || b == .float || b.bounds?.isSome

/-- The lexical form of a type; types without one admit any text. -/
def lexical? (b : Builtin) : Option Regex :=
  match b with
  | .language => some Lexical.language
  | .name => some Lexical.name
  | .ncName | .id | .idRef | .entity => some Lexical.ncName
  | .nmToken => some Lexical.nmToken
  | .qName | .notationName => some Lexical.qName
  | .boolean => some Lexical.boolean
  | .decimal => some Lexical.decimal
  | .double | .float => some Lexical.double
  | .date => some (.seq Lexical.date Lexical.timezone)
  | .dateTime =>
    some (Lexical.row [Lexical.date, Lexical.char 'T', Lexical.time, Lexical.timezone])
  | .time => some (.seq Lexical.time Lexical.timezone)
  | .gYear => some (.seq Lexical.year Lexical.timezone)
  | .gYearMonth =>
    some (Lexical.row [Lexical.year, Lexical.char '-', Lexical.month, Lexical.timezone])
  | .gMonth => some (Lexical.row [Lexical.literal "--", Lexical.month, Lexical.timezone])
  | .gDay => some (Lexical.row [Lexical.literal "---", Lexical.day, Lexical.timezone])
  | .gMonthDay =>
    some (Lexical.row [Lexical.literal "--", Lexical.month, Lexical.char '-', Lexical.day,
      Lexical.timezone])
  | .duration => some Lexical.duration
  | .hexBinary => some Lexical.hexBinary
  | .base64Binary => some Lexical.base64Binary
  | b => if b.bounds?.isSome then some Lexical.integer else none

/-- The greatest size of the integers that are read for a comparison with bounds. -/
def integerLimit : Nat := Nat.pow 2 127

/-- The integer that a text with a sign and digits stands for, unless it is too large. -/
def integer? (value : String) : Option Int :=
  let cs := value.toList.dropWhile (· == '+')
  let (negative, digits) :=
    match cs with
    | '-' :: rest => (true, rest)
    | cs => (false, cs)
  if digits.isEmpty || !digits.all Char.isDigit then none
  else
    let n := digits.foldl (fun n c => 10 * n + (c.toNat - 48)) 0
    if negative then if n ≤ integerLimit then some (-(n : Int)) else none
    else if n < integerLimit then some n else none

/-- Whether the integer that a value stands for lies within bounds; one that cannot be read does if
there are none. -/
def inBounds (bounds : Option Int × Option Int) (value : String) : Bool :=
  match integer? value with
  | some i => bounds.1.all (· ≤ i) && bounds.2.all (i ≤ ·)
  | none => bounds.1.isNone && bounds.2.isNone

/-- Whether a duration ends without the number that its last mark announces. -/
def isUnfinished (value : String) : Bool :=
  match value.toList.getLast? with
  | some c => c == 'P' || c == 'T'
  | none => false

/-- Whether a type that is no type of lists admits a value. -/
def admitsItem (b : Builtin) (value : String) : Bool :=
  b.lexical?.all (fun r => (Lexical.whole r).isMatch value) &&
    !(b == .duration && isUnfinished value) &&
    b.bounds?.all (fun bounds => inBounds bounds value)

/-- **Whether a type admits a value** with normalized white space. -/
def admits (b : Builtin) (value : String) : Bool :=
  match b.item? with
  | some item =>
    !(tokens value).isEmpty && (tokens value).all item.admitsItem
  | none => b.admitsItem value

end Builtin

end XmlConformance.Schema
