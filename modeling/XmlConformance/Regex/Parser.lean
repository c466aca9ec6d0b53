import XmlConformance.Regex.Size
import XmlConformance.Text.Space

/-!
# Regex/Parser — the written form of regular expressions

`Regex.ofText?` reads the written form, or finds that it is none. Flags change the meaning of what
follows them inside their group. Repetitions need something to repeat, look-around and
back-references are refused, and classes in brackets may be nested and combined.
-/

namespace XmlConformance.Regex

/-- The flags that are set at a place of the written form. -/
structure Flags where
  /-- Case makes no difference. -/
  anyCase : Bool
  /-- Lines have starts and ends of their own. -/
  lines : Bool
  /-- A dot stands for a line end too. -/
  dotAll : Bool
  /-- Blanks and comments mean nothing. -/
  layout : Bool
  /-- Classes reach beyond ASCII. Otherwise nothing may stand for all but some characters. -/
  unicode : Bool
deriving DecidableEq, Repr, Inhabited

/-- No flag but that classes reach beyond ASCII. -/
def Flags.initial : Flags := ⟨false, false, false, false, true⟩

namespace Reader

/-- Drops blanks and comments; `inComment` says that a comment is open. -/
def dropLayout : Bool → List Char → List Char
  | _, [] => []
  | true, c :: rest => dropLayout (c != '\n') rest
  | false, c :: rest =>
    if c == '#' then dropLayout true rest
    else if Text.isBlank c then dropLayout false rest
    else c :: rest

/-- Drops blanks and comments where they mean nothing. -/
def skip (fl : Flags) (cs : List Char) : List Char :=
  if fl.layout then dropLayout false cs else cs

/-! ## Escapes -/

/-- What stands for one thing, inside of brackets or outside. -/
inductive Primitive where
  | literal (c : Char)
  | set (s : CharSet)
  | assertion (l : Look)

/-- A set as it is meant under the flags, or what is not in it. -/
def mean (fl : Flags) (negated : Bool) (s : CharSet) : CharSet :=
  let s := if fl.anyCase then .folded s else s
  if negated then .complement s else s

/-- Characters with a meaning of their own. -/
def isMeta (c : Char) : Bool :=
  "\\.+*?()|[]\x7b\x7d^$#&-~".toList.contains c

/-- Characters that stand for themselves behind a backslash. -/
def isEscapable (c : Char) : Bool :=
  isMeta c || (c.toNat < 128 && !(c.isAlphanum || c == '<' || c == '>'))

/-- Value of a hexadecimal digit. -/
def hexValue? (c : Char) : Option Nat :=
  if c.isDigit then some (c.toNat - 48)
  else if 'a' ≤ c && c ≤ 'f' then some (c.toNat - 87)
  else if 'A' ≤ c && c ≤ 'F' then some (c.toNat - 55)
  else none

/-- The character whose code point some digits give. -/
def charOfHex (digits : List Char) : Option Char :=
  if digits.isEmpty then none
  else do
    let n ← digits.foldlM (fun n c => (hexValue? c).map (16 * n + ·)) 0
    if h : n.isValidChar then some (Char.ofNatAux n h) else none

/-- A code point: a fixed number of digits, or any number of them in braces. -/
def readHex (count : Nat) (cs : List Char) : Option (Primitive × List Char) :=
  match cs with
  | '\x7b' :: rest =>
    match rest.dropWhile (· != '\x7d') with
    | _ :: behind => (charOfHex (rest.takeWhile (· != '\x7d'))).map fun c => (.literal c, behind)
    | [] => none
  | _ =>
    if cs.length < count then none
    else (charOfHex (cs.take count)).map fun c => (.literal c, cs.drop count)

/-- The two sides of the first occurrence of a character. -/
def splitOnce (mark : Char) (cs : List Char) : Option (List Char × List Char) :=
  match cs.dropWhile (· != mark) with
  | _ :: behind => some (cs.takeWhile (· != mark), behind)
  | [] => none

/-- The property that the text in braces names; it may be excluded by `!=`. -/
def namedProperty (name : List Char) : Option (Property × Bool) :=
  match splitOnce '=' name with
  | some (key, value) =>
    match key.reverse with
    | '!' :: key => (Property.ofPair? key.reverse value).map (·, true)
    | _ =>
      match splitOnce ':' name with
      | some (key, value) => (Property.ofPair? key value).map (·, false)
      | none => (Property.ofPair? key value).map (·, false)
  | none =>
    match splitOnce ':' name with
    | some (key, value) => (Property.ofPair? key value).map (·, false)
    | none => (Property.ofName? name).map (·, false)

/-- A property class behind its letter. -/
def readProperty (fl : Flags) (negated : Bool) (cs : List Char) : Option (Primitive × List Char) :=
  if !fl.unicode then none
  else
    match cs with
    | '\x7b' :: rest =>
      match splitOnce '\x7d' rest with
      | some (name, behind) =>
        (namedProperty name).map fun (p, excluded) =>
          (.set (mean fl (negated != excluded) (.property p)), behind)
      | none => none
    | c :: rest =>
      (Property.ofName? [c]).map fun p => (.set (mean fl negated (.property p)), rest)
    | [] => none

/-- The assertion in braces behind `\b`, if there is one. -/
def readBoundary (cs : List Char) : Option (Look × List Char) :=
  match cs with
  | '\x7b' :: rest =>
    match splitOnce '\x7d' rest with
    | some (name, behind) =>
      match String.ofList name with
      | "start" => some (.wordStart, behind)
      | "end" => some (.wordFinish, behind)
      | "start-half" => some (.wordStartHalf, behind)
      | "end-half" => some (.wordFinishHalf, behind)
      | _ => none
    | none => none
  | _ => none

/-- Whether a brace behind `\b` begins the name of an assertion. -/
def startsBoundaryName : List Char → Bool
  | '\x7b' :: c :: _ => c.isAlpha || c == '-'
  | _ => false

/-- Decimal digits, white space, or characters that form words. -/
def shortClass (fl : Flags) (c : Char) : CharSet :=
  match c with
  | 'd' => if fl.unicode then .property (.category .decimalNumber) else .run '0' '9'
  | 's' =>
    if fl.unicode then .property .blank
    else .union (.single ' ') (.run '\t' '\r')
  | _ =>
    if fl.unicode then .word
    else .inter .word (.property .ascii)

/-- What an escape stands for, given what follows the backslash. -/
def readEscape (fl : Flags) : List Char → Option (Primitive × List Char)
  | [] => none
  | c :: rest =>
    match c with
    | 'x' => readHex 2 (skip fl rest)
    | 'u' => readHex 4 (skip fl rest)
    | 'U' => readHex 8 (skip fl rest)
    | 'p' => readProperty fl false (skip fl rest)
    | 'P' => readProperty fl true (skip fl rest)
    | 'd' | 's' | 'w' => some (.set (mean fl false (shortClass fl c)), rest)
    | 'D' | 'S' | 'W' =>
      if fl.unicode then some (.set (mean fl true (shortClass fl c.toLower)), rest) else none
    | 'a' => some (.literal '\x07', rest)
    | 'f' => some (.literal '\x0c', rest)
    | 't' => some (.literal '\t', rest)
    | 'n' => some (.literal '\n', rest)
    | 'r' => some (.literal '\r', rest)
    | 'v' => some (.literal '\x0b', rest)
    | 'A' => some (.assertion .start, rest)
    | 'z' => some (.assertion .finish, rest)
    | 'B' => some (.assertion .noWordBoundary, rest)
    | '<' => some (.assertion .wordStart, rest)
    | '>' => some (.assertion .wordFinish, rest)
    | 'b' =>
      if startsBoundaryName rest then (readBoundary rest).map fun (l, rest) => (.assertion l, rest)
      else some (.assertion .wordBoundary, rest)
    | _ => if isEscapable c then some (.literal c, rest) else none

/-! ## Classes in brackets -/

/-- The operations on sets between the parts of a class. -/
inductive SetOperation where
  | intersection
  | difference
  | symmetricDifference

/-- The classes of ASCII characters with names. -/
def asciiClass? : String → Option CharSet
  | "alnum" => some (.union (.run '0' '9') (.union (.run 'A' 'Z') (.run 'a' 'z')))
  | "alpha" => some (.union (.run 'A' 'Z') (.run 'a' 'z'))
  | "ascii" => some (.property .ascii)
  | "blank" => some (.union (.single ' ') (.single '\t'))
  | "cntrl" => some (.union (.run '\x00' '\x1f') (.single '\x7f'))
  | "digit" => some (.run '0' '9')
  | "graph" => some (.run '!' '~')
  | "lower" => some (.run 'a' 'z')
  | "print" => some (.run ' ' '~')
  | "punct" =>
    some (.union (.union (.run '!' '/') (.run ':' '@'))
      (.union (.run '[' '\x60') (.run '\x7b' '~')))
  | "space" => some (.union (.single ' ') (.run '\t' '\r'))
  | "upper" => some (.run 'A' 'Z')
  | "word" =>
    some (.union (.run '0' '9') (.union (.single '_') (.union (.run 'A' 'Z') (.run 'a' 'z'))))
  | "xdigit" => some (.union (.run '0' '9') (.union (.run 'A' 'F') (.run 'a' 'f')))
  | _ => none

/-- A class of ASCII characters by name, behind its opening bracket. -/
def readAsciiClass (fl : Flags) (cs : List Char) : Option (CharSet × List Char) :=
  match cs with
  | ':' :: rest =>
    let (negated, rest) :=
      match rest with
      | '^' :: rest => (true, rest)
      | _ => (false, rest)
    match splitOnce ':' rest with
    | some (name, ']' :: behind) =>
      (asciiClass? (String.ofList name)).map fun s => (mean fl negated s, behind)
    | _ => none
  | _ => none

/-- Combines what stands before an operation with what stands behind it. -/
def combine (fl : Flags) (before : Option (SetOperation × CharSet)) (s : CharSet) : CharSet :=
  let fold (s : CharSet) : CharSet := if fl.anyCase then .folded s else s
  match before with
  | none => s
  | some (.intersection, t) => .inter (fold t) (fold s)
  | some (.difference, t) => .diff (fold t) (fold s)
  | some (.symmetricDifference, t) => .symmetricDiff (fold t) (fold s)

/-- One item of a class. -/
def readItem (fl : Flags) : List Char → Option (Primitive × List Char)
  | '\\' :: rest => readEscape fl rest
  | c :: rest => some (.literal c, rest)
  | [] => none

/-- The set of an item; assertions describe none. -/
def itemSet? : Primitive → Option CharSet
  | .literal c => some (.single c)
  | .set s => some s
  | .assertion _ => none

/-- An item of a class, or a run between two items. A hyphen in front of the closing bracket or of
another hyphen makes no run. -/
def readRun (fl : Flags) (cs : List Char) : Option (CharSet × List Char) := do
  let (first, rest) ← readItem fl cs
  let rest := skip fl rest
  match rest with
  | [] => none
  | '-' :: behind =>
    match skip fl behind with
    | [] => (itemSet? first).map (·, rest)
    | ']' :: _ | '-' :: _ => (itemSet? first).map (·, rest)
    | behind =>
      let (last, rest) ← readItem fl behind
      match first, last with
      | .literal a, .literal b => if a ≤ b then some (.run a b, rest) else none
      | _, _ => none
  | _ => (itemSet? first).map (·, rest)

/-- Hyphens at the front of a class stand for themselves. -/
def readHyphens (fl : Flags) : Nat → CharSet → List Char → CharSet × List Char
  | n + 1, s, '-' :: rest => readHyphens fl n (.union s (.single '-')) (skip fl rest)
  | _, s, cs => (s, cs)

/-- What opens a class behind its bracket: whether it is negated, and the characters that stand for
themselves in front. -/
def openClass (fl : Flags) (cs : List Char) : Bool × CharSet × List Char :=
  let cs := skip fl cs
  let (negated, cs) :=
    match cs with
    | '^' :: rest => (true, skip fl rest)
    | _ => (false, cs)
  match cs with
  | ']' :: rest => (negated, .single ']', skip fl rest)
  | _ =>
    let (s, rest) := readHyphens fl cs.length .empty cs
    (negated, s, rest)

/-- A class behind its opening bracket, of which the parts `s` and `before` were read; the number
bounds the parts. -/
def readClass (fl : Flags) :
    Nat → Bool → Option (SetOperation × CharSet) → CharSet → List Char →
      Option (CharSet × List Char)
  | 0, _, _, _, _ => none
  | n + 1, negated, before, s, cs =>
    match skip fl cs with
    | [] => none
    | ']' :: rest =>
      if negated && !fl.unicode then none else some (mean fl negated (combine fl before s), rest)
    | '&' :: '&' :: rest =>
      readClass fl n negated (some (.intersection, combine fl before s)) .empty rest
    | '-' :: '-' :: rest =>
      readClass fl n negated (some (.difference, combine fl before s)) .empty rest
    | '~' :: '~' :: rest =>
      readClass fl n negated (some (.symmetricDifference, combine fl before s)) .empty rest
    | '[' :: rest =>
      match readAsciiClass fl rest with
      | some (t, rest) => readClass fl n negated before (.union s t) rest
      | none =>
        let (negatedInner, t, rest) := openClass fl rest
        match readClass fl n negatedInner none t rest with
        | some (t, rest) => readClass fl n negated before (.union s t) rest
        | none => none
    | cs =>
      match readRun fl cs with
      | some (t, rest) => readClass fl n negated before (.union s t) rest
      | none => none

/-! ## Repetitions -/

/-- A decimal number with blanks around it. -/
def readDecimal (fl : Flags) (cs : List Char) : Option (Nat × List Char) :=
  let cs := cs.dropWhile Text.isBlank
  let digits := cs.takeWhile Char.isDigit
  match (String.ofList digits).toNat? with
  | some n =>
    if n < Nat.pow 2 32 then
      some (n, skip fl ((cs.dropWhile Char.isDigit).dropWhile Text.isBlank))
    else none
  | none => none

/-- A question mark behind a repetition changes which match is found, but not whether there is
one. -/
def skipLazy : List Char → List Char
  | '?' :: rest => rest
  | cs => cs

/-- The bounds of a repetition in braces, behind the opening one. -/
def readBounds (fl : Flags) (cs : List Char) : Option (Nat × Option Nat × List Char) := do
  let (least, rest) ← readDecimal fl (skip fl cs)
  match rest with
  | '\x7d' :: rest => some (least, some least, skipLazy (skip fl rest))
  | ',' :: rest =>
    match skip fl rest with
    | '\x7d' :: rest => some (least, none, skipLazy (skip fl rest))
    | rest =>
      let (most, rest) ← readDecimal fl rest
      match rest with
      | '\x7d' :: rest =>
        if least ≤ most then some (least, some most, skipLazy (skip fl rest)) else none
      | _ => none
  | _ => none

/-! ## Groups -/

/-- The flag of a letter, set or cleared. -/
def setFlag (fl : Flags) (letter : Char) (value : Bool) : Option Flags :=
  match letter with
  | 'i' => some { fl with anyCase := value }
  | 'm' => some { fl with lines := value }
  | 's' => some { fl with dotAll := value }
  | 'x' => some { fl with layout := value }
  | 'u' => some { fl with unicode := value }
  | 'U' | 'R' => some fl
  | _ => none

/-- Flags up to the colon or parenthesis behind them. `seen` holds the letters so far. -/
def readFlags (fl : Flags) (seen : List Char) (value : Bool) :
    List Char → Option (Flags × List Char × List Char)
  | [] => none
  | c :: rest =>
    if c == ':' || c == ')' then
      if seen.head? == some '-' then none else some (fl, seen, c :: rest)
    else if seen.contains c then none
    else if c == '-' then readFlags fl (c :: seen) false rest
    else
      match setFlag fl c value with
      | some fl => readFlags fl (c :: seen) value rest
      | none => none

/-- The name of a group up to its closing angle. -/
def readGroupName (names : List (List Char)) (cs : List Char) :
    Option (List (List Char) × List Char) := do
  let (name, rest) ← splitOnce '>' cs
  let first ← name.head?
  let good := name.all fun c =>
    c == '_' || c == '.' || c == '[' || c == ']' || Text.isAlphanumeric c
  if (first == '_' || Text.isAlphabetic first) && good && !names.contains name then
    some (name :: names, rest)
  else none

/-- What stands in a row: an expression, or flags, which nothing can repeat. -/
inductive Piece where
  | atom (r : Regex)
  | flags
deriving Inhabited

/-- The expression of a row that is held in reverse. -/
def rowOf : List Piece → Regex
  | [] => .empty
  | pieces => pieces.foldl (fun (r : Regex) p =>
      match p with
      | .atom a => if r == .empty then a else a.andThen r
      | .flags => r) .empty

/-- The expression of alternatives that are held in reverse. -/
def choiceOf (last : Regex) (before : List Regex) : Regex :=
  before.foldl (fun r a => .alt a r) last

/-- A literal as it is meant under the flags. -/
def literal (fl : Flags) (c : Char) : Regex :=
  .chars (mean fl false (.single c))

/-- A row under construction: its flags, the names of groups so far, the alternatives before it and
its pieces, the latter two in reverse. -/
structure State where
  flags : Flags
  names : List (List Char)
  before : List Regex
  row : List Piece

/-- Appends a piece. -/
def State.push (s : State) (r : Regex) : State :=
  { s with row := .atom r :: s.row }

/-- Repeats the last piece. -/
def State.repeat (s : State) (least : Nat) (most : Option Nat) : Option State :=
  match s.row with
  | .atom r :: row => some { s with row := .atom (.repeated r least most) :: row }
  | _ => none

/-- The expression of what was read. -/
def State.finish (s : State) : Regex :=
  choiceOf (rowOf s.row) s.before

/-- Whether a group looks around. -/
def looksAround : List Char → Bool
  | '?' :: '=' :: _ | '?' :: '!' :: _ | '?' :: '<' :: '=' :: _ | '?' :: '<' :: '!' :: _ => true
  | _ => false

/-- Reads up to the end of the group, or of the text; the number bounds the pieces. -/
def readRow : Nat → State → List Char → Option (State × List Char)
  | 0, _, _ => none
  | n + 1, s, cs =>
    let fl := s.flags
    match skip fl cs with
    | [] => some (s, [])
    | ')' :: rest => some (s, ')' :: rest)
    | '|' :: rest => readRow n { s with before := rowOf s.row :: s.before, row := [] } rest
    | '*' :: rest => (s.repeat 0 none).bind (readRow n · (skipLazy rest))
    | '+' :: rest => (s.repeat 1 none).bind (readRow n · (skipLazy rest))
    | '?' :: rest => (s.repeat 0 (some 1)).bind (readRow n · (skipLazy rest))
    | '\x7b' :: rest =>
      match readBounds fl rest with
      | some (least, most, rest) => (s.repeat least most).bind (readRow n · rest)
      | none => none
    | '(' :: rest =>
      let rest := skip fl rest
      if looksAround rest then none
      else
        let group (inner : State) (rest : List Char) : Option (State × List Char) :=
          match readRow n { inner with before := [], row := [] } rest with
          | some (done, ')' :: rest) => some ({ s with names := done.names }.push done.finish, rest)
          | _ => none
        let opened : Option (State × List Char) :=
          match rest with
          | '?' :: 'P' :: '<' :: rest =>
            match readGroupName s.names rest with
            | some (names, rest) => group { s with names := names } rest
            | none => none
          | '?' :: '<' :: rest =>
            match readGroupName s.names rest with
            | some (names, rest) => group { s with names := names } rest
            | none => none
          | '?' :: rest =>
            match readFlags fl [] true rest with
            | some (_, [], ')' :: _) => none
            | some (fl, _, ')' :: rest) =>
              some ({ s with flags := fl, row := .flags :: s.row }, rest)
            | some (fl, _, ':' :: rest) => group { s with flags := fl } rest
            | _ => none
          | _ => group s rest
        match opened with
        | some (s, rest) => readRow n s rest
        | none => none
    | '[' :: rest =>
      let (negated, t, rest) := openClass fl rest
      match readClass fl (rest.length + 1) negated none t rest with
      | some (t, rest) => readRow n (s.push (.chars t)) rest
      | none => none
    | '.' :: rest =>
      let any : CharSet := .property .any
      let r : Regex := .chars (if fl.dotAll then any else .complement (.single '\n'))
      if fl.unicode then readRow n (s.push r) rest else none
    | '^' :: rest => readRow n (s.push (.look (if fl.lines then .lineStart else .start))) rest
    | '$' :: rest => readRow n (s.push (.look (if fl.lines then .lineFinish else .finish))) rest
    | '\\' :: rest =>
      match readEscape fl rest with
      | some (.literal c, rest) => readRow n (s.push (literal fl c)) rest
      | some (.set t, rest) => readRow n (s.push (.chars t)) rest
      | some (.assertion l, rest) => readRow n (s.push (.look l)) rest
      | none => none
    | c :: rest => readRow n (s.push (literal fl c)) rest

end Reader

/-- The expression that a text describes under some flags, unless it is too large. -/
def read? (fl : Flags) (text : String) : Option Regex :=
  let cs := text.toList
  match Reader.readRow (cs.length + 1) ⟨fl, [], [], []⟩ cs with
  | some (s, []) => if s.finish.isTooLarge then none else some s.finish
  | _ => none

/-- The expression that a text describes. -/
def ofText? (text : String) : Option Regex :=
  read? .initial text

end XmlConformance.Regex
