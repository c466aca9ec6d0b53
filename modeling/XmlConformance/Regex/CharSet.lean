import XmlConformance.Text.Case
import XmlConformance.Text.Script

/-!
# Regex/CharSet — sets of characters

What may stand in one place of a matched text. A set is held as it was described, by runs,
properties and the operations on sets, and membership is decided on demand.
-/

namespace XmlConformance.Regex

/-- Properties of characters. -/
inductive Property where
  | any
  | ascii
  | assigned
  | category (c : Text.Category)
  | letter
  | casedLetter
  | mark
  | number
  | punctuation
  | symbol
  | separator
  | other
  | alphabetic
  | blank
  | uppercase
  | lowercase
  | cased
  | caseIgnorable
  | script (runs : Text.Ranges)
deriving Inhabited, DecidableEq

namespace Property

/-- Whether a character has a property. -/
def holds (p : Property) (c : Char) : Bool :=
  match p with
  | .any => true
  | .ascii => c.toNat < 128
  | .assigned => Text.Category.ofChar c != .unassigned
  | .category k => Text.Category.ofChar c == k
  | .letter => (Text.Category.ofChar c).isLetter
  | .casedLetter =>
    match Text.Category.ofChar c with
    | .uppercaseLetter | .lowercaseLetter | .titlecaseLetter => true
    | _ => false
  | .mark => (Text.Category.ofChar c).isMark
  | .number => (Text.Category.ofChar c).isNumber
  | .punctuation => (Text.Category.ofChar c).isPunctuation
  | .symbol => (Text.Category.ofChar c).isSymbol
  | .separator => (Text.Category.ofChar c).isSeparator
  | .other => (Text.Category.ofChar c).isOther
  | .alphabetic => Text.isAlphabetic c
  | .blank => Text.isBlank c
  | .uppercase => Text.isUppercase c
  | .lowercase => Text.isLowercase c
  | .cased => Text.isCased c
  | .caseIgnorable => Text.isCaseIgnorable c
  | .script runs => runs.contains c.toNat

/-- The properties with names of their own, apart from the general categories. -/
def named : List (String × Property) :=
  [("any", .any), ("ascii", .ascii), ("assigned", .assigned),
   ("l", .letter), ("letter", .letter), ("lc", .casedLetter), ("casedletter", .casedLetter),
   ("m", .mark), ("mark", .mark), ("combiningmark", .mark), ("n", .number), ("number", .number),
   ("p", .punctuation), ("punct", .punctuation), ("punctuation", .punctuation),
   ("s", .symbol), ("symbol", .symbol), ("z", .separator), ("separator", .separator),
   ("c", .other), ("other", .other),
   ("alphabetic", .alphabetic), ("alpha", .alphabetic), ("whitespace", .blank), ("wspace", .blank),
   ("space", .blank), ("uppercase", .uppercase), ("upper", .uppercase),
   ("lowercase", .lowercase), ("lower", .lowercase), ("cased", .cased),
   ("caseignorable", .caseIgnorable), ("ci", .caseIgnorable)]

/-- The long names of the general categories. -/
def longNames : List (String × Text.Category) :=
  [("uppercaseletter", .uppercaseLetter), ("lowercaseletter", .lowercaseLetter),
   ("titlecaseletter", .titlecaseLetter), ("modifierletter", .modifierLetter),
   ("otherletter", .otherLetter), ("nonspacingmark", .nonspacingMark),
   ("spacingmark", .spacingMark), ("enclosingmark", .enclosingMark),
   ("decimalnumber", .decimalNumber), ("digit", .decimalNumber), ("letternumber", .letterNumber),
   ("othernumber", .otherNumber), ("connectorpunctuation", .connectorPunctuation),
   ("dashpunctuation", .dashPunctuation), ("openpunctuation", .openPunctuation),
   ("closepunctuation", .closePunctuation), ("initialpunctuation", .initialPunctuation),
   ("finalpunctuation", .finalPunctuation), ("otherpunctuation", .otherPunctuation),
   ("mathsymbol", .mathSymbol), ("currencysymbol", .currencySymbol),
   ("modifiersymbol", .modifierSymbol), ("othersymbol", .otherSymbol),
   ("spaceseparator", .spaceSeparator), ("lineseparator", .lineSeparator),
   ("paragraphseparator", .paragraphSeparator), ("control", .control), ("cntrl", .control),
   ("format", .format), ("surrogate", .surrogate), ("privateuse", .privateUse),
   ("unassigned", .unassigned)]

/-- A name without what is disregarded in names: case, blanks, hyphens, underscores and a leading
`is`. -/
def normalizeName (name : List Char) : String :=
  let kept := (name.filter fun c => !(c == ' ' || c == '-' || c == '_')).map Char.toLower
  match kept with
  | 'i' :: 's' :: rest =>
    String.ofList (if rest.isEmpty || rest == ['c'] then kept else rest)
  | _ => String.ofList kept

/-- The general category with a name. -/
def category? (name : String) : Option Property :=
  match named.lookup name with
  | some p =>
    match p with
    | .any | .ascii | .assigned | .letter | .casedLetter | .mark | .number | .punctuation
    | .symbol | .separator | .other => some p
    | _ => none
  | none =>
    match longNames.lookup name with
    | some k => some (.category k)
    | none =>
      ((Text.Category.codes.find? fun (code, _) => code.toLower == name).map
        fun (_, k) => .category k)

/-- The script with a name. -/
def script? (name : String) : Option Property :=
  (Text.scripts.lookup name).map .script

/-- The property with a name. -/
def ofName? (name : List Char) : Option Property :=
  let name := normalizeName name
  (named.lookup name <|> category? name) <|> script? name

/-- The property that a name and a value describe. -/
def ofPair? (name value : List Char) : Option Property :=
  let value := normalizeName value
  match normalizeName name with
  | "gc" | "generalcategory" => category? value
  | "sc" | "script" | "scx" | "scriptextensions" => script? value
  | _ => none

end Property

/-- A set of characters. -/
inductive CharSet where
  | run (first last : Char)
  | property (p : Property)
  /-- Characters that form words: letters, marks, decimal digits, connectors and joiners. -/
  | word
  | union (a b : CharSet)
  | inter (a b : CharSet)
  | diff (a b : CharSet)
  | symmetricDiff (a b : CharSet)
  | complement (a : CharSet)
  /-- The characters that differ from one of the set in case only. -/
  | folded (a : CharSet)
  | empty
deriving Inhabited, DecidableEq

/-- Characters that form words. -/
def isWordChar (c : Char) : Bool :=
  if c.toNat < 128 then c.isAlphanum || c == '_'
  else
    let k := Text.Category.ofChar c
    Text.isAlphabetic c || k.isMark || k == .decimalNumber || k == .connectorPunctuation ||
      c.toNat == 0x200c || c.toNat == 0x200d

/-- The code points that a run of a case table maps to a given one. -/
def sourcesIn (target : Nat) (run : Nat × Nat × Text.CaseRun) : List Nat :=
  let (first, last, r) := run
  if r.target ≤ target && target - r.target ≤ last - first && (target - r.target) % r.step = 0
  then [first + (target - r.target)]
  else []

/-- The characters that differ from a given one in case only. -/
def caseVariants (c : Char) : List Char :=
  let folded := Text.simpleFold c
  folded :: (Text.foldTable.toList.flatMap (sourcesIn folded.toNat)).map Char.ofNat

namespace CharSet

/-- Whether a character is in a set. -/
def contains : CharSet → Char → Bool
  | .run first last, c => first ≤ c && c ≤ last
  | .property p, c => p.holds c
  | .word, c => isWordChar c
  | .union a b, c => a.contains c || b.contains c
  | .inter a b, c => a.contains c && b.contains c
  | .diff a b, c => a.contains c && !b.contains c
  | .symmetricDiff a b, c => a.contains c != b.contains c
  | .complement a, c => !a.contains c
  | .folded a, c => (caseVariants c).any fun v => a.contains v
  | .empty, _ => false

/-- A set of a single character. -/
def single (c : Char) : CharSet := .run c c

end CharSet

end XmlConformance.Regex
