import XmlConformance.Decimal.Notation
import XmlConformance.Schema.Builtin

/-!
# Schema/Facet — what restrictions demand of values

A restriction of a simple type narrows its values by facets. They are checked in a fixed order, and
the first that a value fails gives the message. Numbers are compared as doubles.
-/

namespace XmlConformance.Schema

/-- Why a text is no value of a type. -/
inductive ValueFault where
  | lexical (value typeName : String)
  | union (value typeName : String)
  | enumeration (value : String) (members : List String)
  | pattern (value source typeName : String)
  | length (value : String) (length expected : Nat) (typeName : String)
  | minLength (value : String) (length least : Nat) (typeName : String)
  | maxLength (value : String) (length most : Nat) (typeName : String)
  | bound (bound : Bound) (value limit typeName : String)
  | totalDigits (value : String) (total most : Nat)
  | fractionDigits (value : String) (fraction most : Nat)
deriving DecidableEq, Repr, Inhabited

/-- The name of a bound. -/
def Bound.name : Bound → String
  | .minInclusive => "minInclusive"
  | .maxInclusive => "maxInclusive"
  | .minExclusive => "minExclusive"
  | .maxExclusive => "maxExclusive"

namespace ValueFault

/-- How messages about facets begin. -/
def facetText (facet value : String) : String :=
  "cvc-" ++ facet ++ "-valid: Value '" ++ value ++ "'"

/-- How messages say which facet a value fails. -/
def respectText (facet limit typeName : String) : String :=
  " is not facet-valid with respect to " ++ facet ++ " '" ++ limit ++ "' for type '" ++ typeName ++
    "'."

/-- How messages say which limit on lengths a value fails. -/
def lengthText (facet value : String) (length limit : Nat) (typeName : String) : String :=
  facetText facet value ++ " with length = '" ++ toString length ++ "'" ++
    respectText facet (toString limit) typeName

/-- How messages say which limit on digits a value fails. -/
def digitsText (facet kind value : String) (count limit : Nat) : String :=
  facetText facet value ++ " has " ++ toString count ++ " " ++ kind ++
    " digits, but the number of " ++ kind ++ " digits has been limited to " ++ toString limit ++ "."

def message : ValueFault → String
  | .lexical value typeName =>
    "cvc-datatype-valid.1.2.1: '" ++ value ++ "' is not a valid value for '" ++ typeName ++ "'."
  | .union value typeName =>
    "cvc-datatype-valid.1.2.3: '" ++ value ++ "' is not a valid value of union type '" ++
      typeName ++ "'."
  | .enumeration value members =>
    facetText "enumeration" value ++ " is not facet-valid with respect to enumeration '[" ++
      ", ".intercalate members ++ "]'. It must be a value from the enumeration."
  | .pattern value source typeName =>
    facetText "pattern" value ++ respectText "pattern" source typeName
  | .length value n expected typeName => lengthText "length" value n expected typeName
  | .minLength value n least typeName => lengthText "minLength" value n least typeName
  | .maxLength value n most typeName => lengthText "maxLength" value n most typeName
  | .bound b value limit typeName => facetText b.name value ++ respectText b.name limit typeName
  | .totalDigits value total most => digitsText "totalDigits" "total" value total most
  | .fractionDigits value fraction most =>
    digitsText "fractionDigits" "fraction" value fraction most

end ValueFault

/-- What the values of a simple type are. -/
inductive Variety where
  | atomic (b : Builtin)
  | list
  | union
deriving DecidableEq, Repr, Inhabited

/-- Whether values are compared as numbers. -/
def Variety.isNumeric : Variety → Bool
  | .atomic b => b.isNumeric
  | _ => false

/-! ## Comparisons -/

/-- The number that a value stands for. -/
def number? (value : String) : Option Float :=
  match value with
  | "INF" => some (1.0 / 0.0)
  | "-INF" => some (-1.0 / 0.0)
  | "NaN" => none
  | _ => Decimal.ofText? (value.toList.dropWhile (· == '+'))

/-- The order of two numbers, unless one of them is none. -/
def compareNumbers (x y : Float) : Option Ordering :=
  if x < y then some .lt else if x == y then some .eq else if y < x then some .gt else none

/-- The order of two texts by their characters. -/
def compareTexts : List Char → List Char → Ordering
  | [], [] => .eq
  | [], _ :: _ => .lt
  | _ :: _, [] => .gt
  | a :: as, b :: bs =>
    if a.toNat < b.toNat then .lt
    else if b.toNat < a.toNat then .gt
    else compareTexts as bs

/-- The order of a value and a bound. -/
def compareValues (numeric : Bool) (value limit : String) : Option Ordering :=
  if numeric then
    match number? value, number? limit with
    | some x, some y => compareNumbers x y
    | _, _ => none
  else some (compareTexts value.toList limit.toList)

/-- Whether a bound admits values in some order to it. -/
def Bound.admits (b : Bound) (order : Option Ordering) : Bool :=
  match b, order with
  | .minInclusive, some .eq | .minInclusive, some .gt | .maxInclusive, some .lt
  | .maxInclusive, some .eq | .minExclusive, some .gt | .maxExclusive, some .lt => true
  | _, _ => false

/-- Whether a value is the same as a member of an enumeration. -/
def equals (numeric : Bool) (value member : String) : Bool :=
  if numeric then
    match number? member, number? value with
    | some x, some y => x == y
    | _, _ => false
  else member == value

/-! ## Digits -/

/-- The number of digits of a decimal value that count, in all and behind the point. -/
def digitCounts (value : String) : Nat × Nat :=
  let unsigned := value.toList.dropWhile fun c => c == '+' || c == '-'
  let whole := (unsigned.takeWhile (· != '.')).dropWhile (· == '0')
  let fraction := (((unsigned.dropWhile (· != '.')).drop 1).reverse.dropWhile (· == '0')).reverse
  let size (cs : List Char) : Nat := (String.ofList cs).utf8ByteSize
  (size whole + size fraction, size fraction)

/-! ## Checks -/

/-- The length of a value: the number of its items, bytes or characters. -/
def lengthOf (variety : Variety) (value : String) : Nat :=
  match variety with
  | .list => (tokens value).length
  | .atomic .hexBinary => value.utf8ByteSize / 2
  | _ => value.length

namespace Facets

/-- The limit that a bound sets. -/
def limit? (f : Facets) : Bound → Option String
  | .minInclusive => f.minInclusive
  | .maxInclusive => f.maxInclusive
  | .minExclusive => f.minExclusive
  | .maxExclusive => f.maxExclusive

/-- A fault unless a limit, if there is one, is kept. -/
def faultUnless {α : Type} (limit : Option α) (keeps : α → Bool) (fault : α → ValueFault) :
    Option ValueFault :=
  match limit with
  | some l => if keeps l then none else some (fault l)
  | none => none

/-- The fault of a value with respect to the enumeration. -/
def enumerationFault (f : Facets) (numeric : Bool) (value : String) : Option ValueFault :=
  if f.enumeration.isEmpty || f.enumeration.any (equals numeric value) then none
  else some (.enumeration value f.enumeration)

/-- The fault of a value with respect to the patterns. -/
def patternFault (f : Facets) (typeName value : String) : Option ValueFault :=
  if f.patterns.isEmpty || f.patterns.any (·.regex.isMatch value) then none
  else some (.pattern value ("|".intercalate (f.patterns.map (·.source))) typeName)

/-- The fault of a value with respect to the limits on lengths. -/
def lengthFault (f : Facets) (typeName value : String) (n : Nat) : Option ValueFault :=
  ((faultUnless f.length (n == ·) fun l => .length value n l typeName).or
    (faultUnless f.minLength (· ≤ n) fun l => .minLength value n l typeName)).or
    (faultUnless f.maxLength (n ≤ ·) fun l => .maxLength value n l typeName)

/-- The fault of a value with respect to a bound. -/
def boundFault (f : Facets) (typeName : String) (numeric : Bool) (value : String) (b : Bound) :
    Option ValueFault :=
  faultUnless (f.limit? b) (fun l => b.admits (compareValues numeric value l))
    fun l => .bound b value l typeName

/-- The fault of a value with respect to the limits on digits. -/
def digitsFault (f : Facets) (value : String) : Option ValueFault :=
  let (total, fraction) := digitCounts value
  (faultUnless f.totalDigits (total ≤ ·) fun l => .totalDigits value total l).or
    (faultUnless f.fractionDigits (fraction ≤ ·) fun l => .fractionDigits value fraction l)

/-- **The first facet that a value fails**, in the order in which they are checked. -/
def fault? (f : Facets) (typeName value : String) (variety : Variety) : Option ValueFault :=
  let numeric := variety.isNumeric
  (((f.enumerationFault numeric value).or (f.patternFault typeName value)).or
    (f.lengthFault typeName value (lengthOf variety value))).or
    (([Bound.minInclusive, .maxInclusive, .minExclusive, .maxExclusive].findSome?
      (f.boundFault typeName numeric value)).or
      (if numeric then f.digitsFault value else none))

end Facets

end XmlConformance.Schema
