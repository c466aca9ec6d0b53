import XmlConformance.Text.Space

/-!
# Schema/WhiteSpace — what becomes of white space in values
-/

namespace XmlConformance.Schema

/-- How white space in a value is normalized. -/
inductive WhiteSpace where
  | preserve
  | replace
  | collapse
deriving DecidableEq, Repr, Inhabited

namespace WhiteSpace

/-- The normalization with a name. -/
def ofName? : String → Option WhiteSpace
  | "preserve" => some .preserve
  | "replace" => some .replace
  | "collapse" => some .collapse
  | _ => none

/-- A space in place of a tab or line break. -/
def toSpace (c : Char) : Char :=
  if c == '\t' || c == '\n' || c == '\r' then ' ' else c

/-- Normalizes the white space of a value. -/
def apply (w : WhiteSpace) (value : String) : String :=
  match w with
  | .preserve => value
  | .replace => String.ofList (value.toList.map toSpace)
  | .collapse => Text.normalizeSpace value

end WhiteSpace

/-- The words between single spaces of a value; there are none between adjacent spaces. -/
def tokens (value : String) : List String :=
  (Text.runs (· == ' ') value.toList).map String.ofList

end XmlConformance.Schema
