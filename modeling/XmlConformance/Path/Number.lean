import XmlConformance.Decimal.Notation
import XmlConformance.Text.Space

/-!
# Path/Number — numbers as text

How expressions turn numbers into text and text into numbers. Whole numbers below `10 ^ 15` have no
point, all others the fewest digits that read back, and none an exponent. Only a decimal with an
optional minus is the text of a number.
-/

namespace XmlConformance.Path

/-- The text of a number. -/
def formatNumber (x : Float) : String :=
  match Decimal.special? x "Infinity" with
  | some text => text
  | none =>
    if x.floor == x && x.abs < 1e15 then
      let b := Decimal.Binary.ofFloat x
      (if b.negative && b.wholePart != 0 then "-" else "") ++ toString b.wholePart
    else Decimal.positional x

/-- The number that no text stands for. -/
def notANumber : Float := 0.0 / 0.0

/-- The number that a text stands for. -/
def toNumber (s : String) : Float :=
  match Text.trimBy Text.isBlank s.toList with
  | '-' :: digits =>
    match Decimal.ofDigits? digits with
    | some x => -x
    | none => notANumber
  | digits => (Decimal.ofDigits? digits).getD notANumber

end XmlConformance.Path
