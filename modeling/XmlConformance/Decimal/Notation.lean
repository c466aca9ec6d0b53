import XmlConformance.Decimal.Shortest

/-!
# Decimal/Notation — numbers written out and read

`positional` writes a double without an exponent, `general` in the notation of messages, where very
large and very small numbers have an exponent and whole ones a trailing `.0`. `ofText?` reads plain
decimal notation, correctly rounded.
-/

namespace XmlConformance.Decimal

/-- The digits of `0.digits · 10 ^ point` without an exponent, before and after the point. -/
def Digits.split (d : Digits) : List Char × List Char :=
  if d.point ≤ 0 then (['0'], List.replicate (-d.point).toNat '0' ++ d.digits)
  else
    let whole := d.point.toNat
    (d.digits.take whole ++ List.replicate (whole - d.digits.length) '0', d.digits.drop whole)

/-- The text of a number that is not finite. -/
def special? (x : Float) (infinity : String) : Option String :=
  if x.isNaN then some "NaN"
  else if x.isInf then some (if x < 0.0 then "-" ++ infinity else infinity)
  else none

/-- Sign and digits of a finite double. -/
def parts (x : Float) : Bool × Option Digits :=
  let b := Binary.ofFloat x
  (b.negative, if b.mantissa = 0 then none else some (shortest b))

/-- A finite double without an exponent, with the fewest digits that read back. -/
def positional (x : Float) : String :=
  let (negative, digits?) := parts x
  let sign := if negative then "-" else ""
  match digits? with
  | none => sign ++ "0"
  | some d =>
    match d.split with
    | (whole, []) => sign ++ String.ofList whole
    | (whole, fraction) => sign ++ String.ofList whole ++ "." ++ String.ofList fraction

/-- A double in the notation of messages: with an exponent from `1e16` on and below `1e-4`, and with
at least one digit after the point otherwise. -/
def general (x : Float) : String :=
  match special? x "inf" with
  | some text => text
  | none =>
    let (negative, digits?) := parts x
    let sign := if negative then "-" else ""
    match digits? with
    | none => sign ++ "0.0"
    | some d =>
      if 16 < d.point || d.point < -3 then
        let fraction := d.digits.drop 1
        sign ++ String.ofList (d.digits.take 1) ++
          (if fraction.isEmpty then "" else "." ++ String.ofList fraction) ++
          "e" ++ toString (d.point - 1)
      else
        match d.split with
        | (whole, []) => sign ++ String.ofList whole ++ ".0"
        | (whole, fraction) => sign ++ String.ofList whole ++ "." ++ String.ofList fraction

/-- The value of decimal digits. -/
def digitsValue (cs : List Char) : Nat :=
  cs.foldl (fun n c => 10 * n + (c.toNat - 48)) 0

/-- The double nearest to a number given by its digits before and after the point. -/
def nearest (whole fraction : List Char) : Float :=
  Float.ofScientific (digitsValue (whole ++ fraction)) true fraction.length

/-- Reads digits with at most one point; at least one digit is needed. -/
def ofDigits? (cs : List Char) : Option Float :=
  let whole := cs.takeWhile Char.isDigit
  match cs.dropWhile Char.isDigit with
  | [] => if whole.isEmpty then none else some (nearest whole [])
  | '.' :: fraction =>
    if fraction.all Char.isDigit && !(whole.isEmpty && fraction.isEmpty) then
      some (nearest whole fraction)
    else none
  | _ => none

/-- An exponent as written behind its mark: digits with an optional sign. -/
def exponent? (cs : List Char) : Option Int :=
  let (negative, digits) :=
    match cs with
    | '-' :: rest => (true, rest)
    | '+' :: rest => (false, rest)
    | cs => (false, cs)
  if digits.isEmpty || !digits.all Char.isDigit then none
  else some (if negative then -(digitsValue digits : Int) else digitsValue digits)

/-- The double nearest to `mantissa · 10 ^ exponent`, where `size` is the number of digits of the
mantissa. Far beyond the range of doubles only the side matters. -/
def nearestScaled (mantissa size : Nat) (exponent : Int) : Float :=
  if mantissa = 0 || exponent + size < -400 then 0.0
  else if 400 < exponent then 1.0 / 0.0
  else if exponent < 0 then Float.ofScientific mantissa true exponent.natAbs
  else Float.ofScientific mantissa false exponent.natAbs

/-- Reads digits with at most one point, and an optional exponent. -/
def ofUnsigned? (cs : List Char) : Option Float :=
  let isMark (c : Char) : Bool := c == 'e' || c == 'E'
  let plain := cs.takeWhile (!isMark ·)
  let whole := plain.takeWhile Char.isDigit
  let fraction := (plain.dropWhile Char.isDigit).drop 1
  match cs.dropWhile (!isMark ·) with
  | [] => ofDigits? plain
  | _ :: rest =>
    match ofDigits? plain, exponent? rest with
    | some _, some e =>
      let digits := whole ++ fraction
      some (nearestScaled (digitsValue digits) digits.length (e - fraction.length))
    | _, _ => none

/-- Reads a number: a sign, and digits with an exponent, `inf`, `infinity` or `nan` in any case. -/
def ofText? (cs : List Char) : Option Float :=
  let (negative, unsigned) :=
    match cs with
    | '-' :: rest => (true, rest)
    | '+' :: rest => (false, rest)
    | cs => (false, cs)
  let value? :=
    match String.ofList (unsigned.map Char.toLower) with
    | "inf" | "infinity" => some (1.0 / 0.0)
    | "nan" => some (0.0 / 0.0)
    | _ => ofUnsigned? unsigned
  value?.map fun x => if negative then -x else x

end XmlConformance.Decimal
