/-!
# Decimal/Binary — a double as an integer times a power of two

`Binary.ofFloat` takes a finite double apart into sign, integer and exponent of two, so that exact
arithmetic on natural numbers can answer what floating point arithmetic cannot: the shortest decimal
that reads back (`Decimal/Shortest`) and the remainder of a division (`remainder`).
-/

namespace XmlConformance.Decimal

/-- The number `± mantissa · 2 ^ exponent`. -/
structure Binary where
  negative : Bool
  mantissa : Nat
  exponent : Int
  /-- The next smaller double is only half as far away as the next larger one. -/
  narrowBelow : Bool
deriving Repr

namespace Binary

/-- The parts of a finite double. -/
def ofFloat (x : Float) : Binary :=
  let bits := x.toBits.toNat
  let negative := bits >>> 63 == 1
  let field : Nat := (bits >>> 52) % Nat.pow 2 11
  let fraction : Nat := bits % Nat.pow 2 52
  if field = 0 then ⟨negative, fraction, -1074, false⟩
  else ⟨negative, Nat.pow 2 52 + fraction, (field : Int) - 1075, fraction == 0 && field > 1⟩

/-- The largest integer that is at most the size of the number. -/
def wholePart (b : Binary) : Nat :=
  if 0 ≤ b.exponent then b.mantissa * Nat.pow 2 b.exponent.toNat
  else b.mantissa / Nat.pow 2 (-b.exponent).toNat

end Binary

/-- The double `± n · 2 ^ e`, for an `n` below `2 ^ 53`. -/
def scaled (negative : Bool) (n : Nat) (e : Int) : Float :=
  let x := (Float.ofNat n).scaleB e
  if negative then -x else x

/-- The remainder of a division that rounds towards zero; it has the sign of the dividend. -/
def remainder (a b : Float) : Float :=
  if a.isNaN || b.isNaN || a.isInf || b == 0.0 then 0.0 / 0.0
  else if b.isInf then a
  else
    let x := Binary.ofFloat a
    let y := Binary.ofFloat b
    let e := min x.exponent y.exponent
    let dividend := x.mantissa * Nat.pow 2 (x.exponent - e).toNat
    let divisor := y.mantissa * Nat.pow 2 (y.exponent - e).toNat
    scaled x.negative (dividend % divisor) e

end XmlConformance.Decimal
