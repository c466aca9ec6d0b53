import XmlConformance.Decimal.Binary

/-!
# Decimal/Shortest — the fewest digits that read back

A positive double is the nearest double to every real of an interval around it. `shortest` looks for
the coarsest decimal grid with a point in that interval, by exact arithmetic: on the grid of `n`
digits only the two neighbours of the value can lie in the interval, and of two that do the nearer
is taken, or the larger if they are equally near.
-/

namespace XmlConformance.Decimal

/-- The decimal `0.d₁d₂…dₙ · 10 ^ point`. -/
structure Digits where
  digits : List Char
  point : Int
deriving Repr, DecidableEq

namespace Shortest

/-- Least number of decimal places, at most `steps`, after which `num / den` reaches one. -/
def leadingZeros (num den : Nat) : Nat → Nat
  | 0 => 0
  | steps + 1 => if den ≤ num * 10 then 0 else 1 + leadingZeros (num * 10) den steps

/-- The exponent `k` with `10 ^ (k - 1) ≤ num / den < 10 ^ k`. -/
def magnitude (num den : Nat) : Int :=
  if den ≤ num then ((Nat.toDigits 10 (num / den)).length : Int)
  else -((leadingZeros num den 400 : Nat) : Int)

/-- The point of the grid of `n` digits that reads back as the value, if there is one. -/
def onGrid? (b : Binary) (k : Int) (n : Nat) : Option Nat :=
  let shift := k - (n : Int)
  let up := Nat.pow 2 b.exponent.toNat * Nat.pow 10 (-shift).toNat
  let down := Nat.pow 2 (-b.exponent).toNat * Nat.pow 10 shift.toNat
  let low := (4 * b.mantissa - (if b.narrowBelow then 1 else 2)) * up
  let high := (4 * b.mantissa + 2) * up
  let value := 4 * b.mantissa * up
  let closed := b.mantissa % 2 = 0
  let inside (d : Nat) : Bool :=
    if closed then low ≤ 4 * d * down && 4 * d * down ≤ high
    else low < 4 * d * down && 4 * d * down < high
  let d := b.mantissa * up / down
  match inside d, inside (d + 1) with
  | true, true =>
    if value - 4 * d * down < 4 * (d + 1) * down - value then some d else some (d + 1)
  | true, false => some d
  | false, true => some (d + 1)
  | false, false => none

/-- The first grid with a hit, from `n` digits on. -/
def search (b : Binary) (k : Int) : Nat → Nat → Nat × Nat
  | 0, n => ((onGrid? b k n).getD 0, n)
  | steps + 1, n =>
    match onGrid? b k n with
    | some d => (d, n)
    | none => search b k steps (n + 1)

end Shortest

/-- Removes trailing zeros. -/
def trimZeros (cs : List Char) : List Char :=
  (cs.reverse.dropWhile (· == '0')).reverse

/-- **The fewest digits that read back as a given positive double.** -/
def shortest (b : Binary) : Digits :=
  let num := b.mantissa * Nat.pow 2 b.exponent.toNat
  let den := Nat.pow 2 (-b.exponent).toNat
  let k := Shortest.magnitude num den
  let (d, n) := Shortest.search b k 16 1
  let text := Nat.toDigits 10 d
  ⟨trimZeros text, k + ((text.length : Int) - (n : Int))⟩

end XmlConformance.Decimal
