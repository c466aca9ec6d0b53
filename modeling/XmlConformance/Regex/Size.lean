import XmlConformance.Regex.Basic

/-!
# Regex/Size — how much room an expression takes

An expression may be refused because it is too large. What counts is the room that it takes with all
repetitions written out, where a set of characters takes more room the more runs of code points it
has. The room of a large set is known roughly only, so `isTooLarge` is sharp for sets of ASCII
characters and a good guess for others.
-/

namespace XmlConformance.Regex

/-- About how many bytes the states for a property take. -/
def Property.room : Property → Nat
  | .any => 964
  | .ascii => 72
  | .blank => 680
  | .category .decimalNumber => 4504
  | .category .uppercaseLetter | .uppercase => 26284
  | .category .lowercaseLetter | .lowercase => 27288
  | .category .otherLetter => 32040
  | .letter | .alphabetic | .cased | .casedLetter => 40456
  | .other | .category .unassigned | .assigned => 41096
  | .mark | .category .nonspacingMark | .caseIgnorable => 18140
  | .punctuation | .symbol | .category .otherPunctuation | .category .otherSymbol => 12000
  | .script runs => 64 + 72 * runs.runs.size
  | _ => 4000

/-- About how many bytes the states for a set take. -/
def CharSet.room : CharSet → Nat
  | .run first last =>
    if first == last then 32 * first.utf8Size else if last.toNat < 128 then 72 else 700
  | .property p => p.room
  | .word => 46688
  | .union a b | .symmetricDiff a b => a.room + b.room
  | .inter a b => min a.room b.room
  | .diff a _ => a.room
  | .complement a => a.room + 964
  | .folded a => a.room + 48
  | .empty => 32

/-- About how many bytes the states for an expression take. -/
def room : Regex → Nat
  | .empty | .look _ => 32
  | .chars set => set.room
  | .seq a b => a.room + b.room
  | .alt a b => a.room + b.room + 36
  | .repeated a least (some most) => most * a.room + (most - least) * 36 + 32
  | .repeated a least none => max least 1 * a.room + 36

/-- The most bytes that an expression may take: ten mebibytes. -/
def roomLimit : Nat := 10485760

/-- Whether an expression is refused for its size. -/
def isTooLarge (r : Regex) : Bool :=
  roomLimit < r.room

end XmlConformance.Regex
