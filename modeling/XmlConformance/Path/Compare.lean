import XmlConformance.Path.Error
import XmlConformance.Path.Item

/-!
# Path/Compare — truth values and comparisons

The truth value of a sequence (`effectiveBoolean`) and the two families of comparisons. Items are
compared as truth values if one of them is one, as numbers if one of them is one, and otherwise as
texts; texts that are both numbers are ordered as numbers.
-/

namespace XmlConformance.Path

/-- The truth value of a sequence. -/
def effectiveBoolean : Sequence → Except EvalError Bool
  | [] => .ok false
  | [item] => .ok item.isTrue
  | item :: _ => if item.isNode then .ok true else .error .booleanOfSeveral

/-- The only item of a sequence, if there is one. -/
def atMostOne : Sequence → Except EvalError (Option Item)
  | [] => .ok none
  | [item] => .ok (some item)
  | items => .error (.severalItems items.length)

/-- How two values lie to each other; `none` if they cannot be compared. -/
abbrev Ordered := Option Ordering

/-- The order of texts by code points. -/
def textOrder : List Char → List Char → Ordering
  | [], [] => .eq
  | [], _ :: _ => .lt
  | _ :: _, [] => .gt
  | a :: as, b :: bs =>
    if a.toNat < b.toNat then .lt else if b.toNat < a.toNat then .gt else textOrder as bs

/-- The order of truth values: false comes before true. -/
def truthOrder (a b : Bool) : Ordering :=
  match a, b with
  | false, true => .lt
  | true, false => .gt
  | _, _ => .eq

/-- The order of numbers. -/
def numberOrder (a b : Float) : Ordered :=
  if a < b then some .lt else if b < a then some .gt else if a == b then some .eq else none

namespace Comparison

/-- Whether a relation holds between values that lie to each other in some way; values that cannot
be compared are different. -/
def holds (c : Comparison) (o : Ordered) : Bool :=
  match c, o with
  | .eq, some .eq => true
  | .ne, some .eq => false
  | .ne, _ => true
  | .lt, some .lt => true
  | .le, some .lt | .le, some .eq => true
  | .gt, some .gt => true
  | .ge, some .gt | .ge, some .eq => true
  | _, _ => false

/-- Compares two texts. -/
def texts (c : Comparison) (a b : String) : Bool :=
  match c with
  | .eq => a == b
  | .ne => a != b
  | _ =>
    let x := toNumber a
    let y := toNumber b
    if x.isNaN || y.isNaN then c.holds (some (textOrder a.toList b.toList))
    else c.holds (numberOrder x y)

/-- Compares two items. -/
def items (c : Comparison) (root : Xml.Node) (a b : Item) : Bool :=
  match a, b with
  | .boolean _, _ | _, .boolean _ => c.holds (some (truthOrder a.isTrue b.isTrue))
  | .number _, _ | _, .number _ => c.holds (numberOrder (a.numberValue root) (b.numberValue root))
  | _, _ => c.texts (a.stringValue root) (b.stringValue root)

/-- Whether a sequence is a single truth value. -/
def isTruth : Sequence → Bool
  | [.boolean _] => true
  | _ => false

/-- Compares two sequences: as truth values if one is one, and otherwise by looking for a pair of
items that compare. -/
def some? (c : Comparison) (root : Xml.Node) (a b : Sequence) : Except EvalError Bool :=
  if isTruth a || isTruth b then do
    let x ← effectiveBoolean a
    let y ← effectiveBoolean b
    return c.holds (some (truthOrder x y))
  else .ok (a.any fun x => b.any fun y => c.items root x y)

end Comparison

/-- The result of an arithmetic operation. -/
def Arithmetic.apply : Arithmetic → Float → Float → Float
  | .add, a, b => a + b
  | .subtract, a, b => a - b
  | .multiply, a, b => a * b
  | .divide, a, b => a / b
  | .modulo, a, b => Decimal.remainder a b

end XmlConformance.Path
