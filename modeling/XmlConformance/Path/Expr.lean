/-!
# Path/Expr — path expressions

The abstract form of a path expression. Names are resolved: a name test holds the namespace itself,
not the label that the text uses for it, and a call holds a known function.
-/

namespace XmlConformance.Path

/-- The relations of the two families of comparisons. -/
inductive Comparison where
  | eq
  | ne
  | lt
  | le
  | gt
  | ge
deriving DecidableEq, Repr, Inhabited

/-- The arithmetic operators. -/
inductive Arithmetic where
  | add
  | subtract
  | multiply
  | divide
  | modulo
deriving DecidableEq, Repr, Inhabited

/-- The directions in which a step leaves its context node. -/
inductive Axis where
  | child
  | descendant
  | descendantOrSelf
  | parent
  | ancestor
  | ancestorOrSelf
  | followingSibling
  | precedingSibling
  | following
  | preceding
  | attribute
  | self
deriving DecidableEq, Repr, Inhabited

namespace Axis

/-- The axis with a given name. -/
def ofName? : String → Option Axis
  | "child" => some .child
  | "descendant" => some .descendant
  | "descendant-or-self" => some .descendantOrSelf
  | "parent" => some .parent
  | "ancestor" => some .ancestor
  | "ancestor-or-self" => some .ancestorOrSelf
  | "following-sibling" => some .followingSibling
  | "preceding-sibling" => some .precedingSibling
  | "following" => some .following
  | "preceding" => some .preceding
  | "attribute" => some .attribute
  | "self" => some .self
  | _ => none

/-- The name of an axis. -/
def name : Axis → String
  | .child => "child"
  | .descendant => "descendant"
  | .descendantOrSelf => "descendant-or-self"
  | .parent => "parent"
  | .ancestor => "ancestor"
  | .ancestorOrSelf => "ancestor-or-self"
  | .followingSibling => "following-sibling"
  | .precedingSibling => "preceding-sibling"
  | .following => "following"
  | .preceding => "preceding"
  | .attribute => "attribute"
  | .self => "self"

/-- The name of an axis denotes it. -/
theorem ofName?_name (a : Axis) : ofName? a.name = some a := by
  cases a <;> rfl

/-- Axes whose predicates count positions from the context node outwards, against document order. -/
def isReverse : Axis → Bool
  | .parent | .ancestor | .ancestorOrSelf | .precedingSibling | .preceding => true
  | _ => false

end Axis

/-- The condition that a step puts on the nodes of its axis. -/
inductive NodeTest where
  /-- An expanded name. -/
  | name (uri : Option String) (localName : String)
  /-- Any name of a namespace. -/
  | namespaceOf (uri : String)
  /-- A local name in any namespace. -/
  | localName (name : String)
  /-- Any element, or any attribute on the attribute axis. -/
  | any
  /-- Any node. -/
  | node
  | text
  | comment
  | instruction
deriving DecidableEq, Repr, Inhabited

/-- The functions that an expression can call. -/
inductive CoreFunction where
  | count
  | empty
  | exists
  | not
  | boolean
  | true
  | false
  | string
  | stringLength
  | normalizeSpace
  | concat
  | contains
  | startsWith
  | endsWith
  | substringBefore
  | substringAfter
  | substring
  | translate
  | number
  | sum
  | name
  | localName
  | namespaceUri
  | matches
  | lowerCase
  | upperCase
  | stringJoin
  | distinctValues
  | position
  | last
  | current
  | key
deriving DecidableEq, Repr, Inhabited

/-- How many arguments a function takes. -/
structure Arity where
  least : Nat
  /-- `none` stands for any number. -/
  most : Option Nat
deriving DecidableEq, Repr

/-- Whether a number of arguments is legal. -/
def Arity.admits (a : Arity) (n : Nat) : Bool :=
  a.least ≤ n && (match a.most with
    | some most => n ≤ most
    | none => true)

namespace CoreFunction

/-- The function with a given name, without the label `fn`. -/
def ofPlainName? : String → Option CoreFunction
  | "count" => some .count
  | "empty" => some .empty
  | "exists" => some .exists
  | "not" => some .not
  | "boolean" => some .boolean
  | "true" => some .true
  | "false" => some .false
  | "string" => some .string
  | "string-length" => some .stringLength
  | "normalize-space" => some .normalizeSpace
  | "concat" => some .concat
  | "contains" => some .contains
  | "starts-with" => some .startsWith
  | "ends-with" => some .endsWith
  | "substring-before" => some .substringBefore
  | "substring-after" => some .substringAfter
  | "substring" => some .substring
  | "translate" => some .translate
  | "number" => some .number
  | "sum" => some .sum
  | "name" => some .name
  | "local-name" => some .localName
  | "namespace-uri" => some .namespaceUri
  | "matches" => some .matches
  | "lower-case" => some .lowerCase
  | "upper-case" => some .upperCase
  | "string-join" => some .stringJoin
  | "distinct-values" => some .distinctValues
  | "position" => some .position
  | "last" => some .last
  | "current" => some .current
  | "key" => some .key
  | _ => none

/-- The name of a function, without a label. -/
def plainName : CoreFunction → String
  | .count => "count"
  | .empty => "empty"
  | .exists => "exists"
  | .not => "not"
  | .boolean => "boolean"
  | .true => "true"
  | .false => "false"
  | .string => "string"
  | .stringLength => "string-length"
  | .normalizeSpace => "normalize-space"
  | .concat => "concat"
  | .contains => "contains"
  | .startsWith => "starts-with"
  | .endsWith => "ends-with"
  | .substringBefore => "substring-before"
  | .substringAfter => "substring-after"
  | .substring => "substring"
  | .translate => "translate"
  | .number => "number"
  | .sum => "sum"
  | .name => "name"
  | .localName => "local-name"
  | .namespaceUri => "namespace-uri"
  | .matches => "matches"
  | .lowerCase => "lower-case"
  | .upperCase => "upper-case"
  | .stringJoin => "string-join"
  | .distinctValues => "distinct-values"
  | .position => "position"
  | .last => "last"
  | .current => "current"
  | .key => "key"

/-- The plain name of a function denotes it. -/
theorem ofPlainName?_plainName (f : CoreFunction) : ofPlainName? f.plainName = some f := by
  cases f <;> rfl

/-- The function with a given name, which may carry the label `fn`. -/
def ofName? (name : String) : Option CoreFunction :=
  match name.toList with
  | 'f' :: 'n' :: ':' :: rest => ofPlainName? (String.ofList rest)
  | _ => ofPlainName? name

/-- The numbers of arguments that a function takes. -/
def arity : CoreFunction → Arity
  | .true | .false | .position | .last | .current => ⟨0, some 0⟩
  | .string | .stringLength | .normalizeSpace | .number | .name | .localName | .namespaceUri =>
    ⟨0, some 1⟩
  | .count | .empty | .exists | .not | .boolean | .sum | .lowerCase | .upperCase
  | .distinctValues => ⟨1, some 1⟩
  | .stringJoin => ⟨1, some 2⟩
  | .contains | .startsWith | .endsWith | .substringBefore | .substringAfter => ⟨2, some 2⟩
  | .substring | .matches | .key => ⟨2, some 3⟩
  | .translate => ⟨3, some 3⟩
  | .concat => ⟨2, none⟩

end CoreFunction

/-- A path expression. -/
inductive Expr where
  | literal (text : String)
  | number (value : Float)
  | var (name : String)
  /-- The root of the document that holds the context node. -/
  | root
  /-- One step from the context item. -/
  | step (axis : Axis) (test : NodeTest) (predicates : List Expr)
  /-- `base/step`: the step taken from every item of the base. -/
  | slash (base step : Expr)
  /-- Any expression followed by predicates. -/
  | filter (primary : Expr) (predicates : List Expr)
  /-- `a, b, …` -/
  | sequence (parts : List Expr)
  | union (left right : Expr)
  | or (left right : Expr)
  | and (left right : Expr)
  /-- A comparison that asks for some pair of items. -/
  | general (relation : Comparison) (left right : Expr)
  /-- A comparison of two single items. -/
  | value (relation : Comparison) (left right : Expr)
  | arithmetic (operator : Arithmetic) (left right : Expr)
  | negate (operand : Expr)
  | call (function : CoreFunction) (arguments : List Expr)
deriving Inhabited, BEq

namespace Expr

/-- `descendant-or-self::node()`, the step between two slashes. -/
def anyDepth : Expr :=
  .step .descendantOrSelf .node []

/-- Every node of the document. -/
def allNodes : Expr :=
  .slash .root anyDepth

/-- Whether an expression starts at the root of the document. -/
def isAbsolute : Expr → Bool
  | .root => true
  | .slash base _ => base.isAbsolute
  | _ => false

/-- The pattern that an expression describes: relative branches of a union may start anywhere in the
document. -/
def anchored : Expr → Expr
  | .union left right => .union left.anchored right.anchored
  | e => if e.isAbsolute then e else .slash allNodes e

end Expr

end XmlConformance.Path
