import XmlConformance.Path.Axis
import XmlConformance.Path.Expression
import XmlConformance.Path.Library

/-!
# Path/Eval — the value of an expression

An expression is evaluated in a document, with values for its variables and with a focus: the
context item, its place among the items of the context, and the item that `current()` gives.

Keys make the evaluation stateful. The index of a key is built when the key is first used, with the
values that the variables have at that moment, and kept (`Indexes`). The expressions of a key
definition cannot use keys themselves.
-/

namespace XmlConformance.Path

/-- The values of variables, the latest first. -/
abbrev Variables := List (String × Sequence)

/-- Where an expression is evaluated. -/
structure Focus where
  item : Item
  position : Nat
  size : Nat
  current : Item
deriving Inhabited

/-- The focus on a single item. -/
def Focus.on (item : Item) : Focus := ⟨item, 1, 1, item⟩

/-- The items of a key with the values they are found by. -/
abbrev Index := List (String × Item)

/-- The indexes that were built. -/
abbrev Indexes := List (String × Index)

/-- An evaluation: it may fail, and may build indexes. -/
abbrev Eval (α : Type) := Indexes → Except EvalError (α × Indexes)

namespace Eval

def pure {α : Type} (a : α) : Eval α := fun s => .ok (a, s)

def bind {α β : Type} (x : Eval α) (f : α → Eval β) : Eval β := fun s =>
  match x s with
  | .ok (a, s) => f a s
  | .error e => .error e

instance : Monad Eval where
  pure := Eval.pure
  bind := Eval.bind

/-- An evaluation that builds nothing. -/
def lift {α : Type} (x : Except EvalError α) : Eval α := fun s =>
  match x with
  | .ok a => .ok (a, s)
  | .error e => .error e

/-- An evaluation that fails. -/
def fail {α : Type} (e : EvalError) : Eval α := fun _ => .error e

/-- Evaluates for every item in turn and joins the results. -/
def joined (f : Item → Nat → Eval Sequence) : Sequence → Nat → Eval Sequence
  | [], _ => pure []
  | item :: rest, i => do
    let first ← f item i
    let more ← joined f rest (i + 1)
    return first ++ more

end Eval

/-- What an evaluation is given, apart from its focus. -/
structure Setting where
  root : Xml.Node
  vars : Variables
  /-- Finds or builds the index of a key. -/
  index : String → Eval Index

namespace Setting

/-- The items for which a predicate holds; a number asks for a position. -/
def keep (holds : Focus → Eval Sequence) (focus : Focus) (size : Nat) :
    Sequence → Nat → Eval Sequence
  | [], _ => Eval.pure []
  | item :: rest, i => do
    let result ← holds { focus with item := item, position := i, size := size }
    let kept ←
      match result with
      | [.number x] => Eval.pure (x == i.toFloat)
      | _ => Eval.lift (effectiveBoolean result)
    let more ← keep holds focus size rest (i + 1)
    return if kept then item :: more else more

/-- The items for which all predicates hold, each applied to what the one before it left. -/
def keepAll (focus : Focus) : List (Focus → Eval Sequence) → Sequence → Eval Sequence
  | [], items => Eval.pure items
  | p :: ps, items => do
    let kept ← keep p focus items.length items 1
    keepAll focus ps kept

/-- An argument that a call is relied on to have. -/
def argument (args : List (Eval Sequence)) (i : Nat) : Eval Sequence :=
  match args[i]? with
  | some x => x
  | none => Eval.fail (.missingArgument args.length i)

/-- The text of an argument, or of the context item if there is no argument. -/
def stringOr (s : Setting) (focus : Focus) : Option (Eval Sequence) → Eval String
  | some x => do return Library.firstString s.root (← x)
  | none => Eval.pure (focus.item.stringValue s.root)

/-- The texts of all arguments, joined. -/
def concatAll (s : Setting) : List (Eval Sequence) → Eval String
  | [] => Eval.pure ""
  | x :: rest => do
    let first := Library.firstString s.root (← x)
    let more ← concatAll s rest
    return first ++ more

/-- The first item of an argument, or the context item if there is no argument. -/
def itemOr (focus : Focus) : Option (Eval Sequence) → Eval (Option Item)
  | some x => do return (← x).head?
  | none => Eval.pure (some focus.item)

/-- The items that a key finds by some values. -/
def lookup (root : Xml.Node) (index : Index) (values : Sequence) : Sequence :=
  values.flatMap fun v =>
    let text := v.stringValue root
    (index.filter (·.1 == text)).map (·.2)

/-- The items that a key finds by some values, below `top` if there is one. -/
def keyed (s : Setting) (index : Index) (values : Sequence) (top : Option Item) : Sequence :=
  let found := lookup s.root index values
  inDocumentOrder <|
    match top with
    | some top => found.filter (Library.isWithin · top)
    | none => found

def text (s : String) : Sequence := [.string s]
def truth (b : Bool) : Sequence := [.boolean b]
def num (x : Float) : Sequence := [.number x]

/-- The value of a call, given what evaluates its arguments. An argument is only evaluated where it
is used, in the order written here. -/
def call (s : Setting) (focus : Focus) (f : CoreFunction) (args : List (Eval Sequence)) :
    Eval Sequence := do
  let arg (i : Nat) : Eval Sequence := argument args i
  let str (i : Nat) : Eval String := s.stringOr focus args[i]?
  match f with
  | .count => return num (← arg 0).length.toFloat
  | .empty => return truth (← arg 0).isEmpty
  | .exists => return truth !(← arg 0).isEmpty
  | .not => return truth !(← Eval.lift (effectiveBoolean (← arg 0)))
  | .boolean => return truth (← Eval.lift (effectiveBoolean (← arg 0)))
  | .true => return truth true
  | .false => return truth false
  | .string => return text (← str 0)
  | .stringLength => return num (← str 0).length.toFloat
  | .normalizeSpace => return text (Text.normalizeSpace (← str 0))
  | .concat => return text (← s.concatAll args)
  | .contains => return truth (Library.contains (← str 0) (← str 1))
  | .startsWith => return truth (Library.startsWith (← str 0) (← str 1))
  | .endsWith => return truth (Library.endsWith (← str 0) (← str 1))
  | .substringBefore => return text (Library.substringBefore (← str 0) (← str 1))
  | .substringAfter => return text (Library.substringAfter (← str 0) (← str 1))
  | .substring =>
    let value ← str 0
    let start := Library.round (Library.firstNumber s.root (← arg 1))
    match args[2]? with
    | some x =>
      let length := Library.round (Library.firstNumber s.root (← x))
      return text (Library.substring value start (some length))
    | none => return text (Library.substring value start none)
  | .translate => return text (Library.translate (← str 0) (← str 1) (← str 2))
  | .number =>
    match args[0]? with
    | some x => return num (Library.firstNumber s.root (← x))
    | none => return num (focus.item.numberValue s.root)
  | .sum => return num (Library.sum ((← arg 0).map (·.numberValue s.root)))
  | .name => return text (((← itemOr focus args[0]?).map (Library.name s.root)).getD "")
  | .localName => return text (((← itemOr focus args[0]?).map (Library.localName s.root)).getD "")
  | .namespaceUri =>
    return text (((← itemOr focus args[0]?).map (Library.namespaceUri s.root)).getD "")
  | .matches =>
    let value ← str 0
    let pattern ← str 1
    let flags ←
      match args[2]? with
      | some x => do Eval.pure (Library.firstString s.root (← x))
      | none => Eval.pure ""
    return truth (← Eval.lift (Library.matchesPattern value pattern flags))
  | .lowerCase => return text (Text.toLower (← str 0))
  | .upperCase => return text (Text.toUpper (← str 0))
  | .stringJoin =>
    let separator ←
      match args[1]? with
      | some x => do Eval.pure (Library.firstString s.root (← x))
      | none => Eval.pure ""
    return text (separator.intercalate ((← arg 0).map (·.stringValue s.root)))
  | .distinctValues => return Library.distinct s.root [] (← arg 0)
  | .position => return num focus.position.toFloat
  | .last => return num focus.size.toFloat
  | .current => return [focus.current]
  | .key =>
    let name ← str 0
    let index ← s.index name
    match args[2]? with
    | none => return s.keyed index (← arg 1) none
    | some x =>
      match (← x).head? with
      | none => return []
      | some top =>
        if top.isNode then return s.keyed index (← arg 1) (some top)
        else Eval.fail .topIsAtomic

/-- The root of the document, seen from an item. -/
def rootFrom : Item → Eval Sequence
  | .node _ | .attribute .. => Eval.pure [.node []]
  | _ => Eval.fail .rootOfAtomic

mutual

/-- **The value of an expression.** -/
def eval (s : Setting) (focus : Focus) : Expr → Eval Sequence
  | .literal t => Eval.pure [.string t]
  | .number x => Eval.pure [.number x]
  | .var name =>
    match s.vars.lookup name with
    | some items => Eval.pure items
    | none => Eval.fail (.undefinedVariable name)
  | .root => rootFrom focus.item
  | .step axis test predicates =>
    match candidates s.root axis test focus.item with
    | none => Eval.fail .axisOfAtomic
    | some items => do
      let kept ← keepAll focus (predicatesOf s predicates) items
      return if axis.isReverse then kept.reverse else kept
  | .slash base step => do
    let items ← eval s focus base
    let result ← Eval.joined (fun item i =>
      if item.isNode then
        eval s { focus with item := item, position := i, size := items.length } step
      else Eval.fail .stepFromAtomic) items 1
    return if result.all Item.isNode then inDocumentOrder result else result
  | .filter primary predicates => do
    let items ← eval s focus primary
    keepAll focus (predicatesOf s predicates) items
  | .sequence parts => do
    let results ← evalAll s focus parts
    return results.flatten
  | .union left right => do
    let a ← eval s focus left
    let b ← eval s focus right
    if (a ++ b).all Item.isNode then return inDocumentOrder (a ++ b)
    else Eval.fail .unionOfAtomics
  | .or left right => do
    if ← Eval.lift (effectiveBoolean (← eval s focus left)) then return truth true
    else return truth (← Eval.lift (effectiveBoolean (← eval s focus right)))
  | .and left right => do
    if ← Eval.lift (effectiveBoolean (← eval s focus left)) then
      return truth (← Eval.lift (effectiveBoolean (← eval s focus right)))
    else return truth false
  | .general relation left right => do
    let a ← eval s focus left
    let b ← eval s focus right
    return truth (← Eval.lift (relation.some? s.root a b))
  | .value relation left right => do
    let a ← Eval.lift (atMostOne (← eval s focus left))
    let b ← Eval.lift (atMostOne (← eval s focus right))
    match a, b with
    | some a, some b => return truth (relation.items s.root a b)
    | _, _ => return []
  | .arithmetic operator left right => do
    let a ← Eval.lift (atMostOne (← eval s focus left))
    let b ← Eval.lift (atMostOne (← eval s focus right))
    match a, b with
    | some a, some b => return num (operator.apply (a.numberValue s.root) (b.numberValue s.root))
    | _, _ => return []
  | .negate operand => do
    match ← Eval.lift (atMostOne (← eval s focus operand)) with
    | some item => return num (-(item.numberValue s.root))
    | none => return []
  | .call f arguments => call s focus f (argumentsOf s focus arguments)

/-- What evaluates predicates. -/
def predicatesOf (s : Setting) : List Expr → List (Focus → Eval Sequence)
  | [] => []
  | e :: es => (fun focus => eval s focus e) :: predicatesOf s es

/-- What evaluates arguments. -/
def argumentsOf (s : Setting) (focus : Focus) : List Expr → List (Eval Sequence)
  | [] => []
  | e :: es => eval s focus e :: argumentsOf s focus es

/-- The values of several expressions. -/
def evalAll (s : Setting) (focus : Focus) : List Expr → Eval (List Sequence)
  | [] => Eval.pure []
  | e :: es => do
    let first ← eval s focus e
    let more ← evalAll s focus es
    return first :: more

end

end Setting

/-! ## Keys -/

/-- A definition of a key: the items that `pattern` selects are found by the texts that `value`
gives for them. -/
structure KeyDefinition where
  pattern : Expression
  value : Expression
deriving Inhabited

/-- The definitions of keys, those of one name in the order written. -/
abbrev Keys := List (String × KeyDefinition)

/-- The definitions of one key. -/
def Keys.named (keys : Keys) (name : String) : List KeyDefinition :=
  (keys.filter (·.1 == name)).map (·.2)

/-- A setting in which no key is declared. -/
def keyless (root : Xml.Node) (vars : Variables) : Setting :=
  ⟨root, vars, fun name => Eval.fail (.undeclaredKey name)⟩

/-- The entries of an index for some of the items that a definition selects. -/
def indexItems (s : Setting) (value : Expr) : Sequence → Eval Index
  | [] => Eval.pure []
  | item :: rest => do
    let values ← s.eval (.on item) value
    let more ← indexItems s value rest
    return values.map (fun v => (v.stringValue s.root, item)) ++ more

/-- The index of the definitions of a key. -/
def buildIndex (s : Setting) : List KeyDefinition → Eval Index
  | [] => Eval.pure []
  | d :: rest => do
    let items ← s.eval (.on (.node [])) d.pattern.body
    let first ← indexItems s d.value.body items
    let more ← buildIndex s rest
    return first ++ more

/-- The index of a key, built now unless it was built before. -/
def indexOf (root : Xml.Node) (vars : Variables) (keys : Keys) (name : String) :
    Eval Index := fun indexes =>
  match indexes.lookup name with
  | some index => .ok (index, indexes)
  | none =>
    match keys.named name with
    | [] => .error (.undeclaredKey name)
    | definitions =>
      match buildIndex (keyless root vars) definitions [] with
      | .ok (index, _) => .ok (index, (name, index) :: indexes)
      | .error e => .error e

/-- The setting of an expression in a document with keys. -/
def setting (root : Xml.Node) (keys : Keys) (vars : Variables) : Setting :=
  ⟨root, vars, indexOf root vars keys⟩

/-- An evaluation whose failure names the expression. -/
abbrev Run (α : Type) := Indexes → Except Failure (α × Indexes)

namespace Expression

/-- The value of an expression with an item as the context and the current item. -/
def evaluate (e : Expression) (root : Xml.Node) (keys : Keys) (vars : Variables)
    (item : Item) : Run Sequence := fun indexes =>
  ((setting root keys vars).eval (.on item) e.body indexes).mapError fun cause =>
    .path e.source (.dynamic cause)

/-- The truth value of the result. -/
def evaluateBoolean (e : Expression) (root : Xml.Node) (keys : Keys) (vars : Variables)
    (item : Item) : Run Bool := fun indexes => do
  let (items, indexes) ← e.evaluate root keys vars item indexes
  match effectiveBoolean items with
  | .ok b => return (b, indexes)
  | .error cause => throw (.path e.source (.dynamic cause))

/-- The texts of the items of the result, separated by spaces. -/
def evaluateString (e : Expression) (root : Xml.Node) (keys : Keys) (vars : Variables)
    (item : Item) : Run String := fun indexes => do
  let (items, indexes) ← e.evaluate root keys vars item indexes
  return (" ".intercalate (items.map (·.stringValue root)), indexes)

end Expression

end XmlConformance.Path
