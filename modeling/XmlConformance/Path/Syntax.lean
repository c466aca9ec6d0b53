import XmlConformance.Path.Expr
import XmlConformance.Path.Lexer
import XmlConformance.Xml.Name

/-!
# Path/Syntax — from tokens to expressions

The grammar of path expressions is a tower of levels, from a comma list down to a single step. Only
the innermost level contains whole expressions again, in parentheses, predicates and arguments. So
every level is a parser built from the parser of the innermost one, and `stepExpr`, the innermost
level, is the only recursion. Its first argument bounds the depth of nesting; the number of tokens
is enough, because every nested expression stands behind a token that opens it.
-/

namespace XmlConformance.Path

/-- Why a text is no path expression. -/
inductive SyntaxError where
  | lexical (error : LexError)
  | unexpectedToken (token : Token)
  | unexpectedEnd
  | expectedToken (token : Token) (found : Option Token)
  | expectedNodeTest (found : Option Token)
  | unknownAxis (name : String)
  | unknownFunction (name : String)
  | wrongArgumentCount (function : String) (count : Nat)
  | unknownLabel (label : String)
deriving Inhabited

def SyntaxError.message : SyntaxError → String
  | .lexical e => e.message
  | .unexpectedToken t => "unexpected " ++ t.describe
  | .unexpectedEnd => "unexpected end of expression"
  | .expectedToken t found => "expected " ++ t.describe ++ ", found " ++ Token.describe? found
  | .expectedNodeTest found => "expected a node test, found " ++ Token.describe? found
  | .unknownAxis name => "unknown axis '" ++ name ++ "'"
  | .unknownFunction name => "unknown function '" ++ name ++ "'"
  | .wrongArgumentCount f n => "wrong number of arguments for '" ++ f ++ "': " ++ toString n
  | .unknownLabel label => "unknown namespace prefix '" ++ label ++ "'"

/-- Which namespace every label of an expression stands for. -/
structure Namespaces where
  /-- The latest binding of a label comes first. -/
  bindings : List (String × String)
deriving Repr, Inhabited

namespace Namespaces

/-- Only `xml` is bound. -/
def initial : Namespaces :=
  ⟨[("xml", Xml.xmlUri)]⟩

/-- Binds a label, which replaces an earlier binding of it. -/
def bind (ns : Namespaces) (label uri : String) : Namespaces :=
  ⟨(label, uri) :: ns.bindings.filter (·.1 != label)⟩

/-- The namespace that a label stands for. -/
def lookup? (ns : Namespaces) (label : String) : Option String :=
  ns.bindings.lookup label

end Namespaces

namespace Syntax

/-- Reads something off the front of a list of tokens. -/
abbrev Parse (α : Type) := List Token → Except SyntaxError (α × List Token)

/-- Takes a given token. -/
def expect (matches? : Token → Bool) (token : Token) (ts : List Token) :
    Except SyntaxError (List Token) :=
  match ts with
  | t :: rest => if matches? t then .ok rest else .error (.expectedToken token (some t))
  | [] => .error (.expectedToken token none)

def isRightParen : Token → Bool
  | .rightParen => true
  | _ => false

def isRightBracket : Token → Bool
  | .rightBracket => true
  | _ => false

/-! ## Binary operators -/

/-- Further operands behind `left`, grouped to the left; the number bounds them. -/
def chain (operand : Parse Expr) (join? : Token → Option (Expr → Expr → Expr)) :
    Nat → Expr → Parse Expr
  | 0, left, ts => .ok (left, ts)
  | _ + 1, left, [] => .ok (left, [])
  | n + 1, left, t :: rest =>
    match join? t with
    | some join => do
      let (right, rest) ← operand rest
      chain operand join? n (join left right) rest
    | none => .ok (left, t :: rest)

/-- Operands joined by operators of one level, grouped to the left. -/
def leftGrouped (join? : Token → Option (Expr → Expr → Expr)) (operand : Parse Expr) :
    Parse Expr := fun ts => do
  let (first, rest) ← operand ts
  chain operand join? rest.length first rest

def orJoin? : Token → Option (Expr → Expr → Expr)
  | .or => some .or
  | _ => none

def andJoin? : Token → Option (Expr → Expr → Expr)
  | .and => some .and
  | _ => none

def comparisonJoin? : Token → Option (Expr → Expr → Expr)
  | .eq => some (.general .eq)
  | .notEq => some (.general .ne)
  | .lt => some (.general .lt)
  | .ltEq => some (.general .le)
  | .gt => some (.general .gt)
  | .gtEq => some (.general .ge)
  | .valueEq => some (.value .eq)
  | .valueNe => some (.value .ne)
  | .valueLt => some (.value .lt)
  | .valueLe => some (.value .le)
  | .valueGt => some (.value .gt)
  | .valueGe => some (.value .ge)
  | _ => none

def additiveJoin? : Token → Option (Expr → Expr → Expr)
  | .plus => some (.arithmetic .add)
  | .minus => some (.arithmetic .subtract)
  | _ => none

def multiplicativeJoin? : Token → Option (Expr → Expr → Expr)
  | .multiply => some (.arithmetic .multiply)
  | .div => some (.arithmetic .divide)
  | .mod => some (.arithmetic .modulo)
  | _ => none

def unionJoin? : Token → Option (Expr → Expr → Expr)
  | .pipe => some .union
  | _ => none

/-! ## The levels above a step -/

/-- Whether a token can stand first in a relative path behind the root. -/
def startsStep : Token → Bool
  | .name _ | .namespaceWildcard _ | .localWildcard _ | .star | .at | .dot | .dotDot => true
  | _ => false

/-- The steps behind a path; the number bounds them. -/
def moreSteps (step : Parse Expr) : Nat → Expr → Parse Expr
  | n + 1, path, .slash :: rest => do
    let (next, rest) ← step rest
    moreSteps step n (.slash path next) rest
  | n + 1, path, .doubleSlash :: rest => do
    let (next, rest) ← step rest
    moreSteps step n (.slash (.slash path .anyDepth) next) rest
  | _, path, ts => .ok (path, ts)

/-- A path whose first step is applied to a base. -/
def pathFrom (step : Parse Expr) (base : Expr) : Parse Expr := fun ts => do
  let (first, rest) ← step ts
  moreSteps step rest.length (.slash base first) rest

/-- Steps joined by slashes, from the root or from the context item. -/
def path (step : Parse Expr) : Parse Expr
  | .slash :: t :: rest =>
    if startsStep t then pathFrom step .root (t :: rest) else .ok (.root, t :: rest)
  | .slash :: [] => .ok (.root, [])
  | .doubleSlash :: rest => pathFrom step .allNodes rest
  | ts => do
    let (first, rest) ← step ts
    moreSteps step rest.length first rest

/-- Paths joined by `|`. -/
def union (step : Parse Expr) : Parse Expr :=
  leftGrouped unionJoin? (path step)

/-- A union behind any number of signs. -/
def unary (step : Parse Expr) : Parse Expr
  | .minus :: rest => do
    let (operand, rest) ← unary step rest
    return (.negate operand, rest)
  | .plus :: rest => unary step rest
  | ts => union step ts

def multiplicative (step : Parse Expr) : Parse Expr :=
  leftGrouped multiplicativeJoin? (unary step)

def additive (step : Parse Expr) : Parse Expr :=
  leftGrouped additiveJoin? (multiplicative step)

/-- At most one comparison. -/
def comparison (step : Parse Expr) : Parse Expr := fun ts => do
  let (left, rest) ← additive step ts
  chain (additive step) comparisonJoin? (min 1 rest.length) left rest

def conjunction (step : Parse Expr) : Parse Expr :=
  leftGrouped andJoin? (comparison step)

def disjunction (step : Parse Expr) : Parse Expr :=
  leftGrouped orJoin? (conjunction step)

/-- The parts of a list behind its first comma; the number bounds them. -/
def moreParts (step : Parse Expr) : Nat → Parse (List Expr)
  | n + 1, .comma :: rest => do
    let (part, rest) ← disjunction step rest
    let (parts, rest) ← moreParts step n rest
    return (part :: parts, rest)
  | _, ts => .ok ([], ts)

/-- A whole expression: one part, or a list of several. -/
def expression (step : Parse Expr) : Parse Expr := fun ts => do
  let (first, rest) ← disjunction step ts
  let (parts, rest) ← moreParts step rest.length rest
  return (if parts.isEmpty then first else .sequence (first :: parts), rest)

/-! ## Steps -/

/-- The names of the tests for kinds of nodes. -/
def kindTest? : String → Option NodeTest
  | "node" => some .node
  | "text" => some .text
  | "comment" => some .comment
  | "processing-instruction" => some .instruction
  | _ => none

/-- The namespace of a label. -/
def resolve (ns : Namespaces) (label : String) : Except SyntaxError String :=
  match ns.lookup? label with
  | some uri => .ok uri
  | none => .error (.unknownLabel label)

/-- A name test. -/
def nameTest (ns : Namespaces) (name : String) : Except SyntaxError NodeTest :=
  let cs := name.toList
  match cs.dropWhile (· != ':') with
  | _ :: rest => do
    let uri ← resolve ns (String.ofList (cs.takeWhile (· != ':')))
    return .name (some uri) (String.ofList rest)
  | [] => .ok (.name none name)

/-- The rest of a test for a kind of nodes behind its opening parenthesis. The target that a test
for processing instructions may name is not looked at. -/
def closeKindTest (test : NodeTest) (ts : List Token) : Except SyntaxError (List Token) :=
  match test, ts with
  | .instruction, .literal _ :: rest => expect isRightParen .rightParen rest
  | _, ts => expect isRightParen .rightParen ts

/-- A node test. -/
def nodeTest (ns : Namespaces) : Parse NodeTest
  | .star :: rest => .ok (.any, rest)
  | .namespaceWildcard label :: rest => do
    let uri ← resolve ns label
    return (.namespaceOf uri, rest)
  | .localWildcard name :: rest => .ok (.localName name, rest)
  | .name name :: .leftParen :: rest =>
    match kindTest? name with
    | some test => do
      let rest ← closeKindTest test rest
      return (test, rest)
    | none => do
      let test ← nameTest ns name
      return (test, .leftParen :: rest)
  | .name name :: rest => do
    let test ← nameTest ns name
    return (test, rest)
  | ts => .error (.expectedNodeTest ts.head?)

/-- Predicates, as many as stand there; the number bounds them. -/
def predicates (step : Parse Expr) : Nat → Parse (List Expr)
  | n + 1, .leftBracket :: rest => do
    let (first, rest) ← expression step rest
    let rest ← expect isRightBracket .rightBracket rest
    let (more, rest) ← predicates step n rest
    return (first :: more, rest)
  | _, ts => .ok ([], ts)

/-- A step with its predicates. -/
def finishStep (step : Parse Expr) (axis : Axis) (test : NodeTest) : Parse Expr := fun ts => do
  let (conditions, rest) ← predicates step ts.length ts
  return (.step axis test conditions, rest)

/-- Any other innermost expression with its predicates. -/
def finishFilter (step : Parse Expr) (primary : Expr) : Parse Expr := fun ts => do
  let (conditions, rest) ← predicates step ts.length ts
  return (if conditions.isEmpty then primary else .filter primary conditions, rest)

/-- The arguments of a call behind the first; the number bounds them. -/
def moreArguments (step : Parse Expr) : Nat → Parse (List Expr)
  | _, .rightParen :: rest => .ok ([], rest)
  | n + 1, .comma :: rest => do
    let (first, rest) ← disjunction step rest
    let (more, rest) ← moreArguments step n rest
    return (first :: more, rest)
  | _, ts => .error (.expectedToken .comma ts.head?)

/-- The arguments of a call behind its opening parenthesis. -/
def arguments (step : Parse Expr) : Parse (List Expr)
  | .rightParen :: rest => .ok ([], rest)
  | ts => do
    let (first, rest) ← disjunction step ts
    let (more, rest) ← moreArguments step rest.length rest
    return (first :: more, rest)

/-- A call behind its opening parenthesis. -/
def call (step : Parse Expr) (name : String) : Parse Expr := fun ts =>
  match CoreFunction.ofName? name with
  | none => .error (.unknownFunction name)
  | some f => do
    let (args, rest) ← arguments step ts
    if f.arity.admits args.length then return (.call f args, rest)
    else throw (.wrongArgumentCount name args.length)

/-- One step or other innermost expression, where `step` reads those nested in it. -/
def stepWith (ns : Namespaces) (step : Parse Expr) : Parse Expr
  | [] => .error .unexpectedEnd
  | .dot :: rest => finishStep step .self .node rest
  | .dotDot :: rest => finishStep step .parent .node rest
  | .at :: rest => do
    let (test, rest) ← nodeTest ns rest
    finishStep step .attribute test rest
  | .name name :: .colonColon :: rest =>
    match Axis.ofName? name with
    | none => .error (.unknownAxis name)
    | some axis => do
      let (test, rest) ← nodeTest ns rest
      finishStep step axis test rest
  | .name name :: .leftParen :: rest =>
    if (kindTest? name).isSome then do
      let (test, rest) ← nodeTest ns (.name name :: .leftParen :: rest)
      finishStep step .child test rest
    else do
      let (e, rest) ← call step name rest
      finishFilter step e rest
  | .literal text :: rest => finishFilter step (.literal text) rest
  | .number value :: rest => finishFilter step (.number value) rest
  | .var name :: rest => finishFilter step (.var name) rest
  | .leftParen :: .rightParen :: rest => finishFilter step (.sequence []) rest
  | .leftParen :: rest => do
    let (inner, rest) ← expression step rest
    let rest ← expect isRightParen .rightParen rest
    finishFilter step inner rest
  | t :: rest =>
    match t with
    | .name _ | .namespaceWildcard _ | .localWildcard _ | .star => do
      let (test, rest) ← nodeTest ns (t :: rest)
      finishStep step .child test rest
    | _ => .error (.unexpectedToken t)

/-- One step or other innermost expression in which expressions are nested less than `depth`
deep. -/
def stepExpr (ns : Namespaces) : Nat → Parse Expr
  | 0 => fun _ => .error .unexpectedEnd
  | depth + 1 => stepWith ns (stepExpr ns depth)

end Syntax

/-- The expression at the front of a list of tokens, and the tokens behind it. -/
def Expr.parse (ns : Namespaces) (ts : List Token) : Except SyntaxError (Expr × List Token) :=
  Syntax.expression (Syntax.stepExpr ns (ts.length + 1)) ts

/-- **Reads a whole text as an expression.** -/
def Expr.ofText (ns : Namespaces) (text : String) : Except SyntaxError Expr := do
  let ts ←
    match Token.ofText text with
    | .ok ts => .ok ts
    | .error e => .error (.lexical e)
  match ← Expr.parse ns ts with
  | (e, []) => return e
  | (_, t :: _) => throw (.unexpectedToken t)

end XmlConformance.Path
