import XmlConformance.Decimal.Notation
import XmlConformance.Text.Quoted

/-!
# Path/Token — the tokens of a path expression

The tokens, how messages show them (`Token.describe`), and the one bit that a token hands on to the
reading of the next one: whether an operand has to follow it (`Token.expectsOperand`).
-/

namespace XmlConformance.Path

/-- A token of a path expression. -/
inductive Token where
  /-- A plain or qualified name. -/
  | name (text : String)
  /-- `label:*`, every name of a namespace. -/
  | namespaceWildcard (label : String)
  /-- `*:name`, a local name in any namespace. -/
  | localWildcard (name : String)
  /-- `*` as a name test. -/
  | star
  | number (value : Float)
  | literal (text : String)
  | var (name : String)
  | slash
  | doubleSlash
  | leftParen
  | rightParen
  | leftBracket
  | rightBracket
  | dot
  | dotDot
  | at
  | comma
  | colonColon
  | pipe
  | plus
  | minus
  /-- `*` as an operator. -/
  | multiply
  | eq
  | notEq
  | lt
  | ltEq
  | gt
  | gtEq
  | and
  | or
  | div
  | mod
  | valueEq
  | valueNe
  | valueLt
  | valueLe
  | valueGt
  | valueGe
deriving Inhabited, BEq

namespace Token

/-- The kind of a token, as messages name it. -/
def kind : Token → String
  | .name _ => "Name"
  | .namespaceWildcard _ => "PrefixWildcard"
  | .localWildcard _ => "LocalWildcard"
  | .star => "Star"
  | .number _ => "Number"
  | .literal _ => "Literal"
  | .var _ => "Variable"
  | .slash => "Slash"
  | .doubleSlash => "DoubleSlash"
  | .leftParen => "LParen"
  | .rightParen => "RParen"
  | .leftBracket => "LBracket"
  | .rightBracket => "RBracket"
  | .dot => "Dot"
  | .dotDot => "DotDot"
  | .at => "At"
  | .comma => "Comma"
  | .colonColon => "ColonColon"
  | .pipe => "Pipe"
  | .plus => "Plus"
  | .minus => "Minus"
  | .multiply => "Multiply"
  | .eq => "Eq"
  | .notEq => "NotEq"
  | .lt => "Lt"
  | .ltEq => "LtEq"
  | .gt => "Gt"
  | .gtEq => "GtEq"
  | .and => "And"
  | .or => "Or"
  | .div => "Div"
  | .mod => "Mod"
  | .valueEq => "ValueEq"
  | .valueNe => "ValueNe"
  | .valueLt => "ValueLt"
  | .valueLe => "ValueLe"
  | .valueGt => "ValueGt"
  | .valueGe => "ValueGe"

/-- The text that a token carries, as messages show it. -/
def payload? : Token → Option String
  | .name s | .namespaceWildcard s | .localWildcard s | .literal s | .var s => some (Text.quoted s)
  | .number x => some (Decimal.general x)
  | _ => none

/-- A token as messages show it. -/
def describe (t : Token) : String :=
  match t.payload? with
  | some text => t.kind ++ "(" ++ text ++ ")"
  | none => t.kind

/-- A token that may be missing, as messages show it. -/
def describe? : Option Token → String
  | some t => "Some(" ++ t.describe ++ ")"
  | none => "None"

/-- Whether an operand has to follow a token. -/
def expectsOperand : Token → Bool
  | .at | .colonColon | .leftParen | .leftBracket | .comma | .slash | .doubleSlash | .pipe | .plus
  | .minus | .multiply | .eq | .notEq | .lt | .ltEq | .gt | .gtEq | .and | .or | .div | .mod
  | .valueEq | .valueNe | .valueLt | .valueLe | .valueGt | .valueGe => true
  | _ => false

/-- The operator that a name denotes after an operand. -/
def operator? : String → Option Token
  | "and" => some .and
  | "or" => some .or
  | "div" => some .div
  | "mod" => some .mod
  | "eq" => some .valueEq
  | "ne" => some .valueNe
  | "lt" => some .valueLt
  | "le" => some .valueLe
  | "gt" => some .valueGt
  | "ge" => some .valueGe
  | _ => none

end Token

end XmlConformance.Path
