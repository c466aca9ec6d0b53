import XmlConformance.Failure
import XmlConformance.Path.Syntax

/-!
# Path/Expression — expressions together with their text

An expression keeps the text it was read from, for messages.
-/

namespace XmlConformance.Path

/-- An expression with its text. -/
structure Expression where
  source : String
  body : Expr
deriving Inhabited

namespace Expression

/-- Reads an expression. -/
def compile (ns : Namespaces) (text : String) : Except Failure Expression :=
  match Expr.ofText ns text with
  | .ok body => .ok ⟨text, body⟩
  | .error e => .error (.path text (.syntactic e))

/-- **Reads a pattern**: an expression that selects the same nodes from wherever it is evaluated. -/
def pattern (ns : Namespaces) (text : String) : Except Failure Expression :=
  (compile ns text).map fun e => { e with body := e.body.anchored }

end Expression

end XmlConformance.Path
