import XmlConformance.Schema.Assembly
import XmlConformance.Schema.Resolution
import XmlConformance.Schema.Validation

/-!
# Schema/Conformance — compiling schemas and checking documents

A violation is reported with the line and column at which the element starts.
-/

namespace XmlConformance.Schema

/-- Whether a document conforms to a schema, and if not, why. -/
inductive Conformance where
  | valid
  | invalid (diagnostic : String)
deriving DecidableEq, Repr, Inhabited

namespace Grammar

/-- **Compiles a schema** with all the documents that it includes and imports. -/
def compile (library : Library) (resolver : Resolver) (d : Document) : Loading Grammar := do
  let components ← Components.load library resolver d
  Tracked.of (faulty components.resolve)

/-- The text of a fault of an element. -/
def diagnostic (d : Document) (offset : Nat) (fault : Fault) : String :=
  let (line, column) := d.place offset
  "line " ++ toString line ++ ", column " ++ toString column ++ ": " ++ fault.message

/-- **Checks a document against a schema.** -/
def conformance (g : Grammar) (d : Document) : Except Failure Conformance :=
  match g.validate d.rootElement with
  | .ok () => .ok .valid
  | .error (.invalid offset fault) => .ok (.invalid (diagnostic d offset fault))
  | .error (.unusable e) => .error (.schema e)

end Grammar

end XmlConformance.Schema
