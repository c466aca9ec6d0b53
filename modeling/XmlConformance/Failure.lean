import XmlConformance.Path.Error
import XmlConformance.Rules.Error
import XmlConformance.Schema.Error
import XmlConformance.Url.Basic

/-!
# Failure — why documents cannot be loaded, compiled or transformed

The causes for which an operation on documents has no result, and the message of each. A document
that is merely invalid is no failure.
-/

namespace XmlConformance

/-- Why a reference leads nowhere. -/
inductive ReferenceError where
  | unreadable (error : Url.ParseError)
  | noElement (id : String)
  | notLocal
deriving DecidableEq, Repr, Inhabited

def ReferenceError.message : ReferenceError → String
  | .unreadable e => e.message
  | .noElement id => "no element with id '" ++ id ++ "'"
  | .notLocal => "not a local file path"

/-- Why an operation on documents has no result. -/
inductive Failure where
  /-- A file that cannot be read. -/
  | file (path reason : String)
  /-- A document that cannot be fetched. -/
  | fetch (url reason : String)
  | scheme (name : String)
  /-- A text that is not well-formed. -/
  | malformed (document : String)
  | reference (href : String) (error : ReferenceError)
  | path (expression : String) (error : Path.Error)
  | rules (error : Rules.Error)
  | schema (error : Schema.Error)
  /-- A document whose root element is none of a rule schema, where one is needed. -/
  | unsupported (root : String)
deriving Inhabited

namespace Failure

/-- The kind of a failure. -/
def kind : Failure → String
  | .file .. => "Io"
  | .fetch .. => "Fetch"
  | .scheme _ => "UnsupportedScheme"
  | .malformed _ => "Xml"
  | .reference .. => "Reference"
  | .path .. => "Path"
  | .rules _ => "Transform"
  | .schema _ => "Grammar"
  | .unsupported _ => "Unsupported"

def message : Failure → String
  | .file name reason => "failed to read " ++ name ++ ": " ++ reason
  | .fetch url reason => "failed to fetch " ++ url ++ ": " ++ reason
  | .scheme name => "unsupported URL scheme '" ++ name ++ "'"
  | .malformed document => "malformed XML in " ++ document
  | .reference href e => "cannot resolve reference '" ++ href ++ "': " ++ e.message
  | .path expression e => "invalid path expression '" ++ expression ++ "': " ++ e.message
  | .rules e => "transform failed: " ++ e.message
  | .schema e => "invalid grammar: " ++ e.message
  | .unsupported root => "unsupported: cannot compile '" ++ root ++ "' documents into transforms"

/-- The text of what caused a failure, where its message repeats it. -/
def cause? : Failure → Option String
  | .file _ reason => some reason
  | _ => none

end Failure

end XmlConformance
