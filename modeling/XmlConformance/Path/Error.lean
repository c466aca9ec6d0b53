import XmlConformance.Path.Syntax

/-!
# Path/Error — why a path expression fails

A path expression fails when it is read, because its text is none, or when it is evaluated.
-/

namespace XmlConformance.Path

/-- Why the evaluation of an expression fails. -/
inductive EvalError where
  | undefinedVariable (name : String)
  | rootOfAtomic
  | stepFromAtomic
  | axisOfAtomic
  | unionOfAtomics
  | booleanOfSeveral
  | severalItems (count : Nat)
  | undeclaredKey (name : String)
  | topIsAtomic
  | invalidPattern (pattern : String)
  /-- An argument is asked for that a call does not have, which ends the evaluation for good. -/
  | missingArgument (count index : Nat)
deriving DecidableEq, Repr, Inhabited

def EvalError.message : EvalError → String
  | .undefinedVariable name => "variable $" ++ name ++ " is not defined"
  | .rootOfAtomic => "'/' requires a context node"
  | .stepFromAtomic => "path step applied to an atomic value"
  | .axisOfAtomic => "axis step applied to an atomic value"
  | .unionOfAtomics => "'|' requires node operands"
  | .booleanOfSeveral => "effective boolean value of several atomic values"
  | .severalItems n => "expected at most one item, found " ++ toString n
  | .undeclaredKey name => "key '" ++ name ++ "' is not declared"
  | .topIsAtomic => "third argument of key() must be a node"
  | .invalidPattern pattern => "invalid regular expression '" ++ pattern ++ "'"
  | .missingArgument n i =>
    "index out of bounds: the len is " ++ toString n ++ " but the index is " ++ toString i

/-- Why an expression fails. -/
inductive Error where
  | syntactic (error : SyntaxError)
  | dynamic (error : EvalError)
deriving Inhabited

def Error.message : Error → String
  | .syntactic e => e.message
  | .dynamic e => e.message

end XmlConformance.Path
