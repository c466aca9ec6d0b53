/-!
# Rules/Error — why a rule schema cannot be put together

The faults of rule schemas, apart from those of the expressions in them.
-/

namespace XmlConformance.Rules

/-- A fault of a rule schema. -/
inductive Error where
  | notASchema (found : String)
  | missingHref (element : String)
  | nestedTooDeeply (href : String)
  | undefinedPattern (name : String)
  | circularPattern (name : String)
  | extendsNothing
  | undefinedRule (name : String)
  | circularRule (name : String)
  | undefinedPhase (name : String)
  | incompleteNamespace
  | incompleteKey
  | namelessVariable
  | missingContext
  | missingTest
  | missingSelect
deriving DecidableEq, Repr, Inhabited

def Error.message : Error → String
  | .notASchema found => "expected a rule schema, found '" ++ found ++ "'"
  | .missingHref element => element ++ " without 'href'"
  | .nestedTooDeeply href => "rule fragment '" ++ href ++ "' is nested too deeply"
  | .undefinedPattern name => "abstract pattern '" ++ name ++ "' is not defined"
  | .circularPattern name => "abstract pattern '" ++ name ++ "' instantiates itself"
  | .extendsNothing => "extends without 'rule'"
  | .undefinedRule name => "abstract rule '" ++ name ++ "' is not defined"
  | .circularRule name => "abstract rule '" ++ name ++ "' extends itself"
  | .undefinedPhase name => "phase '" ++ name ++ "' is not defined"
  | .incompleteNamespace => "ns declaration needs 'prefix' and 'uri'"
  | .incompleteKey => "key declaration needs 'name', 'match' and 'use'"
  | .namelessVariable => "let without 'name'"
  | .missingContext => "rule without 'context'"
  | .missingTest => "assertion without 'test'"
  | .missingSelect => "value-of without 'select'"

end XmlConformance.Rules
