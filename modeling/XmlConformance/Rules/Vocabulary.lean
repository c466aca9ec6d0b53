import XmlConformance.Xml.Fragment

/-!
# Rules/Vocabulary — the elements of the rule language

The elements of rule schemas belong to one of two namespaces, that of the standard and the one used
before it. A copy of such an element always gets the namespace of the standard and the label `sch`
(`copyRules`).
-/

namespace XmlConformance.Rules

/-- The namespace of the rule language. -/
def ruleUri : String := "http://purl.oclc.org/dsdl/schematron"

/-- The namespace of the rule language before it was a standard. -/
def formerRuleUri : String := "http://www.ascc.net/xml/schematron"

/-- The namespace of key declarations. -/
def keyUri : String := "http://www.w3.org/1999/XSL/Transform"

def isRuleUri (uri : String) : Bool :=
  uri == ruleUri || uri == formerRuleUri

end XmlConformance.Rules

namespace XmlConformance.Xml

namespace Tag

/-- The local name of an element of the rule language. -/
def ruleName? (t : Tag) : Option String :=
  if t.name.uri.any Rules.isRuleUri then some t.name.localName else none

/-- Whether an element is the element of the rule language with a given local name. -/
def isRule (t : Tag) (localName : String) : Bool :=
  t.ruleName? == some localName

/-- Whether an element declares a key. -/
def isKey (t : Tag) : Bool :=
  t.name == ⟨some Rules.keyUri, "key"⟩

end Tag

namespace Node

def isRule (n : Node) (localName : String) : Bool :=
  n.tag?.any (·.isRule localName)

def isKey (n : Node) : Bool :=
  n.tag?.any Tag.isKey

end Node

/-- The elements of the rule language with a given local name, among some nodes. -/
def rulesNamed (localName : String) (ns : List Node) : List (Tag × List Node) :=
  ns.filterMap fun
    | .element t cs => if t.isRule localName then some (t, cs) else none
    | _ => none

end XmlConformance.Xml

namespace XmlConformance.Rules

open Xml

/-- Whether a declaration is not copied with an element of the rule language, because it is about
the rule language or would take its label. -/
def isRuleDeclaration (d : Declaration) : Bool :=
  isRuleUri d.uri || d.label == some "sch"

/-- The name of a copy of an element. -/
def copiedName (t : Tag) : String :=
  match t.ruleName? with
  | some localName => "sch:" ++ localName
  | none => t.qualifiedName

/-- What the start tag of a copy of an element holds, with the values of attributes passed through
`f`. -/
def copiedAttributes (t : Tag) (scope : Option Tag) (f : String → String) :
    List (String × String) :=
  match t.ruleName? with
  | none => t.copiedAttributes scope f
  | some _ =>
    (if scope.isNone then [("xmlns:sch", ruleUri)] else []) ++
      ((t.newDeclarations scope).filter fun d => !isRuleDeclaration d).map Declaration.written ++
      t.writtenAttributes f

/-- A copy of an element with the content given. -/
def copyOf (t : Tag) (scope : Option Tag) (f : String → String) (content : List Fragment) :
    Fragment :=
  .element (copiedName t) (copiedAttributes t scope f) content

mutual

/-- A copy of a node with all below it, in which the elements of the rule language are renamed;
comments and processing instructions are left out. -/
def copyRules (scope : Option Tag) : Node → List Fragment
  | .text s => [.text s]
  | .element t cs => [copyOf t scope id (copyAllRules (some t) cs)]
  | .root _ | .comment _ | .instruction .. => []

/-- A copy of several nodes, in which the elements of the rule language are renamed. -/
def copyAllRules (scope : Option Tag) : List Node → List Fragment
  | [] => []
  | n :: ns => copyRules scope n ++ copyAllRules scope ns

end

end XmlConformance.Rules
