import XmlConformance.Path.Eval
import XmlConformance.Rules.Schema

/-!
# Rules/RuleSet — rule schemas that are ready to be applied

A rule set has patterns, a pattern has rules, and a rule has checks. A rule fires on the nodes and
attributes that its context selects; each check of it then tests an expression. Variables may be
bound at each of these levels.
-/

namespace XmlConformance.Rules

open Xml XmlConformance.Path

/-- What a variable is bound to. -/
inductive Value where
  | expression (e : Expression)
  | literal (text : String)
deriving Inhabited

structure Binding where
  variableName : String
  value : Value
deriving Inhabited

/-- A piece of a message. -/
inductive MessagePart where
  | text (s : String)
  | valueOf (e : Expression)
  /-- The name of the node that an expression selects, or of the context. -/
  | nameOf (e : Option Expression)
deriving Inhabited

/-- Whether a check speaks up when its test fails, or when it holds. -/
inductive CheckKind where
  | assert
  | report
deriving DecidableEq, Repr, Inhabited

structure Check where
  kind : CheckKind
  test : Expression
  id : Option String
  role : Option String
  message : List MessagePart
deriving Inhabited

structure Rule where
  context : Expression
  id : Option String
  role : Option String
  bindings : List Binding
  checks : List Check
deriving Inhabited

structure Pattern where
  id : Option String
  title : Option String
  bindings : List Binding
  rules : List Rule
deriving Inhabited

structure RuleSet where
  title : Option String
  keys : Keys
  bindings : List Binding
  patterns : List Pattern
deriving Inhabited

/-! ## Texts inside elements -/

/-- The text that a node contributes by itself: an element that begins with a text contributes that
text, besides the text node. -/
def ownText : Node → String
  | .element _ cs => (Node.leadingText? cs).getD ""
  | .text s | .comment s => s
  | .root _ | .instruction .. => ""

/-- The joined contributions of an element and of all nodes below it. -/
def gatheredText (t : Tag) (cs : List Node) : String :=
  String.join ((Node.element t cs).subtree.map ownText)

/-- The title among the children of an element. -/
def title? (cs : List Node) : Option String :=
  (rulesNamed "title" cs).head?.map fun (t, cs) => Text.normalizeSpace (gatheredText t cs)

/-! ## Compilation -/

/-- What the labels in the expressions at an element stand for. -/
def namespacesAt (schema : Namespaces) (t : Tag) : Namespaces :=
  let inScope := t.scope.foldl (fun ns d =>
    match d.label with
    | some label => ns.bind label d.uri
    | none => ns) Namespaces.initial
  schema.bindings.foldr (fun (label, uri) ns => ns.bind label uri) inScope

/-- An attribute that an element must have. -/
def required (t : Tag) (localName : String) (e : Error) : Except Failure String :=
  match t.plain? localName with
  | some v => .ok v
  | none => .error (.rules e)

def compileBinding (ns : Namespaces) (t : Tag) (cs : List Node) : Except Failure Binding := do
  let name ← required t "name" .namelessVariable
  match t.plain? "value" with
  | some v => return ⟨name, .expression (← Expression.compile ns v)⟩
  | none => return ⟨name, .literal (gatheredText t cs)⟩

def compileBindings (ns : Namespaces) (cs : List Node) : Except Failure (List Binding) :=
  (rulesNamed "let" cs).mapM fun (t, cs) => compileBinding ns t cs

mutual

/-- The message that a node inside a check stands for. -/
def compileMessageNode (ns : Namespaces) : Node → Except Failure (List MessagePart)
  | .text s => .ok [.text s]
  | .element t cs =>
    match t.ruleName? with
    | some "value-of" => do
      let select ← required t "select" .missingSelect
      return [.valueOf (← Expression.compile ns select)]
    | some "name" =>
      match t.plain? "path" with
      | some p => do return [.nameOf (some (← Expression.compile ns p))]
      | none => .ok [.nameOf none]
    | _ => compileMessage ns cs
  | .root _ | .comment _ | .instruction .. => .ok []

/-- The message that the content of a check stands for. -/
def compileMessage (ns : Namespaces) : List Node → Except Failure (List MessagePart)
  | [] => .ok []
  | n :: rest => do
    let first ← compileMessageNode ns n
    let more ← compileMessage ns rest
    return first ++ more

end

/-- The kind of check that an element is. -/
def checkKind? (t : Tag) : Option CheckKind :=
  match t.ruleName? with
  | some "assert" => some .assert
  | some "report" => some .report
  | _ => none

def compileCheck (schema : Namespaces) (kind : CheckKind) (t : Tag) (cs : List Node) :
    Except Failure Check := do
  let test ← required t "test" .missingTest
  let ns := namespacesAt schema t
  let test ← Expression.compile ns test
  let message ← compileMessage ns cs
  return ⟨kind, test, t.plain? "id", t.plain? "role", message⟩

/-- The checks among the children of a rule. -/
def checkElements (cs : List Node) : List (CheckKind × Tag × List Node) :=
  cs.filterMap fun
    | .element t cs => (checkKind? t).map fun kind => (kind, t, cs)
    | _ => none

def compileRule (schema : Namespaces) (t : Tag) (cs : List Node) : Except Failure Rule := do
  let context ← required t "context" .missingContext
  let checks ← (checkElements cs).mapM fun (kind, t, cs) => compileCheck schema kind t cs
  let ns := namespacesAt schema t
  let context ← Expression.pattern ns context
  let bindings ← compileBindings ns cs
  return ⟨context, t.plain? "id", t.plain? "role", bindings, checks⟩

def compilePattern (schema : Namespaces) (t : Tag) (cs : List Node) : Except Failure Pattern := do
  let concrete := (rulesNamed "rule" cs).filter fun (t, _) => t.plain? "abstract" != some "true"
  let rules ← concrete.mapM fun (t, cs) => compileRule schema t cs
  let bindings ← compileBindings (namespacesAt schema t) cs
  return ⟨t.plain? "id", title? cs, bindings, rules⟩

/-- The bindings of labels that a schema declares for all its expressions. -/
def compileNamespaces (cs : List Node) : Except Failure Namespaces :=
  (rulesNamed "ns" cs).foldlM (fun ns (t, _) =>
    match t.plain? "prefix", t.plain? "uri" with
    | some label, some uri => .ok (ns.bind label uri)
    | _, _ => .error (.rules .incompleteNamespace)) Namespaces.initial

def compileKey (schema : Namespaces) (t : Tag) : Except Failure (String × KeyDefinition) := do
  let ns := namespacesAt schema t
  match t.plain? "name", t.plain? "match", t.plain? "use" with
  | some name, some pattern, some use =>
    return (name, ⟨← Expression.pattern ns pattern, ← Expression.compile ns use⟩)
  | _, _, _ => .error (.rules .incompleteKey)

/-- The elements among some nodes that declare keys. -/
def keyElements (cs : List Node) : List Tag :=
  cs.filterMap fun n => n.tag?.filter Tag.isKey

/-- **Compiles a rule schema.** -/
def RuleSet.compile (d : Document) : Except Failure RuleSet := do
  let (t, cs) ← schemaElement d
  let schema ← compileNamespaces cs
  let keys ← (keyElements cs).mapM (compileKey schema)
  let bindings ← compileBindings (namespacesAt schema t) cs
  let patterns ← (rulesNamed "pattern" cs).mapM fun (t, cs) => compilePattern schema t cs
  return ⟨title? cs, keys, bindings, patterns⟩

/-- Compiles a document that should be a rule schema. -/
def RuleSet.compileAny (d : Document) : Except Failure RuleSet :=
  let root := d.rootElement.1
  if root.isRule "schema" then compile d else .error (.unsupported root.name.localName)

end XmlConformance.Rules
