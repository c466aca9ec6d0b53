import XmlConformance.Rules.Schema

/-!
# Rules/Abstraction — abstract patterns and abstract rules

An abstract pattern is written once for each of its instances, with values for its parameters, and
an abstract rule wherever a rule extends it. The definitions themselves disappear. Instances and
extensions are nested at most `definitionLimit` deep, which also ends circular ones.
-/

namespace XmlConformance.Rules

open Xml

/-- How deep instances and extensions may be nested. -/
def definitionLimit : Nat := 16

/-! ## Parameters -/

/-- The values of parameters, in the order in which they are replaced. -/
abbrev Parameters := List (String × String)

/-- Replaces every occurrence of `target`; the next `skip` characters belong to one already. -/
def replaceFrom (target value : List Char) : (skip : Nat) → List Char → List Char
  | _, [] => []
  | skip + 1, _ :: cs => replaceFrom target value skip cs
  | 0, c :: cs =>
    if target.isPrefixOf (c :: cs) then value ++ replaceFrom target value (target.length - 1) cs
    else c :: replaceFrom target value 0 cs

/-- Replaces the references to one parameter. -/
def substituteOne (text : String) (parameter : String × String) : String :=
  String.ofList (replaceFrom ('$' :: parameter.1.toList) parameter.2.toList 0 text.toList)

/-- Replaces the references to parameters, one parameter after the other. -/
def substitute (ps : Parameters) (text : String) : String :=
  ps.foldl substituteOne text

/-- The values that an instance gives to parameters. Longer names come first. -/
def parametersOf (content : List Node) : Parameters :=
  ((rulesNamed "param" content).filterMap fun (t, _) =>
    match t.plain? "name", t.plain? "value" with
    | some name, some value => some (name, value)
    | _, _ => none).mergeSort fun a b => a.1.utf8ByteSize ≥ b.1.utf8ByteSize

/-! ## Definitions -/

def isAbstract (t : Tag) : Bool :=
  t.plain? "abstract" == some "true"

/-- The last abstract pattern or rule of a schema with a given id; the elements are those of the
schema in document order. -/
def definition? (localName : String) (nodes : List Node) (id : String) :
    Option (Tag × List Node) :=
  (((rulesNamed localName nodes).filter fun (t, _) =>
    isAbstract t && t.plain? "id" == some id)).getLast?

/-- How instances and extensions are written. -/
structure Replacements where
  instantiate : Option Tag → Tag → List Node → Except Error (List Fragment)
  extend : Parameters → Tag → Except Error (List Fragment)

mutual

/-- What is written for a node. -/
def expandNode (r : Replacements) (ps : Parameters) (scope : Option Tag) :
    Node → Except Error (List Fragment)
  | .text s => .ok [.text s]
  | .element t cs =>
    if (t.isRule "pattern" || t.isRule "rule") && isAbstract t then .ok []
    else if t.isRule "pattern" && (t.plain? "is-a").isSome then r.instantiate scope t cs
    else if t.isRule "extends" then r.extend ps t
    else if t.isRule "param" && scope.any (·.isRule "pattern") then .ok []
    else do
      let content ← expandNodes r ps (some t) cs
      return [copyOf t scope (substitute ps) content]
  | .root _ | .comment _ | .instruction .. => .ok []

/-- What is written for several nodes. -/
def expandNodes (r : Replacements) (ps : Parameters) (scope : Option Tag) :
    List Node → Except Error (List Fragment)
  | [] => .ok []
  | n :: ns => do
    let first ← expandNode r ps scope n
    let more ← expandNodes r ps scope ns
    return first ++ more

end

/-- The nodes that are no elements of the rule language with a given local name. -/
def without (localName : String) (ns : List Node) : List Node :=
  ns.filter fun n => !n.isRule localName

/-- How instances and extensions in a schema are written if they may be nested `depth` deep. -/
def replacements (schema : List Node) : (depth : Nat) → Replacements
  | 0 =>
    { instantiate := fun _ t _ =>
        let name := (t.plain? "is-a").getD ""
        match definition? "pattern" schema name with
        | none => .error (.undefinedPattern name)
        | some _ => .error (.circularPattern name)
      extend := fun _ t =>
        match t.plain? "rule" with
        | none => .error .extendsNothing
        | some name =>
          match definition? "rule" schema name with
          | none => .error (.undefinedRule name)
          | some _ => .error (.circularRule name) }
  | depth + 1 =>
    { instantiate := fun scope t cs =>
        let name := (t.plain? "is-a").getD ""
        match definition? "pattern" schema name with
        | none => .error (.undefinedPattern name)
        | some (d, content) => do
          let r := replacements schema depth
          let ps := parametersOf cs
          let own ← expandNodes r ps (some t) (without "param" cs)
          let more ← expandNodes r ps (some d) (without "title" content)
          return [copyOf t scope id (own ++ more)]
      extend := fun ps t =>
        match t.plain? "rule" with
        | none => .error .extendsNothing
        | some name =>
          match definition? "rule" schema name with
          | none => .error (.undefinedRule name)
          | some (d, content) => expandNodes (replacements schema depth) ps (some d) content }

/-- **Writes out the abstract patterns and rules of a schema.** -/
def expand (d : Document) : Except Failure Document := do
  let (t, cs) ← schemaElement d
  let root := Node.element t cs
  match expandNode (replacements root.subtree definitionLimit) [] none root with
  | .ok fs => writtenAll fs d
  | .error e => .error (.rules e)

end XmlConformance.Rules
