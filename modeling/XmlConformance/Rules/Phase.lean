import XmlConformance.Rules.Schema

/-!
# Rules/Phase — the patterns of a phase

A phase of a rule schema lists the patterns that are active in it. The patterns that no phase lists
are active in all.
-/

namespace XmlConformance.Rules

open Xml

/-- What asks for all patterns. -/
def allPhases : String := "#ALL"

/-- What asks for the phase that the schema names as its default. -/
def defaultPhase : String := "#DEFAULT"

/-- The name of the phase that is asked for, if the patterns have to be selected. -/
def phaseName? (schema : Tag) (requested : Option String) : Option String :=
  let name := if requested.all (· == defaultPhase) then schema.plain? "defaultPhase" else requested
  name.filter (· != allPhases)

/-- The patterns that a phase lists. -/
def listedBy (phase : Tag × List Node) : List String :=
  (rulesNamed "active" phase.2).filterMap fun (t, _) => t.plain? "pattern"

/-- Whether a pattern is active in a phase: it has no id, or the phase lists it, or none does. -/
def isActive (phases : List (Tag × List Node)) (phase : Tag × List Node) (pattern : Tag) : Bool :=
  match pattern.plain? "id" with
  | none => true
  | some id => (listedBy phase).contains id || !(phases.flatMap listedBy).contains id

/-- The schema with only the patterns of a phase, or with all; the variables of the phase become
variables of the schema. -/
def selected (schema : Tag × List Node) (phase : Option (Tag × List Node)) : Fragment :=
  let (t, cs) := schema
  let phases := rulesNamed "phase" cs
  let kept := cs.filter fun n =>
    !n.isRule "phase" &&
      (!n.isRule "pattern" || phase.all fun p => n.tag?.any (isActive phases p))
  let moved := phase.toList.flatMap fun p =>
    (rulesNamed "let" p.2).map fun (t, cs) => Node.element t cs
  copyOf t none id (copyAllRules (some t) (kept ++ moved))

/-- **Selects the patterns of a phase.** -/
def selectPhase (d : Document) (requested : Option String) : Except Failure Document := do
  let schema ← schemaElement d
  match phaseName? schema.1 requested with
  | none => written (selected schema none) d
  | some name =>
    match (rulesNamed "phase" schema.2).find? fun (t, _) => t.plain? "id" == some name with
    | some phase => written (selected schema (some phase)) d
    | none => .error (.rules (.undefinedPhase name))

end XmlConformance.Rules
