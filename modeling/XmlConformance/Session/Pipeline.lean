import XmlConformance.Rules.Abstraction
import XmlConformance.Rules.Embedded
import XmlConformance.Rules.Inclusion
import XmlConformance.Rules.Phase
import XmlConformance.Rules.Report

/-!
# Session/Pipeline — from a grammar to the rules embedded in it

The rules of a grammar are extracted, completed by the fragments that they include, expanded, and
reduced to a phase. Every one of these stages may be replaced by a rule schema, which is then
applied to the document that the stage gets; its report is the result of the stage.
-/

namespace XmlConformance.Session

open Rules

/-- A stage on the way from a grammar to its rules. -/
inductive Stage where
  | extract
  | merge
  | expand
  | compile
  | load
deriving DecidableEq, Repr, Inhabited

/-- The name of a stage. -/
def Stage.name : Stage → String
  | .extract => "extract"
  | .merge => "include"
  | .expand => "expand"
  | .compile => "compile"
  | .load => "load"

/-- Why a validation has no result. -/
inductive Error where
  | grammar (url : Url) (cause : Failure)
  | rules (stage : Stage) (cause : Failure)
  | document (name : String) (cause : Failure)
  | check (cause : Failure)
  | evaluation (cause : Failure)
deriving Inhabited

namespace Error

/-- The kind of an error. -/
def kind : Error → String
  | .grammar .. => "Grammar"
  | .rules .. => "RuleCompilation"
  | .document .. => "Document"
  | .check _ => "Structure"
  | .evaluation _ => "Evaluation"

def message : Error → String
  | .grammar url _ => "cannot compile grammar " ++ url.toString
  | .rules stage _ => "rule compilation failed in the " ++ stage.name ++ " stage"
  | .document name _ => "cannot load document " ++ name
  | .check _ => "structural check could not run"
  | .evaluation _ => "rule evaluation failed"

/-- What caused an error. -/
def cause : Error → Failure
  | .grammar _ e | .rules _ e | .document _ e | .check e | .evaluation e => e

/-- The messages of an error and of all that caused it. -/
def chain (e : Error) : String :=
  ": ".intercalate ([e.message, e.cause.message] ++ e.cause.cause?.toList)

end Error

/-- The stages that are replaced by rule schemas, with the URLs of these. -/
structure Pipeline where
  extract : Option Url := none
  merge : Option Url := none
  expand : Option Url := none
  compile : Option Url := none
deriving DecidableEq, Repr, Inhabited

/-- The name under which a rule schema that replaces a stage gets the phase. -/
def phaseParameter : String := "phase"

/-- Applies the rule schema at a URL. -/
def applyStylesheet (library : Library) (url : Url) (parameters : List (String × String))
    (d : Document) : Loading Document := do
  let stylesheet ← library.load (.url url)
  let rs ← (Tracked.of (RuleSet.compileAny stylesheet)).asking .rules
  Tracked.of (rs.run parameters d)

/-- Runs a stage: the rule schema that replaces it, or else what it does by itself. -/
def runStage (library : Library) (stage : Stage) (replaced : Option Url)
    (parameters : List (String × String)) (own : Document → Loading Document) (d : Document) :
    Tracked Error Document :=
  (match replaced with
    | some url => applyStylesheet library url parameters d
    | none => own d).mapError (.rules stage)

/-- The rule schema that a grammar embeds, with the patterns of a phase. -/
def Pipeline.run (p : Pipeline) (library : Library) (phase : Option String) (d : Document) :
    Tracked Error Document := do
  let d ← runStage library .extract p.extract [] (fun d => .of (Rules.extract d)) d
  let d ← runStage library .merge p.merge [] (includeFragments library) d
  let d ← runStage library .expand p.expand [] (fun d => .of (Rules.expand d)) d
  let parameters := phase.toList.map fun name => (phaseParameter, name)
  runStage library .compile p.compile parameters (fun d => .of (Rules.selectPhase d phase)) d

end XmlConformance.Session
