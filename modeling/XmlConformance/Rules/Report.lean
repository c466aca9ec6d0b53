import XmlConformance.Rules.Evaluation

/-!
# Rules/Report — reports and what they find

The report of a run is a document of its own: an element for every pattern, one for every item on
which a rule fires, and behind that the remarks of the rule. A report is read back for the rules
that fired and the assertions that failed (`entries`), and every failed assertion is a finding. It
is a warning if the rule that fired last has the role of one.
-/

namespace XmlConformance.Rules

open Xml

/-- The namespace of reports. -/
def reportUri : String := "http://purl.oclc.org/dsdl/svrl"

/-- The role of rules whose failed assertions are warnings. -/
def warningRole : String := "warning"

/-! ## Writing reports -/

/-- An attribute that is written only if it has a value. -/
def optional (name : String) (value : Option String) : List (String × String) :=
  value.toList.map fun v => (name, v)

/-- How a report calls a check that has something to say. -/
def CheckKind.element : CheckKind → String
  | .assert => "svrl:failed-assert"
  | .report => "svrl:successful-report"

def Remark.fragment (root : Node) (item : Path.Item) (r : Remark) : Fragment :=
  .element r.check.kind.element
    ([("test", r.check.test.source)] ++ optional "id" r.check.id ++ optional "role" r.check.role ++
      [("location", item.location root)])
    [.element "svrl:text" [] [.text r.text]]

def RuleOutcome.fragments (root : Node) (o : RuleOutcome) : List Fragment :=
  .element "svrl:fired-rule"
      ([("context", o.rule.context.source)] ++ optional "id" o.rule.id ++
        optional "role" o.rule.role) [] ::
    o.remarks.map (Remark.fragment root o.item)

def PatternOutcome.fragments (root : Node) (o : PatternOutcome) : List Fragment :=
  .element "svrl:active-pattern" (optional "id" o.pattern.id ++ optional "name" o.pattern.title)
      [] ::
    o.outcomes.flatMap (RuleOutcome.fragments root)

/-- The report of a run. -/
def reportOf (rs : RuleSet) (root : Node) (outcomes : List PatternOutcome) : Fragment :=
  .element "svrl:schematron-output"
    ([("xmlns:svrl", reportUri), ("xmlns:sch", ruleUri)] ++ optional "title" rs.title)
    (outcomes.flatMap (PatternOutcome.fragments root))

/-- **Applies a rule set to a document**; the result is the report. -/
def RuleSet.run (rs : RuleSet) (parameters : List (String × String)) (d : Document) :
    Except Failure Document := do
  let outcomes ← rs.outcomes parameters d.root
  Document.ofText (reportOf rs d.root outcomes).render none

/-! ## Reading reports -/

/-- A failed assertion. -/
structure FailedAssertion where
  test : Option String
  location : Option String
  text : String
deriving DecidableEq, Repr, Inhabited

/-- What matters in a report. -/
inductive Entry where
  | fired (context : String) (role : Option String)
  | failed (assertion : FailedAssertion)
deriving DecidableEq, Repr, Inhabited

/-- What matters about an element of a report. -/
def entry? : Node → Option Entry
  | .element t cs =>
    if t.name == ⟨some reportUri, "fired-rule"⟩ then
      some (.fired ((t.plain? "context").getD "") (t.plain? "role"))
    else if t.name == ⟨some reportUri, "failed-assert"⟩ then
      let text := Text.normalizeSpace (Node.element t cs).stringValue
      some (.failed ⟨t.plain? "test", t.plain? "location", text⟩)
    else none
  | _ => none

/-- What matters in a report, in document order. -/
def entries (report : Document) : List Entry :=
  report.root.subtree.filterMap entry?

/-- Something that is wrong with a document. -/
structure Finding where
  isError : Bool
  context : Option String
  test : Option String
  location : Option String
  text : String
deriving DecidableEq, Repr, Inhabited

namespace Finding

/-- A finding about the structure of a document: an error that belongs to no rule. -/
def structural (text : String) : Finding := ⟨true, none, none, none, text⟩

/-- The severity of a finding. -/
def severity (f : Finding) : String := if f.isError then "ERROR" else "WARNING"

/-- The text that shows a finding. -/
def display (f : Finding) : String :=
  "'" ++ f.text ++ "' (" ++ f.test.getD "-" ++ " @ " ++ f.location.getD "-" ++ ")"

end Finding

/-- The findings of a report; `active` is the context and role of the rule that fired last. -/
def findingsFrom (active : Option (String × Option String)) : List Entry → List Finding
  | [] => []
  | .fired context role :: rest => findingsFrom (some (context, role)) rest
  | .failed a :: rest =>
    let isError := (active.bind (·.2)) != some warningRole
    ⟨isError, active.map (·.1), a.test, a.location, a.text⟩ :: findingsFrom active rest

/-- **The findings of a report**, in its order. -/
def findings (es : List Entry) : List Finding :=
  findingsFrom none es

/-- Whether there is an error among some findings. -/
def hasErrors (fs : List Finding) : Bool :=
  fs.any (·.isError)

end XmlConformance.Rules
