import XmlConformance.Path.Location
import XmlConformance.Rules.RuleSet

/-!
# Rules/Evaluation — applying a rule set to a document

Within a pattern every node and attribute is handled by the first rule whose context selects it, in
document order (`firings`). What a run finds is kept as data (`PatternOutcome`), from which the
report is written.
-/

namespace XmlConformance.Rules

open Xml XmlConformance.Path

/-- What a check of a rule has to say about an item. -/
structure Remark where
  check : Check
  text : String
deriving Inhabited

/-- What a rule has to say about an item on which it fires. -/
structure RuleOutcome where
  rule : Rule
  item : Item
  remarks : List Remark
deriving Inhabited

/-- What a pattern has to say. -/
structure PatternOutcome where
  pattern : Pattern
  outcomes : List RuleOutcome
deriving Inhabited

/-- What expressions of a run are given, apart from variables and the context. -/
structure Scene where
  root : Node
  keys : Keys

namespace Scene

/-- Goes through a list, passing on the indexes that were built. -/
def each {α β : Type} (f : α → Run β) : List α → Run (List β)
  | [], indexes => .ok ([], indexes)
  | a :: rest, indexes => do
    let (b, indexes) ← f a indexes
    let (more, indexes) ← each f rest indexes
    return (b :: more, indexes)

/-- The value of a variable. -/
def valueOf (s : Scene) (vars : Variables) (item : Item) : Value → Run Sequence
  | .expression e, indexes => e.evaluate s.root s.keys vars item indexes
  | .literal text, indexes => .ok ([.string text], indexes)

/-- Binds variables one after the other; the value of each may use those before it. -/
def bindAll (s : Scene) (item : Item) : List Binding → Variables → Run Variables
  | [], vars, indexes => .ok (vars, indexes)
  | b :: rest, vars, indexes => do
    let (value, indexes) ← s.valueOf vars item b.value indexes
    bindAll s item rest ((b.variableName, value) :: vars) indexes

/-- The text of a piece of a message. -/
def partText (s : Scene) (vars : Variables) (item : Item) : MessagePart → Run String
  | .text t, indexes => .ok (t, indexes)
  | .valueOf e, indexes => e.evaluateString s.root s.keys vars item indexes
  | .nameOf none, indexes => .ok (item.name s.root, indexes)
  | .nameOf (some e), indexes => do
    let (items, indexes) ← e.evaluate s.root s.keys vars item indexes
    return ((items.head?.map (Item.name s.root)).getD "", indexes)

/-- The text of a message. -/
def messageText (s : Scene) (vars : Variables) (item : Item) (parts : List MessagePart) :
    Run String := fun indexes => do
  let (texts, indexes) ← each (s.partText vars item) parts indexes
  return (String.join texts, indexes)

/-- What a check has to say about an item, if anything. -/
def remark? (s : Scene) (vars : Variables) (item : Item) (c : Check) :
    Run (Option Remark) := fun indexes => do
  let (holds, indexes) ← c.test.evaluateBoolean s.root s.keys vars item indexes
  if holds == (c.kind == .report) then
    let (text, indexes) ← s.messageText vars item c.message indexes
    return (some ⟨c, text⟩, indexes)
  else return (none, indexes)

/-- What a rule has to say about an item. -/
def ruleOutcome (s : Scene) (vars : Variables) (firing : Item × Rule) :
    Run RuleOutcome := fun indexes => do
  let (item, rule) := firing
  let (vars, indexes) ← s.bindAll item rule.bindings vars indexes
  let (remarks, indexes) ← each (s.remark? vars item) rule.checks indexes
  return (⟨rule, item, remarks.filterMap id⟩, indexes)

/-- The nodes and attributes that the context of a rule selects. -/
def selections (s : Scene) (vars : Variables) (rule : Rule) :
    Run (List (Item × Rule)) := fun indexes => do
  let (items, indexes) ← rule.context.evaluate s.root s.keys vars (.node []) indexes
  return ((items.filter Item.isNode).map fun item => (item, rule), indexes)

/-- Drops every selection of the item that the selection in front is of. -/
def dropRepeatedFrom (last : Item) : List (Item × Rule) → List (Item × Rule)
  | [] => []
  | f :: rest =>
    if f.1.samePlace last then dropRepeatedFrom last rest else f :: dropRepeatedFrom f.1 rest

/-- Of the selections of each item the first, in document order of the items. -/
def firstOfEach (fs : List (Item × Rule)) : List (Item × Rule) :=
  match fs.mergeSort fun a b => a.1.le b.1 with
  | [] => []
  | f :: rest => f :: dropRepeatedFrom f.1 rest

/-- The items on which the rules of a pattern fire, each with its rule. -/
def firings (s : Scene) (vars : Variables) (rules : List Rule) :
    Run (List (Item × Rule)) := fun indexes => do
  let (found, indexes) ← each (s.selections vars) rules indexes
  return (firstOfEach found.flatten, indexes)

/-- What a pattern has to say. -/
def patternOutcome (s : Scene) (vars : Variables) (p : Pattern) :
    Run PatternOutcome := fun indexes => do
  let (vars, indexes) ← s.bindAll (.node []) p.bindings vars indexes
  let (fs, indexes) ← s.firings vars p.rules indexes
  let (outcomes, indexes) ← each (s.ruleOutcome vars) fs indexes
  return (⟨p, outcomes⟩, indexes)

end Scene

namespace RuleSet

/-- What the patterns of a rule set have to say about a document; parameters are variables. -/
def outcomes (rs : RuleSet) (parameters : List (String × String)) (root : Node) :
    Except Failure (List PatternOutcome) := do
  let s : Scene := ⟨root, rs.keys⟩
  let given : Variables := parameters.map fun (name, value) => (name, [.string value])
  let (vars, indexes) ← s.bindAll (.node []) rs.bindings given []
  let (found, _) ← Scene.each (s.patternOutcome vars) rs.patterns indexes
  return found

end RuleSet

end XmlConformance.Rules
