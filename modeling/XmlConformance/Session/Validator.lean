import XmlConformance.Schema.Conformance
import XmlConformance.Session.Pipeline

/-!
# Session/Validator — validating documents against a grammar and its rules

A document is checked against the structure that a grammar demands, and then against the rules
embedded in the grammar. Grammar and rules are compiled when they are first needed and kept
(`Compiled`); the rules are kept for one phase, and forgotten when another is chosen. What could not
be compiled is tried again.

A session holds what its last validation found. The findings of rules are read off the report when
they are first asked for.
-/

namespace XmlConformance.Session

open Rules Schema

/-- What documents are validated against. -/
structure Validator where
  grammar : Url
  resolver : Resolver
  pipeline : Pipeline

/-- What was compiled for a validator so far, and the phase chosen for it. -/
structure Compiled where
  phase : Option String := none
  grammar : Option Grammar := none
  /-- The rules, with the phase that they were compiled for. -/
  rules : Option (Option String × RuleSet) := none
deriving Inhabited

namespace Compiled

/-- Chooses a phase; rules that were compiled for another one are forgotten. -/
def setPhase (c : Compiled) (phase : Option String) : Compiled :=
  { c with phase, rules := c.rules.filter (·.1 == phase) }

/-- The rules that were compiled for the chosen phase. -/
def rules? (c : Compiled) : Option RuleSet :=
  (c.rules.filter (·.1 == c.phase)).map (·.2)

end Compiled

/-- A computation that may compile things and keep them. -/
abbrev Action (α : Type) := Compiled → Tracked Error α × Compiled

namespace Action

variable {α β : Type}

def pure (a : α) : Action α := fun c => (.pure a, c)

def bind (x : Action α) (f : α → Action β) : Action β := fun c =>
  match x c with
  | (⟨.ok a, asked⟩, c) =>
    match f a c with
    | (result, c) => (⟨result.outcome, asked ++ result.requests⟩, c)
  | (⟨.error e, asked⟩, c) => (⟨.error e, asked⟩, c)

instance : Monad Action where
  pure := Action.pure
  bind := Action.bind

/-- A computation that compiles nothing. -/
def of (x : Tracked Error α) : Action α := fun c => (x, c)

/-- What is there already, or else what `make` gives, which is then kept. -/
def cached (find : Compiled → Option α) (make : Compiled → Tracked Error α)
    (keep : α → Compiled → Compiled) : Action α := fun c =>
  match find c with
  | some a => (.pure a, c)
  | none =>
    let made := make c
    match made.outcome with
    | .ok a => (made, keep a c)
    | .error _ => (made, c)

end Action

namespace Validator

/-- Compiles the grammar. -/
def compileGrammar (v : Validator) (library : Library) : Tracked Error Grammar :=
  (do
    let d ← library.load (.url v.grammar)
    (Grammar.compile library v.resolver d).asking .grammar : Loading Grammar).mapError
      (.grammar v.grammar)

/-- Compiles the rules of a phase. -/
def compileRules (v : Validator) (library : Library) (phase : Option String) :
    Tracked Error RuleSet := do
  let d ← (library.load (.url v.grammar)).mapError (.rules .extract)
  let schema ← v.pipeline.run library phase d
  ((Tracked.of (RuleSet.compileAny schema)).asking .rules).mapError (.rules .load)

/-- The grammar, compiled now unless it was compiled before. -/
def ensureGrammar (v : Validator) (library : Library) : Action Grammar :=
  .cached (·.grammar) (fun _ => v.compileGrammar library) fun g c => { c with grammar := some g }

/-- The rules of the chosen phase, compiled now unless they were compiled before. -/
def ensureRules (v : Validator) (library : Library) : Action RuleSet :=
  .cached Compiled.rules? (fun c => v.compileRules library c.phase) fun rs c =>
    { c with rules := some (c.phase, rs) }

/-- Compiles what validations need. -/
def prepare (v : Validator) (library : Library) : Action Unit := do
  let _ ← v.ensureGrammar library
  let _ ← v.ensureRules library

end Validator

/-! ## Sessions -/

/-- What a session keeps of its last validation: findings, and a report that was not read yet. -/
structure Record where
  found : List Finding := []
  pending : Option (List Entry) := none
deriving Inhabited, DecidableEq

namespace Record

/-- The record after its report, if there is one, was read. -/
def settle (r : Record) : Record :=
  match r.pending with
  | some es => ⟨r.found ++ Rules.findings es, none⟩
  | none => r

/-- What the last validation found. -/
def findings (r : Record) : List Finding := r.settle.found

end Record

/-- The result of a validation: whether the document is valid, and what the session keeps. -/
structure Verdict where
  isValid : Bool
  record : Record
deriving Inhabited, DecidableEq

namespace Validator

/-- What the rules have to say about a document. -/
def evaluate (rs : RuleSet) (d : Document) : Except Failure (List Entry) :=
  (rs.run [] d).map entries

/-- **Validates a document.** -/
def validateDocument (v : Validator) (library : Library) (d : Document) : Action Verdict := do
  let g ← v.ensureGrammar library
  match ← Action.of (.of ((g.conformance d).mapError .check)) with
  | .invalid diagnostic => return ⟨false, ⟨[.structural diagnostic], none⟩⟩
  | .valid =>
    let rs ← v.ensureRules library
    let es ← Action.of (.of ((evaluate rs d).mapError .evaluation))
    return ⟨!hasErrors (Rules.findings es), ⟨[], some es⟩⟩

/-- Loads and validates a document. -/
def validate (v : Validator) (library : Library) (source : Source) : Action Verdict := do
  let d ← Action.of ((library.load source).mapError (.document source.describe))
  v.validateDocument library d

end Validator

/-- What a session keeps of a validation; one that failed leaves nothing. -/
def recordAfter (result : Tracked Error Verdict) : Record :=
  match result.outcome with
  | .ok verdict => verdict.record
  | .error _ => {}

end XmlConformance.Session
