import XmlConformance.Command.Config
import XmlConformance.Session.Validator

/-!
# Command/Output — validating files and printing the results

The files are validated one after the other, in one session. For each there is either a block of
text or a line with a JSON object. As text, files that could not be validated are reported apart
from the others.
-/

namespace XmlConformance.Command

open Rules Session

/-! ## Results -/

/-- The result for a file. -/
structure FileResult where
  file : String
  /-- Whether the file is valid and what was found, or why it could not be validated. -/
  outcome : Except String (Bool × List Finding)

namespace FileResult

def isValid (r : FileResult) : Bool :=
  match r.outcome with
  | .ok (valid, _) => valid
  | .error _ => false

/-- The status of a file. -/
def status (r : FileResult) : String :=
  match r.outcome with
  | .ok (true, _) => "valid"
  | .ok (false, _) => "invalid"
  | .error _ => "failed"

end FileResult

/-! ## JSON -/

/-- A character inside a JSON string. -/
def jsonChar (c : Char) : String :=
  if c == '\"' then "\\\""
  else if c == '\\' then "\\\\"
  else if c == '\n' then "\\n"
  else if c == '\r' then "\\r"
  else if c == '\t' then "\\t"
  else if c == '\x08' then "\\b"
  else if c == '\x0c' then "\\f"
  else if c.toNat < 0x20 then
    let digits := Nat.toDigits 16 c.toNat
    "\\u" ++ String.ofList (List.replicate (4 - digits.length) '0' ++ digits)
  else c.toString

/-- A JSON string. -/
def jsonString (s : String) : String :=
  "\"" ++ String.join (s.toList.map jsonChar) ++ "\""

/-- A JSON string or `null`. -/
def jsonString? (s : Option String) : String :=
  (s.map jsonString).getD "null"

/-- A JSON object with members as they are written. -/
def jsonObject (members : List (String × String)) : String :=
  "\x7b" ++ ",".intercalate (members.map fun (k, v) => jsonString k ++ ":" ++ v) ++ "\x7d"

def jsonFinding (f : Finding) : String :=
  jsonObject
    [("is_error", if f.isError then "true" else "false"), ("context", jsonString? f.context),
     ("test", jsonString? f.test), ("location", jsonString? f.location),
     ("text", jsonString f.text)]

namespace FileResult

/-- The result for a file as a JSON object. -/
def json (r : FileResult) : String :=
  let findings :=
    match r.outcome with
    | .ok (_, fs) => fs
    | .error _ => []
  let error :=
    match r.outcome with
    | .ok _ => []
    | .error e => [("error", jsonString e)]
  jsonObject
    ([("file", jsonString r.file), ("status", jsonString r.status),
      ("findings", "[" ++ ",".intercalate (findings.map jsonFinding) ++ "]")] ++ error)

end FileResult

/-! ## Printing -/

/-- What is printed, by lines: results, and files that could not be validated. -/
structure Printed where
  out : List String := []
  err : List String := []
deriving DecidableEq, Repr, Inhabited

/-- How lines about a file begin. -/
def headline (file rest : String) : String :=
  "CMD validate[" ++ file ++ "] " ++ rest

/-- The lines about a finding. -/
def findingLines (f : Finding) : List String :=
  [match f.location with
    | some l => f.severity ++ " at " ++ l
    | none => f.severity,
   "  " ++ f.text]

/-- Prints the result for a file. -/
def Printed.add (p : Printed) (format : Format) (r : FileResult) : Printed :=
  match format with
  | .json => { p with out := p.out ++ [r.json] }
  | .text =>
    match r.outcome with
    | .ok (_, fs) =>
      { p with out := p.out ++ headline r.file r.status :: fs.flatMap findingLines }
    | .error e => { p with err := p.err ++ [headline r.file ("failed: " ++ e)] }

/-! ## Runs -/

/-- A run: what is printed, whether all files are valid, and what was requested. -/
structure Run where
  printed : Printed := {}
  allValid : Bool := true
  requests : List Request := []
deriving Inhabited

/-- The result for a file, from the result of its validation. -/
def resultOf (file : String) (result : Tracked Session.Error Verdict) : FileResult :=
  match result.outcome with
  | .ok verdict => ⟨file, .ok (verdict.isValid, verdict.record.findings)⟩
  | .error e => ⟨file, .error e.chain⟩

/-- Validates files, which extends a run. -/
def validateFiles (v : Validator) (library : Library) (format : Format) :
    List String → Compiled → Run → Run
  | [], _, run => run
  | file :: rest, c, run =>
    let (result, c) := v.validate library (.path file) c
    let r := resultOf file result
    validateFiles v library format rest c
      ⟨run.printed.add format r, run.allValid && r.isValid, run.requests ++ result.requests⟩

/-- **Validates the files of a configuration.** -/
def Config.run (c : Config) (library : Library) : Run :=
  let v : Validator := ⟨c.schema, fun _ => none, {}⟩
  validateFiles v library c.format c.files (Compiled.setPhase {} c.phase) {}

end XmlConformance.Command
