import XmlConformance.Url.Parser

/-!
# Command/Arguments — the arguments of the command

Options have a value, which stands in the next argument or is attached to the option. What is no
option names a file, and behind `--` everything does. A value is read when the argument behind it is
looked at, so of two faults an unknown option can win over a bad value in front of it.
-/

namespace XmlConformance.Command

/-- How results are printed. -/
inductive Format where
  | text
  | json
deriving DecidableEq, Repr, Inhabited

/-- An option with a value. -/
inductive Setting where
  | schema
  | phase
  | format
  | config
  | logLevel
deriving DecidableEq, Repr, Inhabited

/-- An option without a value. -/
inductive Display where
  | help
  | version
deriving DecidableEq, Repr, Inhabited

/-- Why arguments are not accepted, or what they ask for instead of a run. -/
inductive Usage where
  | unknown (argument : String)
  | invalidValue (argument : String)
  | unreadableValue (argument : String)
  | repeated (argument : String)
  | unexpectedValue (argument : String)
  | noFiles
  | display (d : Display)
deriving DecidableEq, Repr, Inhabited

/-- The kind of a refusal. -/
def Usage.kind : Usage → String
  | .unknown _ => "UnknownArgument"
  | .invalidValue _ => "InvalidValue"
  | .unreadableValue _ => "ValueValidation"
  | .repeated _ => "ArgumentConflict"
  | .unexpectedValue _ => "TooManyValues"
  | .noFiles => "MissingRequiredArgument"
  | .display .help => "DisplayHelp"
  | .display .version => "DisplayVersion"

/-- The long name of an option. -/
def Setting.name : Setting → String
  | .schema => "schema"
  | .phase => "phase"
  | .format => "format"
  | .config => "config"
  | .logLevel => "log-level"

def Setting.all : List Setting := [.schema, .phase, .format, .config, .logLevel]

/-- What the arguments say. -/
structure Arguments where
  schema : Option Url := none
  phase : Option String := none
  format : Option Format := none
  config : Option String := none
  logLevel : Option String := none
  files : List String := []
deriving DecidableEq, Repr, Inhabited

namespace Arguments

/-- Whether an option was given. -/
def has (a : Arguments) : Setting → Bool
  | .schema => a.schema.isSome
  | .phase => a.phase.isSome
  | .format => a.format.isSome
  | .config => a.config.isSome
  | .logLevel => a.logLevel.isSome

/-- Sets an option, which can be done once only. -/
def set (a : Arguments) (s : Setting) (value : String) : Except Usage Arguments :=
  if a.has s then .error (.repeated s.name)
  else
    match s with
    | .schema =>
      match Url.ofText value with
      | .ok url => .ok { a with schema := some url }
      | .error _ => .error (.unreadableValue s.name)
    | .phase => .ok { a with phase := some value }
    | .format =>
      match value with
      | "text" => .ok { a with format := some .text }
      | "json" => .ok { a with format := some .json }
      | _ => .error (.invalidValue s.name)
    | .config =>
      if value.isEmpty then .error (.invalidValue s.name)
      else .ok { a with config := some value }
    | .logLevel => .ok { a with logLevel := some value }

/-- Adds names of files. -/
def addFiles (a : Arguments) (names : List String) : Except Usage Arguments :=
  if names.any String.isEmpty then .error (.invalidValue "FILE")
  else .ok { a with files := a.files ++ names }

end Arguments

/-- What was looked at but not read yet. -/
inductive Pending where
  | nothing
  /-- An option whose value is to come. -/
  | awaiting (s : Setting)
  | value (s : Setting) (text : String)
  | files (names : List String)
deriving DecidableEq, Repr, Inhabited

/-- How far arguments were read. -/
structure Progress where
  arguments : Arguments := {}
  pending : Pending := .nothing
deriving DecidableEq, Repr, Inhabited

namespace Progress

/-- Reads what is pending. -/
def settle (p : Progress) : Except Usage Arguments :=
  match p.pending with
  | .nothing => .ok p.arguments
  | .awaiting s => .error (.invalidValue s.name)
  | .value s text => p.arguments.set s text
  | .files names => p.arguments.addFiles names

/-- Takes an option, with the value that is attached to it, if any. -/
def option (p : Progress) (s : Setting) (attached : Option String) : Except Usage Progress := do
  let a ← p.settle
  match attached with
  | some v => return ⟨← a.set s v, .nothing⟩
  | none => return ⟨a, .awaiting s⟩

/-- Takes an option that asks for a display. -/
def display (p : Progress) (d : Display) : Except Usage Progress := do
  let _ ← p.settle
  .error (.display d)

/-- Takes the name of a file. -/
def file (p : Progress) (name : String) : Except Usage Progress :=
  match p.pending with
  | .files names => .ok { p with pending := .files (names ++ [name]) }
  | _ => do
    let a ← p.settle
    return ⟨a, .files [name]⟩

/-- Takes an argument with two hyphens in front. -/
def long (p : Progress) (cs : List Char) : Except Usage Progress :=
  let name := String.ofList (cs.takeWhile (· != '='))
  let attached :=
    match cs.dropWhile (· != '=') with
    | _ :: value => some (String.ofList value)
    | [] => none
  match Setting.all.find? (·.name == name) with
  | some s => p.option s attached
  | none =>
    let displayed (d : Display) : Except Usage Progress :=
      if attached.isSome then .error (.unexpectedValue name) else p.display d
    match name with
    | "help" => displayed .help
    | "version" => displayed .version
    | _ => .error (.unknown name)

/-- Takes an argument with one hyphen in front. -/
def short (p : Progress) (c : Char) (rest : List Char) : Except Usage Progress :=
  match c with
  | 's' =>
    match rest with
    | [] => p.option .schema none
    | '=' :: value => p.option .schema (some (String.ofList value))
    | value => p.option .schema (some (String.ofList value))
  | 'h' => p.display .help
  | 'V' => p.display .version
  | c => .error (.unknown c.toString)

/-- Takes an argument that is no option. -/
def plain (p : Progress) (argument : String) : Except Usage Progress :=
  match p.pending with
  | .awaiting s => .ok { p with pending := .value s argument }
  | _ => p.file argument

/-- Takes an argument. -/
def take (p : Progress) (argument : String) : Except Usage Progress :=
  match argument.toList with
  | '-' :: '-' :: cs => p.long cs
  | '-' :: c :: rest => p.short c rest
  | _ => p.plain argument

/-- Takes arguments. -/
def takeAll (p : Progress) : List String → Except Usage Progress
  | [] => .ok p
  | "--" :: names => names.foldlM file p
  | a :: rest => do
    let p ← p.take a
    takeAll p rest

end Progress

/-- **Reads the arguments of the command.** -/
def Arguments.ofList (arguments : List String) : Except Usage Arguments := do
  let p ← Progress.takeAll {} arguments
  let a ← p.settle
  if a.files.isEmpty then .error .noFiles else return a

end XmlConformance.Command
