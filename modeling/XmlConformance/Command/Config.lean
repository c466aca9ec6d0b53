import XmlConformance.Command.Arguments
import XmlConformance.Command.Settings
import XmlConformance.Url.Parser

/-!
# Command/Config — what a run is told to do

The arguments of the command win over the configuration file, and that wins over the defaults. A
configuration file that the arguments name has to be there; otherwise one is looked for, first in
the present directory and then among the files of the user.
-/

namespace XmlConformance.Command

/-- The schema that documents are validated against by default. -/
def defaultSchema : String := "https://infra.clarin.eu/CMDI/1.x/xsd/cmd-component.xsd"

/-- The log level by default. -/
def defaultLogLevel : String := "warn"

/-- The configuration file in the present directory. -/
def projectFile : String := ".cmd-validate.toml"

/-- The configuration file of a user, in a directory for configuration. -/
def userFile (directory : String) : String := directory ++ "/cmd-validate/config.toml"

/-- Where configuration files are looked for. -/
structure Surroundings where
  /-- The user's directory for configuration. -/
  userDirectory : Option String
  isFile : String → Bool
  /-- The text of a file, if it can be read. -/
  read : String → Option String

/-- Why the configuration cannot be determined. -/
inductive ConfigError where
  | unreadable (path : String)
  | malformed (path : String)
  | invalidSchema (text : String)
deriving DecidableEq, Repr, Inhabited

def ConfigError.message : ConfigError → String
  | .unreadable path => "Failed to read config file: " ++ path
  | .malformed path => "Failed to parse config file: " ++ path
  | .invalidSchema text => "Invalid schema URL in config file: " ++ text

/-- What a run is told to do. -/
structure Config where
  schema : Url
  phase : Option String
  format : Format
  files : List String
  logLevel : String
  /-- The configuration file that was used. -/
  configFile : Option String
deriving DecidableEq, Repr, Inhabited

namespace Settings

/-- Reads the configuration file at a path. -/
def load (s : Surroundings) (path : String) : Except ConfigError Settings :=
  match s.read path with
  | none => .error (.unreadable path)
  | some text =>
    match ofText? text with
    | some settings => .ok settings
    | none => .error (.malformed path)

/-- The path of the configuration file to use, if there is one. -/
def path? (s : Surroundings) (named : Option String) : Option String :=
  named.or ((projectFile :: (s.userDirectory.map userFile).toList).find? s.isFile)

end Settings

namespace Config

/-- The schema to validate against. -/
def chooseSchema (a : Arguments) (settings : Settings) : Except ConfigError Url :=
  match a.schema, settings.schema with
  | some url, _ => .ok url
  | none, some text =>
    match Url.ofText text with
    | .ok url => .ok url
    | .error _ => .error (.invalidSchema text)
  | none, none =>
    match Url.ofText defaultSchema with
    | .ok url => .ok url
    | .error _ => .error (.invalidSchema defaultSchema)

/-- **The configuration of a run** with some arguments. -/
def ofArguments (s : Surroundings) (a : Arguments) : Except ConfigError Config := do
  let path := Settings.path? s a.config
  let settings ←
    match path with
    | some p => Settings.load s p
    | none => .ok {}
  let schema ← chooseSchema a settings
  return ⟨schema, a.phase.or settings.phase, a.format.getD .text, a.files,
    a.logLevel.getD defaultLogLevel, path⟩

end Config

end XmlConformance.Command
