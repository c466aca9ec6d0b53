import XmlConformance.Command.Output
import XmlConformance.Files

/-!
# Main — the command

Reads the arguments, the configuration and the files, and prints the results. A run is a pure
function of the files. It is repeated, with more of them read each time, until all that it requests
are there.
-/

namespace XmlConformance.Command

/-- What is known of the files at some paths. -/
abbrev KnownFiles := List (String × Except String String)

/-- Why a file cannot be read, in the words of the system. -/
def reasonOf (e : IO.Error) : String :=
  match e with
  | .noFileOrDirectory _ code reason => reason ++ " (os error " ++ toString code.toNat ++ ")"
  | e => toString e

/-- Reads a file. -/
def readFile (path : String) : IO (Except String String) := do
  try
    return .ok (← IO.FS.readFile path)
  catch e =>
    return .error (reasonOf e)

/-- The path of a file that a request asks for. -/
def requestedPath? : Request → Option String
  | .document (.path path) => some path
  | .document (.url url) => if url.scheme == "file" then url.toFilePath? else none
  | _ => none

/-- The files that are known, from a directory. -/
def filesOf (directory : String) (known : KnownFiles) : Files :=
  ⟨directory, fun path => (known.lookup path).getD (.error "not read yet")⟩

/-- Repeats a run until all files that it requests are known. -/
partial def settle (c : Config) (directory : String) (known : KnownFiles) : IO Run := do
  let run := c.run (filesOf directory known).library
  match (run.requests.filterMap requestedPath?).find? fun p => (known.lookup p).isNone with
  | none => return run
  | some path => settle c directory ((path, ← readFile path) :: known)

/-- The user's directory for configuration. -/
def userDirectory : IO (Option String) := do
  match ← IO.getEnv "XDG_CONFIG_HOME" with
  | some d => if d.startsWith "/" then return some d
  | none => pure ()
  return (← IO.getEnv "HOME").map (· ++ "/.config")

/-- What a refusal of the arguments says. -/
def usageText (u : Usage) : String :=
  match u with
  | .display .help =>
    "Usage: cmd-validate [--schema URL] [--phase PHASE] [--format text|json] [--config FILE] " ++
      "[--log-level LEVEL] FILE..."
  | .display .version => "cmd-validate 0.1.0"
  | .unknown a => "error: unexpected argument '" ++ a ++ "'"
  | .invalidValue a | .unreadableValue a => "error: invalid value for '" ++ a ++ "'"
  | .repeated a => "error: the argument '" ++ a ++ "' cannot be used multiple times"
  | .unexpectedValue a => "error: unexpected value for '" ++ a ++ "'"
  | .noFiles => "error: no files to validate"

/-- The configuration of a run with some arguments. -/
def configOf (a : Arguments) : IO (Except ConfigError Config) := do
  let directory ← userDirectory
  let candidates := a.config.toList ++ projectFile :: (directory.map userFile).toList
  let known ← candidates.mapM fun p => do return (p, ← readFile p)
  let text? (path : String) : Option String := (known.lookup path).bind (·.toOption)
  return Config.ofArguments ⟨directory, fun p => (text? p).isSome, text?⟩ a

/-- Runs the command; the result is its exit code. -/
def runCommand (arguments : List String) : IO UInt32 := do
  match Arguments.ofList arguments with
  | .error (.display d) =>
    IO.println (usageText (.display d))
    return 0
  | .error u =>
    IO.eprintln (usageText u)
    return 2
  | .ok a =>
    match ← configOf a with
    | .error e =>
      IO.eprintln ("Error: " ++ e.message)
      return 1
    | .ok c =>
      let directory ← IO.currentDir
      let run ← settle c directory.toString []
      run.printed.out.forM fun line => IO.println line
      run.printed.err.forM fun line => IO.eprintln line
      return if run.allValid then 0 else 1

end XmlConformance.Command

/-- The command. -/
def main (arguments : List String) : IO UInt32 :=
  XmlConformance.Command.runCommand arguments
