import XmlConformance.Loading

/-!
# Files — documents in files

The documents of a library may be files. A path is seen from a directory; the base URL of a document
that is read from a path is that of the file.
-/

namespace XmlConformance

/-- Files as they are seen from a directory. -/
structure Files where
  directory : String
  /-- The text of the file at a path, or why it cannot be read. -/
  read : String → Except String String

namespace Files

/-- A path from the root of the file system. -/
def absolute (f : Files) (path : String) : String :=
  match path.toList with
  | '/' :: _ => path
  | _ => f.directory ++ "/" ++ path

/-- The text of a file. -/
def readText (f : Files) (path : String) : Except Failure String :=
  (f.read path).mapError (.file path)

/-- The document in the file at a path. -/
def atPath (f : Files) (path : String) : Except Failure Document := do
  let text ← f.readText path
  Document.ofText text (Url.ofFilePath? (f.absolute path))

/-- The document in the file at a URL. -/
def atUrl (f : Files) (url : Url) : Except Failure Document :=
  if url.scheme == "file" then
    match url.toFilePath? with
    | none => .error (.reference url.toString .notLocal)
    | some path => do
      let text ← f.readText path
      Document.ofText text (some url)
  else if url.scheme == "http" || url.scheme == "https" then
    .error (.fetch url.toString "only files can be read")
  else .error (.scheme url.scheme)

/-- The library of the documents in files. -/
def library (f : Files) : Library := ⟨f.atUrl, f.atPath⟩

end Files

end XmlConformance
