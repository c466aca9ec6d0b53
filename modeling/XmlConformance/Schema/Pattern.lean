import XmlConformance.Regex.Parser
import XmlConformance.Schema.Component

/-!
# Schema/Pattern — the regular expressions of schemas

Schemas write regular expressions without anchors, for the whole of a value, and have escapes for
the characters of names. `Regex` has anchors and lacks those escapes, so the escapes are
spelled out, and `^` and `$` are escaped to stand for themselves, except that `^` negates a class.
-/

namespace XmlConformance.Schema

/-- An escape, spelled out for `Regex`. -/
def spellEscape : Char → List Char
  | 'i' => "[_:A-Za-z]".toList
  | 'I' => "[^_:A-Za-z]".toList
  | 'c' => "[-._:A-Za-z0-9]".toList
  | 'C' => "[^-._:A-Za-z0-9]".toList
  | other => ['\\', other]

/-- A regular expression, spelled out for `Regex`; `before` is the character in front of it. -/
def spellFrom : (before : Option Char) → List Char → List Char
  | _, [] => []
  | _, ['\\'] => ['\\', '\\']
  | _, '\\' :: escaped :: rest => spellEscape escaped ++ spellFrom (some '\\') rest
  | before, '^' :: rest =>
    (if before == some '[' then ['^'] else ['\\', '^']) ++ spellFrom (some '^') rest
  | _, '$' :: rest => '\\' :: '$' :: spellFrom (some '$') rest
  | _, c :: rest => c :: spellFrom (some c) rest

/-- A regular expression of a schema, spelled out for `Regex`. -/
def spell (source : String) : String :=
  String.ofList (spellFrom none source.toList)

/-- Reads a regular expression of a schema. -/
def Pattern.ofText? (source : String) : Option Pattern :=
  let spelled := "^(?:" ++ spell source ++ ")$"
  (Regex.ofText? spelled).map fun r => ⟨source, spelled, r⟩

end XmlConformance.Schema
