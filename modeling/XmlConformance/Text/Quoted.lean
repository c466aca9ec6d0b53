import XmlConformance.Text.Category

/-!
# Text/Quoted — texts in double quotes, as messages show them

Messages show literals and names between double quotes. Quotes, backslashes and the common controls
have a backslash escape, and every other character that does not print is written with its code
point.
-/

namespace XmlConformance.Text

/-- Characters that leave a mark on the page; of the separators only the space does. -/
def isPrintable (c : Char) : Bool :=
  let k := Category.ofChar c
  c == ' ' || !(k.isOther || k.isSeparator)

/-- A character by its code point. -/
def codePoint (c : Char) : String :=
  "\\u\x7b" ++ String.ofList (Nat.toDigits 16 c.toNat) ++ "\x7d"

/-- The escaped form of a character inside quotes. -/
def escaped (c : Char) : String :=
  if c == '\"' then "\\\""
  else if c == '\\' then "\\\\"
  else if c == '\n' then "\\n"
  else if c == '\r' then "\\r"
  else if c == '\t' then "\\t"
  else if c.toNat = 0 then "\\0"
  else if isPrintable c then c.toString
  else codePoint c

/-- A text in double quotes. A mark in front has no letter to sit on and is written by its code
point. -/
def quoted (s : String) : String :=
  let body :=
    match s.toList with
    | [] => ""
    | c :: rest =>
      (match Category.ofChar c with
        | .nonspacingMark | .enclosingMark => codePoint c
        | _ => escaped c) ++ String.join (rest.map escaped)
  "\"" ++ body ++ "\""

end XmlConformance.Text
