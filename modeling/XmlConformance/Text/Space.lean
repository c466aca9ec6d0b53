import XmlConformance.Text.Property

/-!
# Text/Space — trimming and splitting at white space

Texts are trimmed and split at white space of any kind (`isBlank`). `normalizeSpace` leaves one
space between words and none around them.
-/

namespace XmlConformance.Text

/-- Removes leading and trailing characters with a property. -/
def trimBy (p : Char → Bool) (cs : List Char) : List Char :=
  ((cs.dropWhile p).reverse.dropWhile p).reverse

/-- Removes leading and trailing white space. -/
def trim (s : String) : String :=
  String.ofList (trimBy isBlank s.toList)

/-- The maximal runs of characters without a property; `current` holds the present run in
reverse. -/
def runsFrom (p : Char → Bool) (current : List Char) : List Char → List (List Char)
  | [] => if current.isEmpty then [] else [current.reverse]
  | c :: rest =>
    if p c then
      if current.isEmpty then runsFrom p [] rest else current.reverse :: runsFrom p [] rest
    else runsFrom p (c :: current) rest

/-- The maximal runs of characters without a property. -/
def runs (p : Char → Bool) (cs : List Char) : List (List Char) :=
  runsFrom p [] cs

/-- The words of a text. -/
def words (s : String) : List String :=
  (runs isBlank s.toList).map String.ofList

/-- The words of a text, with one space between them. -/
def normalizeSpace (s : String) : String :=
  " ".intercalate (words s)

end XmlConformance.Text
