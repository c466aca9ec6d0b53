/-!
# Xml/Writer — writing documents piece by piece

A writer keeps the text written so far and the elements that are open. The characters that markup
would give a meaning to are written as references, and a line feed in an attribute value is too, so
that it survives normalization. An element without content closes itself.
-/

namespace XmlConformance.Xml

/-- A text under construction. -/
structure Writer where
  output : String
  /-- The names of the open elements, innermost first. -/
  opened : List String
  /-- Whether the last start tag may still get attributes. -/
  inTag : Bool
deriving Repr, Inhabited, DecidableEq

namespace Writer

/-- A character of an attribute value as it is written. -/
def escapeInValue (c : Char) : List Char :=
  match c with
  | '&' => ['&', 'a', 'm', 'p', ';']
  | '<' => ['&', 'l', 't', ';']
  | '>' => ['&', 'g', 't', ';']
  | '\"' => ['&', 'q', 'u', 'o', 't', ';']
  | '\n' => ['&', '#', '1', '0', ';']
  | c => [c]

/-- A character of text as it is written. -/
def escapeInText (c : Char) : List Char :=
  match c with
  | '&' => ['&', 'a', 'm', 'p', ';']
  | '<' => ['&', 'l', 't', ';']
  | '>' => ['&', 'g', 't', ';']
  | c => [c]

/-- An attribute value as it is written. -/
def valueText (s : String) : String :=
  String.ofList (s.toList.flatMap escapeInValue)

/-- A text as it is written. -/
def contentText (s : String) : String :=
  String.ofList (s.toList.flatMap escapeInText)

/-- Nothing written. -/
def empty : Writer := ⟨"", [], false⟩

/-- Ends a start tag that may still get attributes. -/
def closeTag (w : Writer) : Writer :=
  if w.inTag then { w with output := w.output ++ ">", inTag := false } else w

/-- Starts an element. -/
def start (w : Writer) (name : String) : Writer :=
  let w := w.closeTag
  ⟨w.output ++ "<" ++ name, name :: w.opened, true⟩

/-- Adds an attribute to the element just started. -/
def attr (w : Writer) (name value : String) : Writer :=
  { w with output := w.output ++ " " ++ name ++ "=\"" ++ valueText value ++ "\"" }

/-- Writes text. -/
def text (w : Writer) (s : String) : Writer :=
  let w := w.closeTag
  { w with output := w.output ++ contentText s }

/-- Ends the innermost open element. -/
def endElement (w : Writer) : Writer :=
  match w.opened with
  | [] => w
  | name :: outer =>
    if w.inTag then ⟨w.output ++ "/>", outer, false⟩
    else ⟨w.output ++ "</" ++ name ++ ">", outer, false⟩

/-- The finished text, in which everything is closed. -/
def finish (w : Writer) : String :=
  (w.opened.foldl (fun w _ => w.endElement) w).output

end Writer

end XmlConformance.Xml
