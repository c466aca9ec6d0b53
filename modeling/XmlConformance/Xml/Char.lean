/-!
# Xml/Char — the character classes of XML

Which characters a document may hold, which begin and continue a name, and which are white space in
markup. Colons are name characters here; whoever reads a qualified name splits it.
-/

namespace XmlConformance.Xml

/-- White space of markup. -/
def isSpace (c : Char) : Bool :=
  c == ' ' || c == '\t' || c == '\n' || c == '\r'

/-- Characters that a document may hold. -/
def isXmlChar (c : Char) : Bool :=
  if c.toNat < 0x20 then isSpace c else c.toNat != 0xfffe && c.toNat != 0xffff

/-- Runs of further characters that begin a name. -/
def nameStartRuns : List (Nat × Nat) :=
  [(0xc0, 0xd6), (0xd8, 0xf6), (0xf8, 0x2ff), (0x370, 0x37d), (0x37f, 0x1fff), (0x200c, 0x200d),
   (0x2070, 0x218f), (0x2c00, 0x2fef), (0x3001, 0xd7ff), (0xf900, 0xfdcf), (0xfdf0, 0xfffd),
   (0x10000, 0xeffff)]

/-- Whether a code point lies in one of a few runs. -/
def inRuns (runs : List (Nat × Nat)) (code : Nat) : Bool :=
  runs.any fun (first, last) => first ≤ code && code ≤ last

/-- Characters that begin a name. -/
def isNameStart (c : Char) : Bool :=
  if c.toNat ≤ 128 then c.isAlpha || c == ':' || c == '_' else inRuns nameStartRuns c.toNat

/-- Characters that continue a name. -/
def isNameChar (c : Char) : Bool :=
  if c.toNat ≤ 128 then c.isAlphanum || c == ':' || c == '_' || c == '-' || c == '.'
  else
    c.toNat == 0xb7 || inRuns [(0x300, 0x36f), (0x203f, 0x2040)] c.toNat ||
      inRuns nameStartRuns c.toNat

end XmlConformance.Xml
