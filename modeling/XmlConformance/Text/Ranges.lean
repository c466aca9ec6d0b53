/-!
# Text/Ranges — sets and functions of code points given by runs

Properties of characters are long lists of runs of code points. `Ranges` holds such a list as an
ascending array and decides membership by bisection; `Ranges.find?` does the same for a table that
carries a value with every run. A table is written as a text of hexadecimal words, `41-5a` for a run
and `aa` for a single code point.
-/

namespace XmlConformance.Text

/-- Runs `(first, last)` of code points in ascending order. -/
structure Ranges where
  runs : Array (Nat × Nat)
deriving Inhabited, Repr, DecidableEq

namespace Ranges

variable {α : Type}

/-- Value of a digit in a base up to sixteen; no digit counts as zero. -/
def digitValue (c : Char) : Nat :=
  if c.isDigit then c.toNat - 48
  else if 'a' ≤ c && c ≤ 'f' then c.toNat - 87
  else if 'A' ≤ c && c ≤ 'F' then c.toNat - 55
  else 0

/-- The number that hexadecimal digits stand for. -/
def readHex (cs : List Char) : Nat :=
  cs.foldl (fun n c => 16 * n + digitValue c) 0

/-- The number that decimal digits stand for. -/
def readDecimal (cs : List Char) : Nat :=
  cs.foldl (fun n c => 10 * n + digitValue c) 0

/-- Bisection between `lo` and `hi`: the value of the run that holds `code`, with the run's first
code point. -/
def search (table : Array (Nat × Nat × α)) (code : Nat) : Nat → Nat → Nat → Option (Nat × α)
  | 0, _, _ => none
  | steps + 1, lo, hi =>
    if hi ≤ lo then none
    else
      let mid := (lo + hi) / 2
      match table[mid]? with
      | none => none
      | some (first, last, value) =>
        if code < first then search table code steps lo mid
        else if last < code then search table code steps (mid + 1) hi
        else some (first, value)

/-- The run of an ascending table that holds a code point: its first code point and its value. -/
def findRun? (table : Array (Nat × Nat × α)) (code : Nat) : Option (Nat × α) :=
  search table code (table.size + 1) 0 table.size

/-- The value that an ascending table gives a code point. -/
def find? (table : Array (Nat × Nat × α)) (code : Nat) : Option α :=
  (findRun? table code).map (·.2)

/-- Reads one word of a written list of runs. -/
def readWord (word : String) : Nat × Nat :=
  match word.splitOn "-" with
  | [first, last] => (readHex first.toList, readHex last.toList)
  | _ => (readHex word.toList, readHex word.toList)

/-- The runs written in a text. -/
def ofText (text : String) : Ranges :=
  ⟨((text.splitOn " ").map readWord).toArray⟩

/-- Bisection between `lo` and `hi`: whether a run holds `code`. -/
def containsFrom (runs : Array (Nat × Nat)) (code : Nat) : Nat → Nat → Nat → Bool
  | 0, _, _ => false
  | steps + 1, lo, hi =>
    if hi ≤ lo then false
    else
      let mid := (lo + hi) / 2
      match runs[mid]? with
      | none => false
      | some (first, last) =>
        if code < first then containsFrom runs code steps lo mid
        else if last < code then containsFrom runs code steps (mid + 1) hi
        else true

/-- Whether a code point lies in one of the runs. -/
def contains (t : Ranges) (code : Nat) : Bool :=
  containsFrom t.runs code (t.runs.size + 1) 0 t.runs.size

end Ranges

end XmlConformance.Text
