import XmlConformance.Regex.CharSet

/-!
# Regex/Basic — regular expressions and matching

Regular expressions over characters, with assertions about the place between two characters.
Matching goes through a text once and keeps the expressions that what follows has to match
(`remainders`); so it needs no search, and time grows with the text and the number of distinct
remainders only. `isMatch` asks whether some part of a text matches.
-/

namespace XmlConformance.Regex

/-- Assertions about a place. -/
inductive Look where
  | start
  | finish
  | lineStart
  | lineFinish
  | wordBoundary
  | noWordBoundary
  | wordStart
  | wordFinish
  | wordStartHalf
  | wordFinishHalf
deriving DecidableEq, Repr, Inhabited

end Regex

/-- A regular expression. -/
inductive Regex where
  | empty
  | chars (set : Regex.CharSet)
  | look (l : Regex.Look)
  | seq (a b : Regex)
  | alt (a b : Regex)
  /-- `least` to `most` matches in a row; `none` stands for any number. -/
  | repeated (a : Regex) (least : Nat) (most : Option Nat)
deriving Inhabited, DecidableEq

namespace Regex

/-- A place in a text: the characters before and behind it. -/
structure Place where
  before : Option Char
  behind : Option Char

/-- Whether there is a word character at one side of a place. -/
def isWordAt : Option Char → Bool
  | some c => isWordChar c
  | none => false

namespace Look

/-- Whether an assertion holds at a place. -/
def holds (l : Look) (p : Place) : Bool :=
  match l with
  | .start => p.before.isNone
  | .finish => p.behind.isNone
  | .lineStart => p.before.isNone || p.before == some '\n'
  | .lineFinish => p.behind.isNone || p.behind == some '\n'
  | .wordBoundary => isWordAt p.before != isWordAt p.behind
  | .noWordBoundary => isWordAt p.before == isWordAt p.behind
  | .wordStart => !isWordAt p.before && isWordAt p.behind
  | .wordFinish => isWordAt p.before && !isWordAt p.behind
  | .wordStartHalf => !isWordAt p.before
  | .wordFinishHalf => !isWordAt p.behind

end Look

/-- Whether an expression matches the empty text at a place. -/
def matchesEmpty : Regex → Place → Bool
  | .empty, _ => true
  | .chars _, _ => false
  | .look l, p => l.holds p
  | .seq a b, p => a.matchesEmpty p && b.matchesEmpty p
  | .alt a b, p => a.matchesEmpty p || b.matchesEmpty p
  | .repeated a least _, p => least == 0 || a.matchesEmpty p

/-- One expression behind another. -/
def andThen (a b : Regex) : Regex :=
  match a with
  | .empty => b
  | _ => .seq a b

/-- **What the rest of a text has to match** when an expression matches the text and its first
character is `c`, which stands behind `before`: one of these. -/
def remainders (before : Option Char) (c : Char) : Regex → List Regex
  | .empty | .look _ => []
  | .chars set => if set.contains c then [.empty] else []
  | .seq a b =>
    (a.remainders before c).map (·.andThen b) ++
      (if a.matchesEmpty ⟨before, some c⟩ then b.remainders before c else [])
  | .alt a b => a.remainders before c ++ b.remainders before c
  | .repeated a least most =>
    if most == some 0 then []
    else
      let least := if a.matchesEmpty ⟨before, some c⟩ then 0 else least - 1
      let more : Regex := .repeated a least (most.map (· - 1))
      (a.remainders before c).map (·.andThen more)

/-- Whether some part of a text matches `r`, or the text itself one of `states`. -/
def search (r : Regex) : List Regex → Option Char → List Char → Bool
  | states, before, [] => (r :: states).any (·.matchesEmpty ⟨before, none⟩)
  | states, before, c :: rest =>
    (r :: states).any (·.matchesEmpty ⟨before, some c⟩) ||
      search r (((r :: states).flatMap (·.remainders before c)).eraseDups) (some c) rest

/-- **Whether some part of a text matches.** -/
def isMatch (r : Regex) (text : String) : Bool :=
  search r [] none text.toList

end Regex

end XmlConformance
