import XmlConformance.Schema.Component
import XmlConformance.Schema.Error

/-!
# Schema/Automaton — content models as automata

A content model becomes an automaton. Its states are numbered as they are added, from the initial
state 0 on. A move consumes a child that its leaf admits; a skip consumes nothing. Bounded
repetitions are unrolled, so the number of states is limited.

Children are consumed one at a time while the states that are live are kept, each with the move
that led to it. From the accepting state these moves are followed back, to find the leaf that
admitted each child (`Automaton.run`).
-/

namespace XmlConformance.Schema

open Xml

/-! ## Leaves -/

/-- What admits a child. -/
inductive Leaf where
  | element (decl : ElementDecl)
  | wildcard (w : Wildcard)
deriving Inhabited

namespace Leaf

/-- Whether a leaf admits a child with a name. -/
def admits (l : Leaf) (name : ExpandedName) : Bool :=
  match l with
  | .element d => d.name == name
  | .wildcard w => w.allows name.uri

/-- How messages write a leaf. -/
def display : Leaf → String
  | .element d => d.name.display
  | .wildcard w => w.display

end Leaf

/-- Where matching stopped, and what could have come there. -/
structure Mismatch where
  position : Nat
  expected : List String
deriving DecidableEq, Repr, Inhabited

/-- Each text once, at the place where it first is. -/
def distinct (texts : List String) : List String :=
  texts.foldl (fun found t => if found.contains t then found else found ++ [t]) []

/-- A mismatch where some leaves could have come. -/
def Mismatch.ofLeaves (position : Nat) (leaves : List Leaf) : Mismatch :=
  ⟨position, distinct (leaves.map Leaf.display)⟩

/-! ## Construction -/

/-- A step that consumes a child. -/
structure Move where
  source : Nat
  leaf : Leaf
  target : Nat
deriving Inhabited

/-- An automaton under construction: the number of its states, and its steps, the latest first. -/
structure Draft where
  size : Nat
  skips : List (Nat × Nat)
  moves : List Move
deriving Inhabited

/-- How many states an automaton may have. -/
def stateLimit : Nat := Nat.pow 2 16

namespace Draft

/-- Only the initial state. -/
def initial : Draft := ⟨1, [], []⟩

/-- Adds a state, and gives its number. -/
def addState (d : Draft) : Except Error (Nat × Draft) :=
  if d.size < stateLimit then .ok (d.size, { d with size := d.size + 1 })
  else .error (.tooManyStates stateLimit)

def addSkip (d : Draft) (source target : Nat) : Draft :=
  { d with skips := (source, target) :: d.skips }

/-- Adds a state that a child leads to, if there is a leaf that can admit it. -/
def addLeaf (d : Draft) (leaf : Option Leaf) (source : Nat) : Except Error (Nat × Draft) := do
  let (target, d) ← d.addState
  match leaf with
  | some l => return (target, { d with moves := ⟨source, l, target⟩ :: d.moves })
  | none => return (target, d)

/-- What adds something behind a state: the result is the state that it ends in. -/
abbrev Builder := Nat → Draft → Except Error (Nat × Draft)

/-- Adds something a number of times in a row; once is as good as often if nothing is added. -/
def repeatTimes (build : Builder) : Nat → Builder
  | 0, source, d => .ok (source, d)
  | n + 1, source, d =>
    match build source d with
    | .error e => .error e
    | .ok (target, d') =>
      if d'.size == d.size then .ok (target, d') else repeatTimes build n target d'

/-- Adds something up to a number of times in a row, with a way to `exit` in front of each. -/
def repeatUpTo (build : Builder) (exit : Nat) : Nat → Builder
  | 0, source, d => .ok (source, d)
  | n + 1, source, d =>
    match build source (d.addSkip source exit) with
    | .error e => .error e
    | .ok (target, d') =>
      if d'.size == d.size then .ok (target, d') else repeatUpTo build exit n target d'

/-- Adds something as often as it occurs. -/
def occurring (build : Builder) (o : Occurs) : Builder := fun source d => do
  let (last, d) ← repeatTimes build o.least source d
  match o.most with
  | some most =>
    if most ≤ o.least then return (last, d)
    else
      let (exit, d) ← d.addState
      let (last, d) ← repeatUpTo build exit (most - o.least) last d
      return (exit, d.addSkip last exit)
  | none =>
    let (again, d) ← d.addState
    let (last, d) ← build again (d.addSkip last again)
    return (again, d.addSkip last again)

/-- Adds things one behind the other. -/
def inRow : List Builder → Builder
  | [], source, d => .ok (source, d)
  | b :: bs, source, d => do
    let (target, d) ← b source d
    inRow bs target d

/-- Adds things that all lead from one state to another. -/
def beside (source join : Nat) : List Builder → Draft → Except Error Draft
  | [], d => .ok d
  | b :: bs, d => do
    let (last, d) ← b source d
    beside source join bs (d.addSkip last join)

/-- Adds alternatives. -/
def choosing (bs : List Builder) : Builder := fun source d => do
  let (join, d) ← d.addState
  return (join, ← beside source join bs d)

mutual

/-- Adds a particle; elements declared elsewhere are looked up in a table. -/
def particle (elements : Table ElementDecl) : Particle → Builder
  | .element o decl => occurring (fun source d => d.addLeaf (some (.element decl)) source) o
  | .reference o name =>
    occurring (fun source d => d.addLeaf ((elements.find? name).map .element) source) o
  | .any o w => occurring (fun source d => d.addLeaf (some (.wildcard w)) source) o
  | .sequence o items => occurring (inRow (particles elements items)) o
  | .choice o items => occurring (choosing (particles elements items)) o
  | .all o _ => occurring (fun _ _ => .error .allInsideModel) o
  | .group o _ => occurring (fun source d => d.addLeaf none source) o

/-- What adds each of some particles. -/
def particles (elements : Table ElementDecl) : List Particle → List Builder
  | [] => []
  | p :: ps => particle elements p :: particles elements ps

end

end Draft

/-- The automaton of a content model: for every state, the states that skips lead to and the moves
that start there. -/
structure Automaton where
  skips : Array (List Nat)
  moves : Array (List Move)
  accept : Nat
deriving Inhabited

/-- Adds something in front of an entry of an array of lists. -/
def pushAt {α : Type} (a : Array (List α)) (i : Nat) (x : α) : Array (List α) :=
  a.modify i (x :: ·)

namespace Automaton

/-- The automaton of a finished draft. -/
def ofDraft (d : Draft) (accept : Nat) : Automaton where
  skips := d.skips.foldl (fun a (source, target) => pushAt a source target)
    (Array.replicate d.size [])
  moves := d.moves.foldl (fun a m => pushAt a m.source m) (Array.replicate d.size [])
  accept := accept

/-- The automaton of a content model. -/
def build (elements : Table ElementDecl) (model : Particle) : Except Error Automaton := do
  let (accept, d) ← Draft.particle elements model 0 .initial
  return ofDraft d accept

def skipsFrom (a : Automaton) (state : Nat) : List Nat := a.skips.getD state []

def movesFrom (a : Automaton) (state : Nat) : List Move := a.moves.getD state []

/-! ## Running -/

/-- The number of skips. -/
def skipCount (a : Automaton) : Nat :=
  a.skips.foldl (fun n targets => n + targets.length) 0

/-- Marks all states that skips lead to from the pending ones; those found newly are collected. At
most `steps` pending states are looked at. -/
def spread (a : Automaton) : (steps : Nat) → (pending : List Nat) → (seen : Array Bool) →
    (found : List Nat) → Array Bool × List Nat
  | 0, _, seen, found => (seen, found)
  | _ + 1, [], seen, found => (seen, found)
  | steps + 1, s :: pending, seen, found =>
    if seen.getD s true then a.spread steps pending seen found
    else a.spread steps (a.skipsFrom s ++ pending) (seen.setIfInBounds s true) (s :: found)

/-- A live state, with the move that led to it or to a state from which skips lead to it. -/
structure Live where
  state : Nat
  origin : Option Move
deriving Inhabited

/-- The live states behind some seeds: each state has the origin of the first seed from which skips
lead to it. -/
def closureFrom (a : Automaton) (steps : Nat) : List Live → Array Bool → List Live → List Live
  | [], _, found => found
  | seed :: rest, seen, found =>
    let (seen, states) := a.spread steps [seed.state] seen []
    closureFrom a steps rest seen (states.map (fun s => ⟨s, seed.origin⟩) ++ found)

/-- The live states behind some seeds, by number. -/
def closure (a : Automaton) (seeds : List Live) : List Live :=
  (closureFrom a (a.skipCount + 1) seeds (Array.replicate a.skips.size false) []).mergeSort
    fun x y => x.state ≤ y.state

/-- The moves that start in live states. -/
def openMoves (a : Automaton) (live : List Live) : List Move :=
  live.flatMap fun l => a.movesFrom l.state

/-- The live states behind a child. -/
def step (a : Automaton) (live : List Live) (name : ExpandedName) : List Live :=
  let seeds := (a.openMoves live).filter (·.leaf.admits name)
  if seeds.isEmpty then [] else a.closure (seeds.map fun m => ⟨m.target, some m⟩)

/-- The mismatch behind a number of children where some states are live. -/
def mismatch (a : Automaton) (position : Nat) (live : List Live) : Mismatch :=
  .ofLeaves position ((a.openMoves live).map (·.leaf))

/-- The live states behind each of the children, the last first. -/
def layers (a : Automaton) (position : Nat) (passed : List (List Live)) (live : List Live) :
    List ExpandedName → Except Mismatch (List (List Live))
  | [] =>
    if live.any (·.state == a.accept) then .ok (live :: passed)
    else .error (a.mismatch position live)
  | name :: names =>
    match a.step live name with
    | [] => .error (a.mismatch position live)
    | next => layers a (position + 1) (live :: passed) next names

/-- Follows the moves back from a state; where no move leads there, nothing admits the children in
front. -/
def traceBack (state : Nat) (found : List (Option Leaf)) : List (List Live) → List (Option Leaf)
  | [] => found
  | live :: before =>
    match (live.find? (·.state == state)).bind (·.origin) with
    | some m => traceBack m.source (some m.leaf :: found) before
    | none => List.replicate before.length none ++ found

/-- **The leaves that admit the children**, or where there is none. -/
def run (a : Automaton) (names : List ExpandedName) : Except Mismatch (List (Option Leaf)) := do
  let ls ← a.layers 0 [] (a.closure [⟨0, none⟩]) names
  return traceBack a.accept [] ls

end Automaton

end XmlConformance.Schema
