import XmlConformance.Schema.Automaton

/-!
# Schema/AllGroup — children in any order

In an `xs:all` group every member admits at most one child, in any order. A child goes to the first
member that is still free and admits it.
-/

namespace XmlConformance.Schema

open Xml

/-- A member of a group. -/
structure Member where
  leaf : Leaf
  isRequired : Bool
  isUsed : Bool
deriving Inhabited

/-- The members that a particle of a group stands for: none if it occurs never, or if it refers to
an element that is not declared. -/
def membersOf (elements : Table ElementDecl) (p : Particle) : Except Error (List Member) :=
  let member (l : Leaf) : Member := ⟨l, 0 < p.occurs.least, false⟩
  if p.occurs.most == some 0 then .ok []
  else
    match p with
    | .element _ decl => .ok [member (.element decl)]
    | .reference _ name => .ok (((elements.find? name).map fun d => member (.element d)).toList)
    | .any _ w => .ok [member (.wildcard w)]
    | .sequence .. | .choice .. | .all .. | .group .. => .error .groupInsideAll

namespace Member

/-- The members that are still free. -/
def free (ms : List Member) : List Member := ms.filter (!·.isUsed)

/-- Gives a child to the first free member that admits it. -/
def take (name : ExpandedName) : List Member → Option (Leaf × List Member)
  | [] => none
  | m :: ms =>
    if !m.isUsed && m.leaf.admits name then some (m.leaf, { m with isUsed := true } :: ms)
    else (take name ms).map fun (l, ms) => (l, m :: ms)

/-- The mismatch behind a number of children. -/
def mismatch (position : Nat) (ms : List Member) : Mismatch :=
  .ofLeaves position ((free ms).map (·.leaf))

/-- The leaves that admit the children. -/
def assign (position : Nat) (ms : List Member) :
    List ExpandedName → Except Mismatch (List (Option Leaf))
  | [] =>
    if (free ms).all (!·.isRequired) then .ok [] else .error (mismatch position ms)
  | name :: names =>
    match take name ms with
    | none => .error (mismatch position ms)
    | some (l, ms) => (assign (position + 1) ms names).map (some l :: ·)

end Member

/-- The leaves of a group that admit the children; a group that need not occur admits none. -/
def runAll (least : Nat) (members : List Member) (names : List ExpandedName) :
    Except Mismatch (List (Option Leaf)) :=
  if names.isEmpty && least == 0 then .ok [] else Member.assign 0 members names

/-- **The leaves of a content model that admit the children.** -/
def runModel (elements : Table ElementDecl) (model : Particle) (names : List ExpandedName) :
    Except Error (Except Mismatch (List (Option Leaf))) :=
  match model with
  | .all o items => do
    let members ← items.mapM (membersOf elements)
    return runAll o.least members.flatten names
  | model => do
    let a ← Automaton.build elements model
    return a.run names

/-- Any model but an `xs:all` group is run by its automaton. -/
theorem runModel_eq_build {elements : Table ElementDecl} {model : Particle}
    (h : ∀ o items, model ≠ .all o items) (names : List ExpandedName) :
    runModel elements model names =
      Automaton.build elements model >>= fun a => .ok (a.run names) := by
  match model with
  | .all o items => exact absurd rfl (h o items)
  | .element .. | .reference .. | .sequence .. | .choice .. | .group .. | .any .. => rfl

end XmlConformance.Schema
