import XmlConformance.Proofs.Outcome
import XmlConformance.Proofs.Xml.Subtrees
import XmlConformance.Rules.Abstraction

/-!
# Proofs/Rules/Copying — which element of a schema is copied where

Writing out the abstract patterns and rules of a schema copies elements of it, some of them several
times and to places where they did not stand. The fragment that is written does not tell which
element it is a copy of. A `Copy` does: it keeps the tag of the element, the tag around the element
in the schema, and what became of its values. Copies are made as fragments are (`copiesOf`), and
what is written are their fragments (`expand_eq`).
-/

namespace XmlConformance.Rules

open Xml

/-- An element or a text of a schema as it is copied. An element is copied with the tag around it in
the schema, if there is one, and with a function that its values are passed through. -/
inductive Copy where
  | element (tag : Tag) (scope : Option Tag) (values : String → String) (content : List Copy)
  | text (value : String)

namespace Copy

mutual

/-- What is written for a copy. -/
def fragment : Copy → Fragment
  | .element t scope f content => copyOf t scope f (fragments content)
  | .text s => .text s

/-- What is written for several copies. -/
def fragments : List Copy → List Fragment
  | [] => []
  | c :: cs => c.fragment :: fragments cs

end

mutual

/-- The tags of the elements that are copied, in the order of the copies. -/
def tags : Copy → List Tag
  | .element t _ _ content => t :: tagsOf content
  | .text _ => []

/-- The tags of the elements that are copied, in the order of the copies. -/
def tagsOf : List Copy → List Tag
  | [] => []
  | c :: cs => c.tags ++ tagsOf cs

end

theorem fragments_append : ∀ cs ds : List Copy, fragments (cs ++ ds) = fragments cs ++ fragments ds
  | [], _ => rfl
  | c :: cs, ds => by
    rw [List.cons_append, fragments, fragments, fragments_append cs ds, List.cons_append]

end Copy

/-! ## Making copies -/

/-- How instances and extensions are copied. -/
structure Copiers where
  instantiate : Option Tag → Tag → List Node → Except Error (List Copy)
  extend : Parameters → Tag → Except Error (List Copy)

/-- How the copies of instances and extensions are written. -/
def Copiers.written (r : Copiers) : Replacements where
  instantiate scope t cs := (r.instantiate scope t cs).map Copy.fragments
  extend ps t := (r.extend ps t).map Copy.fragments

mutual

/-- What is copied of a node. -/
def copiesOf (r : Copiers) (ps : Parameters) (scope : Option Tag) : Node → Except Error (List Copy)
  | .text s => .ok [.text s]
  | .element t cs =>
    if (t.isRule "pattern" || t.isRule "rule") && isAbstract t then .ok []
    else if t.isRule "pattern" && (t.plain? "is-a").isSome then r.instantiate scope t cs
    else if t.isRule "extends" then r.extend ps t
    else if t.isRule "param" && scope.any (·.isRule "pattern") then .ok []
    else do
      let content ← copiesOfAll r ps (some t) cs
      return [.element t scope (substitute ps) content]
  | .root _ | .comment _ | .instruction .. => .ok []

/-- What is copied of several nodes. -/
def copiesOfAll (r : Copiers) (ps : Parameters) (scope : Option Tag) :
    List Node → Except Error (List Copy)
  | [] => .ok []
  | n :: ns => do
    let first ← copiesOf r ps scope n
    let more ← copiesOfAll r ps scope ns
    return first ++ more

end

/-- How instances and extensions in a schema are copied if they may be nested `depth` deep. The
content of a definition is copied from where it is defined. -/
def copiers (schema : List Node) : (depth : ℕ) → Copiers
  | 0 =>
    { instantiate := fun _ t _ =>
        let name := (t.plain? "is-a").getD ""
        match definition? "pattern" schema name with
        | none => .error (.undefinedPattern name)
        | some _ => .error (.circularPattern name)
      extend := fun _ t =>
        match t.plain? "rule" with
        | none => .error .extendsNothing
        | some name =>
          match definition? "rule" schema name with
          | none => .error (.undefinedRule name)
          | some _ => .error (.circularRule name) }
  | depth + 1 =>
    { instantiate := fun scope t cs =>
        let name := (t.plain? "is-a").getD ""
        match definition? "pattern" schema name with
        | none => .error (.undefinedPattern name)
        | some (d, content) => do
          let ps := parametersOf cs
          let own ← copiesOfAll (copiers schema depth) ps (some t) (without "param" cs)
          let more ← copiesOfAll (copiers schema depth) ps (some d) (without "title" content)
          return [.element t scope id (own ++ more)]
      extend := fun ps t =>
        match t.plain? "rule" with
        | none => .error .extendsNothing
        | some name =>
          match definition? "rule" schema name with
          | none => .error (.undefinedRule name)
          | some (d, content) => copiesOfAll (copiers schema depth) ps (some d) content }

section Copiers

variable {schema : List Node} {scope : Option Tag} {ps : Parameters} {t : Tag} {cs : List Node}
  {copied : List Copy} {depth : ℕ}

/-- **An extension is copied as the content of the abstract rule that it names.** -/
theorem extend_copiers (h : (copiers schema depth).extend ps t = .ok copied) :
    ∃ depth' name d content, depth = depth' + 1 ∧ t.plain? "rule" = some name ∧
      definition? "rule" schema name = some (d, content) ∧
      copiesOfAll (copiers schema depth') ps (some d) content = .ok copied := by
  cases depth with
  | zero =>
    simp only [copiers] at h
    split at h
    · cases h
    · split at h <;> cases h
  | succ depth =>
    simp only [copiers] at h
    split at h
    · cases h
    · case h_2 name hname =>
      split at h
      · cases h
      · case h_2 d content hd => exact ⟨depth, name, d, content, rfl, hname, hd, h⟩

/-- **An instance is copied as itself** with its own content, its parameters apart, and then the
content of the abstract pattern that it names, its title apart. -/
theorem instantiate_copiers (h : (copiers schema depth).instantiate scope t cs = .ok copied) :
    ∃ depth' d content own more, depth = depth' + 1 ∧
      definition? "pattern" schema ((t.plain? "is-a").getD "") = some (d, content) ∧
      copiesOfAll (copiers schema depth') (parametersOf cs) (some t) (without "param" cs) =
        .ok own ∧
      copiesOfAll (copiers schema depth') (parametersOf cs) (some d) (without "title" content) =
        .ok more ∧
      copied = [.element t scope id (own ++ more)] := by
  cases depth with
  | zero =>
    simp only [copiers] at h
    split at h <;> cases h
  | succ depth =>
    simp only [copiers] at h
    split at h
    · cases h
    · case h_2 d content hd =>
      obtain ⟨own, hown, h⟩ := bind_eq_ok.1 h
      obtain ⟨more, hmore, h⟩ := bind_eq_ok.1 h
      cases h
      exact ⟨depth, d, content, own, more, rfl, hd, hown, hmore, rfl⟩

end Copiers

/-- **What is copied of a schema** whose abstract patterns and rules are written out. -/
def copies (d : Document) : Except Failure (List Copy) := do
  let (t, cs) ← schemaElement d
  let root := Node.element t cs
  match copiesOf (copiers root.subtree definitionLimit) [] none root with
  | .ok copies => .ok copies
  | .error e => .error (.rules e)

/-! ## What is written for copies -/

mutual

theorem expandNode_written (r : Copiers) (ps : Parameters) (scope : Option Tag) :
    ∀ n : Node, expandNode r.written ps scope n = (copiesOf r ps scope n).map Copy.fragments
  | .text s => rfl
  | .element t cs => by
    rw [expandNode, copiesOf]
    split
    · rfl
    · split
      · rfl
      · split
        · rfl
        · split
          · rfl
          · rw [expandNodes_written r ps (some t) cs]
            cases copiesOfAll r ps (some t) cs <;> rfl
  | .root _ | .comment _ | .instruction .. => rfl

/-- **What is written for nodes** is what is written for their copies. -/
theorem expandNodes_written (r : Copiers) (ps : Parameters) (scope : Option Tag) :
    ∀ ns : List Node,
      expandNodes r.written ps scope ns = (copiesOfAll r ps scope ns).map Copy.fragments
  | [] => rfl
  | n :: ns => by
    rw [expandNodes, copiesOfAll, expandNode_written r ps scope n,
      expandNodes_written r ps scope ns]
    cases copiesOf r ps scope n with
    | error e => rfl
    | ok first =>
      cases copiesOfAll r ps scope ns with
      | error e => rfl
      | ok more => exact congrArg Except.ok (Copy.fragments_append first more).symm

end

theorem written_copiers (schema : List Node) :
    ∀ depth, (copiers schema depth).written = replacements schema depth
  | 0 => by
    refine congrArg₂ Replacements.mk (funext₃ fun _ t _ => ?_) (funext₂ fun _ t => ?_)
    · simp only [copiers]
      cases definition? "pattern" schema ((t.plain? "is-a").getD "") <;> rfl
    · simp only [copiers]
      cases t.plain? "rule" with
      | none => rfl
      | some name =>
        dsimp only
        cases definition? "rule" schema name <;> rfl
  | depth + 1 => by
    have ih := written_copiers schema depth
    refine congrArg₂ Replacements.mk (funext₃ fun scope t cs => ?_) (funext₂ fun ps t => ?_)
    · simp only [copiers]
      cases definition? "pattern" schema ((t.plain? "is-a").getD "") with
      | none => rfl
      | some e =>
        simp only [← ih, expandNodes_written]
        cases copiesOfAll (copiers schema depth) (parametersOf cs) (some t)
            (without "param" cs) with
        | error e => rfl
        | ok own =>
          cases copiesOfAll (copiers schema depth) (parametersOf cs) (some e.1)
              (without "title" e.2) with
          | error e => rfl
          | ok more =>
            refine congrArg (fun fs => Except.ok [copyOf t scope id fs]) ?_
            exact Copy.fragments_append own more
    · simp only [copiers]
      cases t.plain? "rule" with
      | none => rfl
      | some name =>
        dsimp only
        cases definition? "rule" schema name with
        | none => rfl
        | some e => simp only [← ih, expandNodes_written]

/-- **A schema that is written out consists of copies** of its elements. -/
theorem expand_eq (d : Document) :
    expand d = copies d >>= fun cs => writtenAll (Copy.fragments cs) d := by
  rw [expand, copies]
  cases schemaElement d with
  | error e => rfl
  | ok e =>
    simp only [ok_bind, ← written_copiers, expandNode_written]
    cases copiesOf (copiers (Node.element e.1 e.2).subtree definitionLimit) [] none
      (.element e.1 e.2) <;> rfl

end XmlConformance.Rules
