import XmlConformance.Proofs.Schema.Failing
import XmlConformance.Proofs.Schema.Following

/-!
# Proofs/Schema/Resolving — resolving components is steady

Every function that resolves components is steady. What it asks depends on where it is: a particle
at some depth asks for groups at that depth, and — below a type without a name, whose content starts
anew — for groups at the greatest depth (`questions`). What the answer to one question asks is in
`Components.asks`; what a whole schema asks, in `Components.firstQuestions`.
-/

namespace XmlConformance.Schema

open Xml

variable {asked : Set Question}

/-- What fails with plain errors only asks nothing. -/
theorem Steady.of_failsWith {α : Type} {x : Except Error α} (h : FailsWith Error.IsPlain x) :
    Steady asked fun _ => x :=
  .const fun he => nomatch h _ he

/-- What a particle may ask while some types are being resolved, if groups are nested to a depth
in it. -/
def questions (inside : List ExpandedName) (depth : ℕ) : Set Question
  | .group inside' depth' _ => inside' = inside ∧ (depth' = depth ∨ depth' = groupLimit)
  | .base inside' _ => inside' = inside

theorem questions_groupLimit_subset (inside : List ExpandedName) (depth : ℕ) :
    questions inside groupLimit ⊆ questions inside depth
  | .group _ _ _ => fun h => ⟨h.1, .inr (h.2.elim id id)⟩
  | .base _ _ => id

theorem mem_questions_group (inside : List ExpandedName) (depth : ℕ) (n : ExpandedName) :
    .group inside depth n ∈ questions inside depth :=
  ⟨rfl, .inl rfl⟩

theorem mem_questions_base (inside : List ExpandedName) (depth : ℕ) (n : ExpandedName) :
    .base inside n ∈ questions inside depth :=
  rfl

/-- What is found in a table has its name there. -/
theorem mem_keys_of_find? {α : Type} {t : Table α} {n : ExpandedName} {a : α}
    (h : t.find? n = some a) : n ∈ t.map Prod.fst := by
  obtain ⟨l₁, l₂, ht, -⟩ := List.lookup_eq_some_iff.1 h
  rw [ht]
  simp

namespace Components

/-! ## Content -/

theorem steady_resolveBase (inside : List ExpandedName) (depth : ℕ) :
    ∀ base, Steady (questions inside depth) fun follow => resolveBase (follow inside) base
  | none => .ok none
  | some (n, _) => (Steady.base (mem_questions_base inside depth n)).bind fun _ => .ok _

mutual

theorem steady_resolveParticle (c : Components) (inside : List ExpandedName) (depth : ℕ) :
    ∀ p, Steady (questions inside depth) fun follow => c.resolveParticle (follow inside) depth p
  | .element _ decl =>
    ((c.steady_resolveElement inside decl).mono (questions_groupLimit_subset inside depth)).bind
      fun _ => .ok _
  | .reference _ _ => .ok _
  | .sequence _ items => (c.steady_resolveParticles inside depth items).bind fun _ => .ok _
  | .choice _ items => (c.steady_resolveParticles inside depth items).bind fun _ => .ok _
  | .all _ items => (c.steady_resolveParticles inside depth items).bind fun _ => .ok _
  | .group _ n => (Steady.group (mem_questions_group inside depth n)).bind fun _ => .ok _
  | .any _ _ => .ok _

theorem steady_resolveParticles (c : Components) (inside : List ExpandedName) (depth : ℕ) :
    ∀ ps, Steady (questions inside depth) fun follow => c.resolveParticles (follow inside) depth ps
  | [] => .ok []
  | p :: ps =>
    (c.steady_resolveParticle inside depth p).bind fun _ =>
      (c.steady_resolveParticles inside depth ps).bind fun _ => .ok _

theorem steady_resolveElement (c : Components) (inside : List ExpandedName) :
    ∀ d, Steady (questions inside groupLimit) fun follow => c.resolveElement (follow inside) d
  | ⟨_, type, _, _, _⟩ => (c.steady_resolveType inside type).bind fun _ => .ok _

theorem steady_resolveType (c : Components) (inside : List ExpandedName) :
    ∀ t, Steady (questions inside groupLimit) fun follow => c.resolveType (follow inside) t
  | .any => .ok _
  | .named n => .of_failsWith (c.failsWith_resolveTypeName n)
  | .complex t => (c.steady_resolveComplex inside t).bind fun _ => .ok _
  | .simple _ => .ok _

/-- **Complex types**: attributes, content and base, in this order. -/
theorem steady_resolveComplex (c : Components) (inside : List ExpandedName) :
    ∀ t, Steady (questions inside groupLimit) fun follow => c.resolveComplex (follow inside) t
  | ⟨_, base, content, _, _, _⟩ =>
    (Steady.of_failsWith (c.failsWith_attributesOf groupLimit _)).bind fun _ =>
      (c.steady_resolveContent inside content).bind fun _ =>
        (steady_resolveBase inside groupLimit base).bind fun _ => .ok _

theorem steady_resolveContent (c : Components) (inside : List ExpandedName) :
    ∀ t, Steady (questions inside groupLimit) fun follow => c.resolveContent (follow inside) t
  | .empty => .ok _
  | .elements p => (c.steady_resolveParticle inside groupLimit p).bind fun _ => .ok _
  | .simple _ => .ok _

end

/-! ## The answers to questions -/

/-- **What the answer to a question may ask**: nothing beyond the depth of groups and about types
that are being resolved. -/
def asks (c : Components) : Question → Set Question
  | .group _ 0 _ => ∅
  | .group inside (depth + 1) n => {q | n ∈ c.groups.map Prod.fst ∧ q ∈ questions inside depth}
  | .base inside n =>
    {q | n ∉ inside ∧ n ∈ c.types.map Prod.fst ∧ q ∈ questions (n :: inside) groupLimit}

theorem steady_group (c : Components) (inside : List ExpandedName) (depth : ℕ)
    (n : ExpandedName) : Steady (c.asks (.group inside depth n))
      fun follow => (c.enter follow inside).group depth n := by
  cases depth with
  | zero => exact .const nofun
  | succ depth =>
    unfold enter
    dsimp only
    split
    · exact .const nofun
    next g hg =>
      have hn : n ∈ c.groups.map Prod.fst := mem_keys_of_find? hg
      exact (c.steady_resolveParticle inside depth g).mono fun q hq => ⟨hn, hq⟩

theorem steady_base (c : Components) (inside : List ExpandedName) (n : ExpandedName) :
    Steady (c.asks (.base inside n)) fun follow => (c.enter follow inside).base n := by
  unfold enter
  dsimp only
  split
  · exact .ok none
  split
  · exact .const nofun
  next hnot =>
    split
    · exact .const nofun
    · exact .ok none
    next t ht =>
      have hn : n ∈ c.types.map Prod.fst := mem_keys_of_find? ht
      have hinside : n ∉ inside := by simpa using hnot
      exact ((c.steady_resolveComplex (n :: inside) t).map some).mono
        fun q hq => ⟨hinside, hn, hq⟩

/-- **Following a reference is steady.** -/
theorem steady_outcome (c : Components) :
    ∀ q, Steady (c.asks q) fun follow => Following.outcome (c.enter follow) q
  | .group inside depth n => (c.steady_group inside depth n).map _
  | .base inside n => (c.steady_base inside n).map _

/-- What a schema asks: about its types, each of which is being resolved, and about its
elements. -/
def firstQuestions (c : Components) : Set Question :=
  {q | (∃ n ∈ c.types.map Prod.fst, q ∈ questions [n] groupLimit) ∨ q ∈ questions [] groupLimit}

theorem steady_resolveDefinition (c : Components) (inside : List ExpandedName) :
    ∀ d, Steady (questions inside groupLimit) fun follow => c.resolveDefinition (follow inside) d
  | .complex t => (c.steady_resolveComplex inside t).bind fun _ => .ok _
  | .simple _ => .ok _

theorem steady_resolveTypes (c : Components) :
    ∀ types : Table TypeDefinition, (∀ n ∈ types.map Prod.fst, n ∈ c.types.map Prod.fst) →
      Steady c.firstQuestions fun follow => c.resolveTypes follow types
  | [], _ => .ok _
  | (n, d) :: rest, h =>
    ((c.steady_resolveDefinition [n] d).mono
      fun _ hq => .inl ⟨n, h n List.mem_cons_self, hq⟩).bind fun _ =>
      (c.steady_resolveTypes rest fun m hm => h m (List.mem_cons_of_mem n hm)).bind fun _ => .ok _

theorem steady_resolveElements (c : Components) :
    ∀ elements, Steady c.firstQuestions fun follow => c.resolveElements follow elements
  | [] => .ok _
  | (_, d) :: rest =>
    ((c.steady_resolveElement [] d).mono fun _ => Or.inr).bind fun _ =>
      (c.steady_resolveElements rest).bind fun _ => .ok _

end Components

/-- **Making a grammar is steady.** -/
theorem Components.steady_resolveWith (c : Components) :
    Steady c.firstQuestions c.resolveWith :=
  (c.steady_resolveTypes c.types fun _ => id).bind fun types =>
    (c.steady_resolveElements c.elements).bind fun elements =>
      (Steady.of_failsWith (Grammar.failsWith_checkReferences ⟨elements, c.attributes, types⟩)).bind
        fun _ => .ok _

end XmlConformance.Schema
