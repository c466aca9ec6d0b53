import XmlConformance.Proofs.Schema.Language

/-!
# Proofs/Schema/Words — what components as they are read admit

In components, groups and bases are referred to by name. The children that they admit can be read
off all the same: a reference to a group stands for the model of the group, as often as the bounds
of the reference permit (`Components.AdmitsOnce`), and what extends a type admits what the type
admits with more behind it (`Components.TypeAdmits`).

The words that are admitted obey the equations of `Particle.denotes`, and two more: one for
references to groups (`wordsOnce_group`), one for extensions (`typeWords_of_extends`).
-/

namespace XmlConformance.Schema

open Xml

/-- Whether there is a text and no children. -/
def Content.isSimple : Content → Bool
  | .empty | .elements _ => false
  | .simple _ => true

namespace Components

/-! ## Particles -/

mutual

/-- **What a particle admits**: as many words in a row as its bounds permit. -/
inductive Admits (c : Components) : Particle → List ExpandedName → Prop
  | inARow {p : Particle} {ws : List (List ExpandedName)} (permitted : p.occurs.Permits ws.length)
      (each : ∀ w ∈ ws, AdmitsOnce c p w) : Admits c p ws.flatten

/-- **What a particle admits at one time**, whatever its bounds. -/
inductive AdmitsOnce (c : Components) : Particle → List ExpandedName → Prop
  | element {o : Occurs} {d : ElementDecl} : AdmitsOnce c (.element o d) [d.name]
  | reference {o : Occurs} {n : ExpandedName} {d : ElementDecl}
      (found : c.elements.find? n = some d) : AdmitsOnce c (.reference o n) [d.name]
  | any {o : Occurs} {w : Wildcard} {n : ExpandedName} (allowed : w.allows n.uri = true) :
      AdmitsOnce c (.any o w) [n]
  | sequence {o : Occurs} {items : List Particle} {ws : List (List ExpandedName)}
      (each : List.Forall₂ (Admits c) items ws) : AdmitsOnce c (.sequence o items) ws.flatten
  | choice {o : Occurs} {items : List Particle} {p : Particle} {w : List ExpandedName}
      (member : p ∈ items) (admitted : Admits c p w) : AdmitsOnce c (.choice o items) w
  | group {o : Occurs} {n : ExpandedName} {g : Particle} {w : List ExpandedName}
      (found : c.groups.find? n = some g) (admitted : AdmitsOnce c g w) :
      AdmitsOnce c (.group o n) w

end

/-- The words that a particle admits. -/
def words (c : Components) (p : Particle) : Language ExpandedName := {w | c.Admits p w}

/-- The words that a particle admits at one time. -/
def wordsOnce (c : Components) (p : Particle) : Language ExpandedName := {w | c.AdmitsOnce p w}

variable (c : Components) (o : Occurs)

theorem words_eq_times (p : Particle) : c.words p = p.occurs.times (c.wordsOnce p) := by
  ext w
  constructor
  · rintro ⟨permitted, each⟩
    exact ⟨_, permitted, Language.mem_pow.2 ⟨_, rfl, rfl, each⟩⟩
  · rintro ⟨k, permitted, hw⟩
    obtain ⟨ws, rfl, rfl, each⟩ := Language.mem_pow.1 hw
    exact .inARow permitted each

/-- **A group that occurs once** admits what its model admits. -/
theorem words_of_once {p : Particle} (h : p.occurs = .once) : c.words p = c.wordsOnce p := by
  rw [words_eq_times, h, Occurs.times_once]

theorem wordsOnce_element (d : ElementDecl) : c.wordsOnce (.element o d) = {[d.name]} := by
  ext w
  exact ⟨fun h => by cases h; rfl, fun h => by obtain rfl := h; exact .element⟩

theorem wordsOnce_reference (n : ExpandedName) : c.wordsOnce (.reference o n) =
    ((c.elements.find? n).map fun d => ({[d.name]} : Language ExpandedName)).getD 0 := by
  ext w
  constructor
  · intro h
    cases h with
    | reference found =>
      rw [found]
      rfl
  · intro h
    cases found : c.elements.find? n with
    | none =>
      rw [found] at h
      exact h.elim
    | some d =>
      rw [found] at h
      obtain rfl := h
      exact .reference found

theorem wordsOnce_any (w : Wildcard) : c.wordsOnce (.any o w) = (Leaf.wildcard w).names := by
  ext v
  constructor
  · intro h
    cases h with
    | any allowed => exact ⟨_, allowed, rfl⟩
  · rintro ⟨n, allowed, rfl⟩
    exact .any allowed

/-- A product of languages holds the words put together from one word of each. -/
theorem mem_prod_words {ps : List Particle} {w : List ExpandedName} :
    w ∈ (ps.map c.words).prod ↔ ∃ ws, List.Forall₂ c.Admits ps ws ∧ w = ws.flatten := by
  induction ps generalizing w with
  | nil => simp [Language.mem_one]
  | cons p ps ih =>
    rw [List.map_cons, List.prod_cons, Language.mem_mul]
    constructor
    · rintro ⟨u, hu, v, hv, rfl⟩
      obtain ⟨ws, each, rfl⟩ := ih.1 hv
      exact ⟨u :: ws, .cons hu each, rfl⟩
    · rintro ⟨_, each, rfl⟩
      obtain ⟨u, ws, hu, hws, rfl⟩ := List.forall₂_cons_left_iff.1 each
      exact ⟨u, hu, ws.flatten, ih.2 ⟨ws, hws, rfl⟩, rfl⟩

theorem wordsOnce_sequence (items : List Particle) :
    c.wordsOnce (.sequence o items) = (items.map c.words).prod := by
  ext w
  rw [mem_prod_words]
  constructor
  · intro h
    cases h with
    | sequence each => exact ⟨_, each, rfl⟩
  · rintro ⟨ws, each, rfl⟩
    exact .sequence each

/-- A sum of languages holds the words of each. -/
theorem mem_sum_words {ps : List Particle} {w : List ExpandedName} :
    w ∈ (ps.map c.words).sum ↔ ∃ p ∈ ps, c.Admits p w := by
  induction ps with
  | nil => simp [Language.notMem_zero]
  | cons p ps ih =>
    rw [List.map_cons, List.sum_cons, Language.mem_add, ih, List.exists_mem_cons_iff]
    rfl

theorem wordsOnce_choice (items : List Particle) :
    c.wordsOnce (.choice o items) = (items.map c.words).sum := by
  ext w
  rw [mem_sum_words]
  constructor
  · intro h
    cases h with
    | choice member admitted => exact ⟨_, member, admitted⟩
  · rintro ⟨p, member, admitted⟩
    exact .choice member admitted

/-- Nothing is said here of what may come in any order. -/
theorem wordsOnce_all (items : List Particle) : c.wordsOnce (.all o items) = 0 := by
  ext w
  constructor
  · intro h
    cases h
  · exact fun h => h.elim

/-- **A reference to a group** admits what the model of the group admits. -/
theorem wordsOnce_group {n : ExpandedName} {g : Particle} (found : c.groups.find? n = some g) :
    c.wordsOnce (.group o n) = c.wordsOnce g := by
  ext w
  constructor
  · intro h
    cases h with
    | group found' admitted =>
      obtain rfl := Option.some.inj (found.symm.trans found')
      exact admitted
  · exact fun admitted => .group found admitted

/-! ## Types -/

/-- **A type extends another**: its base is a complex type of the schema, with children or without
content. Names of the schema namespace stand for built-in types, never for what a schema defines. -/
def Extends (t b : ComplexType) : Prop :=
  ∃ n, t.base = some (n, .extension) ∧ isSchemaName n = false ∧
    c.types.find? n = some (.complex b) ∧ b.content.isSimple = false

/-- The words that the own content of a type admits. -/
def contentWords : Content → Language ExpandedName
  | .empty | .simple _ => 1
  | .elements p => c.words p

/-- **What a type admits**: what it extends comes first, then its own content. -/
inductive TypeAdmits : ComplexType → List ExpandedName → Prop
  | own {t : ComplexType} {w : List ExpandedName} (alone : ∀ b, ¬ c.Extends t b)
      (admitted : w ∈ c.contentWords t.content) : TypeAdmits t w
  | extended {t b : ComplexType} {v w : List ExpandedName} (extends' : c.Extends t b)
      (inherited : TypeAdmits b v) (admitted : w ∈ c.contentWords t.content) :
      TypeAdmits t (v ++ w)

/-- The words that a type admits. -/
def typeWords (t : ComplexType) : Language ExpandedName := {w | c.TypeAdmits t w}

variable {c} {t b : ComplexType}

theorem Extends.unique {b' : ComplexType} (h : c.Extends t b) (h' : c.Extends t b') : b = b' := by
  obtain ⟨n, hbase, -, hfound, -⟩ := h
  obtain ⟨n', hbase', -, hfound', -⟩ := h'
  obtain ⟨rfl, -⟩ := Prod.mk.inj (Option.some.inj (hbase.symm.trans hbase'))
  exact TypeDefinition.complex.inj (Option.some.inj (hfound.symm.trans hfound'))

theorem typeWords_of_extends (h : c.Extends t b) :
    c.typeWords t = c.typeWords b * c.contentWords t.content := by
  ext w
  constructor
  · rintro (⟨alone, -⟩ | ⟨extends', inherited, admitted⟩)
    · exact absurd h (alone b)
    · obtain rfl := h.unique extends'
      exact ⟨_, inherited, _, admitted, rfl⟩
  · rintro ⟨v, inherited, w, admitted, rfl⟩
    exact .extended h inherited admitted

theorem typeWords_of_alone (h : ∀ b, ¬ c.Extends t b) :
    c.typeWords t = c.contentWords t.content := by
  ext w
  constructor
  · rintro (⟨-, admitted⟩ | ⟨extends', -, -⟩)
    · exact admitted
    · exact absurd extends' (h _)
  · exact .own h

end Components

end XmlConformance.Schema
