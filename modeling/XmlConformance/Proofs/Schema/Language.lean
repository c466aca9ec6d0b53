import Mathlib.Algebra.BigOperators.Group.List.Basic
import Mathlib.Computability.Language
import XmlConformance.Schema.AllGroup

/-!
# Proofs/Schema/Language — the words of a content model

What a content model stands for, apart from any automaton: a leaf stands for some words, a sequence
for their concatenations, a choice for their union, and a particle for the repetitions that its
bounds permit (`Particle.denotes`).

Read over names this is the language of the children that a model admits (`Particle.language`).
Read over leaves it tells as well which leaf admits which child (`Particle.leafWords`). The first is
the image of the second under "is admitted by" (`mem_language_iff`).
-/

namespace XmlConformance.Schema

open Xml

/-! ## Repetition -/

namespace Occurs

/-- Whether something may occur `k` times in a row. Where the bounds are in the wrong order, only
the lower one counts. -/
def Permits (o : Occurs) (k : ℕ) : Prop :=
  o.least ≤ k ∧ ∀ most, o.most = some most → k ≤ most ∨ k = o.least

/-- Bounds in their order permit what lies between them. -/
theorem permits_iff_between {o : Occurs} (h : ∀ most, o.most = some most → o.least ≤ most) {k : ℕ} :
    o.Permits k ↔ o.least ≤ k ∧ ∀ most, o.most = some most → k ≤ most := by
  refine and_congr_right fun _ => forall₂_congr fun most hm => ?_
  have := h most hm
  omega

variable {α : Type*}

/-- The words that consist of as many words of a language as may occur in a row. -/
def times (o : Occurs) (l : Language α) : Language α := {w | ∃ k, o.Permits k ∧ w ∈ l ^ k}

theorem mem_times {o : Occurs} {l : Language α} {w : List α} :
    w ∈ o.times l ↔ ∃ k, o.Permits k ∧ w ∈ l ^ k := Iff.rfl

@[simp] theorem times_once (l : Language α) : Occurs.once.times l = l := by
  ext w
  constructor
  · rintro ⟨k, ⟨hle, hmost⟩, hw⟩
    obtain rfl : k = 1 := (hmost 1 rfl).elim (fun h => le_antisymm h hle) id
    rwa [pow_one] at hw
  · exact fun hw => ⟨1, ⟨le_rfl, fun _ _ => .inr rfl⟩, by rwa [pow_one]⟩

end Occurs

/-! ## What a content model stands for -/

section Denotation

variable {β : Type*} (elements : Table ElementDecl) (leaf : Leaf → Language β)

mutual

/-- **The words of a content model**, where `leaf` gives the words of its leaves. Nothing stands for
an element that is not declared, nor for a group in the midst of a model. -/
def Particle.denotes : Particle → Language β
  | .element o decl => o.times (leaf (.element decl))
  | .reference o name => o.times (((elements.find? name).map fun d => leaf (.element d)).getD 0)
  | .any o w => o.times (leaf (.wildcard w))
  | .sequence o items => o.times (Particle.denotesEach items).prod
  | .choice o items => o.times (Particle.denotesEach items).sum
  | .all o _ => o.times 0
  | .group o _ => o.times 0

/-- The words of each of some particles. -/
def Particle.denotesEach : List Particle → List (Language β)
  | [] => []
  | p :: ps => p.denotes :: Particle.denotesEach ps

end

end Denotation

/-- The names that a leaf admits, each as a word of its own. -/
def Leaf.names (l : Leaf) : Language ExpandedName := {w | ∃ name, l.admits name = true ∧ w = [name]}

/-- **The language of a content model**: the children that it admits, by their names. -/
def Particle.language (elements : Table ElementDecl) (p : Particle) : Language ExpandedName :=
  p.denotes elements Leaf.names

/-- **The leaves of a content model in the order in which they can admit children.** -/
def Particle.leafWords (elements : Table ElementDecl) (p : Particle) : Language Leaf :=
  p.denotes elements fun l => {[l]}

@[simp] theorem Leaf.names_element (d : ElementDecl) : (Leaf.element d).names = {[d.name]} := by
  ext w
  refine ⟨fun ⟨name, hn, hw⟩ => ?_, fun hw => ⟨d.name, beq_self_eq_true _, hw⟩⟩
  rw [hw, ← eq_of_beq hn]
  exact Set.mem_singleton _

@[simp] theorem Leaf.mem_names_wildcard {w : Wildcard} {names : List ExpandedName} :
    names ∈ (Leaf.wildcard w).names ↔ ∃ name, w.allows name.uri = true ∧ names = [name] := Iff.rfl

/-! ## Leaves and names -/

/-- Each leaf admits the name at its place. -/
abbrev Admit (leaves : List Leaf) (names : List ExpandedName) : Prop :=
  List.Forall₂ (fun l name => Leaf.admits l name = true) leaves names

theorem admit_append_iff : ∀ {u v : List Leaf} {names : List ExpandedName},
    Admit (u ++ v) names ↔ ∃ x y, names = x ++ y ∧ Admit u x ∧ Admit v y
  | [], v, names => by
      refine ⟨fun h => ⟨[], names, rfl, .nil, h⟩, ?_⟩
      rintro ⟨x, y, rfl, hx, hy⟩
      rw [List.forall₂_nil_left_iff.mp hx]
      exact hy
  | l :: u, v, names => by
      refine List.forall₂_cons_left_iff.trans ⟨?_, ?_⟩
      · rintro ⟨name, _, hn, h, rfl⟩
        obtain ⟨x, y, rfl, hx, hy⟩ := admit_append_iff.mp h
        exact ⟨name :: x, y, rfl, .cons hn hx, hy⟩
      · rintro ⟨x, y, rfl, hx, hy⟩
        obtain ⟨name, x', hn, hx', rfl⟩ := List.forall₂_cons_left_iff.mp hx
        exact ⟨name, x' ++ y, hn, admit_append_iff.mpr ⟨x', y, rfl, hx', hy⟩, rfl⟩

/-- The words that the leaves of a word admit. -/
def admitted : Language Leaf →+* Language ExpandedName where
  toFun l := {names | ∃ leaves ∈ l, Admit leaves names}
  map_zero' := by
    ext names
    exact ⟨fun ⟨_, h, _⟩ => h.elim, fun h => h.elim⟩
  map_one' := by
    ext names
    refine ⟨fun ⟨leaves, h, ha⟩ => ?_, fun h => ⟨[], rfl, ?_⟩⟩
    · obtain rfl : leaves = [] := h
      exact List.forall₂_nil_left_iff.mp ha
    · obtain rfl : names = [] := h
      exact .nil
  map_add' l m := by
    ext names
    constructor
    · rintro ⟨leaves, h | h, ha⟩
      · exact .inl ⟨leaves, h, ha⟩
      · exact .inr ⟨leaves, h, ha⟩
    · rintro (⟨leaves, h, ha⟩ | ⟨leaves, h, ha⟩)
      · exact ⟨leaves, .inl h, ha⟩
      · exact ⟨leaves, .inr h, ha⟩
  map_mul' l m := by
    ext names
    constructor
    · rintro ⟨_, ⟨u, hu, v, hv, rfl⟩, ha⟩
      obtain ⟨x, y, rfl, hx, hy⟩ := admit_append_iff.mp ha
      exact ⟨x, ⟨u, hu, hx⟩, y, ⟨v, hv, hy⟩, rfl⟩
    · rintro ⟨x, ⟨u, hu, hx⟩, y, ⟨v, hv, hy⟩, rfl⟩
      exact ⟨u ++ v, ⟨u, hu, v, hv, rfl⟩, admit_append_iff.mpr ⟨x, y, rfl, hx, hy⟩⟩

theorem mem_admitted {l : Language Leaf} {names : List ExpandedName} :
    names ∈ admitted l ↔ ∃ leaves ∈ l, Admit leaves names := Iff.rfl

theorem admitted_leaf (l : Leaf) : admitted {[l]} = l.names := by
  ext names
  constructor
  · rintro ⟨_, rfl, ha⟩
    obtain ⟨name, _, hn, hnil, rfl⟩ := List.forall₂_cons_left_iff.mp ha
    rw [List.forall₂_nil_left_iff] at hnil
    exact ⟨name, hn, by rw [hnil]⟩
  · rintro ⟨name, hn, rfl⟩
    exact ⟨[l], rfl, .cons hn .nil⟩

theorem admitted_times (o : Occurs) (l : Language Leaf) :
    admitted (o.times l) = o.times (admitted l) := by
  ext names
  rw [Occurs.mem_times]
  constructor
  · rintro ⟨leaves, ⟨k, hk, hl⟩, ha⟩
    exact ⟨k, hk, by rw [← map_pow]; exact ⟨leaves, hl, ha⟩⟩
  · rintro ⟨k, hk, hn⟩
    rw [← map_pow] at hn
    obtain ⟨leaves, hl, ha⟩ := hn
    exact ⟨leaves, ⟨k, hk, hl⟩, ha⟩

mutual

theorem admitted_leafWords (elements : Table ElementDecl) :
    ∀ p : Particle, admitted (p.leafWords elements) = p.language elements
  | .element o d => by
      rw [Particle.leafWords, Particle.language, Particle.denotes, Particle.denotes, admitted_times,
        admitted_leaf]
  | .reference o name => by
      rw [Particle.leafWords, Particle.language, Particle.denotes, Particle.denotes, admitted_times]
      cases elements.find? name with
      | none => exact congrArg o.times (map_zero admitted)
      | some d => exact congrArg o.times (admitted_leaf (.element d))
  | .any o w => by
      rw [Particle.leafWords, Particle.language, Particle.denotes, Particle.denotes, admitted_times,
        admitted_leaf]
  | .sequence o items => by
      rw [Particle.leafWords, Particle.language, Particle.denotes, Particle.denotes, admitted_times,
        map_list_prod, map_admitted_leafWords elements items]
  | .choice o items => by
      rw [Particle.leafWords, Particle.language, Particle.denotes, Particle.denotes, admitted_times,
        map_list_sum, map_admitted_leafWords elements items]
  | .all o _ => by
      rw [Particle.leafWords, Particle.language, Particle.denotes, Particle.denotes, admitted_times,
        map_zero]
  | .group o _ => by
      rw [Particle.leafWords, Particle.language, Particle.denotes, Particle.denotes, admitted_times,
        map_zero]

theorem map_admitted_leafWords (elements : Table ElementDecl) : ∀ ps : List Particle,
    (Particle.denotesEach elements (fun l => {[l]}) ps).map admitted
      = Particle.denotesEach elements Leaf.names ps
  | [] => by rw [Particle.denotesEach, Particle.denotesEach, List.map_nil]
  | p :: ps => by
      rw [Particle.denotesEach, Particle.denotesEach, List.map_cons,
        map_admitted_leafWords elements ps]
      exact congrArg (· :: _) (admitted_leafWords elements p)

end

/-- **A model admits children if its leaves do**, one for each child. -/
theorem Particle.mem_language_iff {elements : Table ElementDecl} {p : Particle}
    {names : List ExpandedName} :
    names ∈ p.language elements ↔ ∃ leaves ∈ p.leafWords elements, Admit leaves names := by
  rw [← admitted_leafWords, mem_admitted]

end XmlConformance.Schema
