import XmlConformance.Proofs.Schema.Running

/-!
# Proofs/Schema/ContentModel — the automaton of a content model accepts its language

The two sides meet: what the construction puts into an automaton (`Automaton.build_spec`) and what a
run finds in it (`Automaton.run_ok_iff`).
-/

namespace XmlConformance.Schema

open Xml

/-- **A run on the automaton of a content model succeeds exactly on the language of the model**,
for every nesting of sequences, choices and repetitions and for any number of children. -/
theorem Automaton.run_build_ok_iff_mem_language {elements : Table ElementDecl} {model : Particle}
    {a : Automaton} (h : Automaton.build elements model = .ok a) (names : List ExpandedName) :
    (∃ leaves, a.run names = .ok leaves) ↔ names ∈ model.language elements := by
  obtain ⟨hw, hwords⟩ := Automaton.build_spec h
  rw [Automaton.run_ok_iff hw, Particle.mem_language_iff]
  simp only [hwords]

/-- Two or three items, and behind them any number of notes or of anything else. -/
def itemsThenNotes : Particle :=
  .sequence .once
    [.element ⟨2, some 3⟩ ⟨⟨none, "Item"⟩, .any, false, false, none⟩,
      .choice ⟨0, none⟩
        [.reference .once ⟨none, "Note"⟩, .any ⟨1, some 2⟩ ⟨.among [some "urn:a"], .skip⟩]]

theorem Automaton.run_itemsThenNotes_ok : ∃ a, Automaton.build [] itemsThenNotes = .ok a ∧
    ∃ leaves, a.run [⟨none, "Item"⟩, ⟨none, "Item"⟩, ⟨some "urn:a", "x"⟩] = .ok leaves := by
  have hbuild : (Automaton.build [] itemsThenNotes).toOption.isSome = true := by decide
  cases h : Automaton.build [] itemsThenNotes with
  | error e =>
    rw [h] at hbuild
    cases hbuild
  | ok a =>
    refine ⟨a, rfl, (Automaton.run_build_ok_iff_mem_language h _).mpr ?_⟩
    rw [itemsThenNotes, Particle.language, Particle.denotes, Occurs.times_once,
      Particle.denotesEach, Particle.denotesEach, Particle.denotesEach, List.prod_cons,
      List.prod_cons, List.prod_nil, mul_one, Language.mem_mul]
    refine ⟨[⟨none, "Item"⟩, ⟨none, "Item"⟩], ?_, [⟨some "urn:a", "x"⟩], ?_, rfl⟩
    · rw [Particle.denotes, Leaf.names_element]
      exact ⟨2, ⟨le_rfl, fun _ _ => .inr rfl⟩, by rw [pow_two]; exact ⟨_, rfl, _, rfl, rfl⟩⟩
    · rw [Particle.denotes, Particle.denotesEach, Particle.denotesEach, Particle.denotesEach,
        List.sum_cons, List.sum_cons, List.sum_nil, add_zero]
      refine ⟨1, ⟨Nat.zero_le _, fun _ hm => by cases hm⟩, ?_⟩
      rw [pow_one, Particle.denotes, Particle.denotes]
      exact .inr ⟨1, ⟨le_rfl, fun _ _ => .inr rfl⟩, by rw [pow_one]; exact ⟨_, rfl, rfl⟩⟩

end XmlConformance.Schema
