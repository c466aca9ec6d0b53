import XmlConformance.Proofs.Schema.Validity

/-!
# Proofs/Schema/Children — no child of an accepted list is left unchecked

A run on an automaton says for each child which leaf admits it, or that none does; children that no
leaf admits are passed over when the content of an element is checked. This never happens to
children that are accepted: each has a leaf that admits it, and in their order these leaves are a
word of the content model. So the content is accepted only if each child is, under its leaf
(`Grammar.checkUnder`).
-/

namespace XmlConformance.Schema

open Xml

namespace Grammar

variable (g : Grammar)

/-- The check of a child that a leaf admits. -/
def checkUnder (l : Leaf) (e : Element) : Except Violation Unit :=
  match l with
  | .element decl => g.validateNode decl (.element e.1 e.2)
  | .wildcard w =>
    match w.processing, g.elements.find? e.1.name with
    | .skip, _ => .ok ()
    | _, some decl => g.validateNode decl (.element e.1 e.2)
    | .lax, none => g.validateFreely e.2
    | .strict, none => violates e.1 (.strictWildcard e.1.qualifiedName)

variable {g}

theorem validateChildren_cons (l : Leaf) (leaves : List (Option Leaf)) (t : Tag)
    (cs rest : List Node) :
    g.validateChildren (some l :: leaves) (.element t cs :: rest) =
      (g.checkUnder l (t, cs) >>= fun _ => g.validateChildren leaves rest) := by
  cases l with
  | element decl => rw [validateChildren, checkUnder]
  | wildcard w =>
    rw [validateChildren, checkUnder]
    cases w.processing <;> cases g.elements.find? t.name <;> rfl

/-- **Children are accepted if each one is under its leaf.** -/
theorem validateChildren_eq_ok_iff : ∀ (leaves : List Leaf) (cs : List Node),
    leaves.length = (childElements cs).length →
      (g.validateChildren (leaves.map some) cs = .ok () ↔
        List.Forall₂ (fun l e => g.checkUnder l e = .ok ()) leaves (childElements cs))
  | leaves, [], hlength => by
    obtain rfl : leaves = [] := List.length_eq_zero_iff.1 hlength
    exact iff_of_true (by rw [validateChildren]) .nil
  | [], .element t cs :: rest, hlength => by cases hlength
  | l :: leaves, .element t cs :: rest, hlength => by
    rw [List.map_cons, validateChildren_cons, childElements_cons_element, List.forall₂_cons,
      ← validateChildren_eq_ok_iff leaves rest (Nat.succ.inj hlength), bind_eq_ok]
    constructor
    · rintro ⟨_, h, hrest⟩
      exact ⟨h, hrest⟩
    · rintro ⟨h, hrest⟩
      exact ⟨(), h, hrest⟩
  | leaves, .text _ :: rest, hlength | leaves, .comment _ :: rest, hlength
  | leaves, .instruction _ _ :: rest, hlength | leaves, .root _ :: rest, hlength => by
    rw [childElements_cons_other rfl, ← validateChildren_eq_ok_iff leaves rest hlength,
      validateChildren]
    all_goals simp

/-- The content of an element is bound by the automaton of its content model. -/
theorem bind_eq_ok_of_run {model : Particle} {a : Automaton} {t : Tag} {cs : List Node}
    {found : List (Option Leaf)} (hmodel : ∀ o items, model ≠ .all o items)
    (h : Automaton.build g.elements model = .ok a)
    (hrun : a.run ((childTags cs).map (·.name)) = .ok found) : g.bind model t cs = .ok found := by
  rw [bind, runModel_eq_build hmodel, h, ok_bind, hrun]

end Grammar

/-- **Every child of an accepted list has a leaf** that admits it, also where the content model is
ambiguous, and in their order these leaves are a word of the model. So the content of an element is
accepted if and only if it has no characters that it may not have, and each child is accepted under
its leaf. -/
theorem Automaton.exists_leaves_of_run {g : Grammar} {model : Particle} {a : Automaton}
    (h : Automaton.build g.elements model = .ok a) {names : List ExpandedName}
    {found : List (Option Leaf)} (hrun : a.run names = .ok found) :
    ∃ leaves ∈ model.leafWords g.elements, found = leaves.map some ∧ Admit leaves names ∧
      ∀ (c : ComplexType) (decl : ElementDecl) (t : Tag) (cs : List Node),
        c.content = .elements model → (∀ o items, model ≠ .all o items) →
        (childTags cs).map (·.name) = names →
        (g.checkContentOf c decl t cs (fun leaves => g.validateChildren leaves cs) = .ok () ↔
          (c.mixed = true ∨ hasCharacters cs = false) ∧
            List.Forall₂ (fun l e => g.checkUnder l e = .ok ()) leaves (childElements cs)) := by
  have hyields := Automaton.run_yields h names
  rw [hrun] at hyields
  obtain ⟨leaves, hleaves, rfl, hadmits⟩ := hyields
  refine ⟨leaves, hleaves, rfl, hadmits, fun c decl t cs hcontent hmodel hnames => ?_⟩
  have hlength : leaves.length = (childElements cs).length := by
    rw [hadmits.length_eq, ← hnames, childTags_eq, List.length_map, List.length_map]
  rw [← Grammar.validateChildren_eq_ok_iff leaves cs hlength, Grammar.checkContentOf, hcontent]
  dsimp only
  have hmay : (c.mixed = true ∨ hasCharacters cs = false) ↔
      ¬ (!c.mixed && hasCharacters cs) = true := by
    cases c.mixed <;> cases hasCharacters cs <;> decide
  rw [hmay]
  split
  case isTrue hchars =>
    exact iff_of_false (fun hviolates => by cases hviolates) fun hboth => hboth.1 hchars
  case isFalse hchars =>
    rw [Grammar.bind_eq_ok_of_run hmodel h (by rw [hnames]; exact hrun), ok_bind]
    exact (and_iff_right hchars).symm

/-- An element `a` or none, and behind it any number of children of any name. -/
def elementThenAny : Particle :=
  .sequence .once [.element ⟨0, some 1⟩ ⟨⟨none, "a"⟩, .any, false, false, none⟩,
    .any ⟨0, none⟩ ⟨.any, .lax⟩]

theorem Automaton.exists_leaves_elementThenAny :
    ∃ a found, Automaton.build [] elementThenAny = .ok a ∧
      a.run [⟨none, "a"⟩, ⟨none, "a"⟩] = .ok found ∧
      ∃ leaves ∈ elementThenAny.leafWords [], found = leaves.map some ∧
        Admit leaves [⟨none, "a"⟩, ⟨none, "a"⟩] := by
  have hbuild : (Automaton.build [] elementThenAny).toOption.isSome = true := by decide
  cases h : Automaton.build [] elementThenAny with
  | error e =>
    rw [h] at hbuild
    cases hbuild
  | ok a =>
    obtain ⟨hwf, hwords⟩ := Automaton.build_spec h
    have hword : [.wildcard ⟨.any, .lax⟩, .wildcard ⟨.any, .lax⟩] ∈
        elementThenAny.leafWords [] := by
      rw [elementThenAny, Particle.leafWords, Particle.denotes, Occurs.times_once,
        Particle.denotesEach, Particle.denotesEach, Particle.denotesEach, List.prod_cons,
        List.prod_cons, List.prod_nil, mul_one, Language.mem_mul, Particle.denotes,
        Particle.denotes]
      refine ⟨[], ⟨0, ⟨le_rfl, fun _ _ => .inr rfl⟩, rfl⟩, _, ⟨2, ⟨Nat.zero_le _, nofun⟩, ?_⟩, rfl⟩
      rw [pow_two]
      exact ⟨_, rfl, _, rfl, rfl⟩
    obtain ⟨found, hrun⟩ := (Automaton.run_ok_iff hwf [⟨none, "a"⟩, ⟨none, "a"⟩]).2
      ⟨_, (hwords _).2 hword, .cons rfl (.cons rfl .nil)⟩
    obtain ⟨leaves, hleaves, hfound, hadmits, -⟩ :=
      Automaton.exists_leaves_of_run (g := ⟨[], [], []⟩) h hrun
    exact ⟨a, found, rfl, hrun, leaves, hleaves, hfound, hadmits⟩

end XmlConformance.Schema
