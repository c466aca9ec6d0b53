import XmlConformance.Proofs.Schema.Running

/-!
# Proofs/Schema/Completing — from every state the accepting one can be reached

A content model has dead ends where nothing can come: a choice without alternatives, a reference to
an element that is not declared, a wildcard that admits no name. A model without these is
*productive* (`Particle.Productive`). In its automaton there is a way from every state to the
accepting one, and each leaf on a move admits some child, so children that led to a state can always
be completed to an accepted list (`Automaton.exists_completion`).

The induction is over the builders of `Draft`: from the source and from each new state a way leads
to the target (`Draft.Onward`).
-/

namespace XmlConformance.Schema

open Xml

/-! ## Productive content models -/

mutual

/-- **A content model without dead ends**: every choice has an alternative, every element referred
to is declared, and every wildcard admits some namespace; groups are replaced by what they stand
for, and no `all` is inside. -/
def Particle.Productive (elements : Table ElementDecl) : Particle → Prop
  | .element _ _ => True
  | .reference _ name => ∃ decl, elements.find? name = some decl
  | .sequence _ items => Particle.AllProductive elements items
  | .choice _ items => items ≠ [] ∧ Particle.AllProductive elements items
  | .all _ _ => False
  | .group _ _ => False
  | .any _ w => ∃ uri, w.allows uri = true

/-- Particles without dead ends. -/
def Particle.AllProductive (elements : Table ElementDecl) : List Particle → Prop
  | [] => True
  | p :: ps => p.Productive elements ∧ Particle.AllProductive elements ps

end

/-- Some child can stand under a leaf. -/
def Leaf.Satisfiable (l : Leaf) : Prop := ∃ name, l.admits name = true

theorem Leaf.satisfiable_element (decl : ElementDecl) : (Leaf.element decl).Satisfiable :=
  ⟨decl.name, beq_self_eq_true decl.name⟩

theorem Leaf.satisfiable_wildcard {w : Wildcard} {uri : Option String} (h : w.allows uri = true) :
    (Leaf.wildcard w).Satisfiable :=
  ⟨⟨uri, ""⟩, h⟩

/-! ## Drafts without dead ends -/

namespace Draft

/-- **What a draft gains has no dead end**: from the source and from each new state a way leads to
the target, and each new leaf admits some child. -/
structure Onward (source : ℕ) (d : Draft) (target : ℕ) (d' : Draft) : Prop where
  size_le : d.size ≤ d'.size
  steps_le : d.steps ≤ d'.steps
  way : ∀ s, s = source ∨ s ∈ Set.Ico d.size d'.size → ∃ leaves, d'.steps.WayTo target s leaves
  satisfiable : ∀ {s l t}, d'.steps s (some l) t → d.steps s (some l) t ∨ l.Satisfiable

/-- A builder adds no dead ends, wherever it starts. -/
def BuildsOnward (build : Builder) : Prop :=
  ∀ ⦃source d target d'⦄, build source d = .ok (target, d') → Onward source d target d'

theorem step_addSkip (d : Draft) (s t : ℕ) : (d.addSkip s t).steps s none t := by
  rw [steps_addSkip]
  exact .inr ⟨rfl, rfl, rfl⟩

theorem steps_le_addSkip (d : Draft) (s t : ℕ) : d.steps ≤ (d.addSkip s t).steps := by
  rw [steps_addSkip]
  exact le_sup_left

namespace Onward

variable {source m target : ℕ} {d d₁ d' : Draft}

theorem refl (source : ℕ) (d : Draft) : Onward source d source d where
  size_le := le_rfl
  steps_le := le_rfl
  way s hs := by
    rw [Set.Ico_self] at hs
    obtain rfl := hs.resolve_right id
    exact ⟨[], .nil⟩
  satisfiable := .inl

/-- Two parts, if there is a way from where the first one leads. -/
theorem join {m' : ℕ} (h₁ : Onward source d m d₁) (h₂ : Onward m' d₁ target d')
    (hm : ∃ leaves, d'.steps.WayTo target m leaves) : Onward source d target d' where
  size_le := h₁.size_le.trans h₂.size_le
  steps_le := h₁.steps_le.trans h₂.steps_le
  way s hs := by
    rw [← Set.Ico_union_Ico_eq_Ico h₁.size_le h₂.size_le, Set.mem_union, ← or_assoc] at hs
    rcases hs with hs | hs
    · obtain ⟨u, hu⟩ := h₁.way s hs
      obtain ⟨v, hv⟩ := hm
      exact ⟨_, (hu.mono h₂.steps_le).append hv⟩
    · exact h₂.way s (.inr hs)
  satisfiable hs := (h₂.satisfiable hs).elim h₁.satisfiable .inr

/-- One behind the other. -/
theorem trans (h₁ : Onward source d m d₁) (h₂ : Onward m d₁ target d') :
    Onward source d target d' :=
  h₁.join h₂ (h₂.way m (.inl rfl))

/-- Side by side, from one state to another. -/
theorem beside (h₁ : Onward source d target d₁) (h₂ : Onward source d₁ target d') :
    Onward source d target d' :=
  h₁.join h₂ ⟨[], .nil⟩

/-- One skip. -/
theorem skip (source target : ℕ) (d : Draft) :
    Onward source d target (d.addSkip source target) where
  size_le := le_rfl
  steps_le := steps_le_addSkip d source target
  way s hs := by
    rw [size_addSkip, Set.Ico_self] at hs
    obtain rfl := hs.resolve_right id
    exact ⟨[], .one (o := none) (step_addSkip d s target)⟩
  satisfiable := .inl

/-- A skip that was there before is no dead end either. -/
theorem of_addSkip {s t : ℕ} (h : Onward source (d.addSkip s t) target d') :
    Onward source d target d' where
  size_le := h.size_le
  steps_le := (steps_le_addSkip d s t).trans h.steps_le
  way := h.way
  satisfiable := h.satisfiable

/-- The target may be a new state itself. -/
theorem of_addState (hadd : d.addState = .ok (target, d₁)) (h : Onward source d₁ target d') :
    Onward source d target d' := by
  obtain ⟨rfl, hsize, hsteps⟩ := addState_eq_ok hadd
  refine ⟨by have := h.size_le; omega, hsteps ▸ h.steps_le, fun s hs => ?_, fun hs => ?_⟩
  · by_cases hs' : s = d.size
    · exact ⟨[], hs' ▸ .nil⟩
    · refine h.way s (hs.imp_right fun hm => ⟨?_, hm.2⟩)
      have := hm.1
      omega
  · rw [← hsteps]
    exact h.satisfiable hs

end Onward

/-! ## Builders without dead ends -/

theorem onward_addLeaf {l : Leaf} (hl : l.Satisfiable) :
    BuildsOnward fun source d => d.addLeaf (some l) source := by
  intro source d target d' h
  obtain ⟨⟨n, d₁⟩, h₁, h⟩ := bind_eq_ok.mp h
  cases h
  refine .of_addState h₁ ⟨le_rfl, fun s o t hs => ?_, fun s hs => ?_, fun {s l' t} hs => ?_⟩
  · cases o with
    | none => exact hs
    | some l' => exact List.mem_cons_of_mem _ hs
  · rw [Set.Ico_self] at hs
    obtain rfl := hs.resolve_right id
    exact ⟨_, .one (o := some l) (List.mem_cons_self ..)⟩
  · rcases List.mem_cons.mp hs with hs | hs
    · cases hs
      exact .inr hl
    · exact .inl hs

theorem onward_repeatTimes {build : Builder} (hb : BuildsOnward build) :
    ∀ n, BuildsOnward (repeatTimes build n)
  | 0 => by
      intro source d target d' h
      cases h
      exact .refl source d
  | n + 1 => by
      intro source d target d' h
      rw [repeatTimes] at h
      split at h
      · cases h
      · next h₁ =>
        split at h
        · cases h
          exact hb h₁
        · exact (hb h₁).trans (onward_repeatTimes hb n h)

theorem onward_repeatUpTo {build : Builder} (hb : BuildsOnward build) {exit : ℕ} :
    ∀ n {source d last d'}, repeatUpTo build exit n source d = .ok (last, d') →
      Onward source d exit (d'.addSkip last exit)
  | 0, source, d, last, d', h => by
      cases h
      exact .skip source exit d
  | n + 1, source, d, last, d', h => by
      rw [repeatUpTo] at h
      split at h
      · cases h
      · next h₁ =>
        split at h
        · cases h
          exact .of_addSkip ((hb h₁).trans (.skip last exit d'))
        · exact .of_addSkip ((hb h₁).trans (onward_repeatUpTo hb n h))

theorem onward_occurring {build : Builder} (hb : BuildsOnward build) (o : Occurs) :
    BuildsOnward (occurring build o) := by
  intro source d target d' h
  obtain ⟨⟨last, d₁⟩, h₁, h⟩ := bind_eq_ok.mp h
  refine (onward_repeatTimes hb o.least h₁).trans ?_
  cases hm : o.most with
  | none =>
    simp only [hm] at h
    obtain ⟨⟨again, d₂⟩, h₂, h⟩ := bind_eq_ok.mp h
    obtain ⟨⟨last', d₃⟩, h₃, h⟩ := bind_eq_ok.mp h
    cases h
    exact .of_addState h₂ ((Onward.skip last again d₂).trans ((hb h₃).trans (.skip last' again d₃)))
  | some most =>
    simp only [hm] at h
    split at h
    · cases h
      exact .refl _ _
    · obtain ⟨⟨exit, d₂⟩, h₂, h⟩ := bind_eq_ok.mp h
      obtain ⟨⟨last', d₃⟩, h₃, h⟩ := bind_eq_ok.mp h
      cases h
      exact .of_addState h₂ (onward_repeatUpTo hb _ h₃)

theorem onward_inRow : ∀ {bs : List Builder}, (∀ b ∈ bs, BuildsOnward b) → BuildsOnward (inRow bs)
  | [], _ => by
      intro source d target d' h
      cases h
      exact .refl source d
  | b :: bs, hbs => by
      rw [List.forall_mem_cons] at hbs
      intro source d target d' h
      obtain ⟨⟨m, d₁⟩, h₁, h⟩ := bind_eq_ok.mp h
      exact (hbs.1 h₁).trans (onward_inRow hbs.2 h)

/-- Each alternative leads to the join; without any, nothing does. -/
theorem onward_beside {source join : ℕ} : ∀ {bs : List Builder}, bs ≠ [] →
    (∀ b ∈ bs, BuildsOnward b) → ∀ {d d'}, Draft.beside source join bs d = .ok d' →
      Onward source d join d'
  | [], hne, _, _, _, _ => absurd rfl hne
  | b :: bs, _, hbs, d, d', h => by
      rw [List.forall_mem_cons] at hbs
      obtain ⟨⟨last, d₁⟩, h₁, h⟩ := bind_eq_ok.mp h
      have hfirst := (hbs.1 h₁).trans (.skip last join d₁)
      by_cases hne : bs = []
      · subst hne
        cases h
        exact hfirst
      · exact hfirst.beside (onward_beside hne hbs.2 h)

theorem onward_choosing {bs : List Builder} (hne : bs ≠ []) (hbs : ∀ b ∈ bs, BuildsOnward b) :
    BuildsOnward (choosing bs) := by
  intro source d target d' h
  obtain ⟨⟨join, d₁⟩, h₁, h⟩ := bind_eq_ok.mp h
  obtain ⟨d₂, h₂, h⟩ := bind_eq_ok.mp h
  cases h
  exact .of_addState h₁ (onward_beside hne hbs h₂)

theorem particles_ne_nil {elements : Table ElementDecl} {ps : List Particle} (h : ps ≠ []) :
    particles elements ps ≠ [] := by
  cases ps with
  | nil => exact absurd rfl h
  | cons p ps =>
    rw [particles]
    exact List.cons_ne_nil _ _

mutual

/-- **The builder of a productive content model adds no dead ends.** -/
theorem onward_particle {elements : Table ElementDecl} :
    ∀ {p : Particle}, p.Productive elements → BuildsOnward (particle elements p)
  | .element o decl, _ => by
      rw [particle]
      exact onward_occurring (onward_addLeaf (Leaf.satisfiable_element decl)) o
  | .reference o name, h => by
      rw [Particle.Productive] at h
      obtain ⟨decl, hdecl⟩ := h
      rw [particle, hdecl]
      exact onward_occurring (onward_addLeaf (Leaf.satisfiable_element decl)) o
  | .any o w, h => by
      rw [Particle.Productive] at h
      obtain ⟨uri, huri⟩ := h
      rw [particle]
      exact onward_occurring (onward_addLeaf (Leaf.satisfiable_wildcard huri)) o
  | .sequence o items, h => by
      rw [Particle.Productive] at h
      rw [particle]
      exact onward_occurring (onward_inRow (onward_particles h)) o
  | .choice o items, h => by
      rw [Particle.Productive] at h
      rw [particle]
      exact onward_occurring (onward_choosing (particles_ne_nil h.1) (onward_particles h.2)) o
  | .all o items, h => by
      rw [Particle.Productive] at h
      exact h.elim
  | .group o name, h => by
      rw [Particle.Productive] at h
      exact h.elim

theorem onward_particles {elements : Table ElementDecl} :
    ∀ {ps : List Particle}, Particle.AllProductive elements ps →
      ∀ b ∈ particles elements ps, BuildsOnward b
  | [], _ => by
      rw [particles]
      exact nofun
  | p :: ps, h => by
      rw [Particle.AllProductive] at h
      rw [particles, List.forall_mem_cons]
      exact ⟨onward_particle h.1, onward_particles h.2⟩

end

end Draft

/-! ## Automata without dead ends -/

namespace Automaton

/-- An automaton without dead ends: a way leads from every state to the accepting one, and each leaf
on a move admits some child. -/
structure Trim (a : Automaton) : Prop where
  way : ∀ s < a.skips.size, ∃ leaves, a.steps.WayTo a.accept s leaves
  satisfiable : ∀ {s l t}, a.steps s (some l) t → l.Satisfiable

/-- **The automaton of a productive content model has no dead ends.** -/
theorem trim_of_build {elements : Table ElementDecl} {model : Particle} {a : Automaton}
    (h : build elements model = .ok a) (hp : model.Productive elements) : a.Trim := by
  obtain ⟨⟨accept, d⟩, hd, h⟩ := bind_eq_ok.mp h
  cases h
  have honward := Draft.onward_particle hp hd
  have hsteps : (ofDraft d accept).steps = d.steps :=
    steps_ofDraft fun hs => ((spells_of_particle hd).2.1 hs).1
  refine ⟨fun s hs => ?_, fun hs => ?_⟩
  · rw [size_ofDraft] at hs
    rw [hsteps]
    refine honward.way s ?_
    rcases Nat.eq_zero_or_pos s with rfl | hpos
    · exact .inl rfl
    · exact .inr ⟨hpos, hs⟩
  · rw [hsteps] at hs
    refine (honward.satisfiable hs).resolve_left fun hs => ?_
    rw [Draft.steps_initial] at hs
    exact hs.elim

variable {a : Automaton}

/-- The leaves on a way all admit some child. -/
theorem Trim.exists_admit (ht : a.Trim) {s t : ℕ} {leaves : List Leaf}
    (h : a.steps.WayTo t s leaves) : ∃ names, Admit leaves names := by
  induction h with
  | nil => exact ⟨[], .nil⟩
  | @cons s o t w step _ ih =>
    obtain ⟨names, hadm⟩ := ih
    cases o with
    | none => exact ⟨names, hadm⟩
    | some l =>
      obtain ⟨name, hname⟩ := ht.satisfiable step
      exact ⟨name :: names, .cons hname hadm⟩

/-- **From every state there are children that lead to the accepting one.** -/
theorem Trim.exists_completion (ht : a.Trim) {s : ℕ} (hs : s < a.skips.size) :
    ∃ leaves names, a.steps.WayTo a.accept s leaves ∧ Admit leaves names := by
  obtain ⟨leaves, hway⟩ := ht.way s hs
  obtain ⟨names, hadm⟩ := ht.exists_admit hway
  exact ⟨leaves, names, hway, hadm⟩

/-- A way leads to states that exist. -/
theorem WellFormed.lt_of_way (hw : a.WellFormed) {s t : ℕ} {leaves : List Leaf}
    (hs : s < a.skips.size) (h : a.steps.WayTo t s leaves) : t < a.skips.size := by
  induction h with
  | nil => exact hs
  | @cons s o t w step _ ih =>
    cases o with
    | none => exact ih (hw.skip_lt step)
    | some l => exact ih (hw.move_lt step)

end Automaton

end XmlConformance.Schema
