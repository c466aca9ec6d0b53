import Mathlib.Order.Interval.Set.Disjoint
import Mathlib.Order.Interval.Set.LinearOrder
import XmlConformance.Proofs.Outcome
import XmlConformance.Proofs.Schema.Steps

/-!
# Proofs/Schema/Construction — a draft spells the words of its content model

A builder puts new states behind those of a draft, and new steps between its source and the new
states. These steps are a part of the automaton in the sense of `Steps.Spells`; `Adds` says so of
one draft that grows to another, and `Builds` of a builder on every draft. Repetitions and
alternatives share one exit; what a draft gains on the way there is `Leads`.

There is one lemma for each way to put builders together, and `builds_particle` is the induction
over the content model.
-/

namespace XmlConformance.Schema

open Computability

namespace Draft

/-- The steps of a draft. -/
def steps (d : Draft) : Steps := fun s o t =>
  match o with
  | none => (s, t) ∈ d.skips
  | some l => ⟨s, l, t⟩ ∈ d.moves

@[simp] theorem steps_initial : initial.steps = ⊥ := by
  ext s o t
  cases o <;> simp [steps, initial]

theorem steps_addSkip (d : Draft) (s t : ℕ) :
    (d.addSkip s t).steps = d.steps ⊔ Steps.single s none t := by
  ext s' o t'
  cases o <;> simp [steps, addSkip, Steps.single, or_comm]

@[simp] theorem size_addSkip (d : Draft) (s t : ℕ) : (d.addSkip s t).size = d.size := rfl

/-- A new state takes the next number; nothing leads to it yet. -/
theorem addState_eq_ok {d d' : Draft} {n : ℕ} (h : d.addState = .ok (n, d')) :
    n = d.size ∧ d'.size = d.size + 1 ∧ d'.steps = d.steps := by
  unfold addState at h
  split at h
  · cases h
    exact ⟨rfl, rfl, rfl⟩
  · cases h

/-! ## What a draft gains -/

/-- **The steps that a draft gains** lead from `source` over new states to `target`, and spell a
language. -/
def Adds (source : ℕ) (d : Draft) (target : ℕ) (d' : Draft) (l : Language Leaf) : Prop :=
  d.size ≤ d'.size ∧
    ∃ Δ : Steps, d'.steps = d.steps ⊔ Δ ∧ Δ.Spells source (Set.Ico d.size d'.size) target l

/-- **A builder spells a language**, wherever it starts. -/
def Builds (build : Builder) (l : Language Leaf) : Prop :=
  ∀ ⦃source d target d'⦄, source < d.size → build source d = .ok (target, d') →
    Adds source d target d' l

namespace Adds

variable {source m target : ℕ} {d d₁ d' : Draft} {l l₁ l₂ : Language Leaf}

theorem refl (source : ℕ) (d : Draft) : Adds source d source d 1 :=
  ⟨le_rfl, ⊥, sup_bot_eq _ |>.symm, (Steps.Spells.empty source).congr (Set.Ico_self _).symm rfl⟩

theorem target_lt (h : Adds source d target d' l) (hs : source < d.size) : target < d'.size := by
  obtain ⟨hle, Δ, -, hΔ⟩ := h
  rcases hΔ.target_mem with rfl | ht
  · exact hs.trans_le hle
  · exact ht.2

/-- A way from one state never ends at another one that was there before. -/
theorem target_ne (h : Adds source d target d' l) {s : ℕ} (hne : source ≠ s) (hs : s < d.size) :
    target ≠ s := by
  obtain ⟨-, Δ, -, hΔ⟩ := h
  rcases hΔ.target_mem with rfl | ht
  · exact hne
  · exact (hs.trans_le ht.1).ne'

/-- Steps that add no state pass nothing. -/
theorem eq_one_of_size_eq (h : Adds source d target d' l) (hd : d'.size = d.size) : l = 1 := by
  obtain ⟨-, Δ, -, hΔ⟩ := h
  obtain ⟨-, -, hl⟩ := (hΔ.congr (by rw [hd, Set.Ico_self]) rfl).of_empty
  exact hl

theorem trans (h₁ : Adds source d m d₁ l₁) (h₂ : Adds m d₁ target d' l₂) (hs : source < d.size) :
    Adds source d target d' (l₁ * l₂) := by
  obtain ⟨hle₁, Δ₁, hsteps₁, hΔ₁⟩ := h₁
  obtain ⟨hle₂, Δ₂, hsteps₂, hΔ₂⟩ := h₂
  refine ⟨hle₁.trans hle₂, Δ₁ ⊔ Δ₂, by rw [hsteps₂, hsteps₁, sup_assoc], ?_⟩
  refine (hΔ₁.append hΔ₂ (Set.Ico_disjoint_Ico_same ..) ?_).congr
    (Set.Ico_union_Ico_eq_Ico hle₁ hle₂) rfl
  exact fun h => absurd h.1 (by omega)

end Adds

/-! ## What leads to an exit -/

/-- **The steps that a draft gains up to an exit** lead from `source` over new states to a state
that other steps may lead to as well, and spell a language. -/
def Leads (source : ℕ) (d : Draft) (exit : ℕ) (d' : Draft) (l : Language Leaf) : Prop :=
  d.size ≤ d'.size ∧
    ∃ Δ : Steps, d'.steps = d.steps ⊔ Δ ∧ Δ.Exits source (Set.Ico d.size d'.size) exit l

namespace Leads

variable {source m exit : ℕ} {d d₁ d' : Draft} {l₁ l₂ : Language Leaf}

theorem refl (h : source ≠ exit) (d : Draft) : Leads source d exit d 0 :=
  ⟨le_rfl, ⊥, sup_bot_eq _ |>.symm, (Set.Ico_self d.size).symm ▸ .unreached h⟩

theorem skip (h : source ≠ exit) (d : Draft) : Leads source d exit (d.addSkip source exit) 1 :=
  ⟨le_rfl, _, steps_addSkip .., (Set.Ico_self d.size).symm ▸ .single h⟩

theorem after (h₁ : Adds source d m d₁ l₁) (h₂ : Leads m d₁ exit d' l₂) (hs : source < d.size)
    (hexit : exit < d.size) (hne : source ≠ exit) : Leads source d exit d' (l₁ * l₂) := by
  obtain ⟨hle₁, Δ₁, hsteps₁, hΔ₁⟩ := h₁
  obtain ⟨hle₂, Δ₂, hsteps₂, hΔ₂⟩ := h₂
  refine ⟨hle₁.trans hle₂, Δ₁ ⊔ Δ₂, by rw [hsteps₂, hsteps₁, sup_assoc], ?_⟩
  rw [← Set.Ico_union_Ico_eq_Ico hle₁ hle₂]
  exact hΔ₂.after hΔ₁ hne (fun h => hexit.not_ge h.1) (fun h => (hs.trans_le hle₁).not_ge h.1)
    (Set.Ico_disjoint_Ico_same ..)

theorem beside (h₁ : Leads source d exit d₁ l₁) (h₂ : Leads source d₁ exit d' l₂)
    (hs : source < d.size) : Leads source d exit d' (l₁ + l₂) := by
  obtain ⟨hle₁, Δ₁, hsteps₁, hΔ₁⟩ := h₁
  obtain ⟨hle₂, Δ₂, hsteps₂, hΔ₂⟩ := h₂
  refine ⟨hle₁.trans hle₂, Δ₁ ⊔ Δ₂, by rw [hsteps₂, hsteps₁, sup_assoc], ?_⟩
  rw [← Set.Ico_union_Ico_eq_Ico hle₁ hle₂]
  exact hΔ₁.beside hΔ₂ (fun h => hs.not_ge h.1) (fun h => (hs.trans_le hle₁).not_ge h.1)
    (Set.Ico_disjoint_Ico_same ..)

/-- With an exit of its own, a draft gains one more state. -/
theorem adds (h : Leads source d₁ exit d' l₁) (h₁ : d.addState = .ok (exit, d₁)) :
    Adds source d exit d' l₁ := by
  obtain ⟨rfl, hsize, hsteps⟩ := addState_eq_ok h₁
  obtain ⟨hle, Δ, hΔsteps, hΔ⟩ := h
  refine ⟨by omega, Δ, by rw [hΔsteps, hsteps], hΔ.spells.congr ?_ rfl⟩
  ext x
  rw [Set.mem_union, Set.mem_singleton_iff, Set.mem_Ico, Set.mem_Ico]
  omega

end Leads

/-! ## Leaves -/

/-- A leaf admits one child; where there is none, nothing leads on. -/
theorem builds_addLeaf (leaf : Option Leaf) :
    Builds (fun source d => d.addLeaf leaf source) ((leaf.map fun l => {[l]}).getD 0) := by
  intro source d target d' hs h
  obtain ⟨⟨n, d₁⟩, h₁, h⟩ := bind_eq_ok.mp h
  obtain ⟨rfl, hsize, hsteps⟩ := addState_eq_ok h₁
  have hIco : Set.Ico d.size d₁.size = {d.size} := by
    ext x
    rw [Set.mem_Ico, Set.mem_singleton_iff]
    omega
  cases leaf with
  | none =>
    cases h
    exact ⟨by omega, ⊥, by rw [hsteps, sup_bot_eq],
      (Steps.Spells.unreached hs.ne).congr hIco.symm rfl⟩
  | some l =>
    cases h
    refine ⟨by simp only; omega, Steps.single source (some l) d.size, ?_,
      (Steps.Spells.single (some l) hs.ne).congr hIco.symm rfl⟩
    rw [← hsteps]
    ext s o t
    cases o <;> simp [steps, Steps.single, or_comm]

/-! ## Repetitions -/

theorem builds_repeatTimes {build : Builder} {l : Language Leaf} (hb : Builds build l) :
    ∀ n, Builds (repeatTimes build n) (l ^ n)
  | 0 => by
      intro source d target d' _ h
      cases h
      rw [pow_zero]
      exact .refl source d
  | n + 1 => by
      intro source d target d' hs h
      rw [repeatTimes] at h
      split at h
      · cases h
      · next t d₁ h₁ =>
        have hadd := hb hs h₁
        split at h
        · next hsize =>
          cases h
          obtain rfl := hadd.eq_one_of_size_eq (eq_of_beq hsize)
          rwa [one_pow]
        · rw [pow_succ']
          exact hadd.trans (builds_repeatTimes hb n (hadd.target_lt hs) h) hs

/-- The words that consist of at most `n` words of a language. -/
def upTo (l : Language Leaf) (n : ℕ) : Language Leaf := {w | ∃ k ≤ n, w ∈ l ^ k}

theorem upTo_zero (l : Language Leaf) : upTo l 0 = 1 := by
  ext w
  refine ⟨fun ⟨k, hk, hw⟩ => ?_, fun hw => ⟨0, le_rfl, hw⟩⟩
  rwa [Nat.le_zero.mp hk] at hw

theorem upTo_succ (l : Language Leaf) (n : ℕ) : upTo l (n + 1) = 1 + l * upTo l n := by
  ext w
  constructor
  · rintro ⟨_ | k, hk, hw⟩
    · exact .inl hw
    · rw [pow_succ'] at hw
      obtain ⟨u, hu, v, hv, rfl⟩ := hw
      exact .inr ⟨u, hu, v, ⟨k, by omega, hv⟩, rfl⟩
  · rintro (hw | ⟨u, hu, v, ⟨k, hk, hv⟩, rfl⟩)
    · exact ⟨0, by omega, hw⟩
    · exact ⟨k + 1, by omega, by rw [pow_succ']; exact ⟨u, hu, v, hv, rfl⟩⟩

theorem upTo_one (n : ℕ) : upTo 1 n = 1 := by
  induction n with
  | zero => exact upTo_zero 1
  | succ n ih => rw [upTo_succ, ih, one_mul, Language.add_self]

/-- With the way to the exit from behind the last repetition, the repetitions and the ways to the
exit in front of each spell every number of repetitions up to the last. -/
theorem leads_repeatUpTo {build : Builder} {l : Language Leaf} (hb : Builds build l)
    {exit : ℕ} : ∀ n {source d last d'}, source < d.size → source ≠ exit → exit < d.size →
      repeatUpTo build exit n source d = .ok (last, d') →
      Leads source d exit (d'.addSkip last exit) (upTo l n)
  | 0, source, d, last, d', _, hne, _, h => by
      cases h
      rw [upTo_zero]
      exact .skip hne d
  | n + 1, source, d, last, d', hs, hne, hexit, h => by
      rw [repeatUpTo] at h
      split at h
      · cases h
      next t d₁ h₁ =>
      have hadd : Adds source (d.addSkip source exit) t d₁ l := hb hs h₁
      have ht : t < d₁.size := hadd.target_lt hs
      have hte : t ≠ exit := hadd.target_ne hne hexit
      -- A repetition that adds no state passes nothing, and neither do all later ones.
      have hrest : Leads t d₁ exit (d'.addSkip last exit) (upTo l n) := by
        split at h
        · next hsize =>
          cases h
          obtain rfl := hadd.eq_one_of_size_eq (eq_of_beq hsize)
          rw [upTo_one]
          exact .skip hte _
        · exact leads_repeatUpTo hb n ht hte (hexit.trans_le hadd.1) h
      rw [upTo_succ]
      exact (Leads.skip hne d).beside (.after hadd hrest hs hexit hne) hs

theorem times_of_le {o : Occurs} {most : ℕ} (l : Language Leaf) (h : o.most = some most)
    (hle : most ≤ o.least) : o.times l = l ^ o.least := by
  ext w
  constructor
  · rintro ⟨k, ⟨hk, hm⟩, hw⟩
    obtain rfl : k = o.least := by
      have := hm most h
      omega
    exact hw
  · exact fun hw => ⟨o.least, ⟨le_rfl, fun _ _ => .inr rfl⟩, hw⟩

theorem times_of_lt {o : Occurs} {most : ℕ} (l : Language Leaf) (h : o.most = some most)
    (hlt : o.least < most) : o.times l = l ^ o.least * upTo l (most - o.least) := by
  ext w
  constructor
  · rintro ⟨k, ⟨hk, hm⟩, hw⟩
    obtain ⟨j, rfl⟩ := Nat.exists_eq_add_of_le hk
    rw [pow_add] at hw
    obtain ⟨u, hu, v, hv, rfl⟩ := hw
    refine ⟨u, hu, v, ⟨j, ?_, hv⟩, rfl⟩
    have := hm most h
    omega
  · rintro ⟨u, hu, v, ⟨k, hk, hv⟩, rfl⟩
    refine ⟨o.least + k, ⟨by omega, fun m hm => .inl ?_⟩, ?_⟩
    · obtain rfl : most = m := Option.some.inj (h.symm.trans hm)
      omega
    · rw [pow_add]
      exact ⟨u, hu, v, hv, rfl⟩

theorem times_of_none {o : Occurs} (l : Language Leaf) (h : o.most = none) :
    o.times l = l ^ o.least * l∗ := by
  ext w
  rw [Language.kstar_eq_iSup_pow]
  constructor
  · rintro ⟨k, ⟨hk, -⟩, hw⟩
    obtain ⟨j, rfl⟩ := Nat.exists_eq_add_of_le hk
    rw [pow_add] at hw
    obtain ⟨u, hu, v, hv, rfl⟩ := hw
    exact ⟨u, hu, v, Language.mem_iSup.mpr ⟨j, hv⟩, rfl⟩
  · rintro ⟨u, hu, v, hv, rfl⟩
    obtain ⟨j, hv⟩ := Language.mem_iSup.mp hv
    refine ⟨o.least + j, ⟨by omega, fun m hm => by simp [h] at hm⟩, ?_⟩
    rw [pow_add]
    exact ⟨u, hu, v, hv, rfl⟩

/-- **A builder as often as it occurs** spells the repetitions that the bounds permit. -/
theorem builds_occurring {build : Builder} {l : Language Leaf} (hb : Builds build l) (o : Occurs) :
    Builds (occurring build o) (o.times l) := by
  intro source d target d' hs h
  obtain ⟨⟨last, d₁⟩, h₁, h⟩ := bind_eq_ok.mp h
  have hadd := builds_repeatTimes hb o.least hs h₁
  have hlast : last < d₁.size := hadd.target_lt hs
  cases hm : o.most with
  | none =>
    simp only [hm] at h
    obtain ⟨⟨again, d₂⟩, h₂, h⟩ := bind_eq_ok.mp h
    obtain ⟨rfl, hsize, hsteps⟩ := addState_eq_ok h₂
    obtain ⟨⟨last', d₃⟩, h₃, h⟩ := bind_eq_ok.mp h
    dsimp only at h₃ h
    cases h
    obtain ⟨hle, Δ, hΔsteps, hΔ⟩ := hb (d := d₂.addSkip last d₁.size)
      (show d₁.size < d₂.size by omega) h₃
    rw [size_addSkip] at hle hΔ
    have hloop := hΔ.loop (m := last) (fun hm => absurd hm.1 (by omega)) hlast.ne
      (fun hm => absurd hm.1 (by omega))
    rw [times_of_none l hm]
    refine hadd.trans ⟨by rw [size_addSkip]; omega, _, ?_, hloop.congr ?_ rfl⟩ hs
    · rw [steps_addSkip, hΔsteps, steps_addSkip, hsteps, sup_assoc, sup_assoc, sup_assoc]
    · ext x
      rw [Set.mem_union, Set.mem_singleton_iff, Set.mem_Ico, Set.mem_Ico, size_addSkip]
      omega
  | some most =>
    simp only [hm] at h
    split at h
    · next hle =>
      cases h
      rwa [times_of_le l hm hle]
    · next hlt =>
      obtain ⟨⟨exit, d₂⟩, h₂, h⟩ := bind_eq_ok.mp h
      obtain ⟨⟨last', d₃⟩, h₃, h⟩ := bind_eq_ok.mp h
      dsimp only at h₃ h
      cases h
      obtain ⟨rfl, hsize, -⟩ := addState_eq_ok h₂
      have hleads := leads_repeatUpTo hb _ (by omega) hlast.ne (by omega) h₃
      rw [times_of_lt l hm (by omega)]
      exact hadd.trans (hleads.adds h₂) hs

/-! ## Sequences and choices -/

/-- **Builders in a row** spell the concatenation of their languages. -/
theorem builds_inRow : ∀ {bs : List Builder} {ls : List (Language Leaf)},
    List.Forall₂ Builds bs ls → Builds (inRow bs) ls.prod
  | _, _, .nil => by
      intro source d target d' _ h
      cases h
      exact .refl source d
  | _, _, .cons hb hbs => by
      intro source d target d' hs h
      obtain ⟨⟨m, d₁⟩, h₁, h⟩ := bind_eq_ok.mp h
      rw [List.prod_cons]
      have hadd := hb hs h₁
      exact hadd.trans (builds_inRow hbs (hadd.target_lt hs) h) hs

/-- Builders from one state to another spell the union of their languages. -/
theorem leads_beside : ∀ {bs : List Builder} {ls : List (Language Leaf)},
    List.Forall₂ Builds bs ls → ∀ {source join d d'}, source < d.size → source ≠ join →
      join < d.size → Draft.beside source join bs d = .ok d' → Leads source d join d' ls.sum
  | _, _, .nil, source, join, d, d', _, hne, _, h => by
      cases h
      exact .refl hne d
  | _, _, .cons hb hbs, source, join, d, d', hs, hne, hjoin, h => by
      obtain ⟨⟨last, d₁⟩, h₁, h⟩ := bind_eq_ok.mp h
      have hadd := hb hs h₁
      have hfirst := Leads.after hadd (.skip (hadd.target_ne hne hjoin) d₁) hs hjoin hne
      have hothers := leads_beside hbs (d := d₁.addSkip last join) (hs.trans_le hadd.1) hne
        (hjoin.trans_le hadd.1) h
      rw [List.sum_cons]
      rw [mul_one] at hfirst
      exact hfirst.beside hothers hs

/-- **Alternatives** spell the union of their languages. -/
theorem builds_choosing {bs : List Builder} {ls : List (Language Leaf)}
    (h : List.Forall₂ Builds bs ls) : Builds (choosing bs) ls.sum := by
  intro source d target d' hs hb
  obtain ⟨⟨join, d₁⟩, h₁, hb⟩ := bind_eq_ok.mp hb
  obtain ⟨d₂, h₂, hb⟩ := bind_eq_ok.mp hb
  cases hb
  obtain ⟨rfl, hsize, -⟩ := addState_eq_ok h₁
  exact (leads_beside h (by omega) hs.ne (by omega) h₂).adds h₁

/-! ## Content models -/

mutual

/-- **The builder of a content model spells its words.** -/
theorem builds_particle (elements : Table ElementDecl) :
    ∀ p : Particle, Builds (particle elements p) (p.leafWords elements)
  | .element o d => by
      rw [particle, Particle.leafWords, Particle.denotes]
      exact builds_occurring (builds_addLeaf (some (.element d))) o
  | .reference o name => by
      rw [particle, Particle.leafWords, Particle.denotes]
      refine builds_occurring ?_ o
      have := builds_addLeaf ((elements.find? name).map .element)
      rwa [Option.map_map] at this
  | .any o w => by
      rw [particle, Particle.leafWords, Particle.denotes]
      exact builds_occurring (builds_addLeaf (some (.wildcard w))) o
  | .sequence o items => by
      rw [particle, Particle.leafWords, Particle.denotes]
      exact builds_occurring (builds_inRow (builds_particles elements items)) o
  | .choice o items => by
      rw [particle, Particle.leafWords, Particle.denotes]
      exact builds_occurring (builds_choosing (builds_particles elements items)) o
  | .all o items => by
      rw [particle, Particle.leafWords, Particle.denotes]
      exact builds_occurring (fun _ _ _ _ _ h => by cases h) o
  | .group o name => by
      rw [particle, Particle.leafWords, Particle.denotes]
      exact builds_occurring (builds_addLeaf none) o

theorem builds_particles (elements : Table ElementDecl) : ∀ ps : List Particle,
    List.Forall₂ Builds (particles elements ps)
      (Particle.denotesEach elements (fun l => {[l]}) ps)
  | [] => by
      rw [particles, Particle.denotesEach]
      exact .nil
  | p :: ps => by
      rw [particles, Particle.denotesEach]
      exact .cons (builds_particle elements p) (builds_particles elements ps)

end

end Draft

end XmlConformance.Schema
