import Mathlib.Data.Set.Basic
import Mathlib.Order.CompleteBooleanAlgebra
import Mathlib.Order.CompletePartialOrder
import Mathlib.Order.ConditionallyCompleteLattice.Basic
import XmlConformance.Proofs.Schema.Language

/-!
# Proofs/Schema/Steps — parts of an automaton and the words that they spell

Steps lead from state to state, past a leaf or past nothing. A part of an automaton is a set of
steps that starts at one state (`source`), leads only to states of its own (`region`), and ends at
one of these or at the source itself. `Spells` says so, and that the ways through the part spell a
given language.

Parts are put together at their ends, and only there: a step of the second part never starts inside
the first one. So a way through both falls apart at the state in the middle (`Spells.append`), and a
way through one of two parts side by side never changes over (`Spells.beside`). A step back to the
source of a part makes a loop (`Spells.loop`). Parts that only meet at a common exit are put
together without a word about it (`Exits.after`, `Exits.beside`).
-/

namespace XmlConformance.Schema

open Computability

/-- Steps between states, past a leaf or past nothing. -/
abbrev Steps := ℕ → Option Leaf → ℕ → Prop

namespace Steps

/-- A way along steps to a state, from another one, and the leaves on it. -/
inductive WayTo (Δ : Steps) (u : ℕ) : ℕ → List Leaf → Prop
  | nil : WayTo Δ u u []
  | cons {s : ℕ} {o : Option Leaf} {t : ℕ} {w : List Leaf} (step : Δ s o t)
      (rest : WayTo Δ u t w) : WayTo Δ u s (o.toList ++ w)

namespace WayTo

variable {Δ Δ' : Steps} {s t u : ℕ} {v w : List Leaf}

theorem one {o : Option Leaf} (h : Δ s o t) : WayTo Δ t s o.toList := by
  have := WayTo.cons h .nil
  rwa [List.append_nil] at this

theorem append (h : WayTo Δ t s v) (h' : WayTo Δ u t w) : WayTo Δ u s (v ++ w) := by
  induction h with
  | nil => exact h'
  | cons step _ ih =>
    rw [List.append_assoc]
    exact .cons step ih

theorem mono (hΔ : Δ ≤ Δ') (h : WayTo Δ t s w) : WayTo Δ' t s w := by
  induction h with
  | nil => exact .nil
  | cons step _ ih => exact .cons (hΔ _ _ _ step) ih

/-- A way past two words falls apart between them. -/
theorem exists_of_append (h : WayTo Δ t s (v ++ w)) : ∃ m, WayTo Δ m s v ∧ WayTo Δ t m w := by
  generalize hvw : v ++ w = vw at h
  induction h generalizing v with
  | nil =>
    obtain ⟨rfl, rfl⟩ := List.append_eq_nil_iff.mp hvw
    exact ⟨_, .nil, .nil⟩
  | @cons s o _ _ step rest ih =>
    cases o with
    | none =>
      obtain ⟨m, hv, hw⟩ := ih hvw
      exact ⟨m, .cons step hv, hw⟩
    | some l =>
      rcases List.cons_eq_append_iff.mp hvw.symm with ⟨rfl, rfl⟩ | ⟨v', rfl, htail⟩
      · exact ⟨s, .nil, .cons step rest⟩
      · obtain ⟨m, hv, hw⟩ := ih htail.symm
        exact ⟨m, .cons step hv, hw⟩

/-- Ways back to where they start can be taken one after the other. -/
theorem flatten {ws : List (List Leaf)} (h : ∀ w ∈ ws, WayTo Δ s s w) :
    WayTo Δ s s ws.flatten := by
  induction ws with
  | nil => exact .nil
  | cons w ws ih =>
    rw [List.forall_mem_cons] at h
    rw [List.flatten_cons]
    exact h.1.append (ih h.2)

/-- Where no step starts, a way is at its end. -/
theorem eq_of_stuck (hs : ∀ o t, ¬ Δ s o t) (h : WayTo Δ t s w) : s = t ∧ w = [] := by
  cases h with
  | nil => exact ⟨rfl, rfl⟩
  | cons step _ => exact absurd step (hs _ _)

end WayTo

/-! ## Parts -/

/-- The steps from one state to another past one leaf or past nothing. -/
def single (s : ℕ) (o : Option Leaf) (t : ℕ) : Steps := fun s' o' t' => s' = s ∧ o' = o ∧ t' = t

/-- **A part of an automaton**, from its source to its target, with the language that it spells. -/
structure Spells (Δ : Steps) (source : ℕ) (region : Set ℕ) (target : ℕ) (l : Language Leaf) :
    Prop where
  source_of_step : ∀ {s o t}, Δ s o t → s = source ∨ s ∈ region
  target_of_step : ∀ {s o t}, Δ s o t → t ∈ region
  target_mem : target = source ∨ target ∈ region
  way_iff : ∀ {w}, WayTo Δ target source w ↔ w ∈ l

namespace Spells

variable {Δ Δ₁ Δ₂ : Steps} {s m t : ℕ} {R R₁ R₂ : Set ℕ} {l l₁ l₂ : Language Leaf}

/-- A part with the same words under another name. -/
theorem congr (h : Spells Δ s R t l₁) (hR : R = R₂) (hl : l₁ = l₂) : Spells Δ s R₂ t l₂ := by
  subst hR hl
  exact h

/-- No steps spell the empty word. -/
theorem empty (s : ℕ) : Spells ⊥ s ∅ s 1 where
  source_of_step h := h.elim
  target_of_step h := h.elim
  target_mem := .inl rfl
  way_iff := by
    intro w
    refine ⟨fun h => (h.eq_of_stuck fun _ _ => id).2, fun h => ?_⟩
    obtain rfl : w = [] := h
    exact .nil

/-- A state that no step leads to is never reached. -/
theorem unreached (h : s ≠ t) : Spells ⊥ s {t} t 0 where
  source_of_step h := h.elim
  target_of_step h := h.elim
  target_mem := .inr rfl
  way_iff := ⟨fun hp => h (hp.eq_of_stuck fun _ _ => id).1, fun h => h.elim⟩

/-- One step spells its leaf. -/
theorem single (o : Option Leaf) (h : s ≠ t) : Spells (single s o t) s {t} t {o.toList} where
  source_of_step h := .inl h.1
  target_of_step h := h.2.2
  target_mem := .inr rfl
  way_iff := by
    intro w
    refine ⟨fun hp => ?_, fun hw => ?_⟩
    · cases hp with
      | nil => exact absurd rfl h
      | cons step rest =>
        obtain ⟨-, rfl, rfl⟩ := step
        obtain ⟨-, rfl⟩ := rest.eq_of_stuck fun _ _ hs => h hs.1.symm
        rw [List.append_nil]
        exact Set.mem_singleton _
    · obtain rfl : w = o.toList := hw
      exact .one ⟨rfl, rfl, rfl⟩

/-- A part without states of its own ends where it starts, and spells the empty word. -/
theorem of_empty (h : Spells Δ s ∅ t l) : t = s ∧ Δ = ⊥ ∧ l = 1 := by
  obtain rfl : t = s := h.target_mem.resolve_right id
  have hΔ : Δ = ⊥ := by
    ext s' o t'
    exact ⟨fun hs => h.target_of_step hs, fun hs => hs.elim⟩
  subst hΔ
  refine ⟨rfl, rfl, Language.ext fun w => ?_⟩
  rw [← h.way_iff, ← (Spells.empty t).way_iff]

/-- From the second of two parts there is no way back into the first; before it, a way has still to
pass the state in the middle. -/
theorem split_append (h₁ : Spells Δ₁ s R₁ m l₁) (h₂ : Spells Δ₂ m R₂ t l₂) (hR : Disjoint R₁ R₂)
    (hs : s ∉ R₂) {x : ℕ} {w : List Leaf} (hp : WayTo (Δ₁ ⊔ Δ₂) t x w) :
    (x ∈ R₂ → WayTo Δ₂ t x w) ∧
      (x ∉ R₂ → ∃ u v, w = u ++ v ∧ WayTo Δ₁ m x u ∧ WayTo Δ₂ t m v) := by
  have not_mem_of_step : ∀ {x o y}, Δ₁ x o y → x ∉ R₂ := fun hx => by
    rcases h₁.source_of_step hx with rfl | hx
    · exact hs
    · exact hR.notMem_of_mem_left hx
  induction hp with
  | nil =>
    refine ⟨fun _ => .nil, fun hy => ?_⟩
    obtain rfl := h₂.target_mem.resolve_right hy
    exact ⟨[], [], rfl, .nil, .nil⟩
  | cons step _ ih =>
    obtain ⟨ihIn, ihOut⟩ := ih
    rcases step with step | step
    · refine ⟨fun hx => absurd hx (not_mem_of_step step), fun _ => ?_⟩
      obtain ⟨u, v, rfl, hu, hv⟩ := ihOut (hR.notMem_of_mem_left (h₁.target_of_step step))
      exact ⟨_, v, (List.append_assoc _ _ _).symm, .cons step hu, hv⟩
    · have hp := WayTo.cons step (ihIn (h₂.target_of_step step))
      refine ⟨fun _ => hp, fun hx => ?_⟩
      obtain rfl := (h₂.source_of_step step).resolve_right hx
      exact ⟨[], _, rfl, .nil, hp⟩

/-- **A way through two parts, one behind the other, falls apart in the middle.** -/
theorem append (h₁ : Spells Δ₁ s R₁ m l₁) (h₂ : Spells Δ₂ m R₂ t l₂) (hR : Disjoint R₁ R₂)
    (hs : s ∉ R₂) : Spells (Δ₁ ⊔ Δ₂) s (R₁ ∪ R₂) t (l₁ * l₂) := by
  refine ⟨?_, ?_, ?_, ?_⟩
  · rintro x o y (hx | hx)
    · exact (h₁.source_of_step hx).imp_right .inl
    · rcases h₂.source_of_step hx with rfl | hx
      · exact h₁.target_mem.imp_right .inl
      · exact .inr (.inr hx)
  · rintro x o y (hx | hx)
    · exact .inl (h₁.target_of_step hx)
    · exact .inr (h₂.target_of_step hx)
  · rcases h₂.target_mem with rfl | ht
    · exact h₁.target_mem.imp_right .inl
    · exact .inr (.inr ht)
  · intro w
    rw [Language.mem_mul]
    constructor
    · intro hp
      obtain ⟨u, v, rfl, hu, hv⟩ := (h₁.split_append h₂ hR hs hp).2 hs
      exact ⟨u, h₁.way_iff.mp hu, v, h₂.way_iff.mp hv, rfl⟩
    · rintro ⟨u, hu, v, hv, rfl⟩
      exact ((h₁.way_iff.mpr hu).mono le_sup_left).append
        ((h₂.way_iff.mpr hv).mono le_sup_right)

section Beside

variable (h₁ : Spells Δ₁ s R₁ t l₁) (h₂ : Spells Δ₂ s R₂ t l₂)
  (hR : ∀ x, x ∈ R₁ → x ∈ R₂ → x = t) (hs₁ : s ∉ R₁) (hs₂ : s ∉ R₂)
  (ht₁ : ∀ o y, ¬ Δ₁ t o y) (ht₂ : ∀ o y, ¬ Δ₂ t o y)

include h₁ h₂ hR hs₁ hs₂ ht₁ ht₂

/-- A way that is inside one of two parts never gets into the other. -/
theorem stay_beside {x : ℕ} {w : List Leaf} (hp : WayTo (Δ₁ ⊔ Δ₂) t x w) :
    (x ∈ R₁ → WayTo Δ₁ t x w) ∧ (x ∈ R₂ → WayTo Δ₂ t x w) := by
  induction hp with
  | nil => exact ⟨fun _ => .nil, fun _ => .nil⟩
  | cons step _ ih =>
    obtain ⟨ih₁, ih₂⟩ := ih
    rcases step with step | step
    · have hp := WayTo.cons step (ih₁ (h₁.target_of_step step))
      refine ⟨fun _ => hp, fun hx => ?_⟩
      rcases h₁.source_of_step step with rfl | hx₁
      · exact absurd hx hs₂
      · obtain rfl := hR _ hx₁ hx
        exact absurd step (ht₁ _ _)
    · have hp := WayTo.cons step (ih₂ (h₂.target_of_step step))
      refine ⟨fun hx => ?_, fun _ => hp⟩
      rcases h₂.source_of_step step with rfl | hx₂
      · exact absurd hx hs₁
      · obtain rfl := hR _ hx hx₂
        exact absurd step (ht₂ _ _)

/-- **A way through one of two parts side by side stays in it.** They have only their ends in
common, and no step starts at the end. -/
theorem beside : Spells (Δ₁ ⊔ Δ₂) s (R₁ ∪ R₂) t (l₁ + l₂) := by
  have stay {x : ℕ} {w : List Leaf} (hp : WayTo (Δ₁ ⊔ Δ₂) t x w) :=
    stay_beside h₁ h₂ hR hs₁ hs₂ ht₁ ht₂ hp
  refine ⟨?_, ?_, ?_, ?_⟩
  · rintro x o y (hx | hx)
    · exact (h₁.source_of_step hx).imp_right .inl
    · exact (h₂.source_of_step hx).imp_right .inr
  · rintro x o y (hx | hx)
    · exact .inl (h₁.target_of_step hx)
    · exact .inr (h₂.target_of_step hx)
  · exact h₁.target_mem.imp_right .inl
  · intro w
    rw [Language.mem_add, ← h₁.way_iff, ← h₂.way_iff]
    constructor
    · intro hp
      cases hp with
      | nil => exact .inl (.nil)
      | cons step rest =>
        rcases step with step | step
        · exact .inl (.cons step ((stay rest).1 (h₁.target_of_step step)))
        · exact .inr (.cons step ((stay rest).2 (h₂.target_of_step step)))
    · rintro (hp | hp)
      · exact hp.mono le_sup_left
      · exact hp.mono le_sup_right

end Beside

/-- From inside a part whose target leads back to its source, a way first leads to the target, and
from there on it is in the loop. -/
theorem split_loop (h : Spells Δ s R t l) (hs : s ∉ R) (hm : m ≠ s) (hmR : m ∉ R) {x : ℕ}
    {w : List Leaf} (hp : WayTo (Steps.single m none s ⊔ Δ ⊔ Steps.single t none s) s x w) :
    (x = s → w ∈ l∗) ∧ (x ∈ R → ∃ u v, w = u ++ v ∧ WayTo Δ t x u ∧ v ∈ l∗) := by
  induction hp with
  | nil => exact ⟨fun _ => Language.nil_mem_kstar l, fun hy => absurd hy hs⟩
  | cons step rest ih =>
    obtain ⟨ihLoop, ihIn⟩ := ih
    rcases step with (⟨rfl, rfl, rfl⟩ | step) | ⟨rfl, rfl, rfl⟩
    · exact ⟨fun hx => absurd hx hm, fun hx => absurd hx hmR⟩
    · obtain ⟨u, v, rfl, hu, hv⟩ := ihIn (h.target_of_step step)
      have hp := WayTo.cons step hu
      rw [← List.append_assoc]
      refine ⟨?_, fun _ => ⟨_, v, rfl, hp, hv⟩⟩
      rintro rfl
      rw [← Language.one_add_self_mul_kstar_eq_kstar]
      exact .inr ⟨_, h.way_iff.mp hp, v, hv, rfl⟩
    · have hw := ihLoop rfl
      exact ⟨fun _ => hw, fun _ => ⟨[], _, rfl, .nil, hw⟩⟩

/-- **A part whose target leads back to its source** is passed any number of times. The way into the
loop and the way out of it are at the source. -/
theorem loop (h : Spells Δ s R t l) (hs : s ∉ R) (hm : m ≠ s) (hmR : m ∉ R) :
    Spells (Steps.single m none s ⊔ Δ ⊔ Steps.single t none s) m ({s} ∪ R) s l∗ := by
  set Δ' := Steps.single m none s ⊔ Δ ⊔ Steps.single t none s
  have split {x : ℕ} {w : List Leaf} (hp : WayTo Δ' s x w) := h.split_loop hs hm hmR hp
  have enter : WayTo Δ' s m [] := .one (o := none) (.inl (.inl ⟨rfl, rfl, rfl⟩))
  have back : WayTo Δ' s t [] := .one (o := none) (.inr ⟨rfl, rfl, rfl⟩)
  refine ⟨?_, ?_, .inr (.inl rfl), ?_⟩
  · rintro x o y ((⟨rfl, -, -⟩ | hx) | ⟨rfl, -, -⟩)
    · exact .inl rfl
    · exact .inr (h.source_of_step hx)
    · exact .inr h.target_mem
  · rintro x o y ((⟨-, -, rfl⟩ | hx) | ⟨-, -, rfl⟩)
    · exact .inl rfl
    · exact .inr (h.target_of_step hx)
    · exact .inl rfl
  · intro w
    constructor
    · intro hp
      cases hp with
      | nil => exact absurd rfl hm
      | cons step rest =>
        rcases step with (⟨-, rfl, rfl⟩ | step) | ⟨rfl, rfl, rfl⟩
        · exact (split rest).1 rfl
        · exact ((h.source_of_step step).elim hm hmR).elim
        · exact (split rest).1 rfl
    · rintro ⟨ws, rfl, hws⟩
      have hΔ : Δ ≤ Δ' := le_sup_right.trans le_sup_left
      have around : ∀ u ∈ ws, WayTo Δ' s s u := fun u hu => by
        have hu := ((h.way_iff.mpr (hws u hu)).mono hΔ).append back
        rwa [List.append_nil] at hu
      exact enter.append (.flatten around)

end Spells

/-! ## Parts up to an exit -/

/-- **A part that ends at an exit**: a state that may be shared with other parts, because no step of
the part starts there. -/
structure Exits (Δ : Steps) (source : ℕ) (region : Set ℕ) (exit : ℕ) (l : Language Leaf) :
    Prop where
  source_ne : source ≠ exit
  spells : Spells Δ source ({exit} ∪ region) exit l
  stuck : ∀ o t, ¬ Δ exit o t

namespace Exits

variable {Δ₁ Δ₂ : Steps} {s m e : ℕ} {R₁ R₂ : Set ℕ} {l₁ l₂ : Language Leaf}

/-- Nothing leads to the exit. -/
theorem unreached (h : s ≠ e) : Exits ⊥ s ∅ e 0 where
  source_ne := h
  spells := (Spells.unreached h).congr (Set.union_empty _).symm rfl
  stuck _ _ := id

/-- One step leads past nothing to the exit. -/
theorem single (h : s ≠ e) : Exits (single s none e) s ∅ e 1 where
  source_ne := h
  spells := (Spells.single none h).congr (Set.union_empty _).symm rfl
  stuck _ _ step := h step.1.symm

/-- **A part in front of one that ends at an exit** does not itself lead through the exit. -/
theorem after (h₁ : Spells Δ₁ s R₁ m l₁) (h₂ : Exits Δ₂ m R₂ e l₂) (hse : s ≠ e) (he : e ∉ R₁)
    (hs : s ∉ R₂) (hR : Disjoint R₁ R₂) : Exits (Δ₁ ⊔ Δ₂) s (R₁ ∪ R₂) e (l₁ * l₂) where
  source_ne := hse
  spells := by
    have hdisjoint : Disjoint R₁ ({e} ∪ R₂) :=
      Set.disjoint_union_right.2 ⟨Set.disjoint_singleton_right.2 he, hR⟩
    refine (h₁.append h₂.spells hdisjoint ?_).congr (Set.union_left_comm ..) rfl
    rintro (hx | hx)
    · exact hse hx
    · exact hs hx
  stuck := by
    rintro o t (step | step)
    · rcases h₁.source_of_step step with hx | hx
      · exact hse hx.symm
      · exact he hx
    · exact h₂.stuck o t step

/-- **Two parts side by side** that end at the same exit. -/
theorem beside (h₁ : Exits Δ₁ s R₁ e l₁) (h₂ : Exits Δ₂ s R₂ e l₂) (hs₁ : s ∉ R₁) (hs₂ : s ∉ R₂)
    (hR : Disjoint R₁ R₂) : Exits (Δ₁ ⊔ Δ₂) s (R₁ ∪ R₂) e (l₁ + l₂) where
  source_ne := h₁.source_ne
  spells := by
    have only_exit : ∀ x, x ∈ ({e} ∪ R₁ : Set ℕ) → x ∈ ({e} ∪ R₂ : Set ℕ) → x = e := by
      rintro x (hx | hx₁) (hx | hx₂)
      · exact hx
      · exact hx
      · exact hx
      · exact absurd hx₂ (hR.notMem_of_mem_left hx₁)
    have source_notMem : ∀ {R : Set ℕ}, s ∉ R → s ∉ ({e} ∪ R : Set ℕ) := fun hs hx =>
      hx.elim h₁.source_ne hs
    exact (h₁.spells.beside h₂.spells only_exit (source_notMem hs₁) (source_notMem hs₂) h₁.stuck
      h₂.stuck).congr (Set.union_union_distrib_left ..).symm rfl
  stuck := by
    rintro o t (step | step)
    · exact h₁.stuck o t step
    · exact h₂.stuck o t step

end Exits

end Steps

end XmlConformance.Schema
