import Mathlib.Algebra.BigOperators.Fin
import Mathlib.Algebra.Order.BigOperators.Group.Finset
import Mathlib.Logic.Relation
import XmlConformance.Proofs.Schema.Construction

/-!
# Proofs/Schema/Spreading — the live states are those that skips lead to

`Automaton.spread` visits states and puts the targets of their skips in front of those that are
still pending. Every state is visited once, so a limit on the number of visits that exceeds the
number of skips is never met (`openSkips`), and what is marked in the end is closed under skips
(`Spread`).

So the live states behind some seeds (`Automaton.closure`) are exactly those that skips lead to,
and each has the origin of a seed from which they do.
-/

namespace XmlConformance.Schema

open Relation

namespace Automaton

variable (a : Automaton)

/-- One skip. -/
def Skip (s t : ℕ) : Prop := t ∈ a.skipsFrom s

/-- **What holds of the steps of an automaton**: they join states that exist, and the moves of a
state start there. -/
structure WellFormed : Prop where
  source_eq : ∀ {s m}, m ∈ a.movesFrom s → m.source = s
  skip_lt : ∀ {s t}, a.Skip s t → t < a.skips.size
  move_lt : ∀ {s m}, m ∈ a.movesFrom s → m.target < a.skips.size
  zero_lt : 0 < a.skips.size

/-- A state that needs no visit any more. -/
abbrev Marked (seen : Array Bool) (s : ℕ) : Prop := seen.getD s true = true

theorem marked_mark {seen : Array Bool} {s t : ℕ} :
    Marked (seen.setIfInBounds s true) t ↔ Marked seen t ∨ t = s := by
  simp only [Marked, Array.getD_eq_getD_getElem?, Array.getElem?_setIfInBounds]
  by_cases h : s = t
  · subst h
    by_cases hs : s < seen.size <;> simp [hs]
  · simp [h, Ne.symm h]

/-- The number of skips that start in states that are not marked. -/
def openSkips (seen : Array Bool) : ℕ :=
  ∑ s ∈ Finset.range a.skips.size with ¬ Marked seen s, (a.skipsFrom s).length

variable {a}

/-- Marking a state takes its skips away. -/
theorem openSkips_mark {seen : Array Bool} {s : ℕ} (hs : s < a.skips.size) (h : ¬ Marked seen s) :
    (a.skipsFrom s).length + a.openSkips (seen.setIfInBounds s true) = a.openSkips seen := by
  unfold openSkips
  have herase : (Finset.range a.skips.size).filter (fun t => ¬ Marked (seen.setIfInBounds s true) t)
      = ((Finset.range a.skips.size).filter fun t => ¬ Marked seen t).erase s := by
    ext t
    simp only [Finset.mem_filter, Finset.mem_erase, marked_mark]
    tauto
  rw [herase]
  exact Finset.add_sum_erase _ (fun t => (a.skipsFrom t).length)
    (Finset.mem_filter.mpr ⟨Finset.mem_range.mpr hs, h⟩)

theorem foldl_add_length (ls : List (List ℕ)) :
    ∀ n, ls.foldl (fun n targets => n + targets.length) n = n + (ls.map List.length).sum := by
  induction ls with
  | nil => exact fun _ => rfl
  | cons l ls ih =>
    intro n
    rw [List.foldl_cons, ih, List.map_cons, List.sum_cons, Nat.add_assoc]

theorem skipCount_eq_sum :
    a.skipCount = ∑ s ∈ Finset.range a.skips.size, (a.skipsFrom s).length := by
  rw [skipCount, ← Array.foldl_toList, foldl_add_length, Nat.zero_add, Finset.sum_range,
    ← Fin.sum_univ_fun_getElem]
  refine Finset.sum_congr rfl fun i _ => ?_
  rw [skipsFrom, Array.getD_eq_getD_getElem?, Array.getElem?_eq_getElem i.isLt]
  rfl

theorem openSkips_le (seen : Array Bool) : a.openSkips seen ≤ a.skipCount := by
  rw [skipCount_eq_sum]
  exact Finset.sum_le_sum_of_subset (Finset.filter_subset _ _)

/-! ## One seed -/

/-- **What spreading from some pending states gives**: the states that it marks are newly found,
skips lead there from pending ones, all pending ones are marked, and so is every target of a marked
state if it was marked or pending before. -/
structure Spread (a : Automaton) (pending : List ℕ) (seen : Array Bool) (found : List ℕ)
    (seen' : Array Bool) (found' : List ℕ) : Prop where
  size_eq : seen'.size = seen.size
  marked_iff : ∀ s, Marked seen' s ↔ Marked seen s ∨ s ∈ found'
  reached : ∀ s ∈ found', s ∈ found ∨ ∃ p ∈ pending, ReflTransGen a.Skip p s
  kept : ∀ s ∈ found, s ∈ found'
  marked_of_pending : ∀ p ∈ pending, Marked seen' p
  closed : (∀ s, Marked seen s → ∀ t, a.Skip s t → Marked seen t ∨ t ∈ pending) →
    ∀ s, Marked seen' s → ∀ t, a.Skip s t → Marked seen' t

theorem Spread.refl {seen : Array Bool} {found : List ℕ} (h : ∀ s ∈ found, Marked seen s) :
    Spread a [] seen found seen found where
  size_eq := rfl
  marked_iff s := ⟨.inl, fun hs => hs.elim id (h s)⟩
  reached _ hs := .inl hs
  kept _ hs := hs
  marked_of_pending _ hp := absurd hp List.not_mem_nil
  closed h s hs t ht := (h s hs t ht).resolve_right List.not_mem_nil

namespace Spread

variable {s : ℕ} {pending found found' : List ℕ} {seen seen' : Array Bool}

/-- A pending state that is marked already adds nothing. -/
theorem of_marked (h : Spread a pending seen found seen' found') (hs : Marked seen s) :
    Spread a (s :: pending) seen found seen' found' where
  size_eq := h.size_eq
  marked_iff := h.marked_iff
  reached x hx :=
    (h.reached x hx).imp_right fun ⟨p, hp, hr⟩ => ⟨p, List.mem_cons_of_mem _ hp, hr⟩
  kept := h.kept
  marked_of_pending :=
    List.forall_mem_cons.2 ⟨(h.marked_iff s).2 (.inl hs), h.marked_of_pending⟩
  closed hclosed := h.closed fun x hx t ht => by
    rcases hclosed x hx t ht with ht | ht
    · exact .inl ht
    · rcases List.mem_cons.1 ht with rfl | ht
      · exact .inl hs
      · exact .inr ht

/-- A pending state that is not marked is marked and found, and its skips are pending. -/
theorem of_unmarked (h : Spread a (a.skipsFrom s ++ pending) (seen.setIfInBounds s true)
    (s :: found) seen' found') : Spread a (s :: pending) seen found seen' found' where
  size_eq := h.size_eq.trans (Array.size_setIfInBounds ..)
  marked_iff x := by
    have hs : s ∈ found' := h.kept s List.mem_cons_self
    rw [h.marked_iff x, marked_mark, or_assoc]
    exact or_congr_right ⟨fun hx => hx.elim (fun e => e ▸ hs) id, .inr⟩
  reached x hx := by
    rcases h.reached x hx with hx | ⟨p, hp, hr⟩
    · rcases List.mem_cons.1 hx with rfl | hx
      · exact .inr ⟨x, List.mem_cons_self, .refl⟩
      · exact .inl hx
    · rcases List.mem_append.1 hp with hp | hp
      · exact .inr ⟨s, List.mem_cons_self, .head hp hr⟩
      · exact .inr ⟨p, List.mem_cons_of_mem _ hp, hr⟩
  kept x hx := h.kept x (List.mem_cons_of_mem _ hx)
  marked_of_pending := List.forall_mem_cons.2
    ⟨(h.marked_iff s).2 (.inl (marked_mark.2 (.inr rfl))),
      fun p hp => h.marked_of_pending p (List.mem_append_right _ hp)⟩
  closed hclosed := h.closed fun x hx t ht => by
    rw [marked_mark] at hx ⊢
    rw [List.mem_append]
    rcases hx with hx | rfl
    · rcases hclosed x hx t ht with ht | ht
      · exact .inl (.inl ht)
      · rcases List.mem_cons.1 ht with rfl | ht
        · exact .inl (.inr rfl)
        · exact .inr (.inr ht)
    · exact .inr (.inl ht)

end Spread

theorem spread_spec (hw : a.WellFormed) : ∀ steps pending seen found,
    seen.size = a.skips.size → (∀ p ∈ pending, p < a.skips.size) → (∀ s ∈ found, Marked seen s) →
    pending.length + a.openSkips seen ≤ steps →
    Spread a pending seen found (a.spread steps pending seen found).1
      (a.spread steps pending seen found).2
  | 0, [], seen, found, _, _, hfound, _ => .refl hfound
  | 0, p :: pending, _, _, _, _, _, hsteps => by
      rw [List.length_cons] at hsteps
      omega
  | steps + 1, [], seen, found, _, _, hfound, _ => .refl hfound
  | steps + 1, s :: pending, seen, found, hsize, hlt, hfound, hsteps => by
      obtain ⟨hs, hlt⟩ := List.forall_mem_cons.1 hlt
      rw [List.length_cons] at hsteps
      rw [spread]
      split
      · next hm =>
        exact (spread_spec hw steps pending seen found hsize hlt hfound (by omega)).of_marked hm
      · next hm =>
        have hopen := openSkips_mark hs hm
        refine Spread.of_unmarked (spread_spec hw steps _ _ _ ?_ ?_ ?_ ?_)
        · rw [Array.size_setIfInBounds, hsize]
        · exact List.forall_mem_append.2 ⟨fun p => hw.skip_lt, hlt⟩
        · exact List.forall_mem_cons.2
            ⟨marked_mark.2 (.inr rfl), fun x hx => marked_mark.2 (.inl (hfound x hx))⟩
        · rw [List.length_append]
          omega

/-! ## All seeds -/

/-- Marks that skips cannot leave are on everything that skips lead to. -/
theorem marked_of_reach (hw : a.WellFormed) {seen : Array Bool} {s t : ℕ}
    (hclosed : ∀ s, Marked seen s → ∀ t, a.Skip s t → Marked seen t) (hs : Marked seen s)
    (hlt : s < a.skips.size) (h : ReflTransGen a.Skip s t) :
    t < a.skips.size ∧ Marked seen t := by
  induction h with
  | refl => exact ⟨hlt, hs⟩
  | tail _ hskip ih => exact ⟨hw.skip_lt hskip, hclosed _ ih.2 _ hskip⟩

/-- **What some seeds give**: the live states that are newly found have the origin of a seed that
skips lead there from, and everything that skips lead to from a seed is found. -/
structure Grown (a : Automaton) (seeds found found' : List Live) : Prop where
  sound : ∀ x ∈ found', x ∈ found ∨
    ∃ y ∈ seeds, x.origin = y.origin ∧ ReflTransGen a.Skip y.state x.state
  kept : ∀ x ∈ found, x ∈ found'
  complete : ∀ y ∈ seeds, ∀ t, ReflTransGen a.Skip y.state t → ∃ x ∈ found', x.state = t

/-- One seed gives what is found from it, before all others. -/
theorem Grown.cons {seed : Live} {seeds found found' : List Live} {states : List ℕ}
    (h : Grown a seeds (states.map (fun s => ⟨s, seed.origin⟩) ++ found) found')
    (hstates : ∀ s ∈ states, ReflTransGen a.Skip seed.state s)
    (hseed : ∀ t, ReflTransGen a.Skip seed.state t → ∃ x ∈ found', x.state = t) :
    Grown a (seed :: seeds) found found' where
  sound x hx := by
    rcases h.sound x hx with hx | ⟨y, hy, hyx⟩
    · rcases List.mem_append.mp hx with hx | hx
      · obtain ⟨s, hs, rfl⟩ := List.mem_map.mp hx
        exact .inr ⟨seed, List.mem_cons_self, rfl, hstates s hs⟩
      · exact .inl hx
    · exact .inr ⟨y, List.mem_cons_of_mem _ hy, hyx⟩
  kept x hx := h.kept x (List.mem_append_right _ hx)
  complete := List.forall_mem_cons.2 ⟨hseed, h.complete⟩

theorem closureFrom_spec (hw : a.WellFormed) {steps : ℕ} (hsteps : a.skipCount + 1 ≤ steps) :
    ∀ (seeds : List Live) (seen : Array Bool) (found : List Live),
    seen.size = a.skips.size → (∀ x ∈ seeds, x.state < a.skips.size) →
    (∀ s, Marked seen s → ∀ t, a.Skip s t → Marked seen t) →
    (∀ s < a.skips.size, Marked seen s → ∃ x ∈ found, x.state = s) →
    Grown a seeds found (a.closureFrom steps seeds seen found)
  | [], seen, found, _, _, _, _ => by
      rw [closureFrom]
      exact ⟨fun _ => .inl, fun _ => id, List.forall_mem_nil _⟩
  | seed :: seeds, seen, found, hsize, hlt, hclosed, hfound => by
      obtain ⟨hseed, hlt⟩ := List.forall_mem_cons.1 hlt
      have hspread := spread_spec hw steps [seed.state] seen [] hsize
        (List.forall_mem_singleton.2 hseed) (List.forall_mem_nil _)
        (by have := openSkips_le (a := a) seen; simp only [List.length_singleton]; omega)
      rw [closureFrom]
      generalize a.spread steps [seed.state] seen [] = r at hspread ⊢
      obtain ⟨seen', states⟩ := r
      dsimp only at hspread ⊢
      have hclosed' := hspread.closed fun s hs t ht => .inl (hclosed s hs t ht)
      have hfound' : ∀ s < a.skips.size, Marked seen' s →
          ∃ x ∈ states.map (fun s => ⟨s, seed.origin⟩) ++ found, x.state = s := by
        intro s hs hm
        rcases (hspread.marked_iff s).mp hm with hm | hm
        · obtain ⟨x, hx, hxs⟩ := hfound s hs hm
          exact ⟨x, List.mem_append_right _ hx, hxs⟩
        · exact ⟨_, List.mem_append_left _ (List.mem_map_of_mem hm), rfl⟩
      have hgrown := closureFrom_spec hw hsteps seeds seen' _ (hspread.size_eq.trans hsize) hlt
        hclosed' hfound'
      refine hgrown.cons (fun s hs => ?_) fun t ht => ?_
      · obtain ⟨p, hp, hr⟩ := (hspread.reached s hs).resolve_left List.not_mem_nil
        obtain rfl := List.mem_singleton.mp hp
        exact hr
      · have hmarked := hspread.marked_of_pending _ List.mem_cons_self
        obtain ⟨hlt, hmarked⟩ := marked_of_reach hw hclosed' hmarked hseed ht
        obtain ⟨x, hx, hxt⟩ := hfound' t hlt hmarked
        exact ⟨x, hgrown.kept x hx, hxt⟩

theorem marked_replicate {n s : ℕ} : Marked (Array.replicate n false) s ↔ n ≤ s := by
  rw [Marked, Array.getD_eq_getD_getElem?, Array.getElem?_replicate]
  split <;> simp <;> omega

theorem not_skip_of_le {s : ℕ} (hs : a.skips.size ≤ s) (t : ℕ) : ¬ a.Skip s t := by
  rw [Skip, skipsFrom, Array.getD_eq_getD_getElem?, Array.getElem?_eq_none hs]
  exact List.not_mem_nil

/-- **The live states behind some seeds** are those that skips lead to from a seed, and each has the
origin of such a seed. -/
theorem closure_spec (hw : a.WellFormed) {seeds : List Live}
    (hlt : ∀ x ∈ seeds, x.state < a.skips.size) :
    (∀ x ∈ a.closure seeds,
        ∃ y ∈ seeds, x.origin = y.origin ∧ ReflTransGen a.Skip y.state x.state) ∧
      ∀ y ∈ seeds, ∀ t, ReflTransGen a.Skip y.state t → ∃ x ∈ a.closure seeds, x.state = t := by
  have hgrown := closureFrom_spec hw le_rfl seeds
    (Array.replicate a.skips.size false) [] Array.size_replicate hlt
    (fun s hs t ht => absurd ht (not_skip_of_le (marked_replicate.mp hs) t))
    (fun s hs hm => absurd (marked_replicate.mp hm) (by omega))
  simp only [closure, List.mem_mergeSort]
  exact ⟨fun x hx => (hgrown.sound x hx).resolve_left List.not_mem_nil, hgrown.complete⟩

end Automaton

end XmlConformance.Schema
