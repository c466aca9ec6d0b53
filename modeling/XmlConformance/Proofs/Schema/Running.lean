import XmlConformance.Proofs.Schema.Spreading

/-!
# Proofs/Schema/Running — an automaton accepts what its steps spell

`Automaton.run` keeps the live states, and follows the moves back in the end. Both are compared with
the ways along the steps of the automaton (`Automaton.steps`): it succeeds exactly if some way to
the accepting state has leaves that admit the children (`run_ok_iff`), and then the leaves that it
gives are those on such a way (`exists_way_of_run`).

For the finished draft of a content model these ways are its words (`build_spec`).
-/

namespace XmlConformance.Schema

open Xml Relation

/-! ## From drafts to automata -/

theorem size_foldl_pushAt {α β : Type} (f : β → ℕ) (g : β → α) (l : List β) :
    ∀ arr : Array (List α), (l.foldl (fun a b => pushAt a (f b) (g b)) arr).size = arr.size := by
  induction l with
  | nil => exact fun _ => rfl
  | cons b l ih =>
    intro arr
    rw [List.foldl_cons, ih, pushAt, Array.size_modify]

theorem mem_foldl_pushAt {α β : Type} (f : β → ℕ) (g : β → α) (l : List β) {i : ℕ} {x : α} :
    ∀ arr : Array (List α), i < arr.size →
      (x ∈ (l.foldl (fun a b => pushAt a (f b) (g b)) arr).getD i [] ↔
        x ∈ arr.getD i [] ∨ ∃ b ∈ l, f b = i ∧ g b = x) := by
  induction l with
  | nil => simp
  | cons b l ih =>
    intro arr hi
    rw [List.foldl_cons, ih _ (by rwa [pushAt, Array.size_modify])]
    have hpush : x ∈ (pushAt arr (f b) (g b)).getD i [] ↔
        x ∈ arr.getD i [] ∨ f b = i ∧ g b = x := by
      simp only [pushAt, Array.getD_eq_getD_getElem?, Array.getElem?_modify]
      by_cases h : f b = i
      · simp [h, hi, or_comm, eq_comm]
      · simp [h]
    rw [hpush, or_assoc]
    simp only [List.mem_cons, exists_eq_or_imp]

namespace Automaton

/-- The steps of an automaton. -/
def steps (a : Automaton) : Steps := fun s o t =>
  match o with
  | none => a.Skip s t
  | some l => ⟨s, l, t⟩ ∈ a.movesFrom s

theorem skip_ofDraft {d : Draft} {accept s t : ℕ} :
    (ofDraft d accept).Skip s t ↔ s < d.size ∧ (s, t) ∈ d.skips := by
  rw [Skip, skipsFrom]
  by_cases hs : s < d.size
  · refine (mem_foldl_pushAt Prod.fst Prod.snd d.skips _ (by rwa [Array.size_replicate])).trans ?_
    simp [hs]
  · have hsize : (ofDraft d accept).skips.size ≤ s := by
      rw [show (ofDraft d accept).skips.size = _ from size_foldl_pushAt Prod.fst Prod.snd _ _,
        Array.size_replicate]
      omega
    simp [Array.getD_eq_getD_getElem?, Array.getElem?_eq_none hsize, hs]

theorem mem_movesFrom_ofDraft {d : Draft} {accept s : ℕ} {m : Move} :
    m ∈ (ofDraft d accept).movesFrom s ↔ s < d.size ∧ m ∈ d.moves ∧ m.source = s := by
  rw [movesFrom]
  by_cases hs : s < d.size
  · refine (mem_foldl_pushAt Move.source id d.moves _ (by rwa [Array.size_replicate])).trans ?_
    simp [hs, and_comm]
  · have hsize : (ofDraft d accept).moves.size ≤ s := by
      rw [show (ofDraft d accept).moves.size = _ from size_foldl_pushAt Move.source id _ _,
        Array.size_replicate]
      omega
    simp [Array.getD_eq_getD_getElem?, Array.getElem?_eq_none hsize, hs]

theorem size_ofDraft (d : Draft) (accept : ℕ) : (ofDraft d accept).skips.size = d.size :=
  (size_foldl_pushAt Prod.fst Prod.snd _ _).trans Array.size_replicate

/-- The steps that start at states of a draft are kept. -/
theorem steps_ofDraft {d : Draft} {accept : ℕ} (h : ∀ {s o t}, d.steps s o t → s < d.size) :
    (ofDraft d accept).steps = d.steps := by
  ext s o t
  cases o with
  | none => exact skip_ofDraft.trans ⟨fun hs => hs.2, fun hs => ⟨h (o := none) hs, hs⟩⟩
  | some l =>
    exact mem_movesFrom_ofDraft.trans
      ⟨fun hs => hs.2.1, fun hs => ⟨h (o := some l) hs, hs, rfl⟩⟩

/-- The steps of the draft of a content model join states of it, and spell the words of the
model. -/
theorem spells_of_particle {elements : Table ElementDecl} {model : Particle} {accept : ℕ}
    {d : Draft} (h : Draft.particle elements model 0 .initial = .ok (accept, d)) :
    0 < d.size ∧ (∀ {s o t}, d.steps s o t → s < d.size ∧ t < d.size) ∧
      ∀ {w}, d.steps.WayTo accept 0 w ↔ w ∈ model.leafWords elements := by
  obtain ⟨hle, Δ, hsteps, hΔ⟩ :=
    Draft.builds_particle elements model (show 0 < Draft.initial.size from Nat.one_pos) h
  rw [Draft.steps_initial, bot_sup_eq] at hsteps
  rw [hsteps]
  refine ⟨hle, fun hs => ⟨?_, (hΔ.target_of_step hs).2⟩, hΔ.way_iff⟩
  rcases hΔ.source_of_step hs with rfl | hm
  · exact hle
  · exact hm.2

/-- **The ways through the automaton of a content model are the words of the model.** -/
theorem build_spec {elements : Table ElementDecl} {model : Particle} {a : Automaton}
    (h : build elements model = .ok a) :
    a.WellFormed ∧ ∀ w, a.steps.WayTo a.accept 0 w ↔ w ∈ model.leafWords elements := by
  obtain ⟨⟨accept, d⟩, hd, h⟩ := bind_eq_ok.mp h
  cases h
  obtain ⟨hpos, hlt, hway⟩ := spells_of_particle hd
  refine ⟨⟨fun hm => (mem_movesFrom_ofDraft.mp hm).2.2, fun hs => ?_, fun hm => ?_, ?_⟩,
    fun w => ?_⟩
  · rw [size_ofDraft]
    exact (hlt (o := none) (skip_ofDraft.mp hs).2).2
  · rw [size_ofDraft]
    obtain ⟨-, hm, -⟩ := mem_movesFrom_ofDraft.mp hm
    exact (hlt (s := Move.source _) (o := some _) hm).2
  · rw [size_ofDraft]
    exact hpos
  · rw [steps_ofDraft fun hs => (hlt hs).1]
    exact hway

/-! ## One child -/

variable {a : Automaton}

theorem way_of_skips {s t : ℕ} (h : ReflTransGen a.Skip s t) : a.steps.WayTo t s [] := by
  induction h with
  | refl => exact .nil
  | tail _ hskip ih => exact ih.append (.one (o := none) hskip)

/-- A way starts with skips, and ends there or goes on with a move. -/
theorem way_cases {s t : ℕ} {w : List Leaf} (h : a.steps.WayTo t s w) :
    w = [] ∧ ReflTransGen a.Skip s t ∨
      ∃ m w', w = m.leaf :: w' ∧ ReflTransGen a.Skip s m.source ∧ m ∈ a.movesFrom m.source ∧
        a.steps.WayTo t m.target w' := by
  induction h with
  | nil => exact .inl ⟨rfl, .refl⟩
  | @cons s o u w step rest ih =>
    cases o with
    | none =>
      refine ih.imp (fun ⟨hw, hr⟩ => ⟨hw, .head step hr⟩) ?_
      rintro ⟨m, w', hw, hr, hm, hrest⟩
      exact ⟨m, w', hw, .head step hr, hm, hrest⟩
    | some l => exact .inr ⟨⟨s, l, u⟩, w, rfl, .refl, step, rest⟩

/-- Live states to which all belong that skips lead to from them. -/
def Closed (a : Automaton) (live : List Live) : Prop :=
  ∀ x ∈ live, ∀ t, ReflTransGen a.Skip x.state t → ∃ y ∈ live, y.state = t

/-- A move leads to each live state: one that admits a name and starts in an earlier live state, and
from its target skips lead on. -/
def Follows (a : Automaton) (name : ExpandedName) (before live : List Live) : Prop :=
  ∀ x ∈ live, ∃ m, x.origin = some m ∧ (∃ y ∈ before, y.state = m.source) ∧
    m ∈ a.movesFrom m.source ∧ m.leaf.admits name = true ∧ ReflTransGen a.Skip m.target x.state

theorem mem_openMoves (hw : a.WellFormed) {live : List Live} {m : Move} :
    m ∈ a.openMoves live ↔ (∃ y ∈ live, y.state = m.source) ∧ m ∈ a.movesFrom m.source := by
  rw [openMoves, List.mem_flatMap]
  constructor
  · rintro ⟨y, hy, hm⟩
    rw [hw.source_eq hm]
    exact ⟨⟨y, hy, rfl⟩, hm⟩
  · rintro ⟨⟨y, hy, hs⟩, hm⟩
    exact ⟨y, hy, hs ▸ hm⟩

/-- **The live states behind a child** are those behind the open moves that admit it. -/
theorem step_spec (hw : a.WellFormed) (live : List Live) (name : ExpandedName) :
    a.Closed (a.step live name) ∧ a.Follows name live (a.step live name) ∧
      ∀ m ∈ a.openMoves live, m.leaf.admits name = true →
        ∃ y ∈ a.step live name, y.state = m.target := by
  rw [step]
  set seeds := (a.openMoves live).filter fun m => m.leaf.admits name with hseeds
  have mem_seeds : ∀ {m}, m ∈ seeds ↔ m ∈ a.openMoves live ∧ m.leaf.admits name = true := by
    intro m
    rw [hseeds, List.mem_filter]
  split
  · next hempty =>
    refine ⟨fun x hx => absurd hx List.not_mem_nil, fun x hx => absurd hx List.not_mem_nil, ?_⟩
    intro m hm hadm
    have := mem_seeds.mpr ⟨hm, hadm⟩
    rw [List.isEmpty_iff.mp hempty] at this
    exact absurd this List.not_mem_nil
  · have hlt : ∀ x ∈ seeds.map (fun m => (⟨m.target, some m⟩ : Live)), x.state < a.skips.size := by
      intro x hx
      obtain ⟨m, hm, rfl⟩ := List.mem_map.mp hx
      exact hw.move_lt ((mem_openMoves hw).mp (mem_seeds.mp hm).1).2
    obtain ⟨hsound, hcomplete⟩ := closure_spec hw hlt
    refine ⟨fun x hx t ht => ?_, fun x hx => ?_, fun m hm hadm => ?_⟩
    · obtain ⟨y, hy, -, hr⟩ := hsound x hx
      exact hcomplete y hy t (hr.trans ht)
    · obtain ⟨y, hy, horigin, hr⟩ := hsound x hx
      obtain ⟨m, hm, rfl⟩ := List.mem_map.mp hy
      obtain ⟨hm, hadm⟩ := mem_seeds.mp hm
      obtain ⟨hbefore, hfrom⟩ := (mem_openMoves hw).mp hm
      exact ⟨m, horigin, hbefore, hfrom, hadm, hr⟩
    · exact hcomplete _ (List.mem_map_of_mem (mem_seeds.mpr ⟨hm, hadm⟩)) _ .refl

/-- **A way from the live states goes on from those behind its first child.** -/
theorem exists_way_step_iff (hw : a.WellFormed) {live : List Live} (hclosed : a.Closed live) {t : ℕ}
    {name : ExpandedName} {names : List ExpandedName} :
    (∃ x ∈ a.step live name, ∃ leaves, a.steps.WayTo t x.state leaves ∧ Admit leaves names) ↔
      ∃ x ∈ live, ∃ leaves, a.steps.WayTo t x.state leaves ∧ Admit leaves (name :: names) := by
  obtain ⟨-, hfollows, hopen⟩ := step_spec hw live name
  constructor
  · rintro ⟨x, hx, leaves, hway, hadm⟩
    obtain ⟨m, -, ⟨y, hy, hs⟩, hm, hadm', hr⟩ := hfollows x hx
    refine ⟨y, hy, m.leaf :: leaves, ?_, .cons hadm' hadm⟩
    rw [hs]
    exact .cons (o := some m.leaf) hm ((way_of_skips hr).append hway)
  · rintro ⟨x, hx, leaves, hway, hadm⟩
    rcases way_cases hway with ⟨rfl, -⟩ | ⟨m, w', rfl, hr, hm, hway⟩
    · cases hadm
    · obtain ⟨hadm', hadm⟩ := List.forall₂_cons.mp hadm
      obtain ⟨y, hy, hs⟩ := hopen m ((mem_openMoves hw).mpr ⟨hclosed x hx _ hr, hm⟩) hadm'
      exact ⟨y, hy, w', by rwa [hs], hadm⟩

/-! ## All children -/

/-- **The live states behind the children lead to the accepting state** exactly if a way from the
live states in front of them does. -/
theorem layers_ok_iff (hw : a.WellFormed) : ∀ (names : List ExpandedName) (position : ℕ)
    (passed : List (List Live)) {live : List Live}, a.Closed live →
    ((∃ ls, a.layers position passed live names = .ok ls) ↔
      ∃ x ∈ live, ∃ leaves, a.steps.WayTo a.accept x.state leaves ∧ Admit leaves names)
  | [], position, passed, live, hclosed => by
      rw [layers]
      constructor
      · split
        · next hany =>
          obtain ⟨x, hx, hacc⟩ := List.any_eq_true.mp hany
          exact fun _ => ⟨x, hx, [], by rw [eq_of_beq hacc]; exact .nil, .nil⟩
        · exact fun ⟨_, h⟩ => by cases h
      · rintro ⟨x, hx, leaves, hway, hadm⟩
        obtain rfl := List.forall₂_nil_right_iff.mp hadm
        rcases way_cases hway with ⟨-, hr⟩ | ⟨m, w', hw', -⟩
        · obtain ⟨y, hy, hacc⟩ := hclosed x hx _ hr
          have hany : live.any (·.state == a.accept) = true :=
            List.any_eq_true.mpr ⟨y, hy, beq_iff_eq.mpr hacc⟩
          exact ⟨_, if_pos hany⟩
        · cases hw'
  | name :: names, position, passed, live, hclosed => by
      rw [← exists_way_step_iff hw hclosed, layers]
      split
      · next hnil =>
        rw [hnil]
        simp
      · exact layers_ok_iff hw names _ _ (step_spec hw live name).1

/-- The live states behind each of some children, the last first, as they follow on each other. -/
inductive Trail (a : Automaton) : List (List Live) → List ExpandedName → Prop
  | start {live : List Live} (h : ∀ x ∈ live, x.origin = none ∧ ReflTransGen a.Skip 0 x.state) :
      Trail a [live] []
  | next {live before : List Live} {passed : List (List Live)} {name : ExpandedName}
      {names : List ExpandedName} (h : a.Follows name before live)
      (rest : Trail a (before :: passed) names) : Trail a (live :: before :: passed) (name :: names)

/-- A run that succeeds leaves a trail behind that ends in the accepting state. -/
theorem trail_of_layers (hw : a.WellFormed) : ∀ (names : List ExpandedName) (position : ℕ)
    {passed : List (List Live)} {live : List Live} {done : List ExpandedName}
    {ls : List (List Live)}, a.Trail (live :: passed) done →
    a.layers position passed live names = .ok ls →
    ∃ last before, ls = last :: before ∧ a.Trail ls (names.reverse ++ done) ∧
      ∃ x ∈ last, x.state = a.accept
  | [], position, passed, live, done, ls, htrail, h => by
      rw [layers] at h
      split at h
      · next hany =>
        cases h
        obtain ⟨x, hx, hacc⟩ := List.any_eq_true.mp hany
        exact ⟨live, passed, rfl, htrail, x, hx, eq_of_beq hacc⟩
      · cases h
  | name :: names, position, passed, live, done, ls, htrail, h => by
      rw [layers] at h
      split at h
      · cases h
      · rw [List.reverse_cons, List.append_assoc]
        exact trail_of_layers hw names _ (.next (step_spec hw live name).2.1 htrail) h

theorem exists_find?_state {live : List Live} {x : Live} (hx : x ∈ live) :
    ∃ y ∈ live, live.find? (·.state == x.state) = some y ∧ y.state = x.state := by
  obtain ⟨y, hy⟩ : ∃ y, live.find? (·.state == x.state) = some y :=
    Option.isSome_iff_exists.mp (List.find?_isSome.mpr ⟨x, hx, beq_self_eq_true x.state⟩)
  have hs := List.find?_some hy
  exact ⟨y, List.mem_of_find?_eq_some hy, hy, eq_of_beq hs⟩

/-- **Following a trail back** gives the leaves on a way to a live state. -/
theorem traceBack_spec : ∀ {ls : List (List Live)} {names : List ExpandedName}, a.Trail ls names →
    ∀ {last before}, ls = last :: before → ∀ {x}, x ∈ last → ∀ found,
      ∃ leaves, traceBack x.state found ls = leaves.map some ++ found ∧
        a.steps.WayTo x.state 0 leaves ∧ Admit leaves names.reverse
  | _, _, @Trail.start _ live h, last, before, hls, x, hx, found => by
      cases hls
      obtain ⟨y, hmem, hy, -⟩ := exists_find?_state hx
      refine ⟨[], ?_, way_of_skips (h x hx).2, .nil⟩
      rw [traceBack, hy, Option.bind_some, (h y hmem).1]
      rfl
  | _, _, @Trail.next _ live before _ name _ h rest, last, _, hls, x, hx, found => by
      cases hls
      obtain ⟨y, hmem, hy, hxy⟩ := exists_find?_state hx
      obtain ⟨m, horigin, ⟨z, hz, hs⟩, hm, hadm, hr⟩ := h y hmem
      obtain ⟨leaves, htrace, hway, hadmits⟩ := traceBack_spec rest rfl hz (some m.leaf :: found)
      rw [hs] at htrace hway
      refine ⟨leaves ++ [m.leaf], ?_, ?_, ?_⟩
      · rw [traceBack, hy, Option.bind_some, horigin]
        dsimp only
        rw [htrace, List.map_append, List.append_assoc]
        rfl
      · have hlast := Steps.WayTo.cons (o := some m.leaf) hm (way_of_skips (hxy ▸ hr))
        exact hway.append hlast
      · rw [List.reverse_cons]
        exact List.rel_append hadmits (.cons hadm .nil)

/-! ## Runs -/

theorem start_spec (hw : a.WellFormed) : a.Closed (a.closure [⟨0, none⟩]) ∧
    (∀ x ∈ a.closure [⟨0, none⟩], x.origin = none ∧ ReflTransGen a.Skip 0 x.state) ∧
    ∃ x ∈ a.closure [⟨0, none⟩], x.state = 0 := by
  have hstart : ∀ x ∈ [(⟨0, none⟩ : Live)], x.state < a.skips.size := by
    intro x hx
    rw [List.mem_singleton.mp hx]
    exact hw.zero_lt
  obtain ⟨hsound, hcomplete⟩ := closure_spec hw hstart
  have hmem := List.mem_singleton_self (⟨0, none⟩ : Live)
  refine ⟨fun x hx t ht => ?_, fun x hx => ?_, hcomplete _ hmem _ .refl⟩
  · obtain ⟨y, hy, -, hr⟩ := hsound x hx
    exact hcomplete y hy t (hr.trans ht)
  · obtain ⟨y, hy, horigin, hr⟩ := hsound x hx
    obtain rfl := List.mem_singleton.mp hy
    exact ⟨horigin, hr⟩

/-- **A run succeeds** exactly if a way to the accepting state has leaves that admit the
children. -/
theorem run_ok_iff (hw : a.WellFormed) (names : List ExpandedName) :
    (∃ found, a.run names = .ok found) ↔
      ∃ leaves, a.steps.WayTo a.accept 0 leaves ∧ Admit leaves names := by
  obtain ⟨hclosed, hstart, x₀, hx₀, hzero⟩ := start_spec hw
  have hlayers := layers_ok_iff hw names 0 [] hclosed
  have hrun : (∃ found, a.run names = .ok found) ↔
      ∃ ls, a.layers 0 [] (a.closure [⟨0, none⟩]) names = .ok ls := by
    constructor
    · rintro ⟨found, h⟩
      obtain ⟨ls, hls, -⟩ := bind_eq_ok.mp h
      exact ⟨ls, hls⟩
    · rintro ⟨ls, hls⟩
      exact ⟨_, bind_eq_ok.mpr ⟨ls, hls, rfl⟩⟩
  rw [hrun, hlayers]
  constructor
  · rintro ⟨x, hx, leaves, hway, hadm⟩
    exact ⟨leaves, (way_of_skips (hstart x hx).2).append hway, hadm⟩
  · rintro ⟨leaves, hway, hadm⟩
    exact ⟨x₀, hx₀, leaves, by rwa [hzero], hadm⟩

/-- **The leaves that a run gives** are those on a way to the accepting state, one for each
child. -/
theorem exists_way_of_run (hw : a.WellFormed) {names : List ExpandedName}
    {found : List (Option Leaf)} (h : a.run names = .ok found) :
    ∃ leaves, found = leaves.map some ∧ a.steps.WayTo a.accept 0 leaves ∧ Admit leaves names := by
  obtain ⟨ls, hls, h⟩ := bind_eq_ok.mp h
  cases h
  obtain ⟨last, before, rfl, htrail, x, hx, hacc⟩ :=
    trail_of_layers hw names 0 (.start (start_spec hw).2.1) hls
  obtain ⟨leaves, htrace, hway, hadm⟩ := traceBack_spec htrail rfl hx []
  rw [List.append_nil] at hadm htrace
  rw [List.reverse_reverse] at hadm
  rw [hacc] at htrace hway
  exact ⟨leaves, htrace, hway, hadm⟩

end Automaton

end XmlConformance.Schema
