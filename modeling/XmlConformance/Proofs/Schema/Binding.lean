import Mathlib.Data.List.Perm.Subperm
import Mathlib.Data.List.Pairwise
import XmlConformance.Proofs.Schema.Running

/-!
# Proofs/Schema/Binding — which leaf admits which child

The words of a content model are in `Particle.leafWords`, those of an `xs:all` group in `allWords`:
its members in any order, each at most once. If the model is unambiguous, at most one of its words
admits given children (`Unambiguous.eq_of_admits`). So the leaves that `runModel` finds are the only
ones there are, and where it finds none there are none (`runModel_yields`).

In an `xs:all` group a child goes to the first free member that admits it. As no other member admits
it, nothing is lost by that: what is chosen of the members together with the child is chosen of the
others without it (`Chosen.cons_iff`).
-/

namespace XmlConformance.Schema

open Xml

/-! ## The members of a group -/

/-- The leaf that a particle is, unless it is a group of others. -/
def Particle.leaf? (elements : Table ElementDecl) : Particle → Option Leaf
  | .element _ decl => some (.element decl)
  | .reference _ name => (elements.find? name).map .element
  | .any _ w => some (.wildcard w)
  | .sequence .. | .choice .. | .all .. | .group .. => none

/-- What is known of a member: its leaf, and whether there has to be a child for it. -/
abbrev Place := Leaf × Bool

/-- The member that a particle is; what occurs never is none. -/
def Particle.place? (elements : Table ElementDecl) (p : Particle) : Option Place :=
  if p.occurs.most = some 0 then none
  else (p.leaf? elements).map fun l => (l, decide (0 < p.occurs.least))

/-- The members of an `xs:all` group. -/
def allMembers (elements : Table ElementDecl) (items : List Particle) : List Place :=
  items.filterMap (Particle.place? elements)

/-- Some members in any order, among them all that there has to be a child for. -/
def Chosen (places : List Place) (leaves : List Leaf) : Prop :=
  ∃ chosen : List Place, chosen.Subperm places ∧ (∀ m ∈ places, m.2 = true → m ∈ chosen) ∧
    leaves.Perm (chosen.map Prod.fst)

/-- **The words of an `xs:all` group**: its members in any order, each at most once. A group that
need not occur has the empty word as well. -/
def allWords (elements : Table ElementDecl) (o : Occurs) (items : List Particle) : Language Leaf :=
  {leaves | o.least = 0 ∧ leaves = [] ∨ Chosen (allMembers elements items) leaves}

/-- No child is admitted by both of two members. -/
def Disjoint (x y : Place) : Prop :=
  ∀ name, ¬ (x.1.admits name = true ∧ y.1.admits name = true)

instance : Std.Symm Disjoint := ⟨fun _ _ hxy name hboth => hxy name hboth.symm⟩

/-- No child is admitted by two of some members. -/
abbrev Apart (places : List Place) : Prop := places.Pairwise Disjoint

section Chosen

variable {places places' : List Place} {m : Place} {l : Leaf} {leaves : List Leaf}
  {name : ExpandedName}

theorem Apart.eq_of_admits_both (h : Apart places) {x y : Place} (hx : x ∈ places) (hy : y ∈ places)
    (hnx : x.1.admits name = true) (hny : y.1.admits name = true) : x = y := by
  by_contra hne
  exact h.forall hx hy hne name ⟨hnx, hny⟩

theorem Chosen.perm (h : Chosen places leaves) (hperm : places.Perm places') :
    Chosen places' leaves := by
  obtain ⟨chosen, hsub, hneeded, hleaves⟩ := h
  exact ⟨chosen, hsub.trans hperm.subperm, fun m hm => hneeded m (hperm.mem_iff.2 hm), hleaves⟩

theorem chosen_nil_iff : Chosen places [] ↔ ∀ m ∈ places, m.2 = false := by
  constructor
  · rintro ⟨chosen, -, hneeded, hleaves⟩ m hm
    obtain rfl : chosen = [] := List.map_eq_nil_iff.1 (List.nil_perm.1 hleaves)
    exact Bool.eq_false_iff.2 fun htrue => absurd (hneeded m hm htrue) List.not_mem_nil
  · exact fun h => ⟨[], List.nil_subperm, fun m hm htrue => absurd htrue (by rw [h m hm]; decide),
      .nil⟩

theorem Chosen.mem (h : Chosen places leaves) (hl : l ∈ leaves) : ∃ m ∈ places, m.1 = l := by
  obtain ⟨chosen, hsub, -, hleaves⟩ := h
  obtain ⟨m, hm, rfl⟩ := List.mem_map.1 (hleaves.mem_iff.1 hl)
  exact ⟨m, hsub.subset hm, rfl⟩

/-- **A child takes away the only member that admits it.** -/
theorem Chosen.cons_iff (h : Apart (m :: places)) (hm : m.1.admits name = true)
    (hl : l.admits name = true) :
    Chosen (m :: places) (l :: leaves) ↔ l = m.1 ∧ Chosen places leaves := by
  have hrest : m ∉ places := fun hmem => List.rel_of_pairwise_cons h hmem name ⟨hm, hm⟩
  constructor
  · intro hchosen
    obtain ⟨x, hx, rfl⟩ := hchosen.mem List.mem_cons_self
    obtain rfl : x = m := h.eq_of_admits_both hx List.mem_cons_self hl hm
    obtain ⟨chosen, hsub, hneeded, hleaves⟩ := hchosen
    obtain ⟨y, hy, hyx⟩ := List.mem_map.1 (hleaves.mem_iff.1 List.mem_cons_self)
    obtain rfl : y = x :=
      h.eq_of_admits_both (hsub.subset hy) List.mem_cons_self (by rw [hyx]; exact hm) hm
    obtain ⟨front, back, rfl⟩ := List.append_of_mem hy
    have hmiddle : (front ++ y :: back).Perm (y :: (front ++ back)) := List.perm_middle
    refine ⟨rfl, front ++ back, ?_, fun z hz htrue => ?_, ?_⟩
    · exact (List.subperm_cons y).1 (hmiddle.symm.subperm.trans hsub)
    · have hmem := hmiddle.mem_iff.1 (hneeded z (List.mem_cons_of_mem y hz) htrue)
      exact (List.mem_cons.1 hmem).resolve_left fun heq => hrest (heq ▸ hz)
    · exact (hleaves.trans (hmiddle.map Prod.fst)).cons_inv
  · rintro ⟨rfl, chosen, hsub, hneeded, hleaves⟩
    refine ⟨m :: chosen, (List.subperm_cons m).2 hsub, fun z hz htrue => ?_, hleaves.cons m.1⟩
    rcases List.mem_cons.1 hz with rfl | hz
    · exact List.mem_cons_self
    · exact List.mem_cons_of_mem m (hneeded z hz htrue)

end Chosen

/-! ## Giving children to members -/

/-- A run finds a word for the children and says which leaf admits each; without result, there is no
such word. -/
def Yields (words : Language Leaf) (names : List ExpandedName) :
    Except Mismatch (List (Option Leaf)) → Prop
  | .ok found => ∃ leaves ∈ words, found = leaves.map some ∧ Admit leaves names
  | .error _ => ∀ leaves ∈ words, ¬ Admit leaves names

namespace Member

/-- The members that are still free. -/
def places (ms : List Member) : List Place := (free ms).map fun m => (m.leaf, m.isRequired)

theorem places_cons_used {m : Member} (h : m.isUsed = true) (ms : List Member) :
    places (m :: ms) = places ms := by
  rw [places, free, List.filter_cons_of_neg (by simpa using h)]
  rfl

theorem places_cons_free {m : Member} (h : m.isUsed = false) (ms : List Member) :
    places (m :: ms) = (m.leaf, m.isRequired) :: places ms := by
  rw [places, free, List.filter_cons_of_pos (by simpa using h)]
  rfl

/-- **A child is given to a free member that admits it**, which is free no more; if it is given to
none, no free member admits it. -/
theorem take_spec (name : ExpandedName) : ∀ ms : List Member,
    (∀ l ms', take name ms = some (l, ms') → l.admits name = true ∧
      ∃ r, (places ms).Perm ((l, r) :: places ms')) ∧
    (take name ms = none → ∀ m ∈ places ms, m.1.admits name = false)
  | [] => ⟨nofun, fun _ => nofun⟩
  | m :: ms => by
    obtain ⟨hsome, hnone⟩ := take_spec name ms
    rw [take]
    cases hused : m.isUsed with
    | true =>
      simp only [Bool.not_true, Bool.false_and, Bool.false_eq_true, if_false]
      rw [places_cons_used hused]
      refine ⟨fun l ms' h => ?_, fun h => hnone (Option.map_eq_none_iff.1 h)⟩
      obtain ⟨⟨l', rest⟩, htake, heq⟩ := Option.map_eq_some_iff.1 h
      cases heq
      rw [places_cons_used hused]
      exact hsome _ _ htake
    | false =>
      rw [places_cons_free hused]
      cases hadmits : m.leaf.admits name with
      | true =>
        simp only [Bool.not_false, Bool.true_and, if_true]
        refine ⟨fun l ms' h => ?_, nofun⟩
        cases h
        exact ⟨hadmits, m.isRequired, by rw [places_cons_used rfl]⟩
      | false =>
        simp only [Bool.and_false, Bool.false_eq_true, if_false]
        constructor
        · intro l ms' h
          obtain ⟨⟨l', rest⟩, htake, heq⟩ := Option.map_eq_some_iff.1 h
          cases heq
          obtain ⟨hl, r, hperm⟩ := hsome _ _ htake
          rw [places_cons_free hused]
          exact ⟨hl, r, (hperm.cons _).trans (.swap ..)⟩
        · intro h x hx
          rcases List.mem_cons.1 hx with rfl | hx
          · exact hadmits
          · exact hnone (Option.map_eq_none_iff.1 h) x hx

theorem all_not_required_iff {ms : List Member} :
    (free ms).all (!·.isRequired) = true ↔ ∀ m ∈ places ms, m.2 = false := by
  simp [places]

/-- **Giving children to members one after the other** finds a choice of the free members, and if it
does not, there is none. -/
theorem assign_yields : ∀ (names : List ExpandedName) (position : ℕ) (ms : List Member),
    Apart (places ms) → Yields {leaves | Chosen (places ms) leaves} names
      (assign position ms names)
  | [], position, ms, _ => by
    rw [assign]
    split
    case isTrue h =>
      exact ⟨[], chosen_nil_iff.2 (all_not_required_iff.1 h), rfl, .nil⟩
    case isFalse h =>
      rintro leaves hchosen hadmits
      obtain rfl := List.forall₂_nil_right_iff.1 hadmits
      exact h (all_not_required_iff.2 (chosen_nil_iff.1 hchosen))
  | name :: names, position, ms, hapart => by
    obtain ⟨hsome, hnone⟩ := take_spec name ms
    rw [assign]
    cases htake : take name ms with
    | none =>
      rintro leaves hchosen hadmits
      obtain ⟨l, rest, hl, -, rfl⟩ := List.forall₂_cons_right_iff.1 hadmits
      obtain ⟨m, hm, rfl⟩ := Chosen.mem hchosen List.mem_cons_self
      exact absurd (hnone htake m hm) (by rw [hl]; decide)
    | some found =>
      obtain ⟨l, ms'⟩ := found
      obtain ⟨hl, r, hperm⟩ := hsome l ms' htake
      have hapart' : Apart ((l, r) :: places ms') := hapart.perm hperm fun h => symm_of Disjoint h
      have ih := assign_yields names (position + 1) ms' (List.Pairwise.of_cons hapart')
      dsimp only
      cases hassign : assign (position + 1) ms' names with
      | ok rest =>
        rw [hassign] at ih
        obtain ⟨leaves, hchosen, rfl, hadmits⟩ := ih
        have hall : Chosen (places ms) (l :: leaves) :=
          ((Chosen.cons_iff hapart' hl hl).2 ⟨rfl, hchosen⟩).perm hperm.symm
        exact ⟨l :: leaves, hall, rfl, .cons hl hadmits⟩
      | error e =>
        rw [hassign] at ih
        rintro leaves hchosen hadmits
        obtain ⟨l', rest, hl', hrest, rfl⟩ := List.forall₂_cons_right_iff.1 hadmits
        exact ih rest ((Chosen.cons_iff hapart' hl hl').1 (Chosen.perm hchosen hperm)).2 hrest

end Member

theorem places_membersOf {elements : Table ElementDecl} {p : Particle} {ms : List Member}
    (h : membersOf elements p = .ok ms) : Member.places ms = (p.place? elements).toList := by
  unfold membersOf at h
  dsimp only at h
  rw [Particle.place?]
  by_cases hnever : p.occurs.most = some 0
  · rw [if_pos (by simp [hnever])] at h
    cases h
    rw [if_pos hnever]
    rfl
  · rw [if_neg (by simp [hnever])] at h
    rw [if_neg hnever]
    cases p with
    | element o decl | any o w =>
      cases h
      rfl
    | reference o name =>
      cases h
      rw [Particle.leaf?]
      cases elements.find? name <;> rfl
    | sequence | choice | all | group => cases h

/-- **The members that children are given to are those of the group.** -/
theorem places_of_mapM {elements : Table ElementDecl} : ∀ {items : List Particle}
    {mss : List (List Member)}, items.mapM (membersOf elements) = .ok mss →
    Member.places mss.flatten = allMembers elements items
  | [], mss, h => by
    cases h
    rfl
  | p :: items, mss, h => by
    rw [List.mapM_cons] at h
    obtain ⟨ms, hms, h⟩ := bind_eq_ok.1 h
    obtain ⟨rest, hrest, h⟩ := bind_eq_ok.1 h
    cases h
    have hsplit : allMembers elements (p :: items) =
        (p.place? elements).toList ++ allMembers elements items := by
      rw [allMembers, List.filterMap_cons]
      cases p.place? elements <;> rfl
    rw [hsplit, ← places_membersOf hms, ← places_of_mapM hrest, List.flatten_cons]
    simp only [Member.places, Member.free, List.filter_append, List.map_append]

/-- **A run on an `xs:all` group** whose members are apart. -/
theorem runAll_yields {elements : Table ElementDecl} {o : Occurs} {items : List Particle}
    {mss : List (List Member)} (hmembers : items.mapM (membersOf elements) = .ok mss)
    (hapart : Apart (allMembers elements items)) (names : List ExpandedName) :
    Yields (allWords elements o items) names (runAll o.least mss.flatten names) := by
  have hplaces := places_of_mapM hmembers
  have hassign := Member.assign_yields names 0 mss.flatten (hplaces ▸ hapart)
  rw [hplaces] at hassign
  rw [runAll]
  split
  case isTrue h =>
    obtain ⟨hnames, hleast⟩ := Bool.and_eq_true_iff.1 h
    obtain rfl := List.isEmpty_iff.1 hnames
    exact ⟨[], .inl ⟨eq_of_beq hleast, rfl⟩, rfl, .nil⟩
  case isFalse h =>
    cases hrun : Member.assign 0 mss.flatten names with
    | ok found =>
      rw [hrun] at hassign
      obtain ⟨leaves, hchosen, hfound, hadmits⟩ := hassign
      exact ⟨leaves, .inr hchosen, hfound, hadmits⟩
    | error m =>
      rw [hrun] at hassign
      rintro leaves (⟨hleast, rfl⟩ | hchosen) hadmits
      · obtain rfl := List.forall₂_nil_left_iff.1 hadmits
        exact h (by rw [hleast]; rfl)
      · exact hassign leaves hchosen hadmits

/-! ## Content models -/

/-- **The words of a content model**, which may be an `xs:all` group. -/
def Particle.words (elements : Table ElementDecl) : Particle → Language Leaf
  | .all o items => allWords elements o items
  | p => p.leafWords elements

/-- No two different leaves of some words match the same child behind the same children. -/
def Unambiguous (words : Language Leaf) : Prop :=
  ∀ u l v u' l' v' names name, u ++ l :: v ∈ words → u' ++ l' :: v' ∈ words → Admit u names →
    Admit u' names → l.admits name = true → l'.admits name = true → l = l'

/-- **A content model is unambiguous**: no two different leaves match the same child behind the same
children, and no two members of an `xs:all` group match the same child. -/
def Particle.Unambiguous (elements : Table ElementDecl) : Particle → Prop
  | .all _ items => Apart (allMembers elements items)
  | p => Schema.Unambiguous (p.leafWords elements)

/-- **At most one word of an unambiguous model admits given children.** The words agree on more and
more of the leaves, from the first one on. -/
theorem Unambiguous.eq_of_admits {words : Language Leaf} (h : Unambiguous words) :
    ∀ {leaves leaves' before : List Leaf} {names done : List ExpandedName}, Admit before done →
      before ++ leaves ∈ words → before ++ leaves' ∈ words → Admit leaves names →
      Admit leaves' names → leaves = leaves'
  | [], leaves', _, _, _, _, _, _, hadmits, hadmits' => by
    obtain rfl := List.forall₂_nil_left_iff.1 hadmits
    exact (List.forall₂_nil_right_iff.1 hadmits').symm
  | l :: leaves, leaves', before, names, done, hbefore, hw, hw', hadmits, hadmits' => by
    obtain ⟨name, rest, hl, hrest, rfl⟩ := List.forall₂_cons_left_iff.1 hadmits
    obtain ⟨l', leaves', hl', hrest', rfl⟩ := List.forall₂_cons_right_iff.1 hadmits'
    obtain rfl : l = l' := h _ _ _ _ _ _ _ _ hw hw' hbefore hbefore hl hl'
    have hbefore' : Admit (before ++ [l]) (done ++ [name]) :=
      admit_append_iff.2 ⟨done, [name], rfl, hbefore, .cons hl .nil⟩
    rw [h.eq_of_admits hbefore' (by simpa using hw) (by simpa using hw') hrest hrest']

theorem Apart.eq_of_admits {places : List Place} (h : Apart places) {leaves leaves' : List Leaf}
    {names : List ExpandedName} (hadmits : Admit leaves names) (hadmits' : Admit leaves' names)
    (hleaves : ∀ l ∈ leaves, ∃ m ∈ places, m.1 = l)
    (hleaves' : ∀ l ∈ leaves', ∃ m ∈ places, m.1 = l) : leaves = leaves' := by
  induction hadmits generalizing leaves' with
  | nil => exact (List.forall₂_nil_right_iff.1 hadmits').symm
  | @cons l name leaves names hl _ ih =>
    obtain ⟨l', rest, hl', hrest, rfl⟩ := List.forall₂_cons_right_iff.1 hadmits'
    obtain ⟨m, hm, rfl⟩ := hleaves l List.mem_cons_self
    obtain ⟨m', hm', rfl⟩ := hleaves' l' List.mem_cons_self
    obtain rfl : m = m' := h.eq_of_admits_both hm hm' hl hl'
    rw [ih hrest (fun l hl => hleaves l (List.mem_cons_of_mem _ hl))
      fun l hl => hleaves' l (List.mem_cons_of_mem _ hl)]

section Model

variable {elements : Table ElementDecl} {model : Particle} {names : List ExpandedName}
  {leaves leaves' : List Leaf}

theorem exists_place_of_mem_allWords {o : Occurs} {items : List Particle}
    (h : leaves ∈ allWords elements o items) :
    ∀ l ∈ leaves, ∃ m ∈ allMembers elements items, m.1 = l := by
  intro l hl
  rcases h with ⟨-, rfl⟩ | hchosen
  · exact absurd hl List.not_mem_nil
  · exact hchosen.mem hl

/-- **Children are admitted in at most one way** by an unambiguous content model. -/
theorem Particle.Unambiguous.eq_of_admits (h : model.Unambiguous elements)
    (hw : leaves ∈ model.words elements) (hw' : leaves' ∈ model.words elements)
    (hadmits : Admit leaves names) (hadmits' : Admit leaves' names) : leaves = leaves' := by
  cases model with
  | all o items =>
    exact Apart.eq_of_admits h hadmits hadmits' (exists_place_of_mem_allWords hw)
      (exists_place_of_mem_allWords hw')
  | element | reference | sequence | choice | group | any =>
    have hnone : Admit [] [] := .nil
    exact Schema.Unambiguous.eq_of_admits h hnone hw hw' hadmits hadmits'

theorem Automaton.run_yields {a : Automaton} (h : Automaton.build elements model = .ok a)
    (names : List ExpandedName) : Yields (model.leafWords elements) names (a.run names) := by
  obtain ⟨hwf, hwords⟩ := Automaton.build_spec h
  cases hrun : a.run names with
  | ok found =>
    obtain ⟨leaves, hfound, hway, hadmits⟩ := Automaton.exists_way_of_run hwf hrun
    exact ⟨leaves, (hwords leaves).1 hway, hfound, hadmits⟩
  | error m =>
    intro leaves hw hadmits
    obtain ⟨found, hfound⟩ :=
      (Automaton.run_ok_iff hwf names).2 ⟨leaves, (hwords leaves).2 hw, hadmits⟩
    rw [hrun] at hfound
    cases hfound

/-- **What a content model makes of some children**: a word that admits them, or there is none. -/
theorem runModel_yields (hmodel : model.Unambiguous elements)
    {result : Except Mismatch (List (Option Leaf))}
    (h : runModel elements model names = .ok result) :
    Yields (model.words elements) names result := by
  cases model with
  | all o items =>
    obtain ⟨mss, hmss, h⟩ := bind_eq_ok.1 h
    cases h
    exact runAll_yields hmss hmodel names
  | element | reference | sequence | choice | group | any =>
    obtain ⟨a, ha, h⟩ := bind_eq_ok.1 h
    cases h
    exact Automaton.run_yields ha names

end Model

end XmlConformance.Schema
