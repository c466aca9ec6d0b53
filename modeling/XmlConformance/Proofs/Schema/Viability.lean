import XmlConformance.Proofs.Schema.Completing
import XmlConformance.Proofs.Schema.ContentModel

/-!
# Proofs/Schema/Viability — a rejected list is good as far as it is said to be

A run that fails says how many children it has passed, and what could have come there. If the
content model has no dead ends (`Particle.Productive`), both are exact: the children in front of the
position are the longest part that can still be completed to an accepted list, and the leaves
expected are those that some accepted list has there (`Automaton.longest_viable_of_run_error`).

A run is live as long as ways past its children lead anywhere (`Automaton.exists_mem_after_iff`),
and from there a way always leads on (`Automaton.Trim`).
-/

namespace XmlConformance.Schema

open Xml

/-- What admits children in two parts falls apart between them. -/
theorem exists_append_of_admit {leaves : List Leaf} {x y : List ExpandedName}
    (h : Admit leaves (x ++ y)) : ∃ u v, leaves = u ++ v ∧ Admit u x ∧ Admit v y :=
  ⟨_, _, (List.take_append_drop x.length leaves).symm, List.forall₂_take_append leaves x y h,
    List.forall₂_drop_append leaves x y h⟩

/-! ## Texts without repetition -/

theorem distinct_foldl_spec : ∀ texts found : List String, found.Nodup →
    (texts.foldl (fun found t => if found.contains t then found else found ++ [t]) found).Nodup ∧
      ∀ t, t ∈ texts.foldl (fun found t => if found.contains t then found else found ++ [t]) found ↔
        t ∈ found ∨ t ∈ texts
  | [], found, hfound => ⟨hfound, by simp⟩
  | t :: texts, found, hfound => by
      rw [List.foldl_cons]
      by_cases ht : t ∈ found
      · rw [if_pos (List.contains_iff_mem.mpr ht)]
        obtain ⟨hnodup, hmem⟩ := distinct_foldl_spec texts found hfound
        refine ⟨hnodup, fun x => ?_⟩
        rw [hmem, List.mem_cons]
        refine ⟨Or.imp_right .inr, ?_⟩
        rintro (hx | rfl | hx)
        exacts [.inl hx, .inl ht, .inr hx]
      · rw [if_neg (by rwa [List.contains_iff_mem])]
        obtain ⟨hnodup, hmem⟩ := distinct_foldl_spec texts (found ++ [t])
          (List.nodup_append_comm.mp (List.nodup_cons.mpr ⟨ht, hfound⟩))
        refine ⟨hnodup, fun x => ?_⟩
        rw [hmem, List.mem_append, List.mem_singleton, List.mem_cons, or_assoc]

theorem nodup_distinct (texts : List String) : (distinct texts).Nodup :=
  (distinct_foldl_spec texts [] List.nodup_nil).1

@[simp] theorem mem_distinct {texts : List String} {t : String} :
    t ∈ distinct texts ↔ t ∈ texts := by
  rw [distinct, (distinct_foldl_spec texts [] List.nodup_nil).2]
  simp

namespace Automaton

variable {a : Automaton}

/-! ## Live states behind children -/

/-- The live states behind some children. -/
def after (a : Automaton) (live : List Live) (names : List ExpandedName) : List Live :=
  names.foldl a.step live

/-- **The live states behind some children** are those that ways past them lead to. -/
theorem exists_mem_after_iff (hw : a.WellFormed) : ∀ (names : List ExpandedName) {live : List Live},
    a.Closed live → ∀ {t}, (∃ x ∈ a.after live names, x.state = t) ↔
      ∃ x ∈ live, ∃ leaves, a.steps.WayTo t x.state leaves ∧ Admit leaves names
  | [], live, hclosed, t => by
      constructor
      · rintro ⟨x, hx, rfl⟩
        exact ⟨x, hx, [], .nil, .nil⟩
      · rintro ⟨x, hx, leaves, hway, hadm⟩
        obtain rfl := List.forall₂_nil_right_iff.mp hadm
        rcases way_cases hway with ⟨-, hr⟩ | ⟨m, w', hw', -⟩
        · exact hclosed x hx _ hr
        · cases hw'
  | name :: names, live, hclosed, t => by
      rw [← exists_way_step_iff hw hclosed]
      exact exists_mem_after_iff hw names (step_spec hw live name).1

/-- Behind no live states there are none. -/
theorem after_nil (a : Automaton) (names : List ExpandedName) : a.after [] names = [] := by
  induction names with
  | nil => rfl
  | cons name names ih => exact ih

theorem after_append (a : Automaton) (live : List Live) (u v : List ExpandedName) :
    a.after live (u ++ v) = a.after (a.after live u) v :=
  List.foldl_append

/-- **A run fails where no live state is left**, or at the end. -/
theorem exists_of_layers_error : ∀ (names : List ExpandedName) {position : ℕ}
    {passed : List (List Live)} {live : List Live} {m : Mismatch}, live ≠ [] →
    a.layers position passed live names = .error m →
    ∃ taken rest, names = taken ++ rest ∧ a.after live taken ≠ [] ∧
      m = a.mismatch (position + taken.length) (a.after live taken) ∧
      ∀ name ∈ rest.head?, a.step (a.after live taken) name = []
  | [], position, passed, live, m, hlive, h => by
      rw [layers] at h
      split at h
      · cases h
      · cases h
        refine ⟨[], [], rfl, hlive, rfl, fun name hname => ?_⟩
        cases hname
  | name :: names, position, passed, live, m, hlive, h => by
      rw [layers] at h
      split at h
      · next hstep =>
        cases h
        refine ⟨[], name :: names, rfl, hlive, rfl, fun name' hname => ?_⟩
        obtain rfl : name = name' := Option.some.inj hname
        exact hstep
      · next hne =>
        obtain ⟨taken, rest, rfl, hafter, rfl, hstop⟩ := exists_of_layers_error names hne h
        refine ⟨name :: taken, rest, rfl, hafter, ?_, hstop⟩
        rw [List.length_cons, Nat.add_right_comm]
        rfl

/-! ## Viable lists -/

/-- A list of children that a run accepts. -/
def Accepts (a : Automaton) (names : List ExpandedName) : Prop := ∃ found, a.run names = .ok found

/-- A list of children that can be completed to one that a run accepts. -/
def Viable (a : Automaton) (names : List ExpandedName) : Prop := ∃ more, a.Accepts (names ++ more)

/-- The live states of a run behind some children. -/
abbrev reached (a : Automaton) (names : List ExpandedName) : List Live :=
  a.after (a.closure [⟨0, none⟩]) names

theorem exists_mem_reached_iff (hw : a.WellFormed) {names : List ExpandedName} {t : ℕ} :
    (∃ x ∈ a.reached names, x.state = t) ↔
      ∃ leaves, a.steps.WayTo t 0 leaves ∧ Admit leaves names := by
  obtain ⟨hclosed, hstart, x₀, hx₀, hzero⟩ := start_spec hw
  rw [exists_mem_after_iff hw names hclosed]
  constructor
  · rintro ⟨x, hx, leaves, hway, hadm⟩
    exact ⟨leaves, (way_of_skips (hstart x hx).2).append hway, hadm⟩
  · rintro ⟨leaves, hway, hadm⟩
    exact ⟨x₀, hx₀, leaves, by rwa [hzero], hadm⟩

/-- **A list is viable** exactly if states are live behind it. -/
theorem viable_iff (hw : a.WellFormed) (ht : a.Trim) {names : List ExpandedName} :
    a.Viable names ↔ a.reached names ≠ [] := by
  constructor
  · rintro ⟨more, haccepts⟩
    obtain ⟨leaves, hway, hadm⟩ := (run_ok_iff hw _).mp haccepts
    obtain ⟨u, v, rfl, hu, -⟩ := exists_append_of_admit hadm
    obtain ⟨t, hway, -⟩ := hway.exists_of_append
    obtain ⟨x, hx, -⟩ := (exists_mem_reached_iff hw).mpr ⟨u, hway, hu⟩
    exact List.ne_nil_of_mem hx
  · intro hne
    obtain ⟨x, hx⟩ := List.exists_mem_of_ne_nil _ hne
    obtain ⟨u, hway, hadm⟩ := (exists_mem_reached_iff hw).mp ⟨x, hx, rfl⟩
    obtain ⟨v, more, hway', hadm'⟩ := ht.exists_completion (hw.lt_of_way hw.zero_lt hway)
    exact ⟨more, (run_ok_iff hw _).mpr ⟨u ++ v, hway.append hway', List.rel_append hadm hadm'⟩⟩

/-- Where no state is live behind the next child, no list with that child is viable. -/
theorem eq_nil_of_viable (hw : a.WellFormed) (ht : a.Trim) {taken more : List ExpandedName}
    (hstop : ∀ name ∈ more.head?, a.step (a.reached taken) name = [])
    (hviable : a.Viable (taken ++ more)) : more = [] := by
  cases more with
  | nil => rfl
  | cons name more =>
    rw [viable_iff hw ht, reached, after_append] at hviable
    refine absurd ?_ hviable
    change a.after (a.step (a.reached taken) name) more = []
    rw [hstop name rfl, after_nil]

/-- **The children passed are the longest viable part** if the run can go no further. -/
theorem isGreatest_viable (hw : a.WellFormed) (ht : a.Trim) {taken rest : List ExpandedName}
    (hne : a.reached taken ≠ [])
    (hstop : ∀ name ∈ rest.head?, a.step (a.reached taken) name = []) :
    IsGreatest {n | n ≤ (taken ++ rest).length ∧ a.Viable ((taken ++ rest).take n)}
      taken.length := by
  constructor
  · refine ⟨by rw [List.length_append]; omega, ?_⟩
    rw [List.take_left' rfl]
    exact (viable_iff hw ht).mpr hne
  · rintro n ⟨hn, hviable⟩
    by_contra hlt
    obtain ⟨k, rfl⟩ : ∃ k, n = taken.length + (k + 1) :=
      ⟨n - taken.length - 1, by omega⟩
    rw [List.take_append, List.take_of_length_le (by omega), Nat.add_sub_cancel_left] at hviable
    have hnil : rest.take (k + 1) = [] :=
      eq_nil_of_viable hw ht (by simpa [List.head?_take] using hstop) hviable
    rw [List.length_append] at hn
    have := congrArg List.length hnil
    rw [List.length_take, List.length_nil] at this
    omega

end Automaton

/-! ## Mismatches -/

/-- **A leaf that can come next**: behind some children, in some list that the content model
admits. -/
def Particle.CanFollow (elements : Table ElementDecl) (model : Particle)
    (before : List ExpandedName) (l : Leaf) : Prop :=
  ∃ u v name rest, u ++ l :: v ∈ model.leafWords elements ∧ Admit u before ∧
    l.admits name = true ∧ Admit v rest

namespace Automaton

variable {elements : Table ElementDecl} {model : Particle} {a : Automaton}

/-- The leaves of open moves are those that can come next. -/
theorem exists_mem_openMoves_iff (h : build elements model = .ok a)
    (hp : model.Productive elements) {names : List ExpandedName} {l : Leaf} :
    (∃ m ∈ a.openMoves (a.reached names), m.leaf = l) ↔ model.CanFollow elements names l := by
  obtain ⟨hw, hwords⟩ := build_spec h
  have ht := trim_of_build h hp
  constructor
  · rintro ⟨m, hm, rfl⟩
    obtain ⟨hlive, hm⟩ := (mem_openMoves hw).mp hm
    obtain ⟨u, hway, hadm⟩ := (exists_mem_reached_iff hw).mp hlive
    obtain ⟨v, rest, hway', hadm'⟩ := ht.exists_completion (hw.move_lt hm)
    obtain ⟨name, hname⟩ := ht.satisfiable (l := m.leaf) hm
    refine ⟨u, v, name, rest, ?_, hadm, hname, hadm'⟩
    rw [← hwords]
    exact hway.append (.cons (o := some m.leaf) hm hway')
  · rintro ⟨u, v, name, rest, hword, hadm, -, -⟩
    rw [← hwords] at hword
    obtain ⟨s, hway, hway'⟩ := hword.exists_of_append
    rcases way_cases hway' with ⟨hnil, -⟩ | ⟨m, w, hcons, hr, hm, -⟩
    · cases hnil
    · cases hcons
      refine ⟨m, (mem_openMoves hw).mpr ⟨?_, hm⟩, rfl⟩
      refine (exists_mem_reached_iff hw).mpr ⟨u, ?_, hadm⟩
      have := hway.append (way_of_skips hr)
      rwa [List.append_nil] at this

/-- The texts expected are those of the leaves of open moves, each once. -/
theorem mem_expected_iff {position : ℕ} {live : List Live} {text : String} :
    text ∈ (a.mismatch position live).expected ↔ ∃ m ∈ a.openMoves live, m.leaf.display = text := by
  rw [mismatch, Mismatch.ofLeaves]
  simp

/-- A failed run: the children passed are viable, and it went as far as it could. -/
theorem exists_of_run_error {names : List ExpandedName} {m : Mismatch} (hw : a.WellFormed)
    (herror : a.run names = .error m) :
    ∃ taken rest, names = taken ++ rest ∧ a.reached taken ≠ [] ∧
      m = a.mismatch taken.length (a.reached taken) ∧
      ∀ name ∈ rest.head?, a.step (a.reached taken) name = [] := by
  obtain ⟨-, -, x, hx, -⟩ := start_spec hw
  have hlayers : a.layers 0 [] (a.closure [⟨0, none⟩]) names = .error m := by
    cases hl : a.layers 0 [] (a.closure [⟨0, none⟩]) names with
    | ok ls =>
      rw [run, hl] at herror
      cases herror
    | error m' =>
      rw [run, hl] at herror
      cases herror
      rfl
  obtain ⟨taken, rest, rfl, hne, rfl, hstop⟩ :=
    exists_of_layers_error names (List.ne_nil_of_mem hx) hlayers
  exact ⟨taken, rest, rfl, hne, by rw [Nat.zero_add], hstop⟩

/-- A leaf can come next exactly if more children can. -/
theorem exists_canFollow_iff (h : build elements model = .ok a) {names : List ExpandedName} :
    (∃ l, model.CanFollow elements names l) ↔ ∃ more ≠ [], a.Accepts (names ++ more) := by
  obtain ⟨hw, hwords⟩ := build_spec h
  simp only [Accepts, run_ok_iff hw, hwords]
  constructor
  · rintro ⟨l, u, v, name, rest, hword, hu, hname, hv⟩
    exact ⟨name :: rest, List.cons_ne_nil _ _, u ++ l :: v, hword,
      List.rel_append hu (.cons hname hv)⟩
  · rintro ⟨more, hmore, leaves, hword, hadm⟩
    obtain ⟨u, v, rfl, hu, hv⟩ := exists_append_of_admit hadm
    cases hv with
    | nil => exact absurd rfl hmore
    | cons hname hv => exact ⟨_, u, _, _, _, hword, hu, hname, hv⟩

/-- **A rejected list is good up to the position reported, and no further**: the children in front
of it are the longest part that can be completed to an accepted list. What is expected there are the
leaves that can come next in some accepted list, each written once. So a list is incomplete, with
something expected at its end, exactly if it can be completed by more children. -/
theorem longest_viable_of_run_error (h : build elements model = .ok a)
    (hp : model.Productive elements) {names : List ExpandedName} {m : Mismatch}
    (herror : a.run names = .error m) :
    IsGreatest {n | n ≤ names.length ∧ a.Viable (names.take n)} m.position ∧
      (m.expected.Nodup ∧ ∀ text, text ∈ m.expected ↔
        ∃ l, model.CanFollow elements (names.take m.position) l ∧ l.display = text) ∧
      (m.position = names.length ∧ m.expected ≠ [] ↔
        ∃ more ≠ [], a.Accepts (names ++ more)) := by
  obtain ⟨hw, -⟩ := build_spec h
  have ht := trim_of_build h hp
  obtain ⟨taken, rest, rfl, hne, rfl, hstop⟩ := exists_of_run_error hw herror
  set m := a.mismatch taken.length (a.reached taken)
  have hposition : m.position = taken.length := rfl
  have hgreatest := isGreatest_viable hw ht hne hstop
  have hexpected : ∀ text, text ∈ m.expected ↔
      ∃ l, model.CanFollow elements taken l ∧ l.display = text := by
    intro text
    simp only [m, mem_expected_iff, ← exists_mem_openMoves_iff h hp, exists_exists_and_eq_and]
  rw [hposition, List.take_left' rfl]
  refine ⟨hgreatest, ⟨nodup_distinct _, hexpected⟩, ?_⟩
  constructor
  · rintro ⟨hlength, hsome⟩
    obtain rfl : rest = [] := by
      rw [List.length_append] at hlength
      exact List.length_eq_zero_iff.mp (by omega)
    obtain ⟨text, htext⟩ := List.exists_mem_of_ne_nil _ hsome
    obtain ⟨l, hl, -⟩ := (hexpected text).mp htext
    rw [List.append_nil]
    exact (exists_canFollow_iff h).mp ⟨l, hl⟩
  · rintro ⟨more, hmore, haccepts⟩
    obtain rfl : rest = [] := by
      have hle : (taken ++ rest).length ≤ taken.length :=
        hgreatest.2 ⟨le_rfl, by rw [List.take_length]; exact ⟨more, haccepts⟩⟩
      rw [List.length_append] at hle
      exact List.length_eq_zero_iff.mp (by omega)
    rw [List.append_nil] at haccepts
    obtain ⟨l, hl⟩ := (exists_canFollow_iff h).mpr ⟨more, hmore, haccepts⟩
    exact ⟨by rw [List.append_nil], List.ne_nil_of_mem ((hexpected _).mpr ⟨l, hl, rfl⟩)⟩

/-- A title, and behind it an author. -/
def titleThenAuthor : Particle :=
  .sequence .once [.element .once ⟨⟨none, "title"⟩, .any, false, false, none⟩,
    .element .once ⟨⟨none, "author"⟩, .any, false, false, none⟩]

theorem incomplete_titleThenAuthor :
    ∃ a m, build [] titleThenAuthor = .ok a ∧ titleThenAuthor.Productive [] ∧
      a.run [⟨none, "title"⟩] = .error m ∧ m.position = 1 ∧ m.expected ≠ [] := by
  have hbuild : (build [] titleThenAuthor).toOption.isSome = true := by decide
  have hp : titleThenAuthor.Productive [] := by
    simp [titleThenAuthor, Particle.Productive, Particle.AllProductive]
  cases h : build [] titleThenAuthor with
  | error e =>
    rw [h] at hbuild
    cases hbuild
  | ok a =>
    have haccepts : ∀ names, a.Accepts names ↔ names = [⟨none, "title"⟩, ⟨none, "author"⟩] := by
      intro names
      rw [Accepts, run_build_ok_iff_mem_language h, titleThenAuthor, Particle.language,
        Particle.denotes, Occurs.times_once, Particle.denotesEach, Particle.denotesEach,
        Particle.denotesEach, List.prod_cons, List.prod_cons, List.prod_nil, mul_one,
        Particle.denotes, Particle.denotes, Occurs.times_once, Occurs.times_once,
        Leaf.names_element, Leaf.names_element, Language.mem_mul]
      constructor
      · rintro ⟨_, rfl, _, rfl, rfl⟩
        rfl
      · rintro rfl
        exact ⟨_, rfl, _, rfl, rfl⟩
    cases herror : a.run [⟨none, "title"⟩] with
    | ok found =>
      have := (haccepts _).mp ⟨found, herror⟩
      simp at this
    | error m =>
      obtain ⟨-, -, hincomplete⟩ := longest_viable_of_run_error h hp herror
      obtain ⟨hposition, hexpected⟩ := hincomplete.mpr
        ⟨[⟨none, "author"⟩], List.cons_ne_nil _ _, (haccepts _).mpr rfl⟩
      exact ⟨a, m, rfl, hp, herror, hposition, hexpected⟩

end Automaton

end XmlConformance.Schema
