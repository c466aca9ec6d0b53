import XmlConformance.Proofs.Schema.Binding

/-!
# Proofs/Schema/Assigning — when an `xs:all` group finds an assignment

Children are admitted by an `xs:all` group if they can be given to pairwise different members, so
that no member is left out that there has to be a child for (`Assignable`). A run does not look for
such an assignment. It gives each child to the first member that is left and admits it (`Served`),
so what it finds is an assignment, but it may miss one.

It misses none exactly if the members are graded (`Graded`): where two of them admit the same child,
all that the first admits the second does too, and if there has to be a child for the second, so
there has to be one for the first. In one direction a child is exchanged between two members
(`Assignable.eraseP`); in the other, two members that are not graded give children for which the run
fails (`graded_of_served`).
-/

namespace XmlConformance.Schema

open Xml

/-- **The children can be given to pairwise different members that admit them**: the members are
those that the children are given to, in the order of the children, and others, none of which there
has to be a child for. -/
def Assignable (places : List Place) (names : List ExpandedName) : Prop :=
  ∃ used spare : List Place, (used ++ spare).Perm places ∧
    List.Forall₂ (fun m name => m.1.admits name = true) used names ∧ ∀ m ∈ spare, m.2 = false

/-- Each child is given to the first member that is left and admits it. -/
def Served : List Place → List ExpandedName → Prop
  | places, [] => ∀ m ∈ places, m.2 = false
  | places, name :: names => (∃ m ∈ places, m.1.admits name = true) ∧
      Served (places.eraseP (·.1.admits name)) names

/-- **A child loses nothing by being given to the first of two members**, if both admit it. -/
def Precedes (x y : Place) : Prop :=
  ∀ name, x.1.admits name = true → y.1.admits name = true →
    (∀ other, x.1.admits other = true → y.1.admits other = true) ∧ (y.2 = true → x.2 = true)

/-- Each member precedes all that are behind it. -/
abbrev Graded (places : List Place) : Prop := places.Pairwise Precedes

section Places

variable {places places' : List Place} {names names' : List ExpandedName} {name : ExpandedName}
  {x y : Place}

/-- One of some things that are related to others may be replaced by what is related to more. -/
theorem forall₂_replace {α β : Type} {R : α → β → Prop} {a b : α} (hab : ∀ c, R a c → R b c) :
    ∀ {before after : List α} {cs : List β},
      List.Forall₂ R (before ++ a :: after) cs → List.Forall₂ R (before ++ b :: after) cs
  | [], _, _, .cons hac hafter => .cons (hab _ hac) hafter
  | _ :: _, _, _, .cons hfirst hrest => .cons hfirst (forall₂_replace hab hrest)

/-! ## Assignments -/

namespace Assignable

theorem perm (h : Assignable places names) (hperm : places.Perm places') :
    Assignable places' names := by
  obtain ⟨used, spare, hsplit, hadmits, hspare⟩ := h
  exact ⟨used, spare, hsplit.trans hperm, hadmits, hspare⟩

/-- **The order of the children does not matter.** -/
theorem perm_names (h : Assignable places names) (hperm : names.Perm names') :
    Assignable places names' := by
  obtain ⟨used, spare, hsplit, hadmits, hspare⟩ := h
  obtain ⟨used', hadmits', hused⟩ := List.perm_comp_forall₂ hperm.symm hadmits.flip
  exact ⟨used', spare, (hused.append_right spare).trans hsplit, hadmits'.flip, hspare⟩

/-- Members that all admit a child are given as many of this child. -/
theorem replicate_append (h : Assignable places names) (more : List Place)
    (hmore : ∀ m ∈ more, m.1.admits name = true) :
    Assignable (more ++ places) (List.replicate more.length name ++ names) := by
  obtain ⟨used, spare, hsplit, hadmits, hspare⟩ := h
  refine ⟨more ++ used, spare, by rw [List.append_assoc]; exact hsplit.append_left more, ?_, hspare⟩
  refine List.rel_append (List.forall₂_iff_get.2 ⟨by simp, fun i hi _ => ?_⟩) hadmits
  simpa using hmore _ (List.getElem_mem hi)

theorem cons_spare (h : Assignable places names) (hx : x.2 = false) :
    Assignable (x :: places) names := by
  obtain ⟨used, spare, hsplit, hadmits, hspare⟩ := h
  exact ⟨used, x :: spare, List.perm_middle.trans (hsplit.cons x), hadmits,
    List.forall_mem_cons.2 ⟨hx, hspare⟩⟩

/-- There are at least as many children as members that there has to be a child for. -/
theorem count_le (h : Assignable places names) : places.countP (·.2) ≤ names.length := by
  obtain ⟨used, spare, hsplit, hadmits, hspare⟩ := h
  have hnone : spare.countP (·.2) = 0 := List.countP_eq_zero.2 fun m hm => by simp [hspare m hm]
  rw [← hsplit.countP_eq, List.countP_append, hnone, Nat.add_zero, ← hadmits.length_eq]
  exact List.countP_le_length

/-- A member that there has to be a child for is given one. -/
theorem exists_admits (h : Assignable places names) (hx : x ∈ places) (hneeded : x.2 = true) :
    ∃ name, x.1.admits name = true := by
  obtain ⟨used, spare, hsplit, hadmits, hspare⟩ := h
  rcases List.mem_append.1 (hsplit.mem_iff.2 hx) with hused | hunused
  · obtain ⟨i, hi, rfl⟩ := List.getElem_of_mem hused
    have hi' : i < names.length := hadmits.length_eq ▸ hi
    exact ⟨names[i], hadmits.get hi hi'⟩
  · rw [hspare x hunused] at hneeded
    cases hneeded

/-- **Members can be given one child each** if there is one for all that there has to be a child
for. -/
theorem exists_of_admits : ∀ {places : List Place},
    (∀ m ∈ places, m.2 = true → ∃ name, m.1.admits name = true) →
      ∃ names, Assignable places names ∧ names.length = places.countP (·.2)
  | [], _ => ⟨[], ⟨[], [], .nil, .nil, nofun⟩, rfl⟩
  | x :: places, h => by
    rw [List.forall_mem_cons] at h
    obtain ⟨names, hnames, hlength⟩ := exists_of_admits h.2
    cases hneeded : x.2 with
    | false =>
      exact ⟨names, hnames.cons_spare hneeded, by rw [List.countP_cons_of_neg (by simp [hneeded]),
        hlength]⟩
    | true =>
      obtain ⟨name, hname⟩ := h.1 hneeded
      have hone := hnames.replicate_append [x] (List.forall_mem_singleton.2 hname)
      exact ⟨name :: names, hone,
        by rw [List.countP_cons_of_pos hneeded, List.length_cons, hlength]⟩

/-- **A member that takes the place of another** needs what the other has: its child, or none. -/
theorem of_exchange {used spare rest : List Place}
    (hsplit : (y :: (used ++ spare)).Perm (x :: rest))
    (hadmits : List.Forall₂ (fun m name => m.1.admits name = true) used names)
    (hspare : ∀ m ∈ spare, m.2 = false)
    (hadm : ∀ other, x.1.admits other = true → y.1.admits other = true)
    (hneeded : y.2 = true → x.2 = true) : Assignable rest names := by
  rcases List.mem_cons.1 (hsplit.mem_iff.2 List.mem_cons_self) with rfl | hx
  · exact ⟨used, spare, hsplit.cons_inv, hadmits, hspare⟩
  have hplace : ∀ before after, used ++ spare = before ++ x :: after →
      (before ++ y :: after).Perm rest := by
    intro before after hmiddle
    rw [hmiddle] at hsplit
    refine List.Perm.cons_inv (a := x) (List.Perm.trans ?_ hsplit)
    exact (List.perm_middle.cons x).trans
      ((List.Perm.swap y x _).trans (List.perm_middle.symm.cons y))
  rcases List.mem_append.1 hx with hx | hx
  · obtain ⟨before, after, rfl⟩ := List.append_of_mem hx
    refine ⟨before ++ y :: after, spare, ?_, forall₂_replace hadm hadmits, hspare⟩
    rw [List.append_assoc, List.cons_append]
    exact hplace before (after ++ spare) (by simp)
  · obtain ⟨before, after, rfl⟩ := List.append_of_mem hx
    have hx2 : x.2 = false := hspare x (by simp)
    have hy2 : y.2 = false := Bool.eq_false_iff.2 fun hy2 => by simp [hneeded hy2] at hx2
    refine ⟨used, before ++ y :: after, ?_, hadmits, fun m hm => ?_⟩
    · rw [← List.append_assoc]
      exact hplace (used ++ before) after (by simp)
    · rcases List.mem_append.1 hm with hm | hm
      · exact hspare m (by simp [hm])
      · rcases List.mem_cons.1 hm with rfl | hm
        · exact hy2
        · exact hspare m (by simp [hm])

/-- **A child may as well go to the first member that admits it**, if the members are graded. -/
theorem eraseP (hgraded : Graded places) (h : Assignable places (name :: names)) :
    (∃ m ∈ places, m.1.admits name = true) ∧
      Assignable (places.eraseP (·.1.admits name)) names := by
  obtain ⟨used, spare, hsplit, hadmits, hspare⟩ := h
  obtain ⟨y, used, hy, hused, rfl⟩ := List.forall₂_cons_right_iff.1 hadmits
  have hmem : y ∈ places := hsplit.mem_iff.1 (by simp)
  refine ⟨⟨y, hmem, hy⟩, ?_⟩
  obtain ⟨x, front, back, hfront, hx, rfl, herase⟩ :=
    List.exists_of_eraseP (p := (·.1.admits name)) hmem hy
  rw [herase]
  have hxy : y = x ∨ Precedes x y := by
    rcases List.mem_append.1 hmem with hmem | hmem
    · exact absurd hy (hfront y hmem)
    · refine (List.mem_cons.1 hmem).imp_right fun hback => ?_
      exact (List.pairwise_cons.1 (List.pairwise_append.1 hgraded).2.1).1 y hback
  have hrest : (y :: (used ++ spare)).Perm (x :: (front ++ back)) := hsplit.trans List.perm_middle
  rcases hxy with rfl | hxy
  · exact of_exchange hrest hused hspare (fun _ => id) id
  · obtain ⟨hadm, hneeded⟩ := hxy name hx hy
    exact of_exchange hrest hused hspare hadm hneeded

end Assignable

/-! ## Members one after the other -/

namespace Served

/-- **What is found is an assignment.** -/
theorem assignable : ∀ {names : List ExpandedName} {places : List Place}, Served places names →
    Assignable places names
  | [], places, h => ⟨[], places, .refl _, .nil, h⟩
  | name :: names, places, h => by
    obtain ⟨⟨m, hm, hname⟩, hrest⟩ := h
    obtain ⟨x, front, back, -, hx, rfl, herase⟩ :=
      List.exists_of_eraseP (p := (·.1.admits name)) hm hname
    rw [herase] at hrest
    have hone := hrest.assignable.replicate_append [x] (List.forall_mem_singleton.2 hx)
    rw [List.singleton_append] at hone
    exact hone.perm List.perm_middle.symm

/-- **Graded members miss no assignment.** -/
theorem of_assignable : ∀ {names : List ExpandedName} {places : List Place}, Graded places →
    Assignable places names → Served places names
  | [], places, _, h => by
    obtain ⟨used, spare, hsplit, hadmits, hspare⟩ := h
    obtain rfl := List.forall₂_nil_right_iff.1 hadmits
    exact fun m hm => hspare m (hsplit.mem_iff.2 hm)
  | name :: names, places, hgraded, h =>
    have hnext := h.eraseP hgraded
    ⟨hnext.1, of_assignable (hgraded.sublist List.eraseP_sublist) hnext.2⟩

/-- **As many of one child as front members admit it** take these members away. -/
theorem replicate_append_iff : ∀ (front skipped back : List Place),
    (∀ m ∈ skipped, m.1.admits name = false) →
      (Served (skipped ++ (front ++ back))
          (List.replicate (front.countP (·.1.admits name)) name ++ names) ↔
        Served (skipped ++ (front.filter (!·.1.admits name) ++ back)) names)
  | [], _, _, _ => Iff.rfl
  | x :: front, skipped, back, hskipped => by
    cases hx : x.1.admits name with
    | true =>
      have hcount : (x :: front).countP (·.1.admits name) = front.countP (·.1.admits name) + 1 :=
        List.countP_cons_of_pos hx
      have herase : (skipped ++ (x :: front ++ back)).eraseP (·.1.admits name) =
          skipped ++ (front ++ back) := by
        rw [List.eraseP_append_right _ fun m hm => by simp [hskipped m hm], List.cons_append]
        exact congrArg (skipped ++ ·) (List.eraseP_cons_of_pos hx)
      have hfirst : ∃ m ∈ skipped ++ (x :: front ++ back), m.1.admits name = true :=
        ⟨x, by simp, hx⟩
      rw [hcount, List.filter_cons_of_neg (by simp [hx]),
        ← replicate_append_iff front skipped back hskipped, ← herase]
      exact and_iff_right hfirst
    | false =>
      have hcount : (x :: front).countP (·.1.admits name) = front.countP (·.1.admits name) :=
        List.countP_cons_of_neg (by simp [hx])
      have hnext := replicate_append_iff front (skipped ++ [x]) back fun m hm => by
        rcases List.mem_append.1 hm with hm | hm
        · exact hskipped m hm
        · rwa [List.mem_singleton.1 hm]
      rw [hcount, List.filter_cons_of_pos (by simp [hx])]
      simpa using hnext

/-- No more of one child are served than members admit it. -/
theorem not_replicate_append {k : ℕ} (hk : places.countP (·.1.admits name) < k) :
    ¬ Served places (List.replicate k name ++ names) := by
  obtain ⟨j, rfl⟩ := Nat.exists_eq_add_of_lt hk
  intro h
  rw [Nat.add_assoc, List.replicate_add, List.append_assoc] at h
  have hall := @replicate_append_iff (List.replicate (j + 1) name ++ names) name places [] [] nofun
  rw [List.append_nil, List.append_nil] at hall
  obtain ⟨⟨m, hm, hname⟩, -⟩ := hall.1 h
  simp [hname] at hm

end Served

open scoped List in
/-- **Two members that admit the same child**: if the run takes all members in front of the second
that admit the child, it takes the first of the two and leaves the second. An assignment may do the
same with the two exchanged. -/
theorem served_of_exchange {before between after : List Place}
    (h : ∀ names, names ≠ [] → Assignable ((before ++ x :: between) ++ y :: after) names →
      Served ((before ++ x :: between) ++ y :: after) names)
    (hx : x.1.admits name = true) (hy : y.1.admits name = true)
    (hrest : Assignable (x :: ((before ++ between).filter (!·.1.admits name) ++ after)) names) :
    Served ((before ++ between).filter (!·.1.admits name) ++ y :: after) names := by
  set taken := (before ++ between).filter (·.1.admits name)
  set left := (before ++ between).filter (!·.1.admits name) with hleft
  have hassign := hrest.replicate_append (y :: taken)
    (List.forall_mem_cons.2 ⟨hy, fun m hm => (List.mem_filter.1 hm).2⟩)
  have hperm : y :: taken ++ x :: (left ++ after) ~ (before ++ x :: between) ++ y :: after := by
    calc y :: taken ++ x :: (left ++ after)
      _ ~ y :: x :: (taken ++ left ++ after) := by
        rw [List.append_assoc]
        exact List.perm_middle.cons y
      _ ~ y :: x :: (before ++ between ++ after) :=
        (((List.filter_append_perm _ _).append_right after).cons x).cons y
      _ ~ y :: ((before ++ x :: between) ++ after) :=
        (List.perm_middle.symm.append_right after).cons y
      _ ~ (before ++ x :: between) ++ y :: after := List.perm_middle.symm
  have hcount : (y :: taken).length = (before ++ x :: between).countP (·.1.admits name) := by
    rw [List.perm_middle.countP_eq, List.countP_cons_of_pos (by exact hx), List.length_cons,
      List.countP_eq_length_filter]
  have hfilter : (before ++ x :: between).filter (!·.1.admits name) = left := by
    rw [hleft, List.filter_append, List.filter_append, List.filter_cons_of_neg (by simp [hx])]
  have hserved := h _ (by simp) (hassign.perm hperm)
  rw [hcount] at hserved
  have hall :=
    (Served.replicate_append_iff (before ++ x :: between) [] (y :: after) nofun).1 hserved
  rwa [hfilter] at hall

/-- A member can only be left in the place of another if it admits all that the other admits, and
if there has to be a child for the other where there has to be one for it. -/
theorem admits_of_exchange {left after : List Place}
    (hneeded : ∀ m ∈ left ++ after, m.2 = true → ∃ name, m.1.admits name = true)
    (h : ∀ names, Assignable (x :: (left ++ after)) names → Served (left ++ y :: after) names) :
    (∀ name, x.1.admits name = true → y.1.admits name = true) ∧ (y.2 = true → x.2 = true) := by
  constructor
  · intro name hx
    by_contra hy
    -- Here the children are one more than the members that are left admit.
    set taken := (left ++ after).filter (·.1.admits name) with htaken
    set rest := (left ++ after).filter (!·.1.admits name) with hrest
    obtain ⟨names, hnames, -⟩ : ∃ names, Assignable rest names ∧ _ :=
      Assignable.exists_of_admits fun m hm => hneeded m (List.mem_filter.1 hm).1
    have hassign := hnames.replicate_append (x :: taken)
      (List.forall_mem_cons.2 ⟨hx, fun m hm => (List.mem_filter.1 hm).2⟩)
    have hcount : (left ++ y :: after).countP (·.1.admits name) < (x :: taken).length := by
      rw [List.perm_middle.countP_eq, List.countP_cons_of_neg (by exact hy),
        List.countP_eq_length_filter]
      exact Nat.lt_succ_self _
    exact Served.not_replicate_append hcount
      (h _ (hassign.perm ((List.filter_append_perm _ _).cons x)))
  · intro hy
    by_contra hx
    obtain ⟨names, hnames, hlength⟩ := Assignable.exists_of_admits hneeded
    have hle := (h names (hnames.cons_spare (by simpa using hx))).assignable.count_le
    rw [hlength, List.perm_middle.countP_eq, List.countP_cons_of_pos (by exact hy)] at hle
    omega

/-- **Members that are not graded miss an assignment**: where all assignments are found, and each
member that there has to be a child for admits one, they are graded. -/
theorem graded_of_served (hneeded : ∀ m ∈ places, m.2 = true → ∃ name, m.1.admits name = true)
    (h : ∀ names, names ≠ [] → Assignable places names → Served places names) :
    Graded places := by
  refine List.pairwise_iff_forall_sublist.2 fun {x y} hxy name hx hy => ?_
  obtain ⟨front, back, rfl, hfront, hback⟩ := List.cons_sublist_iff.1 hxy
  obtain ⟨before, between, rfl⟩ := List.append_of_mem hfront
  obtain ⟨between', after, rfl⟩ := List.append_of_mem (List.singleton_sublist.1 hback)
  have hplaces : before ++ x :: between ++ (between' ++ y :: after) =
      (before ++ x :: (between ++ between')) ++ y :: after := by simp
  rw [hplaces] at h hneeded
  refine admits_of_exchange (fun m hm => hneeded m ?_) fun names => served_of_exchange h hx hy
  rcases List.mem_append.1 hm with hm | hm
  · have hmem := (List.mem_filter.1 hm).1
    simp only [List.mem_append, List.mem_cons] at hmem ⊢
    tauto
  · simp [hm]

end Places

/-! ## Groups -/

namespace Member

/-- The member that a child is given to is free no more. -/
theorem places_take {name : ExpandedName} : ∀ {ms ms' : List Member} {l : Leaf},
    take name ms = some (l, ms') → places ms' = (places ms).eraseP (·.1.admits name)
  | m :: ms, ms', l, h => by
    rw [take] at h
    cases hused : m.isUsed with
    | true =>
      simp only [hused, Bool.not_true, Bool.false_and, Bool.false_eq_true, if_false] at h
      obtain ⟨⟨l', rest⟩, htake, heq⟩ := Option.map_eq_some_iff.1 h
      cases heq
      rw [places_cons_used hused, places_cons_used hused, places_take htake]
    | false =>
      rw [places_cons_free hused]
      cases hadmits : m.leaf.admits name with
      | true =>
        simp only [hused, hadmits, Bool.not_false, Bool.true_and, if_true] at h
        cases h
        rw [places_cons_used rfl, List.eraseP_cons_of_pos (by exact hadmits)]
      | false =>
        simp only [hused, hadmits, Bool.not_false, Bool.true_and, Bool.false_eq_true, if_false] at h
        obtain ⟨⟨l', rest⟩, htake, heq⟩ := Option.map_eq_some_iff.1 h
        cases heq
        rw [places_cons_free hused, places_take htake,
          List.eraseP_cons_of_neg (by simp [hadmits])]

/-- **Children are given to members one after the other**, each to the first free one that admits
it. -/
theorem assign_eq_ok_iff : ∀ (names : List ExpandedName) (position : ℕ) (ms : List Member),
    (∃ found, assign position ms names = .ok found) ↔ Served (places ms) names
  | [], position, ms => by
    rw [assign, Served, ← all_not_required_iff]
    split
    case isTrue h => exact iff_of_true ⟨_, rfl⟩ h
    case isFalse h =>
      refine iff_of_false ?_ h
      rintro ⟨_, hfound⟩
      cases hfound
  | name :: names, position, ms => by
    obtain ⟨hsome, hnone⟩ := take_spec name ms
    rw [assign, Served]
    cases htake : take name ms with
    | none =>
      refine iff_of_false ?_ ?_
      · rintro ⟨_, hfound⟩
        cases hfound
      · rintro ⟨⟨m, hm, hadmits⟩, -⟩
        rw [hnone htake m hm] at hadmits
        cases hadmits
    | some found =>
      obtain ⟨l, ms'⟩ := found
      obtain ⟨hadmits, r, hperm⟩ := hsome l ms' htake
      have hfirst : ∃ m ∈ places ms, m.1.admits name = true :=
        ⟨(l, r), hperm.mem_iff.2 List.mem_cons_self, hadmits⟩
      rw [and_iff_right hfirst, ← places_take htake, ← assign_eq_ok_iff names (position + 1) ms']
      dsimp only
      cases assign (position + 1) ms' names with
      | ok rest => exact iff_of_true ⟨_, rfl⟩ ⟨_, rfl⟩
      | error e =>
        refine iff_of_false ?_ ?_
        all_goals
          rintro ⟨_, hfound⟩
          cases hfound

end Member

theorem runAll_eq_ok_iff {least : ℕ} {ms : List Member} {names : List ExpandedName} :
    (∃ found, runAll least ms names = .ok found) ↔
      names = [] ∧ least = 0 ∨ Served (Member.places ms) names := by
  rw [runAll]
  split
  case isTrue h =>
    obtain ⟨hnames, hleast⟩ := Bool.and_eq_true_iff.1 h
    exact iff_of_true ⟨_, rfl⟩ (.inl ⟨List.isEmpty_iff.1 hnames, eq_of_beq hleast⟩)
  case isFalse h =>
    rw [Member.assign_eq_ok_iff]
    refine (or_iff_right ?_).symm
    rintro ⟨rfl, rfl⟩
    exact h rfl

section Group

variable (elements : Table ElementDecl) (o : Occurs) (items : List Particle)

/-- **What an `xs:all` group admits**: no children if it need not occur, and children that can be
assigned to its members. -/
def AllAdmits (names : List ExpandedName) : Prop :=
  names = [] ∧ o.least = 0 ∨ Assignable (allMembers elements items) names

/-- **No assignment to the members is missed**: they are graded, or there has to be a child for one
that admits none. -/
def Unerring : Prop :=
  Graded (allMembers elements items) ∨
    ∃ m ∈ allMembers elements items, m.2 = true ∧ ∀ name, m.1.admits name = false

variable {elements o items}

theorem AllAdmits.perm {names names' : List ExpandedName} (h : AllAdmits elements o items names)
    (hperm : names.Perm names') : AllAdmits elements o items names' := by
  refine h.imp (fun ⟨hnames, hleast⟩ => ⟨?_, hleast⟩) fun h => h.perm_names hperm
  rw [hnames] at hperm
  exact List.nil_perm.1 hperm

theorem served_of_unerring (h : Unerring elements items) {names : List ExpandedName}
    (hnames : Assignable (allMembers elements items) names) :
    Served (allMembers elements items) names := by
  rcases h with hgraded | ⟨m, hm, hneeded, hnone⟩
  · exact .of_assignable hgraded hnames
  · obtain ⟨name, hname⟩ := hnames.exists_admits hm hneeded
    rw [hnone name] at hname
    cases hname

theorem unerring_of_served
    (h : ∀ names, names ≠ [] → Assignable (allMembers elements items) names →
      Served (allMembers elements items) names) : Unerring elements items := by
  by_cases hneeded : ∀ m ∈ allMembers elements items, m.2 = true → ∃ name, m.1.admits name = true
  · exact .inl (graded_of_served hneeded h)
  · push Not at hneeded
    obtain ⟨m, hm, hm2, hnone⟩ := hneeded
    exact .inr ⟨m, hm, hm2, fun name => Bool.eq_false_iff.2 (hnone name)⟩

/-- **When a run on an `xs:all` group is right.** Children for which it succeeds can always be
assigned to members of the group. It succeeds for all children that can be assigned exactly if the
members are graded, a group apart that admits no children at all; then their order does not
matter. -/
theorem runAll_finds_iff {mss : List (List Member)}
    (hmembers : items.mapM (membersOf elements) = .ok mss) :
    (∀ names, (∃ found, runAll o.least mss.flatten names = .ok found) →
        AllAdmits elements o items names) ∧
      (Unerring elements items ↔ ∀ names, AllAdmits elements o items names →
        ∃ found, runAll o.least mss.flatten names = .ok found) ∧
      (Unerring elements items → ∀ names names', names.Perm names' →
        ((∃ found, runAll o.least mss.flatten names = .ok found) ↔
          ∃ found, runAll o.least mss.flatten names' = .ok found)) := by
  simp only [runAll_eq_ok_iff, places_of_mapM hmembers]
  have hsound : ∀ names, names = [] ∧ o.least = 0 ∨ Served (allMembers elements items) names →
      AllAdmits elements o items names := fun _ => Or.imp_right Served.assignable
  have hcomplete : Unerring elements items → ∀ names, AllAdmits elements o items names →
      names = [] ∧ o.least = 0 ∨ Served (allMembers elements items) names :=
    fun hunerring _ => Or.imp_right (served_of_unerring hunerring)
  refine ⟨hsound, ⟨hcomplete, fun h => unerring_of_served fun names hne hnames => ?_⟩, ?_⟩
  · exact (h names (.inr hnames)).resolve_left fun hnil => hne hnil.1
  · refine fun hunerring names names' hperm => ⟨fun h => ?_, fun h => ?_⟩
    · exact hcomplete hunerring _ ((hsound _ h).perm hperm)
    · exact hcomplete hunerring _ ((hsound _ h).perm hperm.symm)

end Group

/-- An element `a`. -/
def elementA : Particle := .element .once ⟨⟨none, "a"⟩, .any, false, false, none⟩

/-- One child of any name, or none. -/
def anyChild (least : ℕ) : Particle := .any ⟨least, some 1⟩ ⟨.any, .skip⟩

theorem runAll_elementA_anyChild : ∃ mss,
    [elementA, anyChild 0].mapM (membersOf []) = .ok mss ∧
      ((∃ found, runAll 1 mss.flatten [⟨none, "b"⟩, ⟨none, "a"⟩] = .ok found) ↔
        ∃ found, runAll 1 mss.flatten [⟨none, "a"⟩, ⟨none, "b"⟩] = .ok found) := by
  have hgraded : Graded (allMembers [] [elementA, anyChild 0]) :=
    List.pairwise_pair.2 fun _ _ _ => ⟨fun _ _ => rfl, fun _ => rfl⟩
  exact ⟨_, rfl, (runAll_finds_iff (o := .once) rfl).2.2 (.inl hgraded) _ _ (.swap ..)⟩

/-- **A child may be given to the wrong member.** Where a child of any name and an element `a` have
to be, the run gives the child `a` to the first of them, and has no member left for the child `b`
behind it. In the other order it finds the assignment. -/
theorem runAll_anyChild_elementA : ∃ mss,
    [anyChild 1, elementA].mapM (membersOf []) = .ok mss ∧
      AllAdmits [] .once [anyChild 1, elementA] [⟨none, "a"⟩, ⟨none, "b"⟩] ∧
      (¬ ∃ found, runAll 1 mss.flatten [⟨none, "a"⟩, ⟨none, "b"⟩] = .ok found) ∧
      ∃ found, runAll 1 mss.flatten [⟨none, "b"⟩, ⟨none, "a"⟩] = .ok found := by
  have hassign : Assignable (allMembers [] [anyChild 1, elementA]) [⟨none, "a"⟩, ⟨none, "b"⟩] :=
    ⟨(allMembers [] [anyChild 1, elementA]).reverse, [], List.Perm.swap ..,
      .cons (by decide) (.cons rfl .nil), nofun⟩
  refine ⟨_, rfl, .inr hassign, ?_, ⟨_, rfl⟩⟩
  rintro ⟨found, h⟩
  cases h

end XmlConformance.Schema
