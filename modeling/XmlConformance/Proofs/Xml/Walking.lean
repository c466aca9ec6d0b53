import Mathlib.Data.List.Forall2
import XmlConformance.Proofs.Path.DocumentOrder
import XmlConformance.Proofs.Xml.Subtrees

/-!
# Proofs/Xml/Walking — what a walk through a tree finds

A walk comes to the nodes of a tree in document order, goes into some of them and finds others. It
finds what it looks for at every position that it gets to: one that it has a way to, through nodes
that it goes into (`mem_found`). It finds nothing twice, and all in document order
(`pairwise_found`).
-/

namespace XmlConformance.Xml.Node

/-- The tags of the elements around a position, outermost first. -/
def around : Node → Position → List Tag
  | _, [] => []
  | n, i :: p => n.tag?.toList ++
    match n.children[i]? with
    | some c => c.around p
    | none => []

/-! ## Walks -/

section Walks

variable (enters finds : Node → Bool)

mutual

/-- **The positions of what is found** at a node and below it. -/
def found : Node → List Position
  | .root cs => (if finds (.root cs) then [[]] else []) ++
    if enters (.root cs) then foundFrom 0 cs else []
  | .element t cs => (if finds (.element t cs) then [[]] else []) ++
    if enters (.element t cs) then foundFrom 0 cs else []
  | n => if finds n then [[]] else []

/-- The positions of what is found below a parent, from its child `i` on. -/
def foundFrom (i : ℕ) : List Node → List Position
  | [] => []
  | c :: cs => (found c).map (i :: ·) ++ foundFrom (i + 1) cs

end

variable {enters finds} {n : Node} {cs : List Node} {i : ℕ} {p : Position}

theorem found_eq (n : Node) : n.found enters finds =
    (if finds n then [[]] else []) ++
      if enters n then foundFrom enters finds 0 n.children else [] := by
  cases n with
  | root | element => rw [found, children]
  | text | comment | instruction => simp [found, children, foundFrom]

theorem mem_foundFrom : p ∈ foundFrom enters finds i cs ↔
    ∃ j c q, cs[j]? = some c ∧ q ∈ c.found enters finds ∧ p = (i + j) :: q := by
  induction cs generalizing i with
  | nil => simp [foundFrom]
  | cons c cs ih =>
    rw [foundFrom, List.mem_append, List.mem_map, ih]
    constructor
    · rintro (⟨q, hq, rfl⟩ | ⟨j, d, q, hd, hq, rfl⟩)
      · exact ⟨0, c, q, rfl, hq, rfl⟩
      · exact ⟨j + 1, d, q, hd, hq, by rw [Nat.add_assoc, Nat.add_comm 1]⟩
    · rintro ⟨j, d, q, hd, hq, rfl⟩
      cases j with
      | zero =>
        obtain rfl : c = d := Option.some.inj hd
        exact .inl ⟨q, hq, rfl⟩
      | succ j => exact .inr ⟨j, d, q, hd, hq, by rw [Nat.add_assoc, Nat.add_comm 1]⟩

/-- A walk gets to the node itself, or through it to one of its children. -/
theorem cons_mem_found : i :: p ∈ n.found enters finds ↔
    enters n = true ∧ ∃ c, n.children[i]? = some c ∧ p ∈ c.found enters finds := by
  have hself : i :: p ∉ if finds n then ([[]] : List Position) else [] := by split <;> simp
  rw [found_eq, List.mem_append, or_iff_right hself]
  split
  · case isTrue henters =>
    rw [mem_foundFrom]
    constructor
    · rintro ⟨j, c, q, hc, hq, heq⟩
      obtain ⟨rfl, rfl⟩ := List.cons.inj heq
      rw [Nat.zero_add]
      exact ⟨henters, c, hc, hq⟩
    · rintro ⟨-, c, hc, hp⟩
      exact ⟨i, c, p, hc, hp, by rw [Nat.zero_add]⟩
  · case isFalse henters => simp [henters]

theorem nil_mem_found : [] ∈ n.found enters finds ↔ finds n = true := by
  have hbelow : [] ∉ if enters n then foundFrom enters finds 0 n.children else [] := by
    split
    · simp [mem_foundFrom]
    · exact List.not_mem_nil
  rw [found_eq, List.mem_append, or_iff_left hbelow]
  split <;> simp [*]

/-- **What a walk finds** is what it looks for, wherever it goes into all nodes on the way. -/
theorem mem_found : p ∈ n.found enters finds ↔ (∃ m, n.at? p = some m ∧ finds m = true) ∧
    ∀ q, q <+: p → q ≠ p → ∀ m, n.at? q = some m → enters m = true := by
  induction p generalizing n with
  | nil =>
    rw [nil_mem_found]
    simp +contextual [at?]
  | cons i p ih =>
    rw [cons_mem_found, at?]
    constructor
    · rintro ⟨henters, c, hc, hp⟩
      rw [hc]
      obtain ⟨hfinds, hway⟩ := ih.1 hp
      refine ⟨hfinds, fun q hq hne m hm => ?_⟩
      cases q with
      | nil =>
        obtain rfl := Option.some.inj hm
        exact henters
      | cons j q =>
        obtain ⟨rfl, hbefore⟩ := List.cons_prefix_cons.1 hq
        rw [at?, hc] at hm
        exact hway q hbefore (fun heq => hne (heq ▸ rfl)) m hm
    · rintro ⟨⟨m, hm, hfinds⟩, hway⟩
      cases hc : n.children[i]? with
      | none =>
        rw [hc] at hm
        cases hm
      | some c =>
        rw [hc] at hm
        refine ⟨hway [] List.nil_prefix nofun n rfl, c, rfl, ih.2 ⟨⟨m, hm, hfinds⟩, ?_⟩⟩
        intro q hq hne m hm
        refine hway (i :: q) (List.cons_prefix_cons.2 ⟨rfl, hq⟩) (by simpa using hne) m ?_
        rw [at?, hc]
        exact hm

/-- **What a walk finds below a node**, not at the node itself. -/
theorem mem_foundFrom_children : p ∈ foundFrom enters finds 0 n.children ↔
    p ≠ [] ∧ (∃ m, n.at? p = some m ∧ finds m = true) ∧
      ∀ q, q <+: p → q ≠ [] → q ≠ p → ∀ m, n.at? q = some m → enters m = true := by
  cases p with
  | nil => simp [mem_foundFrom]
  | cons i p =>
    have hmem : i :: p ∈ foundFrom enters finds 0 n.children ↔
        ∃ c, n.children[i]? = some c ∧ p ∈ c.found enters finds := by
      simp [mem_foundFrom]
    rw [hmem, at?]
    cases hc : n.children[i]? with
    | none => simp
    | some c =>
      simp only [Option.some.injEq, exists_eq_left', ne_eq, reduceCtorEq, not_false_eq_true,
        true_and]
      rw [mem_found]
      refine and_congr_right' ⟨fun h q hq hnil hne m hm => ?_, fun h q hq hne m hm => ?_⟩
      · obtain ⟨j, q, rfl⟩ := List.exists_cons_of_ne_nil hnil
        obtain ⟨rfl, hbefore⟩ := List.cons_prefix_cons.1 hq
        rw [at?, hc] at hm
        exact h q hbefore (fun heq => hne (heq ▸ rfl)) m hm
      · refine h (i :: q) (List.cons_prefix_cons.2 ⟨rfl, hq⟩) nofun (by simpa using hne) m ?_
        rw [at?, hc]
        exact hm

mutual

theorem found_sublist : ∀ n : Node, (n.found enters finds).Sublist n.positions
  | .root cs | .element _ cs => by
    rw [found, positions]
    change List.Sublist _ ([[]] ++ positionsFrom 0 cs)
    refine List.Sublist.append ?_ ?_
    · split
      · exact List.Sublist.refl _
      · exact List.nil_sublist _
    · split
      · exact foundFrom_sublist cs 0
      · exact List.nil_sublist _
  | .text _ | .comment _ | .instruction .. => by
    simp only [found, positions]
    split
    · exact List.Sublist.refl _
    · exact List.nil_sublist _

/-- What is found below a parent stands there. -/
theorem foundFrom_sublist : ∀ (cs : List Node) (i : ℕ),
    (foundFrom enters finds i cs).Sublist (positionsFrom i cs)
  | [], _ => List.Sublist.refl _
  | c :: cs, i => ((found_sublist c).map _).append (foundFrom_sublist cs (i + 1))

end

/-- **A walk finds things in document order**, and none twice. -/
theorem pairwise_found (n : Node) : (n.found enters finds).Pairwise (· < ·) :=
  (pairwise_positions n).sublist (found_sublist n)

theorem pairwise_foundFrom (cs : List Node) (i : ℕ) :
    (foundFrom enters finds i cs).Pairwise (· < ·) :=
  (pairwise_positionsFrom cs i).sublist (foundFrom_sublist cs i)

end Walks

/-! ## Nodes on the way -/

theorem at?_cons {n c : Node} {i : ℕ} (h : n.children[i]? = some c) (p : Position) :
    n.at? (i :: p) = c.at? p := by
  rw [at?, h]

/-- A node below a child is the node that the rest of its position leads to from the child. -/
theorem at?_cons_eq_some {n m : Node} {i : ℕ} {p : Position} :
    n.at? (i :: p) = some m ↔ ∃ c, n.children[i]? = some c ∧ c.at? p = some m := by
  rw [at?]
  cases n.children[i]? <;> simp

theorem around_cons {n c : Node} {i : ℕ} (h : n.children[i]? = some c) (p : Position) :
    n.around (i :: p) = n.tag?.toList ++ c.around p := by
  rw [around, h]

theorem at?_append (n : Node) : ∀ p q : Position, n.at? (p ++ q) = (n.at? p).bind (·.at? q)
  | [], _ => rfl
  | i :: p, q => by
    rw [List.cons_append, at?, at?]
    cases n.children[i]? with
    | none => rfl
    | some c => exact at?_append c p q

theorem around_append {n m : Node} {p : Position} (h : n.at? p = some m) (q : Position) :
    n.around (p ++ q) = n.around p ++ m.around q := by
  induction p generalizing n with
  | nil =>
    obtain rfl := Option.some.inj h
    rfl
  | cons i p ih =>
    obtain ⟨c, hc, h⟩ := at?_cons_eq_some.1 h
    rw [List.cons_append, around_cons hc, around_cons hc, ih h, List.append_assoc]

/-- The tags around a position are those of nodes on the way to it. -/
theorem exists_of_mem_around {n : Node} {p : Position} {t : Tag} (h : t ∈ n.around p) :
    ∃ q m, q <+: p ∧ q ≠ p ∧ n.at? q = some m ∧ m.tag? = some t := by
  induction p generalizing n with
  | nil => cases h
  | cons i p ih =>
    rw [around] at h
    obtain h | h := List.mem_append.1 h
    · exact ⟨[], n, List.nil_prefix, nofun, rfl, by simpa using h⟩
    · cases hc : n.children[i]? with
      | none =>
        rw [hc] at h
        cases h
      | some c =>
        rw [hc] at h
        obtain ⟨q, m, hq, hne, hm, ht⟩ := ih h
        exact ⟨i :: q, m, List.cons_prefix_cons.2 ⟨rfl, hq⟩, by simpa using hne,
          at?_cons_eq_some.2 ⟨c, hc, hm⟩, ht⟩

theorem mem_subtree_of_at? {n m : Node} {p : Position} (h : n.at? p = some m) :
    m ∈ n.subtree := by
  induction p generalizing n with
  | nil =>
    obtain rfl := Option.some.inj h
    exact mem_subtree_self _
  | cons i p ih =>
    obtain ⟨c, hc, h⟩ := at?_cons_eq_some.1 h
    exact subtree_subset (children_subset (mem_subtree_self n) (List.mem_of_getElem? hc)) (ih h)

theorem mem_subtrees_children_of_at? {n m : Node} {i : ℕ} {p : Position}
    (h : n.at? (i :: p) = some m) : m ∈ subtrees n.children := by
  obtain ⟨c, hc, h⟩ := at?_cons_eq_some.1 h
  exact mem_subtrees.2 ⟨c, List.mem_of_getElem? hc, mem_subtree_of_at? h⟩

/-! ## What is done on a walk -/

/-- What holds of a child and a position below it, at the position below the parent. -/
def Below {β : Type} (i : ℕ) (cs : List Node) (R : Node → Position → β → Prop) (p : Position)
    (b : β) : Prop :=
  ∃ j c q, cs[j]? = some c ∧ R c q b ∧ p = (i + j) :: q

/-- **What is done at a child and at the ones behind it** is done at all of them. -/
theorem forall₂_below_cons {β : Type} {R : Node → Position → β → Prop} {i : ℕ} {c : Node}
    {cs : List Node} {ps qs : List Position} {bs more : List β} (hc : List.Forall₂ (R c) ps bs)
    (hcs : List.Forall₂ (Below (i + 1) cs R) qs more) :
    List.Forall₂ (Below i (c :: cs) R) (ps.map (i :: ·) ++ qs) (bs ++ more) := by
  refine List.rel_append ?_ (hcs.imp ?_)
  · rw [List.forall₂_map_left_iff]
    exact hc.imp fun q b h => ⟨0, c, q, rfl, h, rfl⟩
  · rintro _ b ⟨j, d, q, hd, h, rfl⟩
    exact ⟨j + 1, d, q, hd, h, by rw [Nat.add_assoc, Nat.add_comm 1]⟩

end XmlConformance.Xml.Node
