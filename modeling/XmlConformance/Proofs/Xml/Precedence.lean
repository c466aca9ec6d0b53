import XmlConformance.Proofs.Xml.Walking

/-!
# Proofs/Xml/Precedence — nodes before and behind each other

Of two nodes of a tree, one is the other, or lies below it, or the ways to them part somewhere, and
the one that takes the earlier child there precedes the other (`Position.Precedes`). Preceding is
document order without what lies below a node (`Position.precedes_iff`). What a node precedes is
found by going up from it and taking, at every ancestor, the siblings behind with all that lies
below them, and what precedes it by taking the siblings in front (`Node.mem_following`,
`Node.mem_preceding`); both are found in the order of their distance.
-/

namespace XmlConformance.Xml

namespace Position

variable {p q r : Position} {i j : ℕ}

/-! ## Two positions -/

/-- What lies below a node comes behind it. -/
theorem lt_append (p : Position) {r : Position} (h : r ≠ []) : p < p ++ r := by
  have hlt : p ++ [] < p ++ r.head h :: r.tail := List.append_left_lt (List.nil_lt_cons _ _)
  rwa [List.append_nil, List.cons_head_tail] at hlt

theorem lt_of_prefix_of_ne (h : p <+: q) (hne : p ≠ q) : p < q := by
  obtain ⟨r, rfl⟩ := h
  exact lt_append p fun hr => hne (by rw [hr, List.append_nil])

/-- **A position precedes another** if the ways to them part at some node, and it takes the earlier
child there. -/
def Precedes (p q : Position) : Prop :=
  ∃ r i j, i < j ∧ child r i <+: p ∧ child r j <+: q

theorem Precedes.lt (h : Precedes p q) : p < q := by
  obtain ⟨r, i, j, hij, ⟨s, rfl⟩, ⟨t, rfl⟩⟩ := h
  rw [child, child, List.append_assoc, List.append_assoc]
  exact List.append_left_lt (List.cons_lt_cons_iff.2 (.inl hij))

/-- Children of one node that lead to the same node are the same. -/
theorem child_prefix_unique (hi : child r i <+: p) (hj : child r j <+: p) : i = j := by
  obtain h | h := List.prefix_or_prefix_of_prefix hi hj
  · simpa [child] using h.eq_of_length (by simp [child])
  · simpa [child, eq_comm] using h.eq_of_length (by simp [child])

theorem Precedes.not_prefix (h : Precedes p q) : ¬p <+: q := by
  obtain ⟨r, i, j, hij, hi, hj⟩ := h
  exact fun hpq => hij.ne (child_prefix_unique (hi.trans hpq) hj)

/-- Preceding passes to what lies below. -/
theorem Precedes.mono {p' q' : Position} (h : Precedes p q) (hp : p <+: p') (hq : q <+: q') :
    Precedes p' q' := by
  obtain ⟨r, i, j, hij, hi, hj⟩ := h
  exact ⟨r, i, j, hij, hi.trans hp, hj.trans hq⟩

theorem Precedes.cons (h : Precedes p q) (i : ℕ) : Precedes (i :: p) (i :: q) := by
  obtain ⟨r, j, k, hjk, hj, hk⟩ := h
  exact ⟨i :: r, j, k, hjk, List.cons_prefix_cons.2 ⟨rfl, hj⟩, List.cons_prefix_cons.2 ⟨rfl, hk⟩⟩

theorem prefix_or_precedes_of_lt : ∀ {p q : Position}, p < q → p <+: q ∨ Precedes p q
  | [], _, _ => .inl List.nil_prefix
  | i :: p, [], h => absurd h (by simp)
  | i :: p, j :: q, h => by
    obtain hij | ⟨rfl, hpq⟩ := List.cons_lt_cons_iff.1 h
    · exact .inr ⟨[], i, j, hij, by simp [child], by simp [child]⟩
    · exact (prefix_or_precedes_of_lt hpq).imp (fun h => List.cons_prefix_cons.2 ⟨rfl, h⟩)
        fun h => h.cons i

/-- **A node precedes what comes behind it in document order and does not lie below it.** -/
theorem precedes_iff : Precedes p q ↔ p < q ∧ ¬p <+: q :=
  ⟨fun h => ⟨h.lt, h.not_prefix⟩, fun h => (prefix_or_precedes_of_lt h.1).resolve_left h.2⟩

/-! ## Ways to a position -/

/-- A position is the root or a child. -/
theorem eq_nil_or_child (p : Position) : p = [] ∨ ∃ r i, p = child r i :=
  List.eq_nil_or_concat' p

theorem child_inj : child p i = child q j ↔ p = q ∧ i = j := by
  simp [child]

@[simp] theorem dropLast_child : (child p i).dropLast = p :=
  List.dropLast_concat

/-- What lies on the way to a node lies on the way to its parent. -/
theorem prefix_dropLast (h : q <+: p) (hne : q ≠ p) : q <+: p.dropLast := by
  obtain rfl | ⟨r, i, rfl⟩ := eq_nil_or_child p
  · exact h
  · rw [dropLast_child]
    exact (List.prefix_concat_iff.1 h).resolve_left hne

theorem mem_ancestors : q ∈ p.ancestors ↔ q <+: p ∧ q ≠ p := by
  simp only [ancestors, List.mem_map, List.mem_reverse, List.mem_range]
  constructor
  · rintro ⟨k, hk, rfl⟩
    refine ⟨List.take_prefix k p, fun h => ?_⟩
    have hlength := congrArg List.length h
    rw [List.length_take] at hlength
    omega
  · rintro ⟨⟨r, rfl⟩, hne⟩
    have hr : r ≠ [] := fun hr => hne (by rw [hr, List.append_nil])
    exact ⟨q.length, by simpa [List.length_pos_iff] using hr, List.take_left⟩

/-- A node and its ancestors are what lies on the way to it. -/
theorem mem_self_ancestors : q ∈ p :: p.ancestors ↔ q <+: p := by
  rw [List.mem_cons, mem_ancestors]
  by_cases h : q = p
  · simp [h]
  · simp [h]

/-- Going up, each node comes before the one it is reached from. -/
theorem pairwise_ancestors (p : Position) :
    (p :: p.ancestors).Pairwise fun q r => r <+: q ∧ r ≠ q := by
  refine List.pairwise_cons.2 ⟨fun q hq => mem_ancestors.1 hq, ?_⟩
  rw [ancestors, List.pairwise_map, List.pairwise_reverse]
  refine List.pairwise_lt_range.imp_of_mem fun {k l} _ hl hkl => ?_
  rw [List.mem_range] at hl
  refine ⟨List.take_prefix_take_left (by omega), fun h => ?_⟩
  have hlength := congrArg List.length h
  rw [List.length_take, List.length_take] at hlength
  omega

end Position

namespace Node

open Position

variable {root : Node} {p q r : Position} {i : ℕ}

/-! ## Subtrees and siblings -/

theorem mem_positionsAt : q ∈ root.positionsAt p ↔ p <+: q ∧ (root.at? q).isSome = true := by
  unfold positionsAt
  cases hp : root.at? p with
  | none =>
    refine iff_of_false List.not_mem_nil ?_
    rintro ⟨⟨r, rfl⟩, hq⟩
    rw [at?_append, hp] at hq
    cases hq
  | some n =>
    rw [List.mem_map]
    constructor
    · rintro ⟨r, hr, rfl⟩
      exact ⟨List.prefix_append p r, by rw [at?_append, hp]; exact (mem_positions n r).1 hr⟩
    · rintro ⟨⟨r, rfl⟩, hq⟩
      rw [at?_append, hp] at hq
      exact ⟨r, (mem_positions n r).2 hq, rfl⟩

theorem pairwise_positionsAt (root : Node) (p : Position) :
    (root.positionsAt p).Pairwise (· < ·) := by
  unfold positionsAt
  split
  · case h_1 n _ =>
    rw [List.pairwise_map]
    exact (pairwise_positions n).imp fun h => List.append_left_lt h
  · exact .nil

/-- A subtree begins with its own root. -/
theorem positions_eq_cons (n : Node) : ∃ below, n.positions = [] :: below := by
  cases n <;> exact ⟨_, rfl⟩

/-- **The nodes below a node** are those in its subtree but for itself. -/
theorem mem_drop_positionsAt : q ∈ (root.positionsAt p).drop 1 ↔
    p <+: q ∧ q ≠ p ∧ (root.at? q).isSome = true := by
  rw [and_left_comm, ← mem_positionsAt]
  have hsorted := pairwise_positionsAt root p
  unfold positionsAt at hsorted ⊢
  cases hp : root.at? p with
  | none => simp
  | some n =>
    obtain ⟨below, hbelow⟩ := positions_eq_cons n
    rw [hp] at hsorted
    dsimp only at hsorted ⊢
    rw [hbelow, List.map_cons, List.append_nil] at hsorted ⊢
    rw [List.drop_one, List.tail_cons, List.mem_cons]
    refine ⟨fun hq => ⟨((List.pairwise_cons.1 hsorted).1 q hq).ne', .inr hq⟩, fun h => ?_⟩
    exact h.2.resolve_left h.1

/-- The way to a node leads through nodes. -/
theorem isSome_at?_of_prefix (h : p <+: q) (hq : (root.at? q).isSome = true) :
    (root.at? p).isSome = true := by
  obtain ⟨r, rfl⟩ := h
  rw [at?_append] at hq
  exact Option.isSome_of_isSome_bind hq

theorem lt_childCount : i < root.childCount p ↔ (root.at? (child p i)).isSome = true := by
  rw [childCount, child, at?_append]
  cases root.at? p with
  | none => simp
  | some n =>
    rw [Option.bind_some, at?]
    by_cases h : i < n.children.length
    · simp [h, at?]
    · simp [h]

theorem followingSiblings_child : root.followingSiblings (child p i) =
    ((List.range (root.childCount p)).drop (i + 1)).map (child p) := by
  simp [followingSiblings, child]

theorem precedingSiblings_child :
    precedingSiblings (child p i) = (List.range i).reverse.map (child p) := by
  simp [precedingSiblings, child]

theorem mem_followingSiblings : q ∈ root.followingSiblings p ↔
    ∃ r i j, i < j ∧ p = child r i ∧ q = child r j ∧ (root.at? q).isSome = true := by
  obtain rfl | ⟨r, i, rfl⟩ := eq_nil_or_child p
  · simp [followingSiblings, child]
  · rw [followingSiblings_child, List.mem_map]
    constructor
    · rintro ⟨j, hj, rfl⟩
      rw [List.range_eq_range', List.drop_range', List.mem_range'_1] at hj
      exact ⟨r, i, j, by omega, rfl, rfl, lt_childCount.1 (by omega)⟩
    · rintro ⟨r', i', j, hij, heq, rfl, hj⟩
      obtain ⟨rfl, rfl⟩ := child_inj.1 heq
      rw [← lt_childCount] at hj
      refine ⟨j, ?_, rfl⟩
      rw [List.range_eq_range', List.drop_range', List.mem_range'_1]
      omega

theorem mem_precedingSiblings : q ∈ precedingSiblings p ↔
    ∃ r i j, i < j ∧ q = child r i ∧ p = child r j := by
  obtain rfl | ⟨r, j, rfl⟩ := eq_nil_or_child p
  · simp [precedingSiblings, child]
  · rw [precedingSiblings_child, List.mem_map]
    constructor
    · rintro ⟨i, hi, rfl⟩
      exact ⟨r, i, j, by simpa using hi, rfl, rfl⟩
    · rintro ⟨r', i, j', hij, rfl, heq⟩
      obtain ⟨rfl, rfl⟩ := child_inj.1 heq
      exact ⟨i, by simpa using hij, rfl⟩

/-! ## Nodes behind a node and in front of it -/

/-- **The nodes behind a node** are those that it precedes. -/
theorem mem_following :
    q ∈ root.following p ↔ Precedes p q ∧ (root.at? q).isSome = true := by
  simp only [following, List.mem_flatMap, mem_self_ancestors, mem_positionsAt,
    mem_followingSiblings]
  constructor
  · rintro ⟨_, ha, _, ⟨r, i, j, hij, rfl, rfl, -⟩, hj, hq⟩
    exact ⟨⟨r, i, j, hij, ha, hj⟩, hq⟩
  · rintro ⟨⟨r, i, j, hij, hi, hj⟩, hq⟩
    exact ⟨child r i, hi, child r j, ⟨r, i, j, hij, rfl, rfl, isSome_at?_of_prefix hj hq⟩, hj, hq⟩

/-- **The nodes in front of a node** are those that precede it. -/
theorem mem_preceding :
    q ∈ root.preceding p ↔ Precedes q p ∧ (root.at? q).isSome = true := by
  simp only [preceding, List.mem_flatMap, List.mem_reverse, mem_self_ancestors, mem_positionsAt,
    mem_precedingSiblings]
  constructor
  · rintro ⟨_, ha, _, ⟨r, i, j, hij, rfl, rfl⟩, hi, hq⟩
    exact ⟨⟨r, i, j, hij, hi, ha⟩, hq⟩
  · rintro ⟨⟨r, i, j, hij, hi, hj⟩, hq⟩
    exact ⟨child r j, hj, child r i, ⟨r, i, j, hij, rfl, rfl⟩, hi, hq⟩

theorem pairwise_followingSiblings (root : Node) (p : Position) :
    (root.followingSiblings p).Pairwise Precedes := by
  obtain rfl | ⟨r, i, rfl⟩ := eq_nil_or_child p
  · exact .nil
  · rw [followingSiblings_child, List.pairwise_map]
    exact (List.pairwise_lt_range.sublist (List.drop_sublist _ _)).imp fun h =>
      ⟨r, _, _, h, List.prefix_rfl, List.prefix_rfl⟩

theorem pairwise_precedingSiblings (p : Position) :
    (precedingSiblings p).Pairwise fun q r => Precedes r q := by
  obtain rfl | ⟨r, i, rfl⟩ := eq_nil_or_child p
  · exact .nil
  · rw [precedingSiblings_child, List.pairwise_map, List.pairwise_reverse]
    exact List.pairwise_lt_range.imp fun h => ⟨r, _, _, h, List.prefix_rfl, List.prefix_rfl⟩

section GoingUp

variable {R : Position → Position → Prop} {siblings found : Position → List Position}

/-- **What is found below the siblings of a node and of its ancestors** is in the order `R` if it is
below each of the siblings, if whatever lies below two siblings is, and if what lies below a sibling
of an ancestor comes after all that lies below the ancestor. -/
theorem pairwise_goingUp (hbelow : ∀ s, ∀ q ∈ found s, s <+: q)
    (hparent : ∀ a, ∀ s ∈ siblings a, a.dropLast <+: s)
    (hfound : ∀ s, (found s).Pairwise R)
    (hsiblings : ∀ a, (siblings a).Pairwise fun s t => ∀ q r, s <+: q → t <+: r → R q r)
    (hancestor : ∀ a, ∀ s ∈ siblings a, ∀ q r, a <+: q → s <+: r → R q r) (p : Position) :
    ((p :: p.ancestors).flatMap fun a => (siblings a).flatMap found).Pairwise R := by
  rw [List.pairwise_flatMap]
  constructor
  · intro a _
    rw [List.pairwise_flatMap]
    exact ⟨fun s _ => hfound s, (hsiblings a).imp fun h q hq r hr => h q r (hbelow _ q hq)
      (hbelow _ r hr)⟩
  · refine (pairwise_ancestors p).imp fun {a b} hba q hq r hr => ?_
    obtain ⟨s, hs, hq⟩ := List.mem_flatMap.1 hq
    obtain ⟨t, ht, hr⟩ := List.mem_flatMap.1 hr
    -- `b` is further up, so it lies on the way to the siblings of `a`
    have hbs : b <+: s := (prefix_dropLast hba.1 hba.2).trans (hparent a s hs)
    exact hancestor b t ht q r (hbs.trans (hbelow s q hq)) (hbelow t r hr)

end GoingUp

/-- **The nodes behind a node** are listed in document order. -/
theorem pairwise_following (root : Node) (p : Position) :
    (root.following p).Pairwise (· < ·) := by
  refine pairwise_goingUp (fun s q hq => (mem_positionsAt.1 hq).1) (fun a s hs => ?_)
    (pairwise_positionsAt root) (fun a => ?_) (fun a s hs q r hq hr => ?_) p
  · obtain ⟨r, i, j, -, rfl, rfl, -⟩ := mem_followingSiblings.1 hs
    rw [dropLast_child]
    exact List.prefix_append r [j]
  · exact (pairwise_followingSiblings root a).imp fun h q r hq hr => (h.mono hq hr).lt
  · obtain ⟨o, i, j, hij, rfl, rfl, -⟩ := mem_followingSiblings.1 hs
    exact Precedes.lt ⟨o, i, j, hij, hq, hr⟩

/-- **The nodes in front of a node** are listed against document order. -/
theorem pairwise_preceding (root : Node) (p : Position) :
    (root.preceding p).Pairwise (· > ·) := by
  refine pairwise_goingUp (fun s q hq => (mem_positionsAt.1 (List.mem_reverse.1 hq)).1)
    (fun a s hs => ?_) (fun s => List.pairwise_reverse.2 (pairwise_positionsAt root s))
    (fun a => ?_) (fun a s hs q r hq hr => ?_) p
  · obtain ⟨r, i, j, -, rfl, rfl⟩ := mem_precedingSiblings.1 hs
    rw [dropLast_child]
    exact List.prefix_append r [i]
  · exact (pairwise_precedingSiblings a).imp fun h q r hq hr => (h.mono hr hq).lt
  · obtain ⟨o, i, j, hij, rfl, rfl⟩ := mem_precedingSiblings.1 hs
    exact Precedes.lt ⟨o, i, j, hij, hr, hq⟩

end Node

end XmlConformance.Xml
