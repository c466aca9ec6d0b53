import Mathlib.Data.List.Lex
import Mathlib.Data.List.Sort
import Mathlib.Data.Prod.Lex
import Mathlib.Order.WithBot
import XmlConformance.Path.Item

/-!
# Proofs/Path/DocumentOrder — the order in which a document has its nodes and attributes

The place of a node or attribute is a `key`: the position of the node or of the owner, and behind it
the index of the attribute. Keys are ordered linearly, and `Item.le` is their order
(`Item.le_iff_key_le`). A walk through a document that names every node, then its attributes, then
what is below it (`itemsOf`), comes to all of them in this order and to none twice
(`pairwise_itemsOf`).
-/

namespace XmlConformance.Xml

/-! ## Positions -/

theorem Position.le_iff_not_lt : ∀ {p q : Position}, p.le q = true ↔ ¬q < p
  | [], q => by simp [Position.le]
  | i :: p, [] => by simp [Position.le]
  | i :: p, j :: q => by
    rw [Position.le, Bool.or_eq_true, Bool.and_eq_true, decide_eq_true_iff, beq_iff_eq,
      Position.le_iff_not_lt, List.cons_lt_cons_iff]
    constructor
    · rintro (h | ⟨rfl, h⟩) (h' | ⟨h', hp⟩)
      · omega
      · omega
      · omega
      · exact h hp
    · intro h
      rw [not_or, not_and] at h
      obtain hlt | rfl : i < j ∨ i = j := by omega
      · exact .inl hlt
      · exact .inr ⟨rfl, h.2 rfl⟩

namespace Node

/-- A position leads to the node itself, or through one of its children. -/
theorem mem_cons_iff_at? {n : Node} (p : Position) :
    (p = [] ∨ ∃ j c q, n.children[j]? = some c ∧ (c.at? q).isSome = true ∧ p = (0 + j) :: q) ↔
      (n.at? p).isSome = true := by
  cases p with
  | nil => simp [at?]
  | cons i p =>
    rw [at?]
    cases hc : n.children[i]? with
    | none =>
      refine iff_of_false ?_ nofun
      rintro (h | ⟨j, c, q, hj, -, hp⟩)
      · cases h
      · injection hp with hi hp
        rw [hi, Nat.zero_add, hj] at hc
        cases hc
    | some c =>
      constructor
      · rintro (h | ⟨j, d, q, hj, hd, hp⟩)
        · cases h
        · injection hp with hi hp
          rw [hi, Nat.zero_add, hj] at hc
          rw [hp, ← Option.some.inj hc]
          exact hd
      · exact fun h => .inr ⟨i, c, p, hc, h, by rw [Nat.zero_add]⟩

mutual

theorem mem_positions : ∀ (n : Node) (p : Position), p ∈ n.positions ↔ (n.at? p).isSome = true
  | .root cs, p => by
    rw [positions, List.mem_cons, mem_positionsFrom cs]
    exact mem_cons_iff_at? (n := .root cs) p
  | .element t cs, p => by
    rw [positions, List.mem_cons, mem_positionsFrom cs]
    exact mem_cons_iff_at? (n := .element t cs) p
  | .text _, p | .comment _, p | .instruction .., p => by
    cases p <;> simp [positions, at?, children]

theorem mem_positionsFrom : ∀ (cs : List Node) (i : ℕ) (p : Position),
    p ∈ positionsFrom i cs ↔ ∃ j c q, cs[j]? = some c ∧ (c.at? q).isSome = true ∧ p = (i + j) :: q
  | [], i, p => by simp [positionsFrom]
  | c :: cs, i, p => by
    rw [positionsFrom, List.mem_append, List.mem_map, mem_positionsFrom cs]
    constructor
    · rintro (⟨q, hq, rfl⟩ | ⟨j, d, q, hd, hq, rfl⟩)
      · exact ⟨0, c, q, rfl, (mem_positions c q).1 hq, rfl⟩
      · exact ⟨j + 1, d, q, hd, hq, by rw [Nat.add_assoc, Nat.add_comm 1]⟩
    · rintro ⟨j, d, q, hd, hq, rfl⟩
      cases j with
      | zero =>
        obtain rfl : c = d := Option.some.inj hd
        exact .inl ⟨q, (mem_positions c q).2 hq, rfl⟩
      | succ j => exact .inr ⟨j, d, q, hd, hq, by rw [Nat.add_assoc, Nat.add_comm 1]⟩

end

mutual

/-- **Positions are listed in document order.** -/
theorem pairwise_positions : ∀ n : Node, n.positions.Pairwise (· < ·)
  | .root cs | .element _ cs => by
    rw [positions, List.pairwise_cons]
    refine ⟨fun p hp => ?_, pairwise_positionsFrom cs 0⟩
    obtain ⟨j, c, q, -, -, rfl⟩ := (mem_positionsFrom cs 0 p).1 hp
    exact List.nil_lt_cons _ _
  | .text _ | .comment _ | .instruction .. => List.pairwise_singleton _ _

theorem pairwise_positionsFrom : ∀ (cs : List Node) (i : ℕ),
    (positionsFrom i cs).Pairwise (· < ·)
  | [], _ => .nil
  | c :: cs, i => by
    rw [positionsFrom, List.pairwise_append, List.pairwise_map]
    refine ⟨(pairwise_positions c).imp fun h => List.cons_lt_cons_self.2 h,
      pairwise_positionsFrom cs (i + 1), fun p hp q hq => ?_⟩
    obtain ⟨p, -, rfl⟩ := List.mem_map.1 hp
    obtain ⟨j, d, q, -, -, rfl⟩ := (mem_positionsFrom cs (i + 1) q).1 hq
    exact List.cons_lt_cons_iff.2 (.inl (by omega))

end

end Node

end XmlConformance.Xml

namespace XmlConformance.Path

open Xml

/-! ## Places -/

namespace Item

/-- **The place of an item in a document**; what is no node or attribute comes first. -/
def key (item : Item) : WithBot (Position ×ₗ WithBot ℕ) :=
  item.place?.elim ⊥ fun p => ((toLex (p.1, p.2) : Position ×ₗ WithBot ℕ) : WithBot _)

theorem le_iff_key_le (a b : Item) : a.le b = true ↔ a.key ≤ b.key := by
  unfold le key
  cases a.place? with
  | none => simp
  | some p =>
    cases b.place? with
    | none => simp
    | some q =>
      obtain ⟨p, i⟩ := p
      obtain ⟨q, j⟩ := q
      simp only [Option.elim_some, WithBot.coe_le_coe, Prod.Lex.toLex_le_toLex]
      split
      · case isTrue h =>
        obtain rfl := eq_of_beq h
        simp only [lt_irrefl, true_and, false_or]
        match i, j with
        | none, _ => exact iff_of_true rfl bot_le
        | some i, none => exact iff_of_false nofun (WithBot.bot_lt_coe i).not_ge
        | some i, some j => exact decide_eq_true_iff.trans WithBot.coe_le_coe.symm
      · case isFalse h =>
        have hne : p ≠ q := fun hpq => h (beq_iff_eq.2 hpq)
        rw [Position.le_iff_not_lt, not_lt, le_iff_lt_or_eq]
        simp [hne]

theorem samePlace_iff (a b : Item) : a.samePlace b = true ↔ a.key = b.key := by
  unfold samePlace key
  rw [beq_iff_eq]
  refine ⟨fun h => by rw [h], fun h => ?_⟩
  cases ha : a.place? with
  | none =>
    cases hb : b.place? with
    | none => rfl
    | some q => simp [ha, hb] at h
  | some p =>
    cases hb : b.place? with
    | none => simp [ha, hb] at h
    | some q =>
      simp only [ha, hb, Option.elim_some, WithBot.coe_inj, toLex_inj] at h
      exact congrArg some h

/-- Nodes and attributes are given by their places. -/
theorem eq_of_samePlace {a b : Item} (ha : a.isNode = true) (h : a.samePlace b = true) :
    a = b := by
  rw [samePlace, beq_iff_eq] at h
  cases a <;> cases b <;> simp_all [place?, isNode]

theorem le_trans' (a b c : Item) (hab : a.le b = true) (hbc : b.le c = true) : a.le c = true :=
  (le_iff_key_le a c).2 (((le_iff_key_le a b).1 hab).trans ((le_iff_key_le b c).1 hbc))

theorem le_total' (a b : Item) : (a.le b || b.le a) = true := by
  rw [Bool.or_eq_true, le_iff_key_le, le_iff_key_le]
  exact le_total a.key b.key

end Item

/-! ## All items of a document -/

/-- The attributes of an element as items. -/
def attributeItems (root : Node) (p : Position) : Sequence :=
  match Item.ownerTag? root p with
  | some t => (List.range t.attributes.length).map (.attribute p)
  | none => []

/-- **The nodes and attributes of a document**, as a walk through it comes to them. -/
def itemsOf (root : Node) : Sequence :=
  root.positions.flatMap fun p => .node p :: attributeItems root p

/-- Whether a document has a node or attribute. -/
def Item.isIn (root : Node) : Item → Bool
  | .node p => (root.at? p).isSome
  | .attribute p i => (Item.attribute? root p i).isSome
  | _ => false

theorem mem_attributeItems {root : Node} {p : Position} {item : Item} :
    item ∈ attributeItems root p ↔
      ∃ i, item = .attribute p i ∧ (Item.attribute? root p i).isSome = true := by
  unfold attributeItems Item.attribute?
  cases Item.ownerTag? root p with
  | none => simp
  | some t =>
    simp only [List.mem_map, List.mem_range, Option.bind_some, isSome_getElem?, and_comm]
    exact exists_congr fun i => and_congr_right' eq_comm

/-- **A walk through a document comes to all its nodes and attributes.** -/
theorem mem_itemsOf {root : Node} {item : Item} :
    item ∈ itemsOf root ↔ item.isIn root = true := by
  rw [itemsOf, List.mem_flatMap]
  constructor
  · rintro ⟨p, hp, hitem⟩
    obtain rfl | hitem := List.mem_cons.1 hitem
    · exact (Node.mem_positions root p).1 hp
    · obtain ⟨i, rfl, hi⟩ := mem_attributeItems.1 hitem
      exact hi
  · intro h
    match item with
    | .node p => exact ⟨p, (Node.mem_positions root p).2 h, by simp⟩
    | .attribute p i =>
      refine ⟨p, (Node.mem_positions root p).2 ?_, by simp [mem_attributeItems.2 ⟨i, rfl, h⟩]⟩
      by_contra hp
      rw [Item.isIn, Item.attribute?, Item.ownerTag?,
        Option.not_isSome_iff_eq_none.1 hp] at h
      cases h

theorem key_node (p : Position) : (Item.node p).key = ((toLex (p, ⊥) : Position ×ₗ WithBot ℕ) :) :=
  rfl

theorem key_attribute (p : Position) (i : ℕ) :
    (Item.attribute p i).key = ((toLex (p, WithBot.some i) : Position ×ₗ WithBot ℕ) :) :=
  rfl

theorem key_node_lt {p q : Position} : (Item.node p).key < (Item.node q).key ↔ p < q := by
  rw [key_node, key_node, WithBot.coe_lt_coe, Prod.Lex.toLex_lt_toLex]
  simp

theorem key_node_lt_attribute (p : Position) (i : ℕ) :
    (Item.node p).key < (Item.attribute p i).key := by
  rw [key_node, key_attribute, WithBot.coe_lt_coe, Prod.Lex.toLex_lt_toLex]
  exact .inr ⟨rfl, WithBot.bot_lt_coe i⟩

theorem key_attribute_lt {p : Position} {i j : ℕ} (h : i < j) :
    (Item.attribute p i).key < (Item.attribute p j).key := by
  rw [key_attribute, key_attribute, WithBot.coe_lt_coe, Prod.Lex.toLex_lt_toLex]
  exact .inr ⟨rfl, WithBot.coe_lt_coe.2 h⟩

/-- Items at the place of an element or inside its start tag. -/
theorem exists_key_of_mem {root : Node} {p : Position} {item : Item}
    (h : item ∈ Item.node p :: attributeItems root p) :
    ∃ i : WithBot ℕ, item.key = ((toLex (p, i) : Position ×ₗ WithBot ℕ) :) := by
  obtain rfl | h := List.mem_cons.1 h
  · exact ⟨⊥, rfl⟩
  · obtain ⟨i, rfl, -⟩ := mem_attributeItems.1 h
    exact ⟨i, rfl⟩

/-- **It does so in document order**, and never comes to one twice. -/
theorem pairwise_itemsOf (root : Node) :
    (itemsOf root).Pairwise fun a b => a.key < b.key := by
  rw [itemsOf, List.pairwise_flatMap]
  constructor
  · intro p hp
    rw [List.pairwise_cons]
    constructor
    · intro item hitem
      obtain ⟨i, rfl, -⟩ := mem_attributeItems.1 hitem
      exact key_node_lt_attribute p i
    · unfold attributeItems
      cases Item.ownerTag? root p with
      | none => exact .nil
      | some t =>
        exact List.pairwise_map.2 (List.pairwise_lt_range.imp key_attribute_lt)
  · refine (Node.pairwise_positions root).imp fun hpq a ha b hb => ?_
    obtain ⟨i, hi⟩ := exists_key_of_mem ha
    obtain ⟨j, hj⟩ := exists_key_of_mem hb
    rw [hi, hj, WithBot.coe_lt_coe, Prod.Lex.toLex_lt_toLex]
    exact .inl hpq

/-! ## Sequences in document order -/

section InDocumentOrder

variable {items : Sequence}

theorem pairwise_mergeSort_le (items : Sequence) :
    (items.mergeSort Item.le).Pairwise fun a b => a.key ≤ b.key :=
  (List.pairwise_mergeSort Item.le_trans' Item.le_total' items).imp fun h =>
    (Item.le_iff_key_le _ _).1 h

theorem dropRepeatedFrom_subset : ∀ (last : Item) (items : Sequence),
    dropRepeatedFrom last items ⊆ items
  | _, [] => List.nil_subset _
  | last, item :: items => by
    rw [dropRepeatedFrom]
    split
    · exact List.Subset.trans (dropRepeatedFrom_subset last items) (List.subset_cons_self _ _)
    · exact List.cons_subset_cons item (dropRepeatedFrom_subset item items)

/-- Only what has the place of the item before is dropped, and a node or attribute is still there
then. -/
theorem mem_cons_dropRepeatedFrom {x : Item} (hx : x.isNode = true) :
    ∀ {last : Item} {items : Sequence}, x ∈ last :: items → x ∈ last :: dropRepeatedFrom last items
  | last, [], h => h
  | last, item :: rest, h => by
    rw [dropRepeatedFrom]
    split
    case isTrue hsame =>
      refine mem_cons_dropRepeatedFrom hx ?_
      obtain rfl | h := List.mem_cons.1 h
      · exact List.mem_cons_self
      · obtain rfl | h := List.mem_cons.1 h
        · rw [Item.eq_of_samePlace hx hsame]
          exact List.mem_cons_self
        · exact List.mem_cons_of_mem last h
    case isFalse =>
      obtain rfl | h := List.mem_cons.1 h
      · exact List.mem_cons_self
      · exact List.mem_cons_of_mem last (mem_cons_dropRepeatedFrom hx h)

theorem pairwise_cons_dropRepeatedFrom : ∀ {last : Item} {items : Sequence},
    ((last :: items).Pairwise fun a b => a.key ≤ b.key) →
      (last :: dropRepeatedFrom last items).Pairwise fun a b => a.key < b.key
  | last, [], _ => List.pairwise_singleton _ _
  | last, item :: rest, h => by
    obtain ⟨hlast, hrest⟩ := List.pairwise_cons.1 h
    rw [dropRepeatedFrom]
    split
    case isTrue => exact pairwise_cons_dropRepeatedFrom (h.sublist (by simp))
    case isFalse hother =>
      have hlt : last.key < item.key :=
        lt_of_le_of_ne (hlast item List.mem_cons_self) fun heq =>
          hother ((Item.samePlace_iff _ _).2 heq.symm)
      have htail := pairwise_cons_dropRepeatedFrom hrest
      refine List.pairwise_cons.2 ⟨fun x hx => ?_, htail⟩
      obtain rfl | hx := List.mem_cons.1 hx
      · exact hlt
      · exact hlt.trans ((List.pairwise_cons.1 htail).1 x hx)

/-- Sorting brings nothing new. -/
theorem inDocumentOrder_subset (items : Sequence) : inDocumentOrder items ⊆ items := by
  have hperm := List.mergeSort_perm items Item.le
  rw [inDocumentOrder]
  cases hsorted : items.mergeSort Item.le with
  | nil => exact List.nil_subset _
  | cons first rest =>
    rw [hsorted] at hperm
    exact List.Subset.trans (List.cons_subset_cons first (dropRepeatedFrom_subset first rest))
      hperm.subset

/-- **Sorting keeps every node and attribute.** -/
theorem mem_inDocumentOrder_of_isNode {x : Item} (hx : x.isNode = true) :
    x ∈ inDocumentOrder items ↔ x ∈ items := by
  refine ⟨fun h => inDocumentOrder_subset items h, fun h => ?_⟩
  rw [← (List.mergeSort_perm items Item.le).mem_iff] at h
  rw [inDocumentOrder]
  cases hsorted : items.mergeSort Item.le with
  | nil => rwa [hsorted] at h
  | cons first rest =>
    rw [hsorted] at h
    exact mem_cons_dropRepeatedFrom hx h

/-- **Nodes and attributes in document order are the same.** -/
theorem mem_inDocumentOrder (h : ∀ item ∈ items, item.isNode = true) {x : Item} :
    x ∈ inDocumentOrder items ↔ x ∈ items :=
  ⟨fun hx => inDocumentOrder_subset items hx,
    fun hx => (mem_inDocumentOrder_of_isNode (h x hx)).2 hx⟩

/-- **In document order no place is repeated.** -/
theorem pairwise_inDocumentOrder (items : Sequence) :
    (inDocumentOrder items).Pairwise fun a b => a.key < b.key := by
  have hsorted := pairwise_mergeSort_le items
  rw [inDocumentOrder]
  cases hitems : items.mergeSort Item.le with
  | nil => exact .nil
  | cons first rest =>
    rw [hitems] at hsorted
    exact pairwise_cons_dropRepeatedFrom hsorted

/-- The order of places. -/
instance : Std.Irrefl fun a b : Item => a.key < b.key :=
  ⟨fun a => lt_irrefl a.key⟩

instance : Std.Antisymm fun a b : Item => a.key < b.key :=
  ⟨fun _ _ hab hba => absurd hab hba.not_gt⟩

/-- What is in document order stays as it is. -/
theorem inDocumentOrder_of_pairwise (h : items.Pairwise fun a b => a.key < b.key)
    (hnodes : ∀ item ∈ items, item.isNode = true) : inDocumentOrder items = items :=
  (pairwise_inDocumentOrder items).eq_of_mem_iff h fun _ => mem_inDocumentOrder hnodes

end InDocumentOrder

end XmlConformance.Path
