import XmlConformance.Path.Eval
import XmlConformance.Proofs.Xml.Precedence

/-!
# Proofs/Path/Axes — where the axes lead

An axis leads from a node to the nodes that stand to it in one relation (`Axis.Leads`,
`mem_selected`), and lists them nearest first: in document order, or against it if it is a reverse
axis (`pairwise_candidates`). Every node of a document is an ancestor or a descendant of a given
node, precedes or follows it, or is the node itself, and only one of these; for an attribute, every
node is on one of three axes. Each axis between nodes has an opposite, which leads back
(`Axis.leads_opposite`).
-/

namespace XmlConformance.Path

open Xml Position Node

variable {root : Node} {p q : Position} {item : Item}

/-! ## Inside each other -/

/-- **An item lies in a node** if it is the node, an attribute of it or something below it; in an
attribute there is nothing but the attribute. -/
def Item.LiesIn (item : Item) : Item → Prop
  | .node q => ∃ p i, item.place? = some (p, i) ∧ q <+: p
  | top => item = top

theorem isWithin_iff {top : Item} (htop : top.isNode = true) :
    Library.isWithin item top = true ↔ item.LiesIn top := by
  cases top with
  | node q =>
    cases item <;> simp [Library.isWithin, Item.LiesIn, Item.place?, Position.isWithin]
  | «attribute» q j =>
    cases item <;> simp [Library.isWithin, Item.LiesIn, Item.samePlace, Item.place?]
  | string | number | boolean => cases htop

/-! ## The order of axes -/

/-- **Items in document order**, each before the next ones; none is repeated. -/
def InOrder (items : Sequence) : Prop :=
  items.Pairwise fun a b => a.key < b.key

theorem InOrder.nodup {items : Sequence} (h : InOrder items) : items.Nodup :=
  h.imp fun hlt heq => (heq ▸ hlt).ne rfl

theorem inOrder_map_node {ps : List Position} (h : ps.Pairwise (· < ·)) :
    InOrder (ps.map .node) :=
  List.pairwise_map.2 (h.imp key_node_lt.2)

/-- **The order in which an axis lists items**, nearest first. -/
def Axis.Before (axis : Axis) (a b : Item) : Prop :=
  if axis.isReverse then b.key < a.key else a.key < b.key

theorem pairwise_map_node_reverse {ps : List Position} (h : ps.Pairwise (· > ·)) :
    (ps.map Item.node).Pairwise fun a b => b.key < a.key :=
  List.pairwise_map.2 (h.imp key_node_lt.2)

theorem childrenAt_sorted (root : Node) (p : Position) : (root.childrenAt p).Pairwise (· < ·) :=
  List.pairwise_map.2 (List.pairwise_lt_range.imp fun h =>
    List.append_left_lt (List.cons_lt_cons_iff.2 (.inl h)))

theorem ancestors_sorted (p : Position) : (p :: p.ancestors).Pairwise (· > ·) :=
  (pairwise_ancestors p).imp fun h => lt_of_prefix_of_ne h.1 h.2

/-- **An axis from a node** lists its items nearest first. -/
theorem pairwise_fromNode (root : Node) (p : Position) (axis : Axis) :
    (axis.fromNode root p).Pairwise axis.Before := by
  match axis with
  | .child => exact inOrder_map_node (childrenAt_sorted root p)
  | .descendant =>
    exact inOrder_map_node ((pairwise_positionsAt root p).sublist (List.drop_sublist 1 _))
  | .descendantOrSelf => exact inOrder_map_node (pairwise_positionsAt root p)
  | .parent =>
    refine pairwise_map_node_reverse ?_
    cases p.parent? <;> simp
  | .ancestor => exact pairwise_map_node_reverse (List.pairwise_cons.1 (ancestors_sorted p)).2
  | .ancestorOrSelf => exact pairwise_map_node_reverse (ancestors_sorted p)
  | .followingSibling =>
    exact inOrder_map_node ((pairwise_followingSiblings root p).imp Precedes.lt)
  | .precedingSibling =>
    exact pairwise_map_node_reverse ((pairwise_precedingSiblings p).imp Precedes.lt)
  | .following => exact inOrder_map_node (pairwise_following root p)
  | .preceding => exact pairwise_map_node_reverse (pairwise_preceding root p)
  | .self => exact List.pairwise_singleton _ _
  | .attribute =>
    unfold Axis.fromNode
    cases Item.ownerTag? root p with
    | none => exact .nil
    | some t =>
      exact List.pairwise_map.2 (List.pairwise_lt_range.imp fun h => key_attribute_lt h)

/-- **An axis from an attribute** lists its items nearest first. -/
theorem pairwise_fromAttribute (root : Node) (p : Position) (i : ℕ) (axis : Axis) :
    (axis.fromAttribute root p i).Pairwise axis.Before := by
  match axis with
  | .ancestor => exact pairwise_fromNode root p .ancestorOrSelf
  | .ancestorOrSelf =>
    refine List.pairwise_cons.2 ⟨fun item hitem => ?_, pairwise_fromNode root p .ancestorOrSelf⟩
    obtain ⟨q, hq, rfl⟩ := List.mem_map.1 hitem
    by_cases heq : q = p
    · exact heq ▸ key_node_lt_attribute q i
    · have hlt := lt_of_prefix_of_ne (mem_self_ancestors.1 hq) heq
      exact (key_node_lt.2 hlt).trans (key_node_lt_attribute p i)
  | .following =>
    refine List.pairwise_append.2 ⟨pairwise_fromNode root p .descendant,
      pairwise_fromNode root p .following, fun a ha b hb => ?_⟩
    obtain ⟨q, hq, rfl⟩ := List.mem_map.1 ha
    obtain ⟨r, hr, rfl⟩ := List.mem_map.1 hb
    exact key_node_lt.2 ((mem_following.1 hr).1.mono (mem_drop_positionsAt.1 hq).1
      List.prefix_rfl).lt
  | .preceding => exact pairwise_fromNode root p .preceding
  | .self | .parent => exact List.pairwise_singleton _ _
  | .child | .descendant | .descendantOrSelf | .followingSibling | .precedingSibling
  | .attribute => exact .nil

/-- **What an axis leads to** and a test admits is listed nearest first. -/
theorem pairwise_candidates {axis : Axis} {test : NodeTest} {items : Sequence}
    (h : candidates root axis test item = some items) : items.Pairwise axis.Before := by
  match item with
  | .node p =>
    obtain rfl := Option.some.inj h
    exact (pairwise_fromNode root p axis).filter _
  | .attribute p i =>
    obtain rfl := Option.some.inj h
    exact (pairwise_fromAttribute root p i axis).filter _
  | .string _ | .number _ | .boolean _ => cases h

/-- Turned around if its axis is a reverse one, a list of items is in document order. -/
theorem inOrder_of_pairwise_before {axis : Axis} {items : Sequence}
    (h : items.Pairwise axis.Before) :
    InOrder (if axis.isReverse then items.reverse else items) := by
  split
  · case isTrue hreverse =>
    exact List.pairwise_reverse.2 (h.imp fun hab => by rwa [Axis.Before, if_pos hreverse] at hab)
  · case isFalse hforward =>
    exact h.imp fun hab => by rwa [Axis.Before, if_neg hforward] at hab

/-! ## Where an axis leads -/

/-- **How a node and one on an axis from it lie to each other.** -/
def Axis.Leads (axis : Axis) (p q : Position) : Prop :=
  match axis with
  | .child => ∃ i, q = p.child i
  | .descendant => p <+: q ∧ p ≠ q
  | .descendantOrSelf => p <+: q
  | .parent => ∃ i, p = q.child i
  | .ancestor => q <+: p ∧ q ≠ p
  | .ancestorOrSelf => q <+: p
  | .followingSibling => ∃ (r : Position) (i j : ℕ), i < j ∧ p = r.child i ∧ q = r.child j
  | .precedingSibling => ∃ (r : Position) (i j : ℕ), i < j ∧ q = r.child i ∧ p = r.child j
  | .following => Precedes p q
  | .preceding => Precedes q p
  | .self => p = q
  | .attribute => False

/-- The axis that leads back. -/
def Axis.opposite : Axis → Axis
  | .child => .parent
  | .descendant => .ancestor
  | .descendantOrSelf => .ancestorOrSelf
  | .parent => .child
  | .ancestor => .descendant
  | .ancestorOrSelf => .descendantOrSelf
  | .followingSibling => .precedingSibling
  | .precedingSibling => .followingSibling
  | .following => .preceding
  | .preceding => .following
  | .self => .self
  | .attribute => .attribute

/-- **The opposite axis leads back.** -/
theorem Axis.leads_opposite (axis : Axis) : axis.opposite.Leads q p ↔ axis.Leads p q := by
  cases axis with
  | self => exact eq_comm
  | _ => exact Iff.rfl

theorem mem_map_node {ps : List Position} : Item.node q ∈ ps.map Item.node ↔ q ∈ ps :=
  List.mem_map_of_injective fun _ _ h => Item.node.inj h

theorem mem_parent? : q ∈ p.parent?.toList ↔ ∃ i, p = q.child i := by
  obtain rfl | ⟨r, i, rfl⟩ := eq_nil_or_child p
  · simp [parent?, child]
  · have hparent : (child r i).parent? = some r := by simp [parent?, child]
    rw [hparent, Option.toList_some, List.mem_singleton]
    constructor
    · rintro rfl
      exact ⟨i, rfl⟩
    · rintro ⟨j, hj⟩
      exact (child_inj.1 hj).1.symm

/-- **The nodes of a document that an axis leads to from a node** are those that lie to it as the
axis says. -/
theorem mem_fromNode (axis : Axis) (hq : (root.at? q).isSome = true) :
    .node q ∈ axis.fromNode root p ↔ axis.Leads p q := by
  match axis with
  | .child =>
    refine mem_map_node.trans (List.mem_map.trans ?_)
    constructor
    · rintro ⟨i, -, rfl⟩
      exact ⟨i, rfl⟩
    · rintro ⟨i, rfl⟩
      exact ⟨i, List.mem_range.2 (lt_childCount.2 hq), rfl⟩
  | .descendant =>
    refine (mem_map_node.trans mem_drop_positionsAt).trans (and_congr_right' ?_)
    rw [and_iff_left hq, ne_comm]
  | .descendantOrSelf => exact (mem_map_node.trans mem_positionsAt).trans (and_iff_left hq)
  | .parent => exact mem_map_node.trans mem_parent?
  | .ancestor => exact mem_map_node.trans mem_ancestors
  | .ancestorOrSelf => exact mem_map_node.trans mem_self_ancestors
  | .followingSibling =>
    refine (mem_map_node.trans mem_followingSiblings).trans ?_
    exact ⟨fun ⟨r, i, j, hij, hi, hj, _⟩ => ⟨r, i, j, hij, hi, hj⟩,
      fun ⟨r, i, j, hij, hi, hj⟩ => ⟨r, i, j, hij, hi, hj, hq⟩⟩
  | .precedingSibling => exact mem_map_node.trans mem_precedingSiblings
  | .following => exact mem_map_node.trans (mem_following.trans (and_iff_left hq))
  | .preceding => exact mem_map_node.trans (mem_preceding.trans (and_iff_left hq))
  | .self => exact List.mem_singleton.trans (Item.node.injEq q p ▸ eq_comm)
  | .attribute =>
    refine iff_of_false ?_ id
    cases h : Item.ownerTag? root p <;> simp [Axis.fromNode, h]

/-! ## What an axis selects -/

/-- **What `axis::node()` selects** from an item: all nodes and attributes that the axis leads
to. -/
def Axis.selected (axis : Axis) (root : Node) (item : Item) : Sequence :=
  let found := (candidates root axis .node item).getD []
  if axis.isReverse then found.reverse else found

theorem candidates_eq_some (root : Node) (axis : Axis) (test : NodeTest)
    (hitem : item.isNode = true) : ∃ items, candidates root axis test item = some items := by
  match item with
  | .node _ | .attribute .. => exact ⟨_, rfl⟩

theorem Setting.eval_step_node (s : Setting) (focus : Focus) (axis : Axis)
    (hitem : focus.item.isNode = true) :
    s.eval focus (.step axis .node []) = Eval.pure (axis.selected s.root focus.item) := by
  obtain ⟨items, hitems⟩ := candidates_eq_some s.root axis .node hitem
  unfold Setting.eval Axis.selected
  rw [hitems]
  rfl

theorem inOrder_selected (axis : Axis) (root : Node) (item : Item) :
    InOrder (axis.selected root item) := by
  refine inOrder_of_pairwise_before ?_
  cases h : candidates root axis .node item with
  | none => exact .nil
  | some items => exact pairwise_candidates h

/-- Every node and attribute of a document passes `node()`, and nothing else does. -/
theorem admits_node (axis : Axis) (root : Node) (item : Item) :
    NodeTest.node.admits axis root item = item.isIn root := by
  match item with
  | .node p =>
    show ((root.at? p).map NodeTest.node.admitsNode).getD false = (root.at? p).isSome
    cases root.at? p <;> rfl
  | .attribute p i =>
    show ((Item.attribute? root p i).map _).getD false = (Item.attribute? root p i).isSome
    cases Item.attribute? root p i <;> rfl
  | .string _ | .number _ | .boolean _ => rfl

theorem mem_selected {axis : Axis} {items : Sequence} {x : Item}
    (h : candidates root axis .node item = some (items.filter (NodeTest.node.admits axis root))) :
    x ∈ axis.selected root item ↔ x ∈ items ∧ x.isIn root = true := by
  rw [← admits_node axis root x, ← List.mem_filter]
  unfold Axis.selected
  rw [h]
  dsimp only [Option.getD_some]
  split
  · exact List.mem_reverse
  · exact Iff.rfl

/-- **An axis selects the nodes that lie to a node as the axis says.** -/
theorem mem_selected_node {axis : Axis} : .node q ∈ axis.selected root (.node p) ↔
    axis.Leads p q ∧ (root.at? q).isSome = true :=
  (mem_selected rfl).trans (and_congr_left (mem_fromNode axis))

/-- Only the attribute axis leads to attributes. -/
theorem exists_eq_node_of_mem (axis : Axis) (haxis : axis ≠ .attribute) {x : Item}
    (hx : x ∈ axis.fromNode root p) : ∃ q, x = .node q := by
  have hmap {ps : List Position} (h : x ∈ ps.map Item.node) : ∃ q, x = .node q := by
    obtain ⟨q, -, rfl⟩ := List.mem_map.1 h
    exact ⟨q, rfl⟩
  match axis with
  | .child | .descendant | .descendantOrSelf | .parent | .ancestor | .ancestorOrSelf
  | .followingSibling | .precedingSibling | .following | .preceding => exact hmap hx
  | .self => exact ⟨p, List.mem_singleton.1 hx⟩
  | .attribute => exact absurd rfl haxis

/-! ## Axes that divide a document -/

/-- **All nodes of a document**, in document order. -/
def nodesOf (root : Node) : Sequence :=
  root.positions.map .node

theorem mem_nodesOf {x : Item} :
    x ∈ nodesOf root ↔ ∃ q, x = .node q ∧ (root.at? q).isSome = true := by
  simp only [nodesOf, List.mem_map, mem_positions, and_comm, eq_comm]

theorem nodup_nodesOf (root : Node) : (nodesOf root).Nodup :=
  (inOrder_map_node (pairwise_positions root)).nodup

/-- **Axes divide the nodes of a document** if each node lies on one of them. -/
theorem perm_flatMap_selected (axes : List Axis) (on : Position → Axis) (haxes : axes.Nodup)
    (hon : ∀ q, on q ∈ axes)
    (hmem : ∀ axis ∈ axes, ∀ x, x ∈ axis.selected root item ↔
      ∃ q, x = .node q ∧ on q = axis ∧ (root.at? q).isSome = true) :
    (axes.flatMap fun axis => axis.selected root item).Perm (nodesOf root) := by
  rw [List.perm_ext_iff_of_nodup _ (nodup_nodesOf root)]
  · intro x
    rw [List.mem_flatMap, mem_nodesOf]
    constructor
    · rintro ⟨axis, haxis, hx⟩
      obtain ⟨q, rfl, -, hq⟩ := (hmem axis haxis x).1 hx
      exact ⟨q, rfl, hq⟩
    · rintro ⟨q, rfl, hq⟩
      exact ⟨on q, hon q, (hmem _ (hon q) _).2 ⟨q, rfl, rfl, hq⟩⟩
  · rw [List.nodup_flatMap]
    refine ⟨fun axis _ => (inOrder_selected axis root item).nodup, ?_⟩
    refine haxes.imp_of_mem fun {a b} ha hb hne x hxa hxb => hne ?_
    obtain ⟨q, rfl, rfl, -⟩ := (hmem a ha x).1 hxa
    obtain ⟨r, hr, rfl, -⟩ := (hmem b hb _).1 hxb
    rw [Item.node.inj hr]

/-- The axes that divide a document as seen from a node. -/
def Axis.aroundNode : List Axis := [.ancestor, .descendant, .preceding, .following, .self]

/-- The one among them on which a node lies. -/
def Axis.fromNodeTo (p q : Position) : Axis :=
  if q = p then .self
  else if q <+: p then .ancestor
  else if p <+: q then .descendant
  else if q < p then .preceding
  else .following

theorem Axis.fromNodeTo_mem (p q : Position) : Axis.fromNodeTo p q ∈ Axis.aroundNode := by
  grind [Axis.fromNodeTo, Axis.aroundNode]

theorem Axis.fromNodeTo_eq_iff {axis : Axis} (haxis : axis ∈ Axis.aroundNode) :
    Axis.fromNodeTo p q = axis ↔ axis.Leads p q := by
  -- what is on the way to a node comes before it
  have hqp := @lt_of_prefix_of_ne q p
  have hpq := @lt_of_prefix_of_ne p q
  have htotal := lt_trichotomy p q
  simp only [Axis.aroundNode, List.mem_cons, List.not_mem_nil, or_false] at haxis
  obtain rfl | rfl | rfl | rfl | rfl := haxis <;>
    grind [Axis.fromNodeTo, Axis.Leads, precedes_iff]

theorem mem_selected_aroundNode {axis : Axis} (haxis : axis ∈ Axis.aroundNode) (x : Item) :
    x ∈ axis.selected root (.node p) ↔
      ∃ q, x = .node q ∧ Axis.fromNodeTo p q = axis ∧ (root.at? q).isSome = true := by
  have hattribute : axis ≠ .attribute := by
    rintro rfl
    exact absurd haxis (by decide)
  constructor
  · intro hx
    obtain ⟨q, rfl⟩ := exists_eq_node_of_mem axis hattribute ((mem_selected rfl).1 hx).1
    exact ⟨q, rfl, (and_congr_left' (Axis.fromNodeTo_eq_iff haxis)).2 (mem_selected_node.1 hx)⟩
  · rintro ⟨q, rfl, hq⟩
    exact mem_selected_node.2 ((and_congr_left' (Axis.fromNodeTo_eq_iff haxis)).1 hq)

theorem selected_self (hp : (root.at? p).isSome = true) :
    Axis.self.selected root (.node p) = [.node p] :=
  List.filter_cons_of_pos ((admits_node .self root (.node p)).trans hp)

/-- The axes that divide a document as seen from an attribute. -/
def Axis.aroundAttribute : List Axis := [.ancestor, .preceding, .following]

/-- The one among them on which a node lies; `p` is the place of the element that has the
attribute. -/
def Axis.fromAttributeTo (p q : Position) : Axis :=
  if q <+: p then .ancestor else if q < p then .preceding else .following

theorem Axis.fromAttributeTo_mem (p q : Position) :
    Axis.fromAttributeTo p q ∈ Axis.aroundAttribute := by
  grind [Axis.fromAttributeTo, Axis.aroundAttribute]

theorem mem_fromAttribute {axis : Axis} {i : ℕ} (haxis : axis ∈ Axis.aroundAttribute)
    (hq : (root.at? q).isSome = true) :
    .node q ∈ axis.fromAttribute root p i ↔ Axis.fromAttributeTo p q = axis := by
  have hqp := @lt_of_prefix_of_ne q p
  have hpq := @lt_of_prefix_of_ne p q
  have htotal := lt_trichotomy p q
  simp only [Axis.aroundAttribute, List.mem_cons, List.not_mem_nil, or_false] at haxis
  obtain rfl | rfl | rfl := haxis
  · refine (mem_fromNode .ancestorOrSelf hq).trans ?_
    grind [Axis.fromAttributeTo, Axis.Leads]
  · refine (mem_fromNode .preceding hq).trans ?_
    grind [Axis.fromAttributeTo, Axis.Leads, precedes_iff]
  · refine List.mem_append.trans ((or_congr (mem_fromNode .descendant hq)
      (mem_fromNode .following hq)).trans ?_)
    grind [Axis.fromAttributeTo, Axis.Leads, precedes_iff]

theorem mem_selected_aroundAttribute {axis : Axis} {i : ℕ} (haxis : axis ∈ Axis.aroundAttribute)
    (x : Item) : x ∈ axis.selected root (.attribute p i) ↔
      ∃ q, x = .node q ∧ Axis.fromAttributeTo p q = axis ∧ (root.at? q).isSome = true := by
  constructor
  · intro hx
    obtain ⟨hx, hin⟩ := (mem_selected rfl).1 hx
    have hnode : ∃ q, x = .node q := by
      simp only [Axis.aroundAttribute, List.mem_cons, List.not_mem_nil, or_false] at haxis
      obtain rfl | rfl | rfl := haxis
      · have hx : x ∈ Axis.ancestorOrSelf.fromNode root p := hx
        exact exists_eq_node_of_mem .ancestorOrSelf nofun hx
      · exact exists_eq_node_of_mem .preceding nofun hx
      · exact (List.mem_append.1 hx).elim (exists_eq_node_of_mem .descendant nofun)
          (exists_eq_node_of_mem .following nofun)
    obtain ⟨q, rfl⟩ := hnode
    exact ⟨q, rfl, (mem_fromAttribute haxis hin).1 hx, hin⟩
  · rintro ⟨q, rfl, hon, hq⟩
    exact (mem_selected rfl).2 ⟨(mem_fromAttribute haxis hq).2 hon, hq⟩

/-- **The axes divide a document**, and each leads back on the opposite one: from a node, its
ancestors and descendants, the nodes in front of it and those behind it and the node itself are all
nodes of the document, each once; from an attribute, the ancestors and the nodes in front and behind
are. -/
theorem selected_divide (root : Node) :
    (∀ (s : Setting) (focus : Focus) (axis : Axis), s.root = root → focus.item.isNode = true →
      s.eval focus (.step axis .node []) = Eval.pure (axis.selected root focus.item)) ∧
    (nodesOf root).Nodup ∧
    (∀ n ∈ nodesOf root,
      (Axis.ancestor.selected root n ++ Axis.descendant.selected root n ++
        Axis.preceding.selected root n ++ Axis.following.selected root n ++ [n]).Perm
          (nodesOf root)) ∧
    (∀ p i,
      (Axis.ancestor.selected root (.attribute p i) ++
        Axis.preceding.selected root (.attribute p i) ++
          Axis.following.selected root (.attribute p i)).Perm (nodesOf root)) ∧
    ∀ m ∈ nodesOf root, ∀ n ∈ nodesOf root,
      (m ∈ Axis.following.selected root n ↔ n ∈ Axis.preceding.selected root m) ∧
      (m ∈ Axis.descendant.selected root n ↔ n ∈ Axis.ancestor.selected root m) ∧
      (m ∈ Axis.followingSibling.selected root n ↔
        n ∈ Axis.precedingSibling.selected root m) := by
  refine ⟨fun s focus axis hroot hitem => hroot ▸ s.eval_step_node focus axis hitem,
    nodup_nodesOf root, fun n hn => ?_, fun p i => ?_, fun m hm n hn => ?_⟩
  · obtain ⟨p, rfl, hp⟩ := mem_nodesOf.1 hn
    have hall : (Axis.aroundNode.flatMap fun axis => axis.selected root (.node p)).Perm
        (nodesOf root) :=
      perm_flatMap_selected Axis.aroundNode (Axis.fromNodeTo p) (by decide)
        (Axis.fromNodeTo_mem p) fun _ haxis => mem_selected_aroundNode haxis
    simpa [Axis.aroundNode, selected_self hp] using hall
  · have hall : (Axis.aroundAttribute.flatMap fun axis => axis.selected root
        (.attribute p i)).Perm (nodesOf root) :=
      perm_flatMap_selected Axis.aroundAttribute (Axis.fromAttributeTo p) (by decide)
        (Axis.fromAttributeTo_mem p) fun _ haxis => mem_selected_aroundAttribute haxis
    simpa [Axis.aroundAttribute] using hall
  · obtain ⟨p, rfl, hp⟩ := mem_nodesOf.1 hm
    obtain ⟨q, rfl, hq⟩ := mem_nodesOf.1 hn
    have hback (axis : Axis) : Item.node p ∈ axis.selected root (.node q) ↔
        Item.node q ∈ axis.opposite.selected root (.node p) := by
      rw [mem_selected_node, mem_selected_node, axis.leads_opposite, and_iff_left hp,
        and_iff_left hq]
    exact ⟨hback .following, hback .descendant, hback .followingSibling⟩

end XmlConformance.Path
