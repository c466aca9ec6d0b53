import XmlConformance.Proofs.Path.Evaluating
import XmlConformance.Proofs.Path.Axes
import XmlConformance.Proofs.Xml.Locating

/-!
# Proofs/Path/Locating — items with the same location

The location of an attribute is that of its element, with a last step that no node has. So two
items of a document have the same location only if the ways to them part at siblings that a location
confuses (`Item.eq_or_parted`), and siblings that are confused do have the same location.
-/

namespace XmlConformance.Path

open Xml

variable {root : Node} {item a b : Item} {p q : Position} {i j : ℕ}

/-- The steps of the location of an item. -/
def Item.steps (root : Node) : Item → List String
  | .node p => root.locationSteps p
  | .attribute p i => root.locationSteps p ++ ["@" ++ (Item.attribute p i).name root]
  | _ => []

/-- An attribute with its element. -/
theorem Item.exists_of_isIn_attribute (h : (Item.attribute p i).isIn root = true) :
    ∃ t cs a, root.at? p = some (.element t cs) ∧ t.attributes[i]? = some a ∧
      (Item.attribute p i).name root = t.attributeName a.name := by
  obtain ⟨a, ha⟩ := Option.isSome_iff_exists.1 h
  obtain ⟨t, ht, ha'⟩ := Option.bind_eq_some_iff.1 ha
  obtain ⟨cs, hat⟩ := Item.ownerTag?_eq_some ht
  exact ⟨t, cs, a, hat, ha', by rw [Item.name, ht, ha]⟩

/-- **The location of an item joins its steps.** -/
theorem Item.location_eq {d : Document} (h : item.isIn d.root = true) :
    item.location d.root = "/" ++ "/".intercalate (item.steps d.root) := by
  match item with
  | .node p => rfl
  | .attribute p i =>
    obtain ⟨t, cs, a, hat, -⟩ := Item.exists_of_isIn_attribute h
    have hne : d.root.locationSteps p ≠ [] := by
      obtain ⟨ns, hroot, -⟩ := Node.exists_root_ofText d.wellFormed
      cases p with
      | nil =>
        rw [hroot] at hat
        cases hat
      | cons i p =>
        rw [Node.locationSteps]
        exact List.cons_ne_nil _ _
    rw [Item.steps, String.intercalate_append_of_ne_nil hne (List.cons_ne_nil _ _),
      String.intercalate_singleton, Item.location, Node.location,
      show ("/@" : String) = "/" ++ "@" from rfl]
    simp only [String.append_assoc]

/-- No step of the location of an item is empty, and no slash is in it. -/
theorem Item.notMem_steps (hroot : root.Proper) (h : item.isIn root = true) :
    ∀ s ∈ item.steps root, s ≠ "" ∧ '/' ∉ s.toList := by
  have hways {p : Position} (hp : (root.at? p).isSome = true) :
      ∀ s ∈ root.locationSteps p, s ≠ "" ∧ '/' ∉ s.toList := fun s hs =>
    (hroot.allChars_locationSteps hp s hs).imp_right fun hchars => hchars.notMem (by decide)
  match item with
  | .node p => exact hways h
  | .attribute p i =>
    obtain ⟨t, cs, a, hat, ha, hname⟩ := Item.exists_of_isIn_attribute h
    have ht : t.Proper := hroot t (Node.mem_tags (Node.mem_subtree_of_at? hat))
    have hchars := ht.nameText_attributeName (List.mem_of_getElem? ha)
    refine List.forall_mem_append.2 ⟨hways (by rw [hat]; rfl), List.forall_mem_singleton.2 ?_⟩
    rw [hname, ← String.toList_inj.ne, String.toList_append, List.mem_append, not_or]
    exact ⟨by simp, by decide, hchars.notMem (by decide)⟩

/-- Attributes of one element with the same step are the same. -/
theorem Item.index_eq_of_name_eq {d : Document} (hi : (Item.attribute p i).isIn d.root = true)
    (hj : (Item.attribute p j).isIn d.root = true)
    (h : (Item.attribute p i).name d.root = (Item.attribute p j).name d.root) : i = j := by
  obtain ⟨t, cs, a, hat, ha, hname⟩ := Item.exists_of_isIn_attribute hi
  obtain ⟨t', cs', b, hat', hb, hname'⟩ := Item.exists_of_isIn_attribute hj
  obtain ⟨rfl, -⟩ := Node.element.inj (Option.some.inj (hat.symm.trans hat'))
  obtain ⟨around, ht⟩ := (Node.inherits_ofText d.wellFormed).tags t
    (Node.mem_tags (Node.mem_subtree_of_at? hat))
  rw [hname, hname'] at h
  have hsame := ht.name_eq_of_attributeName_eq (List.mem_of_getElem? ha) (List.mem_of_getElem? hb) h
  have hnodup : (t.attributes.map (·.name)).Nodup := List.pairwise_map.2 ht.distinct
  have hlength : i < (t.attributes.map (·.name)).length := by
    rw [List.length_map]
    exact (List.getElem?_eq_some_iff.1 ha).1
  rw [← List.getElem?_inj hlength hnodup, List.getElem?_map, List.getElem?_map, ha, hb,
    Option.map_some, Option.map_some, hsame]

/-- **Two items of a document part at confused siblings.** -/
def Item.Parted (root : Node) (a b : Item) : Prop :=
  ∃ r n i j, root.at? r = some n ∧ Node.Confused n.children i j ∧
    a.LiesIn (.node (r.child i)) ∧ b.LiesIn (.node (r.child j))

theorem Item.parted_of_partConfused (h : root.PartConfused p q) {i j : Option ℕ}
    (ha : a.place? = some (p, i)) (hb : b.place? = some (q, j)) : Item.Parted root a b := by
  obtain ⟨r, n, k, l, hr, hconfused, hp, hq⟩ := h
  exact ⟨r, n, k, l, hr, hconfused, ⟨p, i, ha, hp⟩, ⟨q, j, hb, hq⟩⟩

/-- No node has the steps of an attribute. -/
theorem Item.locationSteps_ne_steps (hroot : root.Proper) (hp : (root.at? p).isSome = true) :
    root.locationSteps p ≠ (Item.attribute q i).steps root := by
  intro h
  have hmem : "@" ++ (Item.attribute q i).name root ∈ root.locationSteps p := by
    rw [h, Item.steps]
    exact List.mem_append_right _ (List.mem_singleton_self _)
  refine (hroot.allChars_locationSteps hp _ hmem).2.notMem (c := '@') (by decide) ?_
  rw [String.toList_append]
  exact List.mem_append_left _ (by decide)

/-- **Different items with the same location** part at siblings that locations confuse. -/
theorem Item.eq_or_parted {d : Document} (ha : a.isIn d.root = true) (hb : b.isIn d.root = true)
    (h : a.location d.root = b.location d.root) : a = b ∨ Item.Parted d.root a b := by
  have hroot := Node.proper_ofText d.wellFormed
  have hsteps : a.steps d.root = b.steps d.root := by
    rw [Item.location_eq ha, Item.location_eq hb, String.append_right_inj] at h
    exact (Node.intercalate_inj (Item.notMem_steps hroot ha) (Item.notMem_steps hroot hb)).1 h
  match a, b with
  | .node p, .node q =>
    exact (hroot.eq_or_partConfused ha hb hsteps).imp (congrArg Item.node) fun h =>
      Item.parted_of_partConfused h rfl rfl
  | .node p, .attribute q j => exact absurd hsteps (Item.locationSteps_ne_steps hroot ha)
  | .attribute p i, .node q => exact absurd hsteps.symm (Item.locationSteps_ne_steps hroot hb)
  | .attribute p i, .attribute q j =>
    obtain ⟨hways, hname⟩ := List.append_inj' hsteps rfl
    have hname := String.append_right_inj _ |>.1 (List.cons.inj hname).1
    have hp : (d.root.at? p).isSome = true := by
      obtain ⟨t, cs, a, hat, -⟩ := Item.exists_of_isIn_attribute ha
      rw [hat]
      rfl
    have hq : (d.root.at? q).isSome = true := by
      obtain ⟨t, cs, a, hat, -⟩ := Item.exists_of_isIn_attribute hb
      rw [hat]
      rfl
    obtain rfl | h := hroot.eq_or_partConfused hp hq hways
    · exact .inl (congrArg _ (Item.index_eq_of_name_eq ha hb hname))
    · exact .inr (Item.parted_of_partConfused h rfl rfl)

/-- **Locations identify the items of a document** but for siblings that are confused. Different
nodes or attributes with the same location lie in such siblings, and these have the same location
themselves: elements of different names that are written alike where they stand, or nodes that are
neither elements nor texts. -/
theorem Item.location_identifies (d : Document) :
    (∀ a b : Item, a.isIn d.root = true → b.isIn d.root = true →
      a.location d.root = b.location d.root → a = b ∨ Item.Parted d.root a b) ∧
    ∀ r n i j, d.root.at? r = some n → Node.Confused n.children i j → i ≠ j ∧
      (Item.node (r.child i)).location d.root = (Item.node (r.child j)).location d.root ∧
      ∃ c e, n.children[i]? = some c ∧ n.children[j]? = some e ∧ Node.Mistaken c e := by
  have hroot := Node.proper_ofText d.wellFormed
  refine ⟨fun a b => Item.eq_or_parted, fun r n i j hr hconfused => ⟨hconfused.ne, ?_, ?_⟩⟩
  · exact hroot.location_eq_of_confused hr hconfused
  · exact (hroot.at? hr).mistaken_of_confused hconfused

/-- **A comment and a processing instruction** with the same location. -/
theorem Item.location_comment_instruction :
    ∃ root, Node.ofText "<a><!--c--><?p?></a>" = some root ∧
      (Item.node [0, 0]).isIn root = true ∧ (Item.node [0, 1]).isIn root = true ∧
        (Item.node [0, 0]).location root = (Item.node [0, 1]).location root := by
  have hread : (Node.ofText "<a><!--c--><?p?></a>").any (fun root =>
      (Item.node [0, 0]).isIn root && (Item.node [0, 1]).isIn root &&
        (Item.node [0, 0]).location root == (Item.node [0, 1]).location root) = true := by
    decide +kernel
  cases hroot : Node.ofText "<a><!--c--><?p?></a>" with
  | none =>
    rw [hroot] at hread
    cases hread
  | some root =>
    rw [hroot, Option.any_some, Bool.and_eq_true, Bool.and_eq_true] at hread
    exact ⟨root, rfl, hread.1.1, hread.1.2, eq_of_beq hread.2⟩

end XmlConformance.Path
