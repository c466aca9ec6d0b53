import XmlConformance.Proofs.Path.DocumentOrder
import XmlConformance.Rules.Evaluation

/-!
# Proofs/Rules/Firing — where the rules of a pattern fire

A run collects what the contexts of all rules of a pattern select, sorts it by place and keeps the
first of every place. What is left is what a walk through the document finds that asks at every item
for the first rule whose context selects it (`Scene.firstOfEach_flatMap`): sorting is stable, so the
first selection of an item stays in front, and dropping what has the place of the item before leaves
keys that only grow.
-/

namespace XmlConformance.Rules

open Xml XmlConformance.Path

/-- Whether a selection is of an item. -/
def ofItem (item : Item) (f : Item × Rule) : Bool :=
  f.1.samePlace item

theorem ofItem_iff {item : Item} {f : Item × Rule} :
    ofItem item f = true ↔ f.1.key = item.key :=
  Item.samePlace_iff f.1 item

namespace Scene

/-! ## Sorting keeps the first selection of an item in front -/

/-- The order of selections. -/
def selectionLe (a b : Item × Rule) : Bool :=
  a.1.le b.1

theorem selectionLe_trans (a b c : Item × Rule) :
    selectionLe a b = true → selectionLe b c = true → selectionLe a c = true :=
  Item.le_trans' a.1 b.1 c.1

theorem selectionLe_total (a b : Item × Rule) : (selectionLe a b || selectionLe b a) = true :=
  Item.le_total' a.1 b.1

theorem pairwise_mergeSort_selectionLe (fs : List (Item × Rule)) :
    (fs.mergeSort selectionLe).Pairwise fun a b => a.1.key ≤ b.1.key :=
  (List.pairwise_mergeSort selectionLe_trans selectionLe_total fs).imp fun h =>
    (Item.le_iff_key_le _ _).1 h

/-- **The selections of one item keep their order.** -/
theorem filter_mergeSort_selectionLe (item : Item) (fs : List (Item × Rule)) :
    (fs.mergeSort selectionLe).filter (ofItem item) = fs.filter (ofItem item) := by
  have hpairwise : (fs.filter (ofItem item)).Pairwise fun a b => selectionLe a b := by
    refine List.pairwise_of_forall_mem_list fun a ha b hb => ?_
    have hka := ofItem_iff.1 (List.mem_filter.1 ha).2
    have hkb := ofItem_iff.1 (List.mem_filter.1 hb).2
    exact (Item.le_iff_key_le _ _).2 (hka.trans hkb.symm).le
  have hsub : (fs.filter (ofItem item)).Sublist ((fs.mergeSort selectionLe).filter (ofItem item)) :=
    by
    have := (List.sublist_mergeSort selectionLe_trans selectionLe_total hpairwise
      List.filter_sublist).filter (ofItem item)
    rwa [List.filter_filter, funext fun a => Bool.and_self (ofItem item a)] at this
  exact (hsub.eq_of_length
    ((List.mergeSort_perm fs selectionLe).filter (ofItem item)).length_eq.symm).symm

theorem find?_mergeSort_selectionLe (item : Item) (fs : List (Item × Rule)) :
    (fs.mergeSort selectionLe).find? (ofItem item) = fs.find? (ofItem item) := by
  rw [← List.head?_filter, ← List.head?_filter, filter_mergeSort_selectionLe]

/-! ## What is left when repeated selections are dropped -/

/-- Behind a selection that stays, those stay that are the first of another item. -/
theorem mem_cons_iff_find?_eq {x f : Item × Rule} {fs kept : List (Item × Rule)}
    (h : x ∈ kept ↔ x.1.key ≠ f.1.key ∧ fs.find? (ofItem x.1) = some x) :
    x ∈ f :: kept ↔ (f :: fs).find? (ofItem x.1) = some x := by
  rw [List.mem_cons, h]
  by_cases hx : ofItem x.1 f = true
  · have hkey := ofItem_iff.1 hx
    rw [List.find?_cons_of_pos hx, Option.some.injEq]
    constructor
    · rintro (rfl | ⟨hne, -⟩)
      · rfl
      · exact absurd hkey.symm hne
    · rintro rfl
      exact .inl rfl
  · have hkey : x.1.key ≠ f.1.key := fun hkey => hx (ofItem_iff.2 hkey.symm)
    rw [List.find?_cons_of_neg hx]
    constructor
    · rintro (rfl | ⟨-, hfind⟩)
      · exact absurd rfl hkey
      · exact hfind
    · exact fun hfind => .inr ⟨hkey, hfind⟩

/-- **What stays is the first selection of its item**, if no selection is in front of `last`. -/
theorem mem_dropRepeatedFrom {x : Item × Rule} :
    ∀ {last : Item} {fs : List (Item × Rule)}, (fs.Pairwise fun a b => a.1.key ≤ b.1.key) →
      (∀ f ∈ fs, last.key ≤ f.1.key) →
      (x ∈ dropRepeatedFrom last fs ↔ x.1.key ≠ last.key ∧ fs.find? (ofItem x.1) = some x)
  | last, [], _, _ => by simp [dropRepeatedFrom]
  | last, f :: fs, hsorted, hlast => by
    obtain ⟨hf, hsorted⟩ := List.pairwise_cons.1 hsorted
    rw [dropRepeatedFrom]
    by_cases hsame : f.1.samePlace last = true
    · rw [if_pos hsame, mem_dropRepeatedFrom hsorted fun g hg => hlast g (by simp [hg])]
      refine and_congr_right fun hx => ?_
      rw [List.find?_cons_of_neg]
      rw [Item.samePlace_iff] at hsame
      exact fun h => hx ((ofItem_iff.1 h).symm.trans hsame)
    · have hlt : last.key < f.1.key :=
        lt_of_le_of_ne (hlast f (by simp)) fun h => hsame ((Item.samePlace_iff _ _).2 h.symm)
      rw [if_neg hsame, mem_cons_iff_find?_eq (mem_dropRepeatedFrom hsorted hf)]
      refine (and_iff_right_of_imp fun hfind => ?_).symm
      obtain rfl | hx := List.mem_cons.1 (List.mem_of_find?_eq_some hfind)
      · exact hlt.ne'
      · exact (hlt.trans_le (hf x hx)).ne'

theorem pairwise_cons_dropRepeatedFrom {f : Item × Rule} {fs : List (Item × Rule)}
    (hsorted : (f :: fs).Pairwise fun a b => a.1.key ≤ b.1.key)
    (hkept : (dropRepeatedFrom f.1 fs).Pairwise fun a b => a.1.key < b.1.key) :
    (f :: dropRepeatedFrom f.1 fs).Pairwise fun a b => a.1.key < b.1.key := by
  obtain ⟨hf, hsorted⟩ := List.pairwise_cons.1 hsorted
  refine List.pairwise_cons.2 ⟨fun g hg => ?_, hkept⟩
  obtain ⟨hne, hfind⟩ := (mem_dropRepeatedFrom hsorted hf).1 hg
  exact lt_of_le_of_ne (hf g (List.mem_of_find?_eq_some hfind)) hne.symm

theorem pairwise_dropRepeatedFrom :
    ∀ {last : Item} {fs : List (Item × Rule)}, (fs.Pairwise fun a b => a.1.key ≤ b.1.key) →
      (dropRepeatedFrom last fs).Pairwise fun a b => a.1.key < b.1.key
  | _, [], _ => .nil
  | last, f :: fs, hsorted => by
    rw [dropRepeatedFrom]
    split
    · exact pairwise_dropRepeatedFrom hsorted.tail
    · exact pairwise_cons_dropRepeatedFrom hsorted (pairwise_dropRepeatedFrom hsorted.tail)

theorem firstOfEach_eq (fs : List (Item × Rule)) :
    firstOfEach fs =
      match fs.mergeSort selectionLe with
      | [] => []
      | f :: rest => f :: dropRepeatedFrom f.1 rest :=
  rfl

/-- **The first selection of every item is kept.** -/
theorem mem_firstOfEach {fs : List (Item × Rule)} {x : Item × Rule} :
    x ∈ firstOfEach fs ↔ fs.find? (ofItem x.1) = some x := by
  have hsorted := pairwise_mergeSort_selectionLe fs
  rw [← find?_mergeSort_selectionLe, firstOfEach_eq]
  cases hfs : fs.mergeSort selectionLe with
  | nil => simp
  | cons f rest =>
    rw [hfs] at hsorted
    obtain ⟨hf, hsorted⟩ := List.pairwise_cons.1 hsorted
    exact mem_cons_iff_find?_eq (mem_dropRepeatedFrom hsorted hf)

theorem pairwise_firstOfEach (fs : List (Item × Rule)) :
    (firstOfEach fs).Pairwise fun a b => a.1.key < b.1.key := by
  have hsorted := pairwise_mergeSort_selectionLe fs
  rw [firstOfEach_eq]
  cases hfs : fs.mergeSort selectionLe with
  | nil => exact .nil
  | cons f rest =>
    rw [hfs] at hsorted
    exact pairwise_cons_dropRepeatedFrom hsorted (pairwise_dropRepeatedFrom hsorted.tail)

/-! ## The walk through the document -/

/-- Whether an item is among those that a rule selects. -/
def selects (item : Item) (s : Rule × Sequence) : Bool :=
  s.2.any (·.samePlace item)

/-- The first rule that selects an item. -/
def firing? (selected : List (Rule × Sequence)) (item : Item) : Option (Item × Rule) :=
  (selected.find? (selects item)).map fun s => (item, s.1)

/-- **Where rules fire**: at every item of the document, in document order, the first rule whose
context selects it. -/
def firingsAlong (root : Node) (selected : List (Rule × Sequence)) : List (Item × Rule) :=
  (itemsOf root).filterMap (firing? selected)

/-- The nodes and attributes that a rule selects, each with the rule. -/
def asSelections (s : Rule × Sequence) : List (Item × Rule) :=
  (s.2.filter Item.isNode).map fun item => (item, s.1)

theorem mem_flatMap_asSelections {selected : List (Rule × Sequence)} {x : Item × Rule} :
    x ∈ selected.flatMap asSelections ↔
      ∃ s ∈ selected, x.1 ∈ s.2 ∧ x.1.isNode = true ∧ s.1 = x.2 := by
  simp only [List.mem_flatMap, asSelections, List.mem_map, List.mem_filter]
  refine exists_congr fun s => and_congr_right fun _ => ⟨?_, ?_⟩
  · rintro ⟨item, hitem, rfl⟩
    exact ⟨hitem.1, hitem.2, rfl⟩
  · rintro ⟨hmem, hnode, hrule⟩
    exact ⟨x.1, ⟨hmem, hnode⟩, by rw [hrule]⟩

theorem find?_asSelections (s : Rule × Sequence) {item : Item} (hitem : item.isNode = true) :
    (asSelections s).find? (ofItem item) = if selects item s then some (item, s.1) else none := by
  obtain ⟨rule, items⟩ := s
  unfold selects asSelections
  induction items with
  | nil => rfl
  | cons a items ih =>
    by_cases ha : a.samePlace item = true
    · have heq : a = item := by
        rw [Item.samePlace_iff] at ha
        exact (Item.eq_of_samePlace hitem ((Item.samePlace_iff _ _).2 ha.symm)).symm
      subst heq
      simp [hitem, ha, ofItem]
    · cases hnode : a.isNode with
      | false => simpa [hnode, ha] using ih
      | true => simpa [hnode, ha, ofItem] using ih

/-- The first selection of an item is the one by the first rule that selects it. -/
theorem find?_flatMap_asSelections (selected : List (Rule × Sequence)) {item : Item}
    (hitem : item.isNode = true) :
    (selected.flatMap asSelections).find? (ofItem item) = firing? selected item := by
  induction selected with
  | nil => rfl
  | cons s selected ih =>
    rw [List.flatMap_cons, List.find?_append, find?_asSelections s hitem, ih]
    unfold firing?
    by_cases hs : selects item s = true
    · rw [if_pos hs, List.find?_cons_of_pos hs]
      rfl
    · rw [if_neg hs, List.find?_cons_of_neg hs]
      rfl

theorem isNode_of_isIn {root : Node} {item : Item} (h : item.isIn root = true) :
    item.isNode = true := by
  cases item <;> first | rfl | cases h

/-- The order of firings. -/
instance : Std.Irrefl fun a b : Item × Rule => a.1.key < b.1.key :=
  ⟨fun a => lt_irrefl a.1.key⟩

instance : Std.Antisymm fun a b : Item × Rule => a.1.key < b.1.key :=
  ⟨fun _ _ hab hba => absurd hab hba.not_gt⟩

theorem pairwise_firingsAlong (root : Node) (selected : List (Rule × Sequence)) :
    (firingsAlong root selected).Pairwise fun a b => a.1.key < b.1.key := by
  rw [firingsAlong, List.pairwise_filterMap]
  refine (pairwise_itemsOf root).imp fun hlt x hx y hy => ?_
  obtain ⟨s, -, rfl⟩ := Option.map_eq_some_iff.1 hx
  obtain ⟨t, -, rfl⟩ := Option.map_eq_some_iff.1 hy
  exact hlt

/-- **Sorting and dropping leave what the walk finds**, if only items of the document are
selected. -/
theorem firstOfEach_flatMap {root : Node} {selected : List (Rule × Sequence)}
    (h : ∀ s ∈ selected, ∀ item ∈ s.2, item.isNode = true → item.isIn root = true) :
    firstOfEach (selected.flatMap asSelections) = firingsAlong root selected := by
  refine List.Pairwise.eq_of_mem_iff (pairwise_firstOfEach _) (pairwise_firingsAlong root selected)
    fun x => ?_
  rw [mem_firstOfEach, firingsAlong, List.mem_filterMap]
  constructor
  · intro hx
    obtain ⟨s, hs, hmem, hnode, -⟩ := mem_flatMap_asSelections.1 (List.mem_of_find?_eq_some hx)
    rw [find?_flatMap_asSelections selected hnode] at hx
    exact ⟨x.1, mem_itemsOf.2 (h s hs x.1 hmem hnode), hx⟩
  · rintro ⟨item, hitem, hx⟩
    have hnode := isNode_of_isIn (mem_itemsOf.1 hitem)
    have hitem : x.1 = item := by
      obtain ⟨s, -, rfl⟩ := Option.map_eq_some_iff.1 hx
      rfl
    rw [hitem, find?_flatMap_asSelections selected hnode, hx]

end Scene

end XmlConformance.Rules
