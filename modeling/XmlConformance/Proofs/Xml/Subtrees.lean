import Mathlib.Tactic.Common
import XmlConformance.Xml.Document

/-!
# Proofs/Xml/Subtrees — the nodes of a tree and their tags

What stands below a node of a tree stands in the tree (`Node.subtree_subset`). A property of the
elements of a tree is one of their tags in document order (`Node.tags`), which can be taken apart
with the tree.
-/

namespace XmlConformance.Xml

namespace Node

theorem mem_subtree_self (n : Node) : n ∈ n.subtree := by
  cases n with
  | root cs | element t cs => exact List.mem_cons_self
  | text | comment | instruction => exact List.mem_singleton_self _

theorem subtree_subset_subtrees {n : Node} : ∀ {ns : List Node}, n ∈ ns →
    n.subtree ⊆ subtrees ns
  | m :: ns, h => by
    rw [subtrees]
    obtain rfl | h := List.mem_cons.1 h
    · exact List.subset_append_left _ _
    · exact List.Subset.trans (subtree_subset_subtrees h) (List.subset_append_right _ _)

theorem subtrees_children_subset (n : Node) : subtrees n.children ⊆ n.subtree := by
  cases n with
  | root cs | element t cs => exact List.subset_cons_self _ _
  | text | comment | instruction => exact List.nil_subset _

theorem subtrees_append : ∀ ns ms : List Node, subtrees (ns ++ ms) = subtrees ns ++ subtrees ms
  | [], _ => rfl
  | n :: ns, ms => by
    rw [List.cons_append, subtrees, subtrees, subtrees_append ns ms, List.append_assoc]

theorem mem_subtrees {m : Node} : ∀ {ns : List Node}, m ∈ subtrees ns ↔ ∃ n ∈ ns, m ∈ n.subtree
  | [] => iff_of_false List.not_mem_nil (by simp)
  | n :: ns => by
    rw [subtrees, List.mem_append, mem_subtrees]
    simp only [List.mem_cons, exists_eq_or_imp]

theorem subtrees_mono {ns ms : List Node} (h : ns ⊆ ms) : subtrees ns ⊆ subtrees ms := fun _ hm =>
  have ⟨n, hn, hm⟩ := mem_subtrees.1 hm
  mem_subtrees.2 ⟨n, h hn, hm⟩

mutual

/-- **What stands below a node of a tree stands in the tree.** -/
theorem subtree_subset {m : Node} : ∀ {n : Node}, m ∈ n.subtree → m.subtree ⊆ n.subtree
  | .root cs, h => by
    obtain rfl | h := List.mem_cons.1 h
    · exact List.Subset.refl _
    · exact List.Subset.trans (subtree_subset_of_mem_subtrees h)
        (subtrees_children_subset (.root cs))
  | .element t cs, h => by
    obtain rfl | h := List.mem_cons.1 h
    · exact List.Subset.refl _
    · exact List.Subset.trans (subtree_subset_of_mem_subtrees h)
        (subtrees_children_subset (.element t cs))
  | .text _, h | .comment _, h | .instruction .., h => by
    rw [List.mem_singleton.1 h]
    exact List.Subset.refl _

theorem subtree_subset_of_mem_subtrees {m : Node} : ∀ {ns : List Node}, m ∈ subtrees ns →
    m.subtree ⊆ subtrees ns
  | n :: ns, h => by
    rw [subtrees] at h ⊢
    obtain h | h := List.mem_append.1 h
    · exact List.Subset.trans (subtree_subset h) (List.subset_append_left _ _)
    · exact List.Subset.trans (subtree_subset_of_mem_subtrees h) (List.subset_append_right _ _)

end

/-- The nodes directly below a node of a tree stand in the tree. -/
theorem children_subset {m n : Node} (h : m ∈ n.subtree) : m.children ⊆ n.subtree :=
  fun c hc => subtree_subset h (subtrees_children_subset m
    (subtree_subset_subtrees hc (mem_subtree_self c)))

/-! ## Tags -/

/-- The tags of the elements in a subtree, in document order. -/
def tags (n : Node) : List Tag :=
  n.subtree.filterMap tag?

/-- The tags of the elements in several subtrees, in document order. -/
def tagsOf (ns : List Node) : List Tag :=
  (subtrees ns).filterMap tag?

@[simp] theorem tags_root (cs : List Node) : (root cs).tags = tagsOf cs := rfl

@[simp] theorem tags_element (t : Tag) (cs : List Node) : (element t cs).tags = t :: tagsOf cs :=
  rfl

@[simp] theorem tagsOf_nil : tagsOf [] = [] := rfl

@[simp] theorem tagsOf_cons (n : Node) (ns : List Node) : tagsOf (n :: ns) = n.tags ++ tagsOf ns :=
  List.filterMap_append

@[simp] theorem tagsOf_append (ns ms : List Node) : tagsOf (ns ++ ms) = tagsOf ns ++ tagsOf ms := by
  rw [tagsOf, subtrees_append, List.filterMap_append]
  rfl

theorem tagsOf_eq_flatMap : ∀ ns : List Node, tagsOf ns = ns.flatMap tags
  | [] => rfl
  | n :: ns => by rw [tagsOf_cons, tagsOf_eq_flatMap ns, List.flatMap_cons]

theorem forall_mem_tagsOf {P : Tag → Prop} {ns : List Node} :
    (∀ t ∈ tagsOf ns, P t) ↔ ∀ n ∈ ns, ∀ t ∈ n.tags, P t := by
  rw [tagsOf_eq_flatMap]
  exact List.forall_mem_flatMap

/-- The elements among some nodes. -/
def elementsOf (ns : List Node) : List (Tag × List Node) :=
  ns.filterMap fun
    | .element t cs => some (t, cs)
    | _ => none

@[simp] theorem elementsOf_singleton (t : Tag) (cs : List Node) :
    elementsOf [.element t cs] = [(t, cs)] := rfl

@[simp] theorem elementsOf_append (ns ms : List Node) :
    elementsOf (ns ++ ms) = elementsOf ns ++ elementsOf ms := List.filterMap_append

theorem mem_tags {t : Tag} {cs : List Node} {n : Node} (h : element t cs ∈ n.subtree) :
    t ∈ n.tags :=
  List.mem_filterMap.2 ⟨_, h, rfl⟩

end Node

theorem Document.rootElement_eq {d : Document} {t : Tag} {cs : List Node}
    (h : d.root = .root [.element t cs]) : d.rootElement = (t, cs) := by
  rw [Document.rootElement, h]
  rfl

/-- The root element of a document that has one stands in its tree. -/
theorem Document.element_mem_subtree {d : Document} {e : Tag × List Node}
    (h : d.root.elements.head? = some e) : .element e.1 e.2 ∈ d.root.subtree := by
  obtain ⟨n, hn, he⟩ := List.mem_filterMap.1 (List.mem_of_head? h)
  cases n with
  | element t cs =>
    cases he
    exact Node.children_subset (Node.mem_subtree_self _) hn
  | root | text | comment | instruction => cases he

end XmlConformance.Xml
