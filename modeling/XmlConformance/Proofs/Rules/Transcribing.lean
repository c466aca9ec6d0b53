import XmlConformance.Proofs.Rules.Renaming

/-!
# Proofs/Rules/Transcribing — a tree that is written as copies and read again

The steps that a rule schema goes through before it is written out all write copies of elements one
inside the other, each with the declarations that are new at it or with all of them (`Writes`).
What is read again is the same tree: comments are left out and texts that come to stand next to each
other are one (`contents`), and every tag is the one that its copy stands for below the copies
around it (`Reread`, `reread_of_written`). What is known of single copies can be carried through the
whole tree from there (`CarriedWith`).
-/

namespace XmlConformance

open Xml

namespace Xml.Node

/-! ## What an element holds -/

/-- What is left of some nodes behind a text, once comments and processing instructions are left
out and texts that stand next to each other are joined. -/
def contentsFrom (s : String) : List Node → List Node
  | [] => if s = "" then [] else [.text s]
  | .text r :: ns => contentsFrom (s ++ r) ns
  | .element t cs :: ns =>
    (if s = "" then [] else [.text s]) ++ .element t cs :: contentsFrom "" ns
  | .root _ :: ns | .comment _ :: ns | .instruction .. :: ns => contentsFrom s ns

/-- **The elements and texts among some nodes**; texts with nothing but comments and processing
instructions between them are one. -/
def contents (ns : List Node) : List Node :=
  contentsFrom "" ns

theorem elementsOf_contentsFrom : ∀ (s : String) (ns : List Node),
    elementsOf (contentsFrom s ns) = elementsOf ns
  | s, [] => by
    rw [contentsFrom]
    split <;> rfl
  | s, .text r :: ns => elementsOf_contentsFrom (s ++ r) ns
  | s, .element t cs :: ns => by
    have hnil : elementsOf (if s = "" then [] else [.text s]) = [] := by split <;> rfl
    rw [contentsFrom, elementsOf_append, hnil]
    exact congrArg (_ :: ·) (elementsOf_contentsFrom "" ns)
  | s, .root _ :: ns | s, .comment _ :: ns | s, .instruction .. :: ns =>
    elementsOf_contentsFrom s ns

/-- **No element is left out.** -/
theorem elementsOf_contents (ns : List Node) : elementsOf (contents ns) = elementsOf ns :=
  elementsOf_contentsFrom "" ns

theorem mem_elementsOf {t : Tag} {cs : List Node} {ns : List Node} :
    (t, cs) ∈ elementsOf ns ↔ .element t cs ∈ ns := by
  rw [elementsOf, List.mem_filterMap]
  constructor
  · rintro ⟨n, hn, he⟩
    cases n <;> cases he
    exact hn
  · exact fun h => ⟨_, h, rfl⟩

/-- Nothing is left out of elements. -/
theorem contents_eq_self : ∀ {ns : List Node}, (∀ n ∈ ns, n.isElement = true) → contents ns = ns
  | [], _ => rfl
  | .element t cs :: ns, h => by
    rw [contents, contentsFrom, if_pos rfl, List.nil_append]
    exact congrArg _ (contents_eq_self fun n hn => h n (List.mem_cons_of_mem _ hn))
  | .root _ :: _, h | .text _ :: _, h | .comment _ :: _, h | .instruction .. :: _, h =>
    absurd (h _ List.mem_cons_self) Bool.false_ne_true

theorem filter_contentsFrom {p : Node → Bool} (hp : ∀ n, n.isElement = false → p n = false) :
    ∀ (s : String) (ns : List Node), (contentsFrom s ns).filter p = ns.filter p
  | s, [] => by
    rw [contentsFrom]
    split
    · rfl
    · rw [List.filter_cons, hp _ rfl]
      rfl
  | s, .text r :: ns => by
    rw [contentsFrom, filter_contentsFrom hp, List.filter_cons, hp _ rfl]
    rfl
  | s, .element t cs :: ns => by
    have hnil : (if s = "" then [] else [.text s]).filter p = [] := by
      split
      · rfl
      · rw [List.filter_cons, hp _ rfl]
        rfl
    rw [contentsFrom, List.filter_append, hnil, List.nil_append, List.filter_cons,
      filter_contentsFrom hp, List.filter_cons]
  | s, .root _ :: ns | s, .comment _ :: ns | s, .instruction .. :: ns => by
    rw [contentsFrom, filter_contentsFrom hp, List.filter_cons, hp _ rfl]
    rfl

/-- **Elements of a kind** are the same in what is left. -/
theorem filter_contents {p : Node → Bool} (hp : ∀ n, n.isElement = false → p n = false)
    (ns : List Node) : (contents ns).filter p = ns.filter p :=
  filter_contentsFrom hp "" ns

theorem mem_contentsFrom {m : Node} : ∀ {s : String} {ns : List Node}, m ∈ contentsFrom s ns →
    m ∈ ns ∨ ∃ r, m = .text r
  | s, [], h => by
    rw [contentsFrom] at h
    split at h
    · cases h
    · exact .inr ⟨s, List.mem_singleton.1 h⟩
  | s, .text r :: ns, h => by
    rw [contentsFrom] at h
    exact (mem_contentsFrom h).imp_left (List.mem_cons_of_mem _)
  | s, .element t cs :: ns, h => by
    rw [contentsFrom, List.mem_append, List.mem_cons] at h
    obtain h | rfl | h := h
    · split at h
      · cases h
      · exact .inr ⟨s, List.mem_singleton.1 h⟩
    · exact .inl List.mem_cons_self
    · exact (mem_contentsFrom h).imp_left (List.mem_cons_of_mem _)
  | s, .root _ :: ns, h | s, .comment _ :: ns, h | s, .instruction .. :: ns, h => by
    rw [contentsFrom] at h
    exact (mem_contentsFrom h).imp_left (List.mem_cons_of_mem _)

theorem tagsOf_contents (ns : List Node) : tagsOf (contents ns) ⊆ tagsOf ns := by
  intro t ht
  rw [tagsOf_eq_flatMap, List.mem_flatMap] at ht ⊢
  obtain ⟨m, hm, ht⟩ := ht
  obtain hm | ⟨r, rfl⟩ := mem_contentsFrom hm
  · exact ⟨m, hm, ht⟩
  · cases ht

end Xml.Node

namespace Xml.Fragment

/-! ## A text in front -/

theorem joinTo_nil (f : Fragment) : joinTo f [] = [f] := by
  cases f <;> rfl

theorem element_joinTo (name : String) (attributes : List (String × String))
    (content fs : List Fragment) :
    joinTo (.element name attributes content) fs = .element name attributes content :: fs := rfl

theorem joinTo_element (f : Fragment) (name : String) (attributes : List (String × String))
    (content fs : List Fragment) : joinTo f (.element name attributes content :: fs) =
      f :: .element name attributes content :: fs := by
  cases f <;> rfl

theorem joinTo_joinTo (s r : String) (fs : List Fragment) :
    joinTo (.text s) (joinTo (.text r) fs) = joinTo (.text (s ++ r)) fs := by
  cases fs with
  | nil => rfl
  | cons f fs => cases f <;> simp [joinTo, String.append_assoc]

/-- An empty text in front changes nothing. -/
theorem backAll_joinTo_empty (inherited : List Declaration) (start : ℕ) (fs : List Fragment) :
    backAll inherited start (joinTo (.text "") fs) = backAll inherited start fs := by
  have hempty (gs : List Fragment) :
      backAll inherited start (.text "" :: gs) = backAll inherited start gs := by
    rw [backAll, back]
    simp [chars]
  cases fs with
  | nil => exact hempty []
  | cons f fs =>
    cases f with
    | text s => rw [joinTo, String.empty_append]
    | element name attributes content => exact hempty _

end Xml.Fragment

namespace Rules

open Node (contents contentsFrom)

/-! ## What is written -/

/-- **A tag of which copies can be written and read.** -/
def Writable (t : Tag) : Prop :=
  t.Proper ∧ t.lookup? (some "xmlns") = none

/-- **Fragments that are written for some nodes** that stand in an element: a copy for each element,
of which it is known what is in scope around it, and the texts. -/
inductive Writes : Option Tag → List Node → List Fragment → Prop
  | nil {outer : Option Tag} : Writes outer [] []
  | text {outer : Option Tag} {s : String} {ns : List Node} {fs : List Fragment} :
      Writes outer ns fs → Writes outer (.text s :: ns) (.text s :: fs)
  | element {outer scope : Option Tag} {t : Tag} {cs ns : List Node} {content fs : List Fragment} :
      (scope = none ∨ scope = outer) → Writes (some t) cs content → Writes outer ns fs →
      Writes outer (.element t cs :: ns) (copyOf t scope id content :: fs)
  | comment {outer : Option Tag} {s : String} {ns : List Node} {fs : List Fragment} :
      Writes outer ns fs → Writes outer (.comment s :: ns) fs
  | instruction {outer : Option Tag} {target value : String} {ns : List Node}
      {fs : List Fragment} :
      Writes outer ns fs → Writes outer (.instruction target value :: ns) fs
  | root {outer : Option Tag} {cs ns : List Node} {fs : List Fragment} :
      Writes outer ns fs → Writes outer (.root cs :: ns) fs

namespace Writes

variable {outer : Option Tag} {ns ms : List Node} {fs gs : List Fragment}

theorem append (h : Writes outer ns fs) (hmore : Writes outer ms gs) :
    Writes outer (ns ++ ms) (fs ++ gs) := by
  induction h with
  | nil => exact hmore
  | text _ ih => exact .text (ih hmore)
  | element hscope hcontent _ _ ih => exact .element hscope hcontent (ih hmore)
  | comment _ ih => exact .comment (ih hmore)
  | instruction _ ih => exact .instruction (ih hmore)
  | root _ ih => exact .root (ih hmore)

/-- Nodes that are written as they are anywhere can also be written inside an element. -/
theorem within (h : Writes none ns fs) : Writes outer ns fs := by
  generalize hnone : (none : Option Tag) = source at h
  induction h with
  | nil => exact .nil
  | text _ ih => exact .text (ih hnone)
  | @element source scope _ _ _ _ _ hscope hcontent _ _ ih =>
    have hroot : scope = none := hscope.elim id fun heq => heq.trans hnone.symm
    exact .element (.inl hroot) hcontent (ih hnone)
  | comment _ ih => exact .comment (ih hnone)
  | instruction _ ih => exact .instruction (ih hnone)
  | root _ ih => exact .root (ih hnone)

/-- **The names in what is written are names.** -/
theorem allNamed (h : Writes outer ns fs)
    (hns : ∀ t ∈ Node.tagsOf ns, Writable t) : Fragment.AllNamed fs := by
  induction h with
  | nil => trivial
  | text _ ih =>
    rw [Node.tagsOf_cons, List.forall_mem_append] at hns
    exact ⟨trivial, ih hns.2⟩
  | element _ _ _ ihcontent ih =>
    rw [Node.tagsOf_cons, Node.tags_element, List.cons_append, List.forall_mem_cons,
      List.forall_mem_append] at hns
    rw [copyOf, Fragment.AllNamed, Fragment.Named]
    exact ⟨⟨rawName?_copiedName hns.1.1, rawName?_copiedAttributes hns.1.1 hns.1.2,
      ihcontent hns.2.1⟩, ih hns.2.2⟩
  | comment _ ih | instruction _ ih | root _ ih =>
    rw [Node.tagsOf_cons, List.forall_mem_append] at hns
    exact ih hns.2

end Writes

mutual

/-- **A node is copied** with all below it. -/
theorem writes_copyRules (scope : Option Tag) : ∀ n : Node, Writes scope [n] (copyRules scope n)
  | .text _ => .text .nil
  | .element t cs => .element (.inr rfl) (writes_copyAllRules (some t) cs) .nil
  | .root _ => .root .nil
  | .comment _ => .comment .nil
  | .instruction .. => .instruction .nil

/-- **Nodes are copied** with all below them. -/
theorem writes_copyAllRules (scope : Option Tag) : ∀ ns : List Node,
    Writes scope ns (copyAllRules scope ns)
  | [] => .nil
  | n :: ns => (writes_copyRules scope n).append (writes_copyAllRules scope ns)

end

/-! ## What is read -/

mutual

/-- **A node and what a copy of it is read as** below some declarations and inside an element. -/
inductive Reread : List Declaration → Option Tag → Node → Node → Prop
  | text {inherited : List Declaration} {outer : Option Tag} {s : String} :
      Reread inherited outer (.text s) (.text (textBack s))
  | element {inherited : List Declaration} {outer scope : Option Tag} {t o : Tag} {start : ℕ}
      {name : RawName} {cs os : List Node} : (scope = none ∨ scope = outer) →
      tagBack inherited start (copiedName t) (copiedAttributes t scope id) = some (name, o) →
      AllReread o.scope (some t) (contents cs) os →
      Reread inherited outer (.element t cs) (.element o os)

/-- Nodes and what copies of them are read as, one by one. -/
inductive AllReread : List Declaration → Option Tag → List Node → List Node → Prop
  | nil {inherited : List Declaration} {outer : Option Tag} : AllReread inherited outer [] []
  | cons {inherited : List Declaration} {outer : Option Tag} {n m : Node} {ns ms : List Node} :
      Reread inherited outer n m → AllReread inherited outer ns ms →
      AllReread inherited outer (n :: ns) (m :: ms)

end

theorem AllReread.append {inherited : List Declaration} {outer : Option Tag} :
    ∀ {ns ms ns' ms' : List Node}, AllReread inherited outer ns ms →
      AllReread inherited outer ns' ms' → AllReread inherited outer (ns ++ ns') (ms ++ ms')
  | _, _, _, _, .nil, h => h
  | _, _, _, _, .cons hn hns, h => .cons hn (hns.append h)

theorem allReread_text {inherited : List Declaration} {outer : Option Tag} (s : String) :
    AllReread inherited outer (if s = "" then [] else [.text s])
      (if s = "" then [] else [.text (textBack s)]) := by
  split
  · exact .nil
  · exact .cons .text .nil

/-- **What is written for nodes is read as them**, one by one. The induction is on what is written,
with the text in front of it that the next text would join. -/
theorem reread_of_backAll {outer : Option Tag} {ns : List Node} {fs : List Fragment}
    (h : Writes outer ns fs) : ∀ {inherited : List Declaration} {start : ℕ} {s : String}
      {nodes : List Node}, Fragment.backAll inherited start
        (Fragment.joinTo (.text s) (Fragment.joinedAll fs)) = some nodes →
        AllReread inherited outer (contentsFrom s ns) nodes := by
  induction h with
  | nil =>
    intro inherited start s nodes hback
    rw [Fragment.joinedAll, Fragment.joinTo_nil, Fragment.backAll, Fragment.back] at hback
    obtain rfl : _ ++ [] = nodes := Option.some.inj hback
    rw [List.append_nil, contentsFrom]
    exact allReread_text s
  | text _ ih =>
    intro inherited start s nodes hback
    rw [Fragment.joinedAll, Fragment.joined, Fragment.joinTo_joinTo] at hback
    rw [contentsFrom]
    exact ih hback
  | @element outer scope t cs ns content fs hscope _ _ ihcontent ih =>
    intro inherited start s nodes hback
    rw [Fragment.joinedAll, copyOf, Fragment.joined, Fragment.element_joinTo,
      Fragment.joinTo_element, Fragment.backAll, Fragment.back, Fragment.backAll,
      Fragment.back] at hback
    simp only [Option.bind_eq_bind, Option.bind_some, Option.bind_eq_some_iff, Prod.exists]
      at hback
    obtain ⟨_, ⟨_, ⟨n, o, htag, os, hos, hfirst⟩, more, hmore, hrest⟩, hnodes⟩ := hback
    obtain rfl := Option.some.inj hfirst
    obtain rfl := Option.some.inj hrest
    obtain rfl := Option.some.inj hnodes
    rw [← Fragment.backAll_joinTo_empty] at hos hmore
    rw [contentsFrom]
    exact (allReread_text s).append (.cons (.element hscope htag (ihcontent hos)) (ih hmore))
  | comment _ ih | instruction _ ih | root _ ih =>
    intro inherited start s nodes hback
    rw [contentsFrom]
    exact ih hback

/-- **An element that is written as one document** stands for what its copy is read as. -/
theorem back_of_written {d d' : Document} {t : Tag} {content : List Fragment}
    (hnamed : (copyOf t none id content).Named)
    (h : writtenAll [copyOf t none id content] d = .ok d') :
    ∃ name o os start, d'.root = .root [.element o os] ∧
      tagBack [] 0 (copiedName t) (copiedAttributes t none id) = some (name, o) ∧
      Fragment.backAll o.scope start (Fragment.joinedAll content) = some os := by
  have htext := ofText_of_writtenAll h
  rw [renderAll_singleton] at htext
  obtain ⟨n, hback, hroot⟩ := Fragment.back_of_ofText_render hnamed htext
  obtain ⟨name, o, os, htag, hos, hn⟩ := Fragment.back_element_eq_some_iff.1 hback
  obtain rfl := List.singleton_inj.1 hn
  exact ⟨name, o, os, _, hroot, htag, hos⟩

/-- **An element that is written as one document is read as itself.** -/
theorem reread_of_written {d d' : Document} {t : Tag} {cs : List Node} {content : List Fragment}
    (hcontent : Writes (some t) cs content)
    (hns : ∀ s ∈ (Node.element t cs).tags, Writable s)
    (h : writtenAll [copyOf t none id content] d = .ok d') :
    ∃ o os, d'.root = .root [.element o os] ∧
      Reread [] none (.element t cs) (.element o os) := by
  have hwrites : Writes none [.element t cs] [copyOf t none id content] :=
    .element (.inl rfl) hcontent .nil
  obtain ⟨name, o, os, start, hroot, htag, hos⟩ :=
    back_of_written (hwrites.allNamed (by simpa using hns)).1 h
  rw [← Fragment.backAll_joinTo_empty] at hos
  exact ⟨o, os, hroot, .element (.inl rfl) htag (reread_of_backAll hcontent hos)⟩

theorem AllReread.forall₂ {inherited : List Declaration} {outer : Option Tag} :
    ∀ {ns ms : List Node}, AllReread inherited outer ns ms →
      List.Forall₂ (Reread inherited outer) ns ms
  | _, _, .nil => .nil
  | _, _, .cons hn hns => .cons hn hns.forall₂

theorem exists_of_mem_forall₂ {α β : Type} {R : α → β → Prop} {b : β} :
    ∀ {as : List α} {bs : List β}, List.Forall₂ R as bs → b ∈ bs → ∃ a ∈ as, R a b
  | _, _, .cons hR h, hb => by
    obtain rfl | hb := List.mem_cons.1 hb
    · exact ⟨_, List.mem_cons_self, hR⟩
    · obtain ⟨a, ha, hR⟩ := exists_of_mem_forall₂ h hb
      exact ⟨a, List.mem_cons_of_mem _ ha, hR⟩

/-! ## What is carried over -/

/-- **A node is carried over**: texts are read as they come back, and every element becomes one with
a tag that is related to its own and with the same content, carried over in turn. -/
inductive CarriedWith (R : Tag → Tag → Prop) : Node → Node → Prop
  | text (s : String) : CarriedWith R (.text s) (.text (textBack s))
  | element {t o : Tag} {cs os : List Node} : R t o →
      List.Forall₂ (CarriedWith R) (contents cs) os → CarriedWith R (.element t cs) (.element o os)

mutual

/-- **Every element that is read is one that was carried over.** -/
theorem CarriedWith.exists_of_mem_tags {R : Tag → Tag → Prop} {o : Tag} : ∀ {n m : Node},
    CarriedWith R n m → o ∈ m.tags → ∃ t ∈ n.tags, R t o
  | _, _, .text _, ho => by cases ho
  | _, _, @CarriedWith.element _ t o' cs os hR hos, ho => by
    rw [Node.tags_element] at ho ⊢
    obtain rfl | ho := List.mem_cons.1 ho
    · exact ⟨t, List.mem_cons_self, hR⟩
    · obtain ⟨s, hs, hR⟩ := exists_of_mem_tagsOf hos ho
      exact ⟨s, List.mem_cons_of_mem t (Node.tagsOf_contents cs hs), hR⟩

theorem exists_of_mem_tagsOf {R : Tag → Tag → Prop} {o : Tag} : ∀ {ns ms : List Node},
    List.Forall₂ (CarriedWith R) ns ms → o ∈ Node.tagsOf ms → ∃ t ∈ Node.tagsOf ns, R t o
  | _, _, .nil, ho => by cases ho
  | _, _, .cons hn hns, ho => by
    rw [Node.tagsOf_cons] at ho ⊢
    obtain ho | ho := List.mem_append.1 ho
    · obtain ⟨t, ht, hR⟩ := hn.exists_of_mem_tags ho
      exact ⟨t, List.mem_append_left _ ht, hR⟩
    · obtain ⟨t, ht, hR⟩ := exists_of_mem_tagsOf hns ho
      exact ⟨t, List.mem_append_right _ ht, hR⟩

end

end Rules

end XmlConformance
