import XmlConformance.Proofs.Xml.Characters
import XmlConformance.Path.Location

/-!
# Proofs/Xml/Contents — trees of characters that documents may hold

A tree is clean if its texts, comments, values and namespaces are made of characters that a document
may hold, and its names and labels of characters of names (`Node.Clean`). Whatever is read off a
clean tree can be written into a document: string values, names and attributes. Locations hold
nothing but names, numbers and brackets (`PathText`), so they do not even change when they are
written and read again.
-/

namespace XmlConformance.Xml

/-! ## Names -/

/-- A name whose parts can be written. -/
structure ExpandedName.Clean (n : ExpandedName) : Prop where
  uri : ∀ u ∈ n.uri, XmlText u
  localName : NameText n.localName

/-- A declaration that can be written. -/
structure Declaration.Clean (d : Declaration) : Prop where
  label : ∀ l ∈ d.label, NameText l
  uri : XmlText d.uri

/-- An attribute that can be written. -/
structure Attribute.Clean (a : Attribute) : Prop where
  name : a.name.Clean
  value : XmlText a.value

/-- A tag that can be written. -/
structure Tag.Clean (t : Tag) : Prop where
  name : t.name.Clean
  attributes : ∀ a ∈ t.attributes, a.Clean
  scope : ∀ d ∈ t.scope, d.Clean

namespace Tag.Clean

variable {t : Tag}

theorem attribute? (h : t.Clean) {name : ExpandedName} {v : String}
    (hv : t.attribute? name = some v) : XmlText v := by
  obtain ⟨a, ha, rfl⟩ := Option.map_eq_some_iff.1 hv
  exact (h.attributes a (List.mem_of_find?_eq_some ha)).value

theorem plain? (h : t.Clean) {name v : String} (hv : t.plain? name = some v) : XmlText v :=
  h.attribute? hv

theorem joinName {label : Option String} {localName : String} (hlabel : ∀ l ∈ label, NameText l)
    (hname : NameText localName) : NameText (joinName label localName) := by
  cases label with
  | none => exact hname
  | some l => exact ((hlabel l rfl).append (by decide)).append hname

theorem labelFor? (h : t.Clean) {uri l : String} (hl : t.labelFor? uri = some (some l)) :
    NameText l := by
  obtain ⟨d, hd, hlabel⟩ := Option.map_eq_some_iff.1 hl
  exact (h.scope d (List.mem_of_find?_eq_some hd)).label l hlabel

theorem properLabelFor? (h : t.Clean) {uri l : String} (hl : t.properLabelFor? uri = some l) :
    NameText l := by
  obtain ⟨d, hd, hlabel⟩ := List.exists_of_findSome?_eq_some hl
  exact (h.scope d (List.mem_filter.1 hd).1).label l hlabel

theorem qualifiedName (h : t.Clean) : NameText t.qualifiedName := by
  refine joinName (fun l hl => ?_) h.name.localName
  obtain ⟨uri, -, hl⟩ := Option.bind_eq_some_iff.1 hl
  exact h.labelFor? (Option.join_eq_some_iff.1 hl)

theorem attributeName (h : t.Clean) {a : Attribute} (ha : a ∈ t.attributes) :
    NameText (t.attributeName a.name) := by
  refine joinName (fun l hl => ?_) (h.attributes a ha).name.localName
  obtain ⟨uri, -, hl⟩ := Option.bind_eq_some_iff.1 hl
  split at hl
  · obtain rfl : "xml" = l := Option.some.inj hl
    decide
  · exact h.properLabelFor? hl

end Tag.Clean

/-! ## Trees -/

namespace Node

mutual

/-- A tree whose texts and names can be written. -/
def Clean : Node → Prop
  | .root cs => AllClean cs
  | .element t cs => t.Clean ∧ AllClean cs
  | .text s | .comment s => XmlText s
  | .instruction target value => XmlText target ∧ XmlText value

/-- Trees whose texts and names can be written. -/
def AllClean : List Node → Prop
  | [] => True
  | n :: ns => n.Clean ∧ AllClean ns

end

theorem allClean_iff : ∀ {ns : List Node}, AllClean ns ↔ ∀ n ∈ ns, n.Clean
  | [] => by simp [AllClean]
  | n :: ns => by rw [AllClean, allClean_iff, List.forall_mem_cons]

theorem Clean.children {n : Node} (h : n.Clean) : ∀ c ∈ n.children, c.Clean := by
  cases n with
  | root cs => exact allClean_iff.1 h
  | element t cs => exact allClean_iff.1 h.2
  | text | comment | instruction => exact nofun

theorem Clean.at? : ∀ {p : Position} {n m : Node}, n.Clean → n.at? p = some m → m.Clean
  | [], n, m, h, hm => by
    obtain rfl : n = m := Option.some.inj hm
    exact h
  | i :: p, n, m, h, hm => by
    rw [Node.at?] at hm
    split at hm
    · case h_1 c hc => exact Clean.at? (h.children c (List.mem_of_getElem? hc)) hm
    · cases hm

mutual

theorem Clean.characters : ∀ {n : Node}, n.Clean → ∀ c ∈ n.characters, isXmlChar c = true
  | .root _, h => AllClean.charactersOf h
  | .element .., h => AllClean.charactersOf h.2
  | .text _, h => h
  | .comment _, _ | .instruction .., _ => nofun

theorem AllClean.charactersOf : ∀ {ns : List Node}, AllClean ns →
    ∀ c ∈ charactersOf ns, isXmlChar c = true
  | [], _ => nofun
  | _ :: _, h => fun c hc =>
    (List.mem_append.1 hc).elim (Clean.characters h.1 c) (AllClean.charactersOf h.2 c)

end

/-- **The string value of a node can be written.** -/
theorem Clean.stringValue {n : Node} (h : n.Clean) : XmlText n.stringValue := by
  cases n with
  | root cs => exact AllChars.ofList_iff.2 (AllClean.charactersOf h)
  | element t cs => exact AllChars.ofList_iff.2 (AllClean.charactersOf h.2)
  | text s | comment s => exact h
  | instruction target value => exact h.2

mutual

theorem Clean.subtree : ∀ {n : Node}, n.Clean → ∀ m ∈ n.subtree, m.Clean
  | .root _, h => List.forall_mem_cons.2 ⟨h, AllClean.subtrees h⟩
  | .element .., h => List.forall_mem_cons.2 ⟨h, AllClean.subtrees h.2⟩
  | .text _, h | .comment _, h | .instruction .., h => List.forall_mem_singleton.2 h

theorem AllClean.subtrees : ∀ {ns : List Node}, AllClean ns → ∀ m ∈ subtrees ns, m.Clean
  | [], _ => nofun
  | _ :: _, h => fun m hm =>
    (List.mem_append.1 hm).elim (Clean.subtree h.1 m) (AllClean.subtrees h.2 m)

end

end Node

/-! ## Locations -/

/-- The characters of locations. -/
def isPathChar (c : Char) : Bool :=
  isNameChar c || ['/', '[', ']', '@', '(', ')'].contains c

/-- A text of characters of locations. -/
abbrev PathText (s : String) : Prop := AllChars isPathChar s

theorem isXmlChar_of_isPathChar {c : Char} (h : isPathChar c = true) : isXmlChar c = true := by
  rw [isPathChar, Bool.or_eq_true, List.contains_iff_mem] at h
  obtain h | h := h
  · exact isXmlChar_of_isNameChar h
  · have hall : ∀ d ∈ ['/', '[', ']', '@', '(', ')'], isXmlChar d = true :=
      List.all_eq_true.1 (by decide)
    exact hall c h

theorem isPathChar_of_isDigit {c : Char} (h : c.isDigit = true) : isPathChar c = true := by
  rw [isPathChar, isNameChar_of_isDigit h, Bool.true_or]

theorem NameText.pathText {s : String} (h : NameText s) : PathText s :=
  h.mono fun c hc => by rw [isPathChar, hc, Bool.true_or]

theorem PathText.xmlText {s : String} (h : PathText s) : XmlText s :=
  h.mono fun _ => isXmlChar_of_isPathChar

theorem Node.Clean.stepName {n : Node} (h : n.Clean) : PathText n.stepName := by
  cases n with
  | element t cs => exact h.1.qualifiedName.pathText
  | text =>
    have h : PathText "text()" := by decide
    exact h
  | comment | instruction | root =>
    have h : PathText "node()" := by decide
    exact h

theorem Node.Clean.locationSteps : ∀ {p : Position} {n : Node}, n.Clean →
    ∀ s ∈ n.locationSteps p, PathText s
  | [], _, _ => nofun
  | i :: p, n, h => by
    rw [Node.locationSteps]
    refine List.forall_mem_cons.2 ⟨?_, ?_⟩
    · unfold Node.locationStep
      split
      · case h_1 c hc =>
        have hname := (h.children c (List.mem_of_getElem? hc)).stepName
        exact ((hname.append (by decide)).append (.repr (fun _ => isPathChar_of_isDigit) _)).append
          (by decide)
      · exact .empty
    · split
      · case h_1 c hc => exact (h.children c (List.mem_of_getElem? hc)).locationSteps
      · exact nofun

/-- **A location consists of names and numbers.** -/
theorem Node.Clean.location {root : Node} (h : root.Clean) (p : Position) :
    PathText (root.location p) := by
  have hslash : PathText "/" := by decide
  exact hslash.append (hslash.intercalate h.locationSteps)

end XmlConformance.Xml
