import Mathlib.Data.List.Pairwise
import XmlConformance.Proofs.Xml.Parsing
import XmlConformance.Proofs.Xml.Reading
import XmlConformance.Proofs.Xml.Subtrees

/-!
# Proofs/Xml/Names — the names in a document that was read

Whatever text a document was read from, the names in its tree are names: local names and labels are
without a colon (`IsName`), no attribute is called `xmlns`, and a label is bound once at each
element (`Tag.Proper`). Labels and local names can therefore be put together again and are split
where they were joined (`IsName.joined`). Start tags are the only pieces of markup that bring names
into a tree; opening an element hands on what is declared around it (`Tag.Inherits`), and
everything else that happens to a tree under construction leaves its tags as they are.
-/

namespace XmlConformance.Xml

open Reader (splitName rawName? beginsName)

/-! ## Names without a label -/

/-- A name without a label. -/
def IsName (s : String) : Prop :=
  rawName? s = some ⟨"", s⟩

instance (s : String) : Decidable (IsName s) :=
  inferInstanceAs (Decidable (_ = _))

theorem isName_xmlns : IsName "xmlns" := by decide +kernel

theorem isName_xml : IsName "xml" := by decide +kernel

theorem IsName.ne_empty {s : String} (h : IsName s) : s ≠ "" := by
  rintro rfl
  exact absurd h (by decide)

theorem isName_iff {s : String} : IsName s ↔
    (∀ c ∈ s.toList, isNameChar c = true) ∧ ':' ∉ s.toList ∧ beginsName s.toList = true := by
  rw [IsName, rawName?]
  by_cases hall : s.toList.all isNameChar = true
  · rw [if_pos hall, splitName]
    have hall := List.all_eq_true.1 hall
    split
    · case h_1 hnil =>
      have hcolon : ':' ∉ s.toList := fun hc =>
        absurd (List.dropWhile_eq_nil_iff.1 hnil _ hc) (by decide)
      simpa [hcolon] using fun _ => hall
    · case h_2 c rest hrest =>
      have hcolon : ':' ∈ s.toList := by
        have hc := List.head?_dropWhile_not (· != ':') s.toList
        rw [hrest] at hc
        have hc : c = ':' := by simpa using hc
        exact (List.dropWhile_suffix (· != ':')).subset (by rw [hrest, hc]; simp)
      refine iff_of_false (fun h => ?_) fun h => h.2.1 hcolon
      dsimp only at h
      split at h
      · case isTrue hsplit =>
        simp only [Option.some.injEq, RawName.mk.injEq] at h
        have hlocal : ':' ∉ rest := by simpa using (Bool.and_eq_true_iff.1 hsplit).2
        rw [← h.2, String.toList_ofList] at hcolon
        exact hlocal hcolon
      · cases h
  · rw [if_neg hall]
    refine iff_of_false (by simp) fun h => hall (List.all_eq_true.2 h.1)

theorem isName_ofList {cs : List Char} (hall : ∀ c ∈ cs, isNameChar c = true) (hcolon : ':' ∉ cs)
    (hbegins : beginsName cs = true) : IsName (String.ofList cs) :=
  isName_iff.2 (by rw [String.toList_ofList]; exact ⟨hall, hcolon, hbegins⟩)

/-- **A label and a local name that are joined** are read as the two. -/
theorem IsName.joined {label localName : String} (hlabel : IsName label)
    (hlocal : IsName localName) :
    rawName? (label ++ ":" ++ localName) = some ⟨label, localName⟩ := by
  obtain ⟨hlabelChars, hlabelColon, hlabelBegins⟩ := isName_iff.1 hlabel
  obtain ⟨hlocalChars, hlocalColon, hlocalBegins⟩ := isName_iff.1 hlocal
  have hchars : (label ++ ":" ++ localName).toList = label.toList ++ ':' :: localName.toList := by
    simp
  have hne : ∀ c ∈ label.toList, (c != ':') = true :=
    fun c hc => bne_iff_ne.2 fun heq => hlabelColon (heq ▸ hc)
  have hall : (label.toList ++ ':' :: localName.toList).all isNameChar = true := by
    rw [List.all_append, List.all_cons, List.all_eq_true.2 hlabelChars,
      List.all_eq_true.2 hlocalChars]
    decide
  rw [rawName?, hchars, if_pos hall, splitName,
    dropWhile_append_of_head hne (by simp), takeWhile_append_of_head hne (by simp)]
  dsimp only
  rw [if_pos]
  · rw [String.ofList_toList, String.ofList_toList]
  · simp [hlabelBegins, hlocalBegins, hlocalColon]

/-- A name as written whose parts are names; the label may be missing. -/
structure RawName.Proper (n : RawName) : Prop where
  label : n.label ≠ "" → IsName n.label
  localName : IsName n.localName

/-- A piece of markup with proper names. -/
def Markup.Proper : Markup → Prop
  | .openTag name attributes _ => name.Proper ∧ ∀ a ∈ attributes, a.name.Proper
  | _ => True

namespace Reader

variable {cs rest : List Char}

theorem proper_readRawName {n : RawName} (h : readRawName cs = some (n, rest)) : n.Proper := by
  rw [readRawName_eq] at h
  obtain ⟨n', hn, heq⟩ := Option.map_eq_some_iff.1 h
  obtain ⟨rfl, rfl⟩ := Prod.mk.inj heq
  have hall : ∀ c ∈ cs.takeWhile isNameChar, isNameChar c = true :=
    fun _ => List.mem_takeWhile_imp
  unfold splitName at hn
  split at hn
  · case h_1 hnil =>
    have hcolon : ':' ∉ cs.takeWhile isNameChar := fun hc =>
      absurd (List.dropWhile_eq_nil_iff.1 hnil _ hc) (by decide)
    obtain ⟨hbegins, hn⟩ := Option.ite_none_right_eq_some.1 hn
    obtain rfl := Option.some.inj hn
    exact ⟨fun h => absurd rfl h, isName_ofList hall hcolon hbegins⟩
  · case h_2 c localName hlocal =>
    obtain ⟨hsplit, hn⟩ := Option.ite_none_right_eq_some.1 hn
    obtain rfl := Option.some.inj hn
    simp only [Bool.and_eq_true, Bool.or_eq_true, Bool.not_eq_true', List.isEmpty_iff] at hsplit
    obtain ⟨⟨hlabel, hbegins⟩, hcolon⟩ := hsplit
    have hlocalChars : ∀ d ∈ localName, isNameChar d = true := fun d hd =>
      hall d ((List.dropWhile_suffix (· != ':')).subset (by rw [hlocal]; simp [hd]))
    refine ⟨fun hne => ?_, isName_ofList hlocalChars (by simpa using hcolon) hbegins⟩
    refine isName_ofList (fun d hd => hall d (List.takeWhile_subset _ hd))
      (fun hd => absurd (List.mem_takeWhile_imp hd) (by decide))
      (hlabel.resolve_left fun hnil => ?_)
    rw [hnil] at hne
    exact hne rfl

theorem proper_readAttribute {a : RawAttribute} (h : readAttribute cs = some (a, rest)) :
    a.name.Proper := by
  unfold readAttribute at h
  split at h
  · cases h
  · case h_2 hname =>
    split at h
    · cases h
    · split at h
      · cases h
      · cases h
        exact proper_readRawName hname

theorem proper_readOpenTag {m : Markup} (h : readOpenTag cs = some (m, rest)) : m.Proper := by
  obtain ⟨name, attributes, selfClosing, rfl, ⟨_, hname⟩, hattributes⟩ := readOpenTag_eq_some h
  refine ⟨proper_readRawName hname, fun a ha => ?_⟩
  obtain ⟨_, _, ha⟩ := hattributes a ha
  exact proper_readAttribute ha

end Reader

/-! ## Tags -/

/-- Declarations that may be in scope: the labels are names and not declared twice, and nothing is
bound to the namespace of `xml`. -/
structure ProperScope (scope : List Declaration) : Prop where
  label : ∀ d ∈ scope, ∀ l ∈ d.label, IsName l
  uri : ∀ d ∈ scope, d.uri ≠ xmlUri
  distinct : scope.Pairwise fun d e => d.label = e.label → d.label = none

/-- A namespace that an attribute name can have: there is a label for it. -/
def HasLabel (scope : List Declaration) (uri : String) : Prop :=
  uri = xmlUri ∨ ∃ d ∈ scope, d.uri = uri ∧ d.label.isSome

/-- **A tag with proper names.** -/
structure Tag.Proper (t : Tag) : Prop where
  localName : IsName t.name.localName
  attributes : ∀ a ∈ t.attributes, IsName a.name.localName ∧ a.name.localName ≠ "xmlns"
  labels : ∀ a ∈ t.attributes, ∀ uri ∈ a.name.uri, HasLabel t.scope uri
  scope : ProperScope t.scope

namespace ProperScope

variable {scope inherited own : List Declaration}

theorem nil : ProperScope [] := ⟨nofun, nofun, .nil⟩

theorem eq_of_label_eq (h : ProperScope scope) {d e : Declaration} (hd : d ∈ scope)
    (he : e ∈ scope) {label : String} (hdl : d.label = some label) (hel : e.label = some label) :
    d = e := by
  by_contra hne
  have : Std.Symm fun d e : Declaration => d.label = e.label → d.label = none :=
    ⟨fun _ _ h heq => heq.trans (h heq.symm)⟩
  have hnone := h.distinct.forall hd he hne (hdl.trans hel.symm)
  rw [hdl] at hnone
  cases hnone

/-- A declaration in scope of a label is what the label stands for. -/
theorem find?_eq_some (h : ProperScope scope) {d : Declaration} (hd : d ∈ scope) {label : String}
    (hlabel : d.label = some label) : scope.find? (·.label == some label) = some d := by
  cases hfind : scope.find? (·.label == some label) with
  | none =>
    have hne := List.find?_eq_none.1 hfind d hd
    simp [hlabel] at hne
  | some e =>
    have he : e.label = some label := by simpa using List.find?_some hfind
    rw [h.eq_of_label_eq (List.mem_of_find?_eq_some hfind) hd he hlabel]

theorem add (h : ProperScope scope) {d : Declaration} (hlabel : ∀ l ∈ d.label, IsName l)
    (huri : d.uri ≠ xmlUri) (hnew : ∀ e ∈ scope, e.label = d.label → e.label = none) :
    ProperScope (scope ++ [d]) where
  label := List.forall_mem_append.2 ⟨h.label, List.forall_mem_singleton.2 hlabel⟩
  uri := List.forall_mem_append.2 ⟨h.uri, List.forall_mem_singleton.2 huri⟩
  distinct := List.pairwise_append.2 ⟨h.distinct, List.pairwise_singleton _ _,
    fun e he _ hd => List.mem_singleton.1 hd ▸ hnew e he⟩

theorem within (hinherited : ProperScope inherited) (hown : ProperScope own) :
    ProperScope (scopeWithin inherited own) :=
  scopeWithin_induction hinherited hown fun d hd _ hnew hscope =>
    hscope.add (hinherited.label d hd) (hinherited.uri d hd) fun e he heq =>
      absurd heq (hnew e he)

theorem declared (h : ProperScope own) {n : RawName} (hn : n.Proper) {value : String}
    {d : Declaration} (hd : bindingOf own n value = .declares d) : ProperScope (own ++ [d]) := by
  cases binds_of_bindingOf hd with
  | label _ _ new uri =>
    refine h.add (fun l hl => ?_) uri fun e he heq => absurd heq (new e he)
    obtain rfl := Option.some.inj hl
    exact hn.localName
  | default _ _ uri => exact h.add nofun uri.1 fun e _ heq => heq

end ProperScope

theorem label_ne_xml_of_bindingOf {own : List Declaration} {n : RawName} {v : String}
    {d : Declaration} (h : bindingOf own n v = .declares d) : d.label ≠ some "xml" := by
  cases binds_of_bindingOf h with
  | label _ hmay _ uri =>
    intro hlabel
    simp [mayBind, Option.some.inj hlabel, uri] at hmay
  | default => exact nofun

theorem localName_ne_xmlns_of_bindingOf {own : List Declaration} {n : RawName} {v : String}
    (h : bindingOf own n v = .plain) : n.localName ≠ "xmlns" := by
  cases binds_of_bindingOf h with
  | plain _ localName => exact localName

/-- **A start tag declares properly**, and none of its other attributes is called `xmlns`. -/
theorem proper_sortAttributes {entities : List Entity} {depth followed followed' : ℕ}
    {attributes : List RawAttribute} {own : List Declaration} {others : List (RawName × String)}
    (hattributes : ∀ a ∈ attributes, a.name.Proper)
    (h : sortAttributes entities depth attributes [] [] followed =
      some (own, others, followed')) :
    (ProperScope own ∧ ∀ d ∈ own, d.label ≠ some "xml") ∧
      ∀ a ∈ others, IsName a.1.localName ∧ a.1.localName ≠ "xmlns" := by
  refine preserved_sortAttributes
    (P := fun own => ProperScope own ∧ ∀ d ∈ own, d.label ≠ some "xml")
    (fun a ha own value d _ hd hown => ⟨hown.1.declared (hattributes a ha) hd, ?_⟩)
    (fun a ha own value _ hd => ⟨(hattributes a ha).localName, localName_ne_xmlns_of_bindingOf hd⟩)
    ⟨.nil, List.forall_mem_nil _⟩ (List.forall_mem_nil _) h
  exact List.forall_mem_append.2
    ⟨hown.2, List.forall_mem_singleton.2 (label_ne_xml_of_bindingOf hd)⟩

theorem hasLabel_of_attributeUri {scope : List Declaration} {label uri : String}
    (h : attributeUri scope label = some (some uri)) : HasLabel scope uri := by
  unfold attributeUri at h
  split at h
  · exact .inl (Option.some.inj (Option.some.inj h)).symm
  · split at h
    · cases h
    · obtain ⟨d, hd, huri⟩ := Option.map_eq_some_iff.1 h
      have hlabel : d.label = some label := by simpa using List.find?_some hd
      exact .inr ⟨d, List.mem_of_find?_eq_some hd, Option.some.inj huri, by rw [hlabel]; rfl⟩

/-- **A tag is proper** if the declarations around it are and its start tag is. -/
theorem Tag.proper_resolveTag {inherited own : List Declaration} {name : RawName}
    {others : List (RawName × String)} {start : ℕ} {tag : Tag} (hinherited : ProperScope inherited)
    (hown : ProperScope own) (hname : name.Proper)
    (hothers : ∀ a ∈ others, IsName a.1.localName ∧ a.1.localName ≠ "xmlns")
    (h : resolveTag inherited own name others start = some tag) : tag.Proper := by
  have hstart := resolveTag_eq_some_iff.1 h
  have hread := exists_mem_of_resolveAttributes hstart.attributes
  refine ⟨?_, fun b hb => ?_, fun b hb uri hsome => ?_, ?_⟩
  · rw [hstart.localName]
    exact hname.localName
  · obtain ⟨a, ha, -, hlocal, -⟩ := hread b hb
    rw [hlocal]
    exact hothers a ha
  · obtain ⟨a, -, huri, -, -⟩ := hread b hb
    exact hasLabel_of_attributeUri (huri.trans (congrArg some hsome))
  · rw [hstart.scope]
    exact hinherited.within hown

/-! ## Names as they are written -/

theorem IsName.nameText {s : String} (h : IsName s) : NameText s :=
  (isName_iff.1 h).1

namespace Tag.Proper

variable {t : Tag} {a : Attribute}

theorem nameText_qualifiedName (h : t.Proper) : NameText t.qualifiedName := by
  refine Tag.Clean.joinName (fun l hl => ?_) h.localName.nameText
  obtain ⟨uri, -, hl⟩ := Option.bind_eq_some_iff.1 hl
  obtain ⟨d, hd, hlabel⟩ := Option.map_eq_some_iff.1 (Option.join_eq_some_iff.1 hl)
  exact (h.scope.label d (List.mem_of_find?_eq_some hd) l hlabel).nameText

/-- **An attribute is written with a label** if it belongs to a namespace: with `xml`, or with the
label of a declaration in scope. -/
theorem attributeLabel_cases (h : t.Proper) (ha : a ∈ t.attributes) :
    (a.name.uri = none ∧ t.attributeLabel a.name = none) ∨
      ∃ u l, a.name.uri = some u ∧ t.attributeLabel a.name = some l ∧ IsName l ∧
        (u = xmlUri ∧ l = "xml" ∨ u ≠ xmlUri ∧ ∃ d ∈ t.scope, d.label = some l ∧ d.uri = u) := by
  obtain huri | ⟨u, huri⟩ := Option.eq_none_or_eq_some a.name.uri
  · exact .inl ⟨huri, by rw [Tag.attributeLabel, huri, Option.bind_none]⟩
  refine .inr ⟨u, ?_⟩
  by_cases hxml : u = xmlUri
  · refine ⟨"xml", huri, ?_, isName_xml, .inl ⟨hxml, rfl⟩⟩
    rw [Tag.attributeLabel, huri, Option.bind_some, if_pos (beq_iff_eq.2 hxml)]
  have hlabel : t.attributeLabel a.name = t.properLabelFor? u := by
    rw [Tag.attributeLabel, huri, Option.bind_some, if_neg (by simpa using hxml)]
  cases hfind : t.properLabelFor? u with
  | none =>
    obtain ⟨d, hd, hdu, hdl⟩ := (h.labels a ha u huri).resolve_left hxml
    have hnone := List.findSome?_eq_none_iff.1 hfind d (List.mem_filter.2 ⟨hd, by simp [hdu]⟩)
    rw [hnone] at hdl
    cases hdl
  | some l =>
    obtain ⟨d, hd, hdl⟩ := List.exists_of_findSome?_eq_some hfind
    obtain ⟨hd, hdu⟩ := List.mem_filter.1 hd
    exact ⟨l, huri, hlabel.trans hfind, h.scope.label d hd l hdl,
      .inr ⟨hxml, d, hd, hdl, by simpa using hdu⟩⟩

theorem nameText_attributeName (h : t.Proper) (ha : a ∈ t.attributes) :
    NameText (t.attributeName a.name) := by
  refine Tag.Clean.joinName (fun l hl => ?_) (h.attributes a ha).1.nameText
  obtain ⟨-, hlabel⟩ | ⟨u, m, -, hlabel, hm, -⟩ := h.attributeLabel_cases ha
  all_goals
    rw [hlabel] at hl
    cases hl
  exact hm.nameText

/-- **The name of an attribute is read** as its label and its local name. -/
theorem rawName?_attributeName (h : t.Proper) (ha : a ∈ t.attributes) :
    rawName? (t.attributeName a.name) =
      some ⟨(t.attributeLabel a.name).getD "", a.name.localName⟩ := by
  have hlocal := (h.attributes a ha).1
  rw [Tag.attributeName]
  obtain ⟨-, hlabel⟩ | ⟨u, l, -, hlabel, hl, -⟩ := h.attributeLabel_cases ha
  · rw [hlabel]
    exact hlocal
  · rw [hlabel]
    exact hl.joined hlocal

end Tag.Proper

/-! ## Trees -/

/-- **A tag whose own name was looked up**: it is of a namespace that is declared, or of none where
there is no default. `xml` is not declared anew. -/
structure Tag.Resolved (t : Tag) : Prop extends t.Proper where
  xml : ∀ d ∈ t.scope, d.label ≠ some "xml"
  declared : ∀ u ∈ t.name.uri, ∃ d ∈ t.scope, d.uri = u
  undeclared : t.name.uri = none → t.lookup? none = none

/-- Declarations that can be handed on. -/
structure HandedScope (scope : List Declaration) : Prop extends ProperScope scope where
  xml : ∀ d ∈ scope, d.label ≠ some "xml"

/-- **A tag of an element below some declarations**, which the element hands on. -/
structure Tag.Inherits (inherited : List Declaration) (t : Tag) : Prop extends t.Resolved where
  handed : ∃ own, t.scope = scopeWithin inherited own
  distinct : t.attributes.Pairwise fun a b => a.name ≠ b.name

theorem exists_mem_of_elementUri {scope : List Declaration} {label u : String}
    (h : elementUri scope label = some (some u)) : ∃ d ∈ scope, d.uri = u := by
  unfold elementUri at h
  dsimp only at h
  split at h
  · case h_1 d hfind =>
    exact ⟨d, List.mem_of_find?_eq_some hfind, Option.some.inj (Option.some.inj h)⟩
  · split at h <;> cases h

theorem find?_none_of_elementUri {scope : List Declaration} {label : String}
    (h : elementUri scope label = some none) : scope.find? (·.label == none) = none := by
  unfold elementUri at h
  dsimp only at h
  split at h
  · cases h
  · case h_2 hfind =>
    rwa [if_pos (Option.ite_none_right_eq_some.1 h).1] at hfind

theorem Tag.inherits_resolveTag {inherited own : List Declaration} {name : RawName}
    {others : List (RawName × String)} {start : ℕ} {tag : Tag}
    (hinherited : HandedScope inherited) (hown : ProperScope own)
    (hxml : ∀ d ∈ own, d.label ≠ some "xml") (hname : name.Proper)
    (hothers : ∀ a ∈ others, IsName a.1.localName ∧ a.1.localName ≠ "xmlns")
    (h : resolveTag inherited own name others start = some tag) : tag.Inherits inherited := by
  have hproper := Tag.proper_resolveTag hinherited.toProperScope hown hname hothers h
  have hstart := resolveTag_eq_some_iff.1 h
  refine ⟨⟨hproper, fun d hd => ?_, fun u hu => ?_, fun hnone => ?_⟩, ⟨own, hstart.scope⟩,
    pairwise_resolveAttributes .nil hstart.attributes⟩
  · rw [hstart.scope] at hd
    exact (mem_scopeWithin hd).elim (hinherited.xml d) (hxml d)
  · exact exists_mem_of_elementUri (hstart.uri.trans (congrArg some hu))
  · exact Option.map_eq_none_iff.2
      (find?_none_of_elementUri (hstart.uri.trans (congrArg some hnone)))

/-- **Attributes that are written alike** have the same name. -/
theorem Tag.Resolved.name_eq_of_attributeName_eq {t : Tag} (h : t.Resolved) {a b : Attribute}
    (ha : a ∈ t.attributes) (hb : b ∈ t.attributes)
    (heq : t.attributeName a.name = t.attributeName b.name) : a.name = b.name := by
  have hread := h.rawName?_attributeName ha
  rw [heq, h.rawName?_attributeName hb, Option.some.injEq, RawName.mk.injEq] at hread
  obtain ⟨hlabel, hlocal⟩ := hread
  suffices huri : a.name.uri = b.name.uri from
    ExpandedName.mk.injEq _ _ _ _ ▸ ⟨huri, hlocal.symm⟩
  rcases h.attributeLabel_cases ha with ⟨hau, hal⟩ | ⟨u, l, hau, hal, hl, hfor⟩ <;>
    rcases h.attributeLabel_cases hb with ⟨hbu, hbl⟩ | ⟨v, m, hbu, hbl, hm, hfor'⟩ <;>
      rw [hal, hbl] at hlabel <;> rw [hau, hbu]
  · exact absurd hlabel hm.ne_empty
  · exact absurd hlabel.symm hl.ne_empty
  · obtain rfl : m = l := hlabel
    obtain ⟨rfl, hxml⟩ | ⟨-, d, hd, hdl, rfl⟩ := hfor
    · obtain ⟨rfl, -⟩ | ⟨-, e, he, hel, -⟩ := hfor'
      · rfl
      · exact absurd (hxml ▸ hel) (h.xml e he)
    · obtain ⟨-, hxml⟩ | ⟨-, e, he, hel, rfl⟩ := hfor'
      · exact absurd (hxml ▸ hdl) (h.xml d hd)
      · rw [h.scope.eq_of_label_eq hd he hdl hel]

theorem Tag.Resolved.handedScope {t : Tag} (h : t.Resolved) : HandedScope t.scope :=
  ⟨h.scope, h.xml⟩

namespace Node

/-- A tree whose tags are proper. -/
def Proper (n : Node) : Prop :=
  ∀ t ∈ n.tags, t.Proper

mutual

/-- **A tree in which every element hands its declarations on** to the elements in it. -/
def Inherits (inherited : List Declaration) : Node → Prop
  | .element t cs => t.Inherits inherited ∧ AllInherit t.scope cs
  | .root cs => AllInherit inherited cs
  | _ => True

/-- Trees in which every element hands its declarations on. -/
def AllInherit (inherited : List Declaration) : List Node → Prop
  | [] => True
  | n :: ns => n.Inherits inherited ∧ AllInherit inherited ns

end

theorem inherits_comment (inherited : List Declaration) (s : String) :
    (comment s).Inherits inherited := trivial

theorem inherits_instruction (inherited : List Declaration) (target value : String) :
    (instruction target value).Inherits inherited := trivial

theorem allInherit_iff {inherited : List Declaration} : ∀ {ns : List Node},
    AllInherit inherited ns ↔ ∀ n ∈ ns, n.Inherits inherited
  | [] => iff_of_true trivial (List.forall_mem_nil _)
  | n :: ns => by rw [AllInherit, allInherit_iff, List.forall_mem_cons]

mutual

/-- **The tags of a tree in which declarations are handed on** stand below some declarations. -/
theorem Inherits.tags {inherited : List Declaration} : ∀ {n : Node}, n.Inherits inherited →
    ∀ t ∈ n.tags, ∃ around, t.Inherits around
  | .element _ _, h => List.forall_mem_cons.2 ⟨⟨inherited, h.1⟩, AllInherit.tagsOf h.2⟩
  | .root _, h => AllInherit.tagsOf h
  | .text _, _ | .comment _, _ | .instruction .., _ => List.forall_mem_nil _

theorem AllInherit.tagsOf {inherited : List Declaration} : ∀ {ns : List Node},
    AllInherit inherited ns → ∀ t ∈ tagsOf ns, ∃ around, t.Inherits around
  | [], _ => List.forall_mem_nil _
  | n :: ns, h => by
    rw [tagsOf_cons]
    exact List.forall_mem_append.2 ⟨Inherits.tags h.1, AllInherit.tagsOf h.2⟩

end

theorem Inherits.resolved {inherited : List Declaration} {n : Node} (h : n.Inherits inherited) :
    ∀ t ∈ n.tags, t.Resolved :=
  fun t ht => (h.tags t ht).elim fun _ h => h.toResolved

/-- **The names in trees in which declarations are handed on** were looked up. -/
theorem AllInherit.resolved {inherited : List Declaration} {ns : List Node}
    (h : AllInherit inherited ns) : ∀ t ∈ Node.tagsOf ns, t.Resolved :=
  fun t ht => (AllInherit.tagsOf h t ht).elim fun _ h => h.toResolved

end Node

/-! ## The tree under construction -/

/-- Open elements each of which stands below the ones around it, with what they hold. -/
def Frame.AllInherit : List Frame → Prop
  | [] => True
  | f :: outer =>
    f.tag.Inherits (Builder.scope ⟨outer, [], 0⟩) ∧ (∀ n ∈ f.reversed, n.Inherits f.tag.scope) ∧
      AllInherit outer

/-- A tree under construction in which every element hands its declarations on. -/
structure Builder.Inherits (b : Builder) : Prop where
  frames : Frame.AllInherit b.frames
  reversed : ∀ n ∈ b.reversed, n.Inherits []

namespace Builder.Inherits

variable {b : Builder}

theorem empty : Builder.empty.Inherits := ⟨trivial, nofun⟩

theorem counted (h : b.Inherits) (followed : ℕ) :
    Builder.Inherits { b with followed := followed } :=
  ⟨h.frames, h.reversed⟩

theorem scope (h : b.Inherits) : HandedScope b.scope := by
  unfold Builder.scope
  split
  · case h_1 f outer heq =>
    have hframes := h.frames
    rw [heq] at hframes
    exact hframes.1.handedScope
  · exact ⟨.nil, nofun⟩

theorem add (h : b.Inherits) {n : Node} (hn : n.Inherits b.scope) : (b.add n).Inherits := by
  unfold Builder.add
  unfold Builder.scope at hn
  split
  · case h_1 f outer heq =>
    have hframes := h.frames
    rw [heq] at hframes hn
    exact ⟨⟨hframes.1, List.forall_mem_cons.2 ⟨hn, hframes.2.1⟩, hframes.2.2⟩, h.reversed⟩
  · case h_2 heq =>
    rw [heq] at hn
    exact ⟨h.frames, List.forall_mem_cons.2 ⟨hn, h.reversed⟩⟩

theorem addTextTo {inherited : List Declaration} {reversed : List Node}
    (h : ∀ n ∈ reversed, n.Inherits inherited) (s : String) :
    ∀ n ∈ Builder.addTextTo reversed s, n.Inherits inherited := by
  unfold Builder.addTextTo
  split
  · rw [List.forall_mem_cons] at h
    exact List.forall_mem_cons.2 ⟨trivial, h.2⟩
  · exact List.forall_mem_cons.2 ⟨trivial, h⟩

theorem addText (h : b.Inherits) (s : String) : (b.addText s).Inherits := by
  unfold Builder.addText
  split
  · case h_1 f outer heq =>
    have hframes := h.frames
    rw [heq] at hframes
    exact ⟨⟨hframes.1, addTextTo hframes.2.1 s, hframes.2.2⟩, h.reversed⟩
  · exact ⟨h.frames, addTextTo h.reversed s⟩

theorem openElement (h : b.Inherits) (label : String) {tag : Tag} (htag : tag.Inherits b.scope) :
    (b.openElement label tag).Inherits :=
  ⟨⟨htag, nofun, h.frames⟩, h.reversed⟩

theorem closeElement (h : b.Inherits) {name : RawName} {b' : Builder}
    (hb : b.closeElement name = some b') : b'.Inherits := by
  unfold Builder.closeElement at hb
  split at hb
  · case h_1 f outer heq =>
    have hframes := h.frames
    rw [heq] at hframes
    split at hb
    · cases hb
      have houter : Builder.Inherits { b with frames := outer } := ⟨hframes.2.2, h.reversed⟩
      exact houter.add ⟨hframes.1, Node.allInherit_iff.2
        fun n hn => hframes.2.1 n (List.mem_reverse.1 hn)⟩
    · cases hb
  · cases hb

theorem finish (h : b.Inherits) {root : Node} (hroot : b.finish = some root) :
    root.Inherits [] := by
  obtain ⟨-, hroot⟩ := Option.ite_none_right_eq_some.1 hroot
  rw [← Option.some_inj.1 hroot]
  exact Node.allInherit_iff.2 fun n hn => h.reversed n (List.mem_reverse.1 hn)

end Builder.Inherits

/-! ## Content -/

namespace Content

variable {ctx : Context} {b b' : Builder}

theorem inherits_addElement {name : RawName} {attributes : List RawAttribute} {selfClosing : Bool}
    {start : ℕ} (hname : name.Proper) (hattributes : ∀ a ∈ attributes, a.name.Proper)
    (hb : b.Inherits) (h : addElement ctx name attributes selfClosing start b = some b') :
    b'.Inherits := by
  obtain ⟨own, others, followed, tag, hsorted, htag, rfl⟩ := exists_tag_of_addElement h
  obtain ⟨⟨hown, hxml⟩, hothers⟩ := proper_sortAttributes hattributes hsorted
  have htag := Tag.inherits_resolveTag hb.scope hown hxml hname hothers htag
  have hcounted := hb.counted followed
  split
  · exact hcounted.add ⟨htag, trivial⟩
  · exact hcounted.openElement _ htag

end Content

/-! ## Documents -/

/-- **Reading hands declarations on** to what is added to a tree under construction. -/
theorem Builder.Inherits.preserved : Builder.Preserved (fun _ => True) Builder.Inherits where
  empty := .empty
  counted followed hb := hb.counted followed
  comment _ hb := hb.add (Node.inherits_comment _ _)
  instruction _ _ hb := hb.add (Node.inherits_instruction _ _ _)
  text _ hb := hb.addText _
  element _ htag hadd hb := by
    obtain ⟨hname, hattributes⟩ := Reader.proper_readOpenTag htag
    exact Content.inherits_addElement hname hattributes hb hadd
  close hclosed hb := hb.closeElement hclosed

namespace Node

/-- **Every element of a document hands its declarations on**, whatever text it was read from. -/
theorem inherits_ofText {text : String} {root : Node} (h : ofText text = some root) :
    root.Inherits [] := by
  obtain ⟨b, hb, hfinish⟩ :=
    Builder.Inherits.preserved.exists_finish trivial (fun _ _ => trivial) h
  exact hb.finish hfinish

/-- **The tags of a document are proper**, whatever text it was read from. -/
theorem proper_ofText {text : String} {root : Node} (h : ofText text = some root) : root.Proper :=
  fun t ht => ((inherits_ofText h).resolved t ht).toProper

/-! ## The root element -/

theorem finish_eq_some {b : Builder} {root : Node} (h : b.finish = some root) :
    ∃ cs, root = .root cs ∧ cs.any isElement = true := by
  obtain ⟨hfinish, hroot⟩ := Option.ite_none_right_eq_some.1 h
  refine ⟨_, (Option.some.inj hroot).symm, ?_⟩
  rw [List.any_reverse]
  exact (Bool.and_eq_true_iff.1 hfinish).2

/-- **A document is a root with an element in it.** -/
theorem exists_root_ofText {text : String} {root : Node} (h : ofText text = some root) :
    ∃ cs, root = .root cs ∧ cs.any isElement = true := by
  obtain ⟨b, -, hfinish⟩ :=
    Builder.Inherits.preserved.exists_finish trivial (fun _ _ => trivial) h
  exact finish_eq_some hfinish

/-- **A document has a root element.** -/
theorem any_isElement_ofText {text : String} {root : Node} (h : ofText text = some root) :
    root.children.any isElement = true := by
  obtain ⟨cs, rfl, hany⟩ := exists_root_ofText h
  exact hany

end Node

end XmlConformance.Xml

namespace XmlConformance

open Xml

theorem Document.rootElement_mem (d : Document) :
    .element d.rootElement.1 d.rootElement.2 ∈ d.root.subtree := by
  cases hhead : d.root.elements.head? with
  | some e =>
    rw [Document.rootElement, hhead]
    exact Document.element_mem_subtree hhead
  | none =>
    obtain ⟨n, hn, helement⟩ := List.any_eq_true.1 (Node.any_isElement_ofText d.wellFormed)
    have hnil := List.filterMap_eq_nil_iff.1 (List.head?_eq_none_iff.1 hhead) n hn
    cases n with
    | element => cases hnil
    | root | text | comment | instruction => cases helement

end XmlConformance
