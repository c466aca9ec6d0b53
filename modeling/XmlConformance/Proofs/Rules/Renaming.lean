import XmlConformance.Proofs.Rules.Prefixes
import XmlConformance.Proofs.Xml.Unlabelled

/-!
# Proofs/Rules/Renaming — what a copy of an element is read as

A copy of an element of the rule language is called by the label `sch`, and a copy of any other
element by a label that it had. What the copy belongs to is what the label stands for there
(`name_of_tagBack`). So an element of the rule language stays one where `sch` stands for that
language (`isRule_of_lookup?`), and no other element becomes one where its own label does not
(`isRule_of_tagBack`). For that, the schema has to keep its labels apart (`Apart`). Attributes come
back in any case, with their values as they were passed on (`plain?_of_tagBack`).
-/

namespace XmlConformance.Rules

open Xml

variable {t o : Tag} {scope : Option Tag} {f : String → String} {inherited : List Declaration}
  {start : ℕ} {n : RawName} {localName : String}

/-! ## Names -/

theorem isRule_iff : t.isRule localName = true ↔
    t.name.uri.any isRuleUri = true ∧ t.name.localName = localName := by
  rw [Tag.isRule, beq_iff_eq, ruleName?_eq_some]

theorem elementUri_eq_some {declared : List Declaration} {label : String} {uri : Option String}
    (h : elementUri declared label = some uri) :
    uri = bound? declared (if label.isEmpty then none else some label) := by
  rw [elementUri_eq] at h
  split at h
  · case isTrue hlabel =>
    rw [if_pos hlabel]
    exact (Option.some.inj h).symm
  · case isFalse hlabel =>
    obtain ⟨u, hu, rfl⟩ := Option.map_eq_some_iff.1 h
    rw [if_neg hlabel, hu]

theorem eq_mk_iff {name : ExpandedName} {uri : Option String} :
    name = ⟨uri, localName⟩ ↔ name.uri = uri ∧ name.localName = localName := by
  cases name
  rw [ExpandedName.mk.injEq]

/-- **A copy belongs to what its label stands for**, and it keeps its local name. -/
theorem name_of_tagBack (ht : t.Proper)
    (h : tagBack inherited start (copiedName t) (copiedAttributes t scope f) = some (n, o)) :
    o.name = ⟨o.lookup? (copiedLabel? t), t.name.localName⟩ := by
  obtain ⟨hname, named, -, own, others, -, htag⟩ := tagBack_eq_some_iff.1 h
  have hstart := resolveTag_eq_some_iff.1 htag
  have huri := elementUri_eq_some hstart.uri
  have hlocal := hstart.localName
  rw [copiedName_eq] at hname
  cases hlabel : copiedLabel? t with
  | none =>
    rw [hlabel, show joinName none t.name.localName = t.name.localName from rfl,
      ht.localName] at hname
    obtain rfl := Option.some.inj hname
    exact eq_mk_iff.2 ⟨huri, hlocal⟩
  | some l =>
    have hl := isName_copiedLabel? ht l hlabel
    have hne : ¬l.isEmpty = true := by
      rintro hempty
      rw [String.isEmpty_iff.1 hempty] at hl
      exact absurd hl (by decide)
    rw [hlabel, joinName_some, hl.joined ht.localName] at hname
    obtain rfl := Option.some.inj hname
    rw [if_neg hne] at huri
    exact eq_mk_iff.2 ⟨huri, hlocal⟩

/-! ## Attributes -/

/-- An attribute of a copy as it is read, with the attribute that it was copied from. -/
structure AttributeOf (f : String → String) (a b : Attribute) : Prop where
  localName : b.name.localName = a.name.localName
  uri : b.name.uri = none ↔ a.name.uri = none
  value : b.value = valueBack (f a.value)

theorem exists_copiedAttributes_eq (t : Tag) (scope : Option Tag) (f : String → String) :
    ∃ declared, copiedAttributes t scope f = declared ++ t.writtenAttributes f ∧
      ∀ a ∈ declared, a = ("xmlns:sch", ruleUri) ∨ ∃ d ∈ t.scope, d.written = a := by
  unfold copiedAttributes
  split
  · refine ⟨_, rfl, List.forall_mem_map.2 fun d hd =>
      .inr ⟨d, newDeclarations_subset t scope hd, rfl⟩⟩
  · refine ⟨_, rfl, List.forall_mem_append.2 ⟨fun a ha => ?_, List.forall_mem_map.2 fun d hd => ?_⟩⟩
    · split at ha
      · exact .inl (List.mem_singleton.1 ha)
      · cases ha
    · exact .inr ⟨d, newDeclarations_subset t scope (List.mem_filter.1 hd).1, rfl⟩

/-- The attributes of a copy that declare nothing are those of the element. -/
theorem plainAttributes_copiedAttributes (ht : t.Proper)
    (hxmlns : t.lookup? (some "xmlns") = none) :
    plainAttributes (copiedAttributes t scope f) = t.writtenAttributes f := by
  obtain ⟨declared, heq, hdeclared⟩ := exists_copiedAttributes_eq t scope f
  rw [heq, plainAttributes, List.filter_append, List.filter_eq_nil_iff.2, List.nil_append,
    List.filter_eq_self]
  · refine List.forall_mem_map.2 fun a ha => ?_
    obtain ⟨m, hm, hdeclares, -⟩ := rawName?_attributeName ht hxmlns ha
    rw [hm, Option.any_some, hdeclares]
    rfl
  · intro a ha
    rw [Bool.not_eq_true', Bool.not_eq_false]
    obtain rfl | ⟨d, hd, rfl⟩ := hdeclared a ha
    · decide +kernel
    · obtain ⟨m, hm, hread⟩ := declaration?_written (ht.scope.label d hd)
      rw [hm, Option.any_some]
      by_contra hnot
      have hnone := declaration?_of_not_declares (Bool.eq_false_iff.2 hnot) ""
      rw [hread, if_neg (by simp [xmlUri])] at hnone
      cases hnone

/-- An attribute of a copy as it is read by the name that the attribute of the element is written
by. -/
structure ReadAttribute (t o : Tag) (f : String → String) (a b : Attribute) : Prop where
  mem : a ∈ t.attributes
  name : ∃ m, Reader.rawName? (t.attributeName a.name) = some m ∧
    attributeUri o.scope m.label = some b.name.uri ∧ b.name.localName = m.localName
  value : b.value = valueBack (f a.value)

/-- **The attributes of an element are read** in order. -/
theorem forall₂_readAttribute (ht : t.Proper) (hxmlns : t.lookup? (some "xmlns") = none)
    (h : tagBack inherited start (copiedName t) (copiedAttributes t scope f) = some (n, o)) :
    List.Forall₂ (ReadAttribute t o f) t.attributes o.attributes := by
  obtain ⟨-, named, hnamed, own, others, hbind, htag⟩ := tagBack_eq_some_iff.1 h
  obtain ⟨-, hothers⟩ := bindAttributes_eq_some hbind
  obtain ⟨more, hmore, hresolved⟩ :=
    forall₂_resolveAttributes (resolveTag_eq_some_iff.1 htag).attributes
  rw [List.nil_append] at hothers hmore
  rw [hothers] at hresolved
  rw [hmore]
  have hall := forall₂_comp (T := fun a b => ∃ m, Reader.rawName? a.1 = some m ∧
      attributeUri o.scope m.label = some b.name.uri ∧ b.name.localName = m.localName ∧
        b.value = valueBack a.2) (fun a m b hm hb => ⟨m.1, hm.1, hb.1, hb.2.1, hb.2.2.trans hm.2⟩)
    (forall₂_plainAttributes (forall₂_named? hnamed)) hresolved
  rw [plainAttributes_copiedAttributes ht hxmlns, Tag.writtenAttributes,
    List.forall₂_map_left_iff] at hall
  refine ((List.forall₂_and_left _ _).2 ⟨fun a ha => ha, hall⟩).imp ?_
  rintro a b ⟨ha, m, hm, huri, hlocal, hvalue⟩
  exact ⟨ha, ⟨m, hm, huri, hlocal⟩, hvalue⟩

theorem ReadAttribute.attributeOf (ht : t.Proper) (hxmlns : t.lookup? (some "xmlns") = none)
    {a b : Attribute} (h : ReadAttribute t o f a b) : AttributeOf f a b := by
  obtain ⟨m, hm, huri, hlocal⟩ := h.name
  obtain ⟨m', hm', -, hlocal', hlabel⟩ := rawName?_attributeName ht hxmlns h.mem
  obtain rfl := Option.some.inj (hm.symm.trans hm')
  refine ⟨hlocal.trans hlocal', ?_, h.value⟩
  rw [← hlabel]
  unfold attributeUri at huri
  split at huri
  · case isTrue hxml =>
    rw [← Option.some.inj huri, beq_iff_eq.1 hxml]
    decide
  · split at huri
    · case isTrue hempty =>
      exact iff_of_true (Option.some.inj huri).symm (String.isEmpty_iff.1 hempty)
    · case isFalse hempty =>
      obtain ⟨d, -, hd⟩ := Option.map_eq_some_iff.1 huri
      rw [← hd]
      exact iff_of_false nofun fun hlabel => hempty (String.isEmpty_iff.2 hlabel)

/-- **The attributes of an element come back** in order. -/
theorem forall₂_attributeOf (ht : t.Proper) (hxmlns : t.lookup? (some "xmlns") = none)
    (h : tagBack inherited start (copiedName t) (copiedAttributes t scope f) = some (n, o)) :
    List.Forall₂ (AttributeOf f) t.attributes o.attributes :=
  (forall₂_readAttribute ht hxmlns h).imp fun _ _ h => h.attributeOf ht hxmlns

theorem plain?_of_forall₂ (hall : List.Forall₂ (AttributeOf f) t.attributes o.attributes)
    (localName : String) :
    o.plain? localName = (t.plain? localName).map fun v => valueBack (f v) := by
  have hname {a b : Attribute} (hab : AttributeOf f a b) :
      (b.name == (⟨none, localName⟩ : ExpandedName)) = (a.name == ⟨none, localName⟩) := by
    rw [Bool.eq_iff_iff, beq_iff_eq, beq_iff_eq, eq_mk_iff, eq_mk_iff, hab.localName,
      hab.uri]
  unfold Tag.plain? Tag.attribute?
  generalize t.attributes = as, o.attributes = bs at hall
  induction hall with
  | nil => rfl
  | cons hab _ ih =>
    rw [List.find?_cons, List.find?_cons, hname hab]
    split
    · rw [Option.map_some, Option.map_some, Option.map_some, hab.value]
    · exact ih

/-- **A value comes back** as it was passed on. -/
theorem plain?_of_tagBack (ht : t.Proper) (hxmlns : t.lookup? (some "xmlns") = none)
    (h : tagBack inherited start (copiedName t) (copiedAttributes t scope f) = some (n, o))
    (localName : String) :
    o.plain? localName = (t.plain? localName).map fun v => valueBack (f v) :=
  plain?_of_forall₂ (forall₂_attributeOf ht hxmlns h) localName

/-! ## Elements of the rule language -/

/-- The elements of the rule language that are written out or replaced. -/
def ruleKinds : List String := ["pattern", "rule", "extends", "assert", "report"]

/-- An element of another language that is called like one of the rule language. -/
def Homonym (t : Tag) : Prop :=
  t.ruleName? = none ∧ t.name.localName ∈ ruleKinds

instance (t : Tag) : Decidable (Homonym t) := inferInstanceAs (Decidable (_ ∧ _))

/-- An element that declares nothing that a homonym could be mistaken by: if it is one of another
language, then it declares no label of a homonym for the rule language. -/
def DeclaresApart (root : Node) (scope : Option Tag) (t : Tag) : Prop :=
  t.ruleName? = none → ∀ t' ∈ root.tags, Homonym t' → ∀ d ∈ t.newDeclarations scope,
    d.label = copiedLabel? t' → isRuleUri d.uri = false

instance (root : Node) (scope : Option Tag) (t : Tag) : Decidable (DeclaresApart root scope t) :=
  inferInstanceAs (Decidable (_ → _))

/-- **A schema that keeps other languages apart**: an element of another language that is called
like one of the rule language has not the label `sch`, and its label is not declared for the rule
language at an element of another language. -/
structure Apart (root : Node) : Prop where
  label : ∀ t ∈ root.tags, Homonym t → copiedLabel? t ≠ some "sch"
  declared : ∀ n ∈ root.subtree, ∀ s ∈ n.tag?, ∀ e ∈ n.elements, DeclaresApart root (some s) e.1

instance (root : Node) : Decidable (Apart root) :=
  decidable_of_iff
    ((∀ t ∈ root.tags, Homonym t → copiedLabel? t ≠ some "sch") ∧
      ∀ n ∈ root.subtree, ∀ s ∈ n.tag?, ∀ e ∈ n.elements, DeclaresApart root (some s) e.1)
    ⟨fun h => ⟨h.1, h.2⟩, fun h => ⟨h.1, h.2⟩⟩

/-- No label of a homonym stands for the rule language. -/
def Clear (root : Node) (declared : List Declaration) : Prop :=
  ∀ t ∈ root.tags, Homonym t → ∀ u ∈ bound? declared (copiedLabel? t), isRuleUri u = false

variable {root : Node}

theorem isRuleUri_valueBack {uri : String} (h : isRuleUri uri = false) :
    isRuleUri (valueBack uri) = false := by
  simp only [isRuleUri, Bool.or_eq_false_iff, beq_eq_false_iff_ne] at h ⊢
  rw [Ne, Ne, eq_valueBack_iff (by decide) (by decide), eq_valueBack_iff (by decide) (by decide)]
  exact h

theorem exists_mem_of_bound? {declared : List Declaration} {label : Option String} {u : String}
    (h : bound? declared label = some u) : ∃ d ∈ declared, d.label = label ∧ d.uri = u := by
  obtain ⟨d, hd, hu⟩ := Option.map_eq_some_iff.1 h
  exact ⟨d, List.mem_of_find?_eq_some hd, by simpa using List.find?_some hd, hu⟩

/-- **The labels of homonyms stay clear** of the rule language inside a copy. -/
theorem clear_of_tagBack (ht : t.Proper) (hxmlns : t.lookup? (some "xmlns") = none)
    (hroot : Apart root) (hdeclares : DeclaresApart root scope t)
    (hinherited : Clear root inherited)
    (h : tagBack inherited start (copiedName t) (copiedAttributes t scope f) = some (n, o)) :
    Clear root o.scope := by
  obtain ⟨own, hscope, hown, -⟩ := exists_scope_of_tagBack ht hxmlns h
  intro t' ht' hhomonym u hu
  rw [hscope, bound?_scopeWithin, Option.mem_def, Option.or_eq_some_iff] at hu
  obtain hu | ⟨-, hu⟩ := hu
  · obtain ⟨e, he, hlabel, rfl⟩ := exists_mem_of_bound? hu
    obtain ⟨-, rfl⟩ | ⟨d, hd, rfl⟩ := hown e he
    · exact absurd hlabel.symm (hroot.label t' ht' hhomonym)
    · refine isRuleUri_valueBack ?_
      unfold keptDeclarations at hd
      split at hd
      · have hkept := (List.mem_filter.1 hd).2
        rw [isRuleDeclaration, Bool.not_eq_true', Bool.or_eq_false_iff] at hkept
        exact hkept.1
      · case isFalse hrule =>
        exact hdeclares (by simpa using hrule) t' ht' hhomonym d hd hlabel
  · exact hinherited t' ht' hhomonym u hu

/-- A copy of an element of the rule language declares the label of the language at the root, and
otherwise leaves it as it is. -/
theorem lookup?_sch_eq (ht : t.Proper) (hxmlns : t.lookup? (some "xmlns") = none)
    (hrule : t.ruleName?.isSome)
    (h : tagBack inherited start (copiedName t) (copiedAttributes t scope f) = some (n, o)) :
    o.lookup? (some "sch") =
      if scope.isNone then some ruleUri else bound? inherited (some "sch") := by
  obtain ⟨own, hscope, hown, -, hdeclared⟩ := exists_scope_of_tagBack ht hxmlns h
  have hsch : ∀ e ∈ own, e.label = some "sch" → scope = none ∧ e.uri = ruleUri := by
    intro e he hlabel
    obtain ⟨hroot, rfl⟩ | ⟨d, hd, rfl⟩ := hown e he
    · exact ⟨hroot.2, rfl⟩
    · rw [keptDeclarations, if_pos hrule] at hd
      have hkept := (List.mem_filter.1 hd).2
      rw [isRuleDeclaration, show d.label = some "sch" from hlabel] at hkept
      simp at hkept
  have hbound : o.lookup? (some "sch") =
      (bound? own (some "sch")).or (bound? inherited (some "sch")) := by
    rw [← bound?_scopeWithin, ← hscope]
    rfl
  rw [hbound]
  cases hbound : bound? own (some "sch") with
  | some u =>
    obtain ⟨e, he, hlabel, rfl⟩ := exists_mem_of_bound? hbound
    obtain ⟨hroot, huri⟩ := hsch e he hlabel
    rw [hroot, huri]
    rfl
  | none =>
    have hnone := List.find?_eq_none.1 (Option.map_eq_none_iff.1 hbound)
    cases scope with
    | none => exact absurd (hnone _ (hdeclared hrule rfl)) (by simp)
    | some s => rfl

/-- **The label of the rule language stands for it** in a copy of one of its elements. -/
theorem lookup?_sch_of_tagBack (ht : t.Proper) (hxmlns : t.lookup? (some "xmlns") = none)
    (hrule : t.ruleName?.isSome)
    (hinherited : scope = none ∨ bound? inherited (some "sch") = some ruleUri)
    (h : tagBack inherited start (copiedName t) (copiedAttributes t scope f) = some (n, o)) :
    o.lookup? (some "sch") = some ruleUri := by
  rw [lookup?_sch_eq ht hxmlns hrule h]
  obtain rfl | hbound := hinherited
  · rfl
  · rw [hbound, ite_self]

/-- **No element of another language becomes one of the rule language** where the labels of homonyms
are clear. -/
theorem isRule_of_tagBack (ht : t.Proper) (hmem : t ∈ root.tags) (hclear : Clear root o.scope)
    (h : tagBack inherited start (copiedName t) (copiedAttributes t scope f) = some (n, o))
    (hkind : localName ∈ ruleKinds) (ho : o.isRule localName = true) :
    t.isRule localName = true := by
  obtain ⟨huri, hlocal⟩ := isRule_iff.1 ho
  rw [name_of_tagBack ht h] at huri hlocal
  cases hrule : t.ruleName? with
  | some other =>
    rw [isRule_iff]
    exact ⟨(ruleName?_eq_some.1 hrule).1, hlocal⟩
  | none =>
    obtain ⟨u, hu, hisRule⟩ := (Option.any_eq_true _ _).1 huri
    rw [hclear t hmem ⟨hrule, hlocal ▸ hkind⟩ u hu] at hisRule
    cases hisRule

/-- **An element of the rule language stays one** where its label stands for the language. -/
theorem isRule_of_lookup? (ht : t.Proper) (hsch : o.lookup? (some "sch") = some ruleUri)
    (h : tagBack inherited start (copiedName t) (copiedAttributes t scope f) = some (n, o))
    (hrule : t.isRule localName = true) : o.isRule localName = true := by
  have hlabel : copiedLabel? t = some "sch" := by
    rw [copiedLabel?, beq_iff_eq.1 hrule]
    rfl
  rw [isRule_iff, name_of_tagBack ht h, hlabel, hsch]
  exact ⟨show isRuleUri ruleUri = true by decide, (isRule_iff.1 hrule).2⟩

/-- **A definition stays one, and nothing else becomes one**, if its attribute stays. -/
theorem isAbstract_of_tagBack (ht : t.Proper) (hxmlns : t.lookup? (some "xmlns") = none)
    (hf : ∀ v ∈ t.plain? "abstract", f v = v)
    (h : tagBack inherited start (copiedName t) (copiedAttributes t scope f) = some (n, o)) :
    isAbstract o = isAbstract t := by
  rw [isAbstract, isAbstract, plain?_of_tagBack ht hxmlns h]
  cases hv : t.plain? "abstract" with
  | none => rfl
  | some v =>
    rw [Option.map_some, hf v hv, Bool.eq_iff_iff, beq_iff_eq, beq_iff_eq, Option.some.injEq,
      Option.some.injEq, eq_valueBack_iff (by decide) (by decide)]

end XmlConformance.Rules
