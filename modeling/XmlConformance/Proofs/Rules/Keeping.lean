import XmlConformance.Proofs.Rules.Transcribing

/-!
# Proofs/Rules/Keeping — what a tree that is copied keeps

Copies of elements one inside the other keep what they are: an element of the rule language stays
one, any other keeps its namespace, and attributes keep theirs (`Kept`, `carried_of_reread`). A
label that an element was copied by has to stand for the same at the copy, so what is declared
around a copy is followed down the tree (`Carries`). Three things can come in between, and are
excluded: the label `sch` used for anything but the rule language (`SetApart`), a default
declaration around elements of no namespace (`OwnDefaults`), and declarations that cannot be written
twice (`Tag.Regular`).

A prefix that has to do with none of these is kept in any case (`binds_of_reread`).
-/

namespace XmlConformance

open Xml

namespace Xml

/-- **Declarations that can be written again**: `xmlns` is no prefix, and there is one default
declaration at most. -/
structure Tag.Regular (t : Tag) : Prop where
  xmlns : t.lookup? (some "xmlns") = none
  default : ∀ d ∈ t.scope, ∀ e ∈ t.scope, d.label = none → e.label = none → d = e

instance (t : Tag) : Decidable t.Regular :=
  decidable_of_iff (t.lookup? (some "xmlns") = none ∧
    ∀ d ∈ t.scope, ∀ e ∈ t.scope, d.label = none → e.label = none → d = e)
    ⟨fun h => ⟨h.1, h.2⟩, fun h => ⟨h.1, h.2⟩⟩

/-- A declaration is what its label stands for. -/
theorem Tag.Regular.lookup?_eq {t : Tag} (h : t.Regular) (ht : t.Proper) {d : Declaration}
    (hd : d ∈ t.scope) : t.lookup? d.label = some d.uri := by
  cases hlabel : d.label with
  | some l => exact ht.binds hd hlabel
  | none =>
    cases hfind : t.scope.find? (·.label == none) with
    | none => exact absurd (List.find?_eq_none.1 hfind d hd) (by simp [hlabel])
    | some e =>
      have hlabel' : e.label = none := by simpa using List.find?_some hfind
      rw [Tag.lookup?, hfind, h.default d hd e (List.mem_of_find?_eq_some hfind) hlabel hlabel']
      rfl

/-- A label stands for one thing only. -/
theorem Tag.Regular.unique {t : Tag} (h : t.Regular) (ht : t.Proper) {d e : Declaration}
    (hd : d ∈ t.scope) (he : e ∈ t.scope) (heq : d.label = e.label) : d = e := by
  cases hlabel : d.label with
  | some l => exact ht.scope.eq_of_label_eq hd he hlabel (heq ▸ hlabel)
  | none => exact h.default d hd e he hlabel (heq ▸ hlabel)

end Xml

namespace Rules

open Node (contents contentsFrom)

/-! ## What a tree keeps -/

/-- **An attribute is kept**: it comes back under its name, with its value as it is read. Nothing is
said about the namespace of an attribute that belongs to the rule language. -/
structure KeptAttribute (a b : Attribute) : Prop extends AttributeOf id a b where
  foreign : ∀ u ∈ a.name.uri, isRuleUri u = false → b.name.uri = some (valueBack u)

/-- **An element is kept**: it is the same element of the rule language, or one of the same name if
it is of another language, and its attributes are kept in order. -/
structure Kept (t o : Tag) : Prop where
  ruleName : o.ruleName? = t.ruleName?
  name : t.ruleName? = none → o.name = ⟨t.name.uri.map valueBack, t.name.localName⟩
  attributes : List.Forall₂ KeptAttribute t.attributes o.attributes

/-- **The label `sch` is set apart** for the rule language: no other element and no attribute of
another language is labelled by it, and no element of the rule language stands in an element of
another language at which it stands for anything else. -/
structure SetApart (n : Node) : Prop where
  label : ∀ t ∈ n.tags, t.ruleName? = none → copiedLabel? t ≠ some "sch"
  attributes : ∀ t ∈ n.tags, ∀ a ∈ t.attributes, t.attributeLabel a.name = some "sch" →
    a.name.uri.any isRuleUri = true
  inside : ∀ m ∈ n.subtree, ∀ t ∈ m.tag?, t.ruleName? = none →
    (t.lookup? (some "sch")).any (fun u => !isRuleUri u) = true →
      ∀ t' ∈ Node.tagsOf m.children, t'.ruleName? = none

instance (n : Node) : Decidable (SetApart n) :=
  decidable_of_iff
    ((∀ t ∈ n.tags, t.ruleName? = none → copiedLabel? t ≠ some "sch") ∧
      (∀ t ∈ n.tags, ∀ a ∈ t.attributes, t.attributeLabel a.name = some "sch" →
        a.name.uri.any isRuleUri = true) ∧
      ∀ m ∈ n.subtree, ∀ t ∈ m.tag?, t.ruleName? = none →
        (t.lookup? (some "sch")).any (fun u => !isRuleUri u) = true →
          ∀ t' ∈ Node.tagsOf m.children, t'.ruleName? = none)
    ⟨fun h => ⟨h.1, h.2.1, h.2.2⟩, fun h => ⟨h.label, h.attributes, h.inside⟩⟩

/-- Whether a copy of an element has the default namespace of the element. -/
def keepsDefault (t : Tag) : Bool :=
  (t.lookup? none).any fun u => t.ruleName?.isNone || !isRuleUri u

/-- **Default namespaces stay with their elements**: no element of another language that belongs to
no namespace stands in an element whose copy has a default namespace. -/
def OwnDefaults (n : Node) : Prop :=
  ∀ m ∈ n.subtree, ∀ t ∈ m.tag?, keepsDefault t = true →
    ∀ t' ∈ Node.tagsOf m.children, t'.ruleName? = none → t'.name.uri.isSome = true

instance (n : Node) : Decidable (OwnDefaults n) :=
  inferInstanceAs (Decidable (∀ m ∈ n.subtree, ∀ t ∈ m.tag?, keepsDefault t = true →
    ∀ t' ∈ Node.tagsOf m.children, t'.ruleName? = none → t'.name.uri.isSome = true))

/-- **A tree that can be copied** without a change of names. -/
structure Reproducible (n : Node) : Prop where
  resolved : ∀ t ∈ n.tags, t.Resolved
  regular : ∀ t ∈ n.tags, t.Regular
  apart : SetApart n
  defaults : OwnDefaults n

/-- The content of an element of the rule language can be replaced by parts of itself. -/
theorem Reproducible.replace {t : Tag} {cs ns : List Node} (h : Reproducible (.element t cs))
    (hrule : t.ruleName?.isSome) (hns : Node.subtrees ns ⊆ Node.subtrees cs) :
    Reproducible (.element t ns) := by
  have hall : (Node.element t ns).tags ⊆ (Node.element t cs).tags :=
    List.cons_subset_cons t (List.filterMap_subset _ hns)
  refine ⟨fun t ht => h.resolved t (hall ht), fun t ht => h.regular t (hall ht),
    ⟨fun t ht => h.apart.label t (hall ht), fun t ht => h.apart.attributes t (hall ht), ?_⟩, ?_⟩
  · intro m hm s hs hother
    obtain rfl | hm := List.mem_cons.1 hm
    · obtain rfl := Option.some.inj hs
      rw [hother] at hrule
      cases hrule
    · exact h.apart.inside m (List.mem_cons_of_mem _ (hns hm)) s hs hother
  · intro m hm s hs hkeeps
    obtain rfl | hm := List.mem_cons.1 hm
    · exact fun t' ht' => h.defaults _ (Node.mem_subtree_self _) s hs hkeeps t'
        (List.filterMap_subset _ hns ht')
    · exact h.defaults m (List.mem_cons_of_mem _ (hns hm)) s hs hkeeps

theorem Reproducible.of_mem_subtree {n m : Node} (h : Reproducible n) (hm : m ∈ n.subtree) :
    Reproducible m := by
  have hsub := Node.subtree_subset hm
  have htags : m.tags ⊆ n.tags := List.filterMap_subset _ hsub
  exact
    { resolved := fun t ht => h.resolved t (htags ht)
      regular := fun t ht => h.regular t (htags ht)
      apart := ⟨fun t ht => h.apart.label t (htags ht), fun t ht => h.apart.attributes t (htags ht),
        fun m' hm' => h.apart.inside m' (hsub hm')⟩
      defaults := fun m' hm' => h.defaults m' (hsub hm') }

/-! ## Trees that were read -/

mutual

theorem inherits_of_mem_subtree {m : Node} : ∀ {n : Node} {inherited : List Declaration},
    n.Inherits inherited → m ∈ n.subtree → ∃ around, m.Inherits around
  | .root _, _, h, hm => by
    obtain rfl | hm := List.mem_cons.1 hm
    · exact ⟨_, h⟩
    · exact inherits_of_mem_subtrees h hm
  | .element _ _, _, h, hm => by
    obtain rfl | hm := List.mem_cons.1 hm
    · exact ⟨_, h⟩
    · exact inherits_of_mem_subtrees h.2 hm
  | .text _, _, h, hm | .comment _, _, h, hm | .instruction .., _, h, hm => by
    rw [List.mem_singleton.1 hm]
    exact ⟨_, h⟩

/-- What stands in trees in which declarations are handed on is such a tree. -/
theorem inherits_of_mem_subtrees {m : Node} : ∀ {ns : List Node} {inherited : List Declaration},
    Node.AllInherit inherited ns → m ∈ Node.subtrees ns → ∃ around, m.Inherits around
  | n :: ns, _, h, hm => by
    rw [Node.subtrees] at hm
    obtain hm | hm := List.mem_append.1 hm
    · exact inherits_of_mem_subtree h.1 hm
    · exact inherits_of_mem_subtrees h.2 hm

end

mutual

theorem default_of_inherits : ∀ {n : Node} {inherited : List Declaration}, n.Inherits inherited →
    (bound? inherited none).isSome → ∀ t ∈ n.tags, (t.lookup? none).isSome
  | .root _, _, h, hdefault => default_of_allInherit h hdefault
  | .element t cs, inherited, h, hdefault => by
    have hself : (t.lookup? none).isSome := by
      obtain ⟨own, hscope⟩ := h.1.handed
      change (bound? t.scope none).isSome = true
      rw [hscope, bound?_scopeWithin, Option.isSome_or, hdefault, Bool.or_true]
    exact List.forall_mem_cons.2 ⟨hself, default_of_allInherit h.2 hself⟩
  | .text _, _, _, _ | .comment _, _, _, _ | .instruction .., _, _, _ => List.forall_mem_nil _

/-- **A default namespace is handed on** to every element below. -/
theorem default_of_allInherit : ∀ {ns : List Node} {inherited : List Declaration},
    Node.AllInherit inherited ns → (bound? inherited none).isSome →
      ∀ t ∈ Node.tagsOf ns, (t.lookup? none).isSome
  | [], _, _, _ => List.forall_mem_nil _
  | n :: ns, _, h, hdefault => by
    rw [Node.tagsOf_cons]
    exact List.forall_mem_append.2
      ⟨default_of_inherits h.1 hdefault, default_of_allInherit h.2 hdefault⟩

end

/-- **In a document every default namespace stays with its elements.** -/
theorem ownDefaults_of_inherits {n : Node} {inherited : List Declaration}
    (h : n.Inherits inherited) : OwnDefaults n := by
  intro m hm t ht hkeeps t' ht' _
  obtain ⟨around, hm⟩ := inherits_of_mem_subtree h hm
  cases m with
  | element s cs =>
    obtain rfl := Option.some.inj ht
    obtain ⟨u, hu, -⟩ := (Option.any_eq_true _ _).1 hkeeps
    have hsome := default_of_allInherit hm.2 (by rw [show bound? s.scope none = some u from hu]; rfl)
      t' ht'
    by_contra hnone
    rw [(Node.AllInherit.resolved hm.2 t' ht').undeclared (by simpa using hnone)] at hsome
    cases hsome
  | root | text | comment | instruction => cases ht

/-- **A rule schema that was read can be copied** if its declarations can be written again and `sch`
is set apart. -/
theorem reproducible_of_schemaElement {d : Document} {t : Tag} {cs : List Node}
    (h : schemaElement d = .ok (t, cs)) (hregular : ∀ s ∈ d.root.tags, s.Regular)
    (hapart : SetApart (.element t cs)) : Reproducible (.element t cs) := by
  have hmem := (schemaElement_eq_ok h).1
  obtain ⟨around, hinherits⟩ :=
    inherits_of_mem_subtree (Node.inherits_ofText d.wellFormed) hmem
  exact
    { resolved := hinherits.resolved
      regular := fun s hs => hregular s (List.filterMap_subset _ (Node.subtree_subset hmem) hs)
      apart := hapart
      defaults := ownDefaults_of_inherits hinherits }

/-! ## One copy -/

/-- Declarations around the content of a copy by which everything that the tag of the copy binds is
found, but for the rule language and its label. -/
def Carries (declared : List Declaration) (s : Tag) : Prop :=
  ∀ d ∈ s.scope, d.label ≠ some "sch" → isRuleUri d.uri = false →
    bound? declared d.label = some (valueBack d.uri)

/-- Declarations by which the label `sch` stands for the rule language. -/
def BindsRules (declared : List Declaration) : Prop :=
  (bound? declared (some "sch")).any isRuleUri = true

theorem isRule_element {t : Tag} {cs : List Node} (localName : String) :
    (Node.element t cs).isRule localName = t.isRule localName := rfl

theorem ruleName?_eq_none {t : Tag} :
    t.ruleName? = none ↔ ∀ u ∈ t.name.uri, isRuleUri u = false := by
  rw [Tag.ruleName?]
  cases t.name.uri with
  | none => simp
  | some u => simp

theorem isRuleUri_valueBack_of_isRuleUri {u : String} (h : isRuleUri u = true) :
    isRuleUri (valueBack u) = true := by
  rw [isRuleUri, Bool.or_eq_true, beq_iff_eq, beq_iff_eq] at h
  obtain rfl | rfl := h <;> decide +kernel

/-- The label of an element of another language stands for its namespace. -/
theorem lookup?_copiedLabel? {t : Tag} (ht : t.Resolved) (hregular : t.Regular)
    (hother : t.ruleName? = none) {u : String} (hu : t.name.uri = some u) :
    t.lookup? (copiedLabel? t) = some u := by
  obtain ⟨e, he, heu⟩ := ht.declared u hu
  cases hfind : t.scope.find? (·.uri == u) with
  | none => exact absurd (List.find?_eq_none.1 hfind e he) (by simp [heu])
  | some d =>
    have hd : d ∈ t.scope := List.mem_of_find?_eq_some hfind
    have hdu : d.uri = u := by simpa using List.find?_some hfind
    have hlabel : copiedLabel? t = d.label := by
      rw [copiedLabel?, hother, if_neg (by simp), hu, Option.bind_some, Tag.labelFor?, hfind]
      rfl
    rw [hlabel, hregular.lookup?_eq ht.toProper hd, hdu]

section Copy

variable {t o : Tag} {scope : Option Tag} {inherited : List Declaration} {start : ℕ} {n : RawName}

theorem carries_iff (ht : t.Proper) (hregular : t.Regular) : Carries o.scope t ↔
    ∀ label u, label ≠ some "sch" → isRuleUri u = false → t.lookup? label = some u →
      o.lookup? label = some (valueBack u) := by
  constructor
  · intro h label u hlabel hu hlookup
    obtain ⟨d, hd, rfl, rfl⟩ := exists_mem_of_bound? hlookup
    exact h d hd hlabel hu
  · exact fun h d hd hlabel hu => h d.label d.uri hlabel hu (hregular.lookup?_eq ht hd)

/-- **A copy carries on what is found around it**, and what its element declares. -/
theorem carries_of_tagBack (ht : t.Proper) (hregular : t.Regular)
    (h : tagBack inherited start (copiedName t) (copiedAttributes t scope id) = some (n, o))
    (hcarries : ∀ s ∈ scope, Carries inherited s) : Carries o.scope t := by
  rw [carries_iff ht hregular]
  intro label u hlabel hu hlookup
  refine lookup?_of_tagBack ht hregular.xmlns
    (fun d hd e he hdl hel => hregular.unique ht hd he (hdl.trans hel.symm)) h
    (.inr ⟨hlabel, hu⟩) hlookup ?_
  rintro s hs d hd rfl rfl
  exact hcarries s hs d hd hlabel hu

/-- A copy that is given no default namespace has the one around it. -/
theorem bound?_none_of_tagBack (ht : t.Proper) (hregular : t.Regular)
    (h : tagBack inherited start (copiedName t) (copiedAttributes t scope id) = some (n, o))
    (hdefault : keepsDefault t = false) : bound? o.scope none = bound? inherited none := by
  obtain ⟨own, hscope, hown, -⟩ := exists_scope_of_tagBack ht hregular.xmlns h
  have hnone : bound? own none = none := by
    refine Option.map_eq_none_iff.2 (List.find?_eq_none.2 fun e he hlabel => ?_)
    obtain ⟨-, rfl⟩ | ⟨d, hd, rfl⟩ := hown e he
    · exact absurd hlabel (by decide)
    · have hlabel : d.label = none := by simpa using hlabel
      have hlookup := hregular.lookup?_eq ht (keptDeclarations_subset t scope hd)
      rw [hlabel] at hlookup
      rw [keepsDefault, hlookup, Option.any_some, Bool.or_eq_false_iff, Bool.not_eq_false',
        Option.isNone_eq_false_iff] at hdefault
      rw [keptDeclarations, if_pos hdefault.1, List.mem_filter, isRuleDeclaration,
        hdefault.2] at hd
      exact absurd hd.2 (by simp)
  rw [hscope, bound?_scopeWithin, hnone, Option.none_or]

/-- **In a copy of an element of the rule language** the label `sch` stands for the language. -/
theorem bindsRules_of_rule (ht : t.Proper) (hregular : t.Regular)
    (h : tagBack inherited start (copiedName t) (copiedAttributes t scope id) = some (n, o))
    (hrule : t.ruleName?.isSome) (hrules : scope = none ∨ BindsRules inherited) :
    BindsRules o.scope := by
  have hsch := lookup?_sch_eq ht hregular.xmlns hrule h
  change (o.lookup? (some "sch")).any isRuleUri = true
  rw [hsch]
  split
  · decide
  · case isFalse hscope => exact hrules.resolve_left fun hnone => hscope (by rw [hnone]; rfl)

/-- **An element of the rule language stays what it is** where the label `sch` stands for the
language. -/
theorem ruleName?_of_bindsRules (ht : t.Proper) (hrule : t.ruleName?.isSome)
    (h : tagBack inherited start (copiedName t) (copiedAttributes t scope id) = some (n, o))
    (hbinds : BindsRules o.scope) : o.ruleName? = t.ruleName? := by
  obtain ⟨localName, hlocal⟩ := Option.isSome_iff_exists.1 hrule
  have hsch : copiedLabel? t = some "sch" := by rw [copiedLabel?, if_pos hrule]
  rw [hlocal, ruleName?_eq_some, name_of_tagBack ht h, hsch]
  exact ⟨hbinds, (ruleName?_eq_some.1 hlocal).2⟩

/-- **In a copy of another element** it does if it did around the copy and the element does not
declare it for anything else. -/
theorem bindsRules_of_other (ht : t.Proper) (hregular : t.Regular)
    (h : tagBack inherited start (copiedName t) (copiedAttributes t scope id) = some (n, o))
    (hsch : (t.lookup? (some "sch")).any (fun u => !isRuleUri u) = false)
    (hrules : BindsRules inherited) : BindsRules o.scope := by
  obtain ⟨own, hscope, hown, -⟩ := exists_scope_of_tagBack ht hregular.xmlns h
  rw [BindsRules, hscope, bound?_scopeWithin]
  cases hbound : bound? own (some "sch") with
  | none => exact hrules
  | some u =>
    obtain ⟨e, he, hlabel, rfl⟩ := exists_mem_of_bound? hbound
    rw [Option.some_or, Option.any_some]
    obtain ⟨-, rfl⟩ | ⟨d, hd, rfl⟩ := hown e he
    · exact show isRuleUri ruleUri = true by decide
    · have hlookup := hregular.lookup?_eq ht (keptDeclarations_subset t scope hd)
      rw [show d.label = some "sch" from hlabel] at hlookup
      rw [hlookup, Option.any_some, Bool.not_eq_false'] at hsch
      exact isRuleUri_valueBack_of_isRuleUri hsch

/-- **An attribute keeps its namespace** if the label that it is written with is carried on. -/
theorem ReadAttribute.kept (ht : t.Resolved) (hregular : t.Regular) (hcarries : Carries o.scope t)
    {a b : Attribute} (hsch : t.attributeLabel a.name = some "sch" →
      a.name.uri.any isRuleUri = true) (h : ReadAttribute t o id a b) : KeptAttribute a b := by
  refine ⟨h.attributeOf ht.toProper hregular.xmlns, fun u hu hother => ?_⟩
  have hu : a.name.uri = some u := hu
  obtain ⟨m, hm, huri, -⟩ := h.name
  rw [ht.rawName?_attributeName h.mem] at hm
  obtain rfl := Option.some.inj hm
  obtain ⟨hnone, -⟩ | ⟨v, l, hv, hlabel, hl, hfor⟩ := ht.attributeLabel_cases h.mem
  · rw [hu] at hnone
    cases hnone
  obtain rfl : u = v := Option.some.inj (hu.symm.trans hv)
  rw [hlabel, Option.getD_some] at huri
  obtain ⟨hxml, rfl⟩ | ⟨-, d, hd, hdl, hdu⟩ := hfor
  · rw [hxml, show valueBack xmlUri = xmlUri from valueBack_eq_self (by decide)]
    exact (Option.some.inj huri).symm
  · have hne : l ≠ "sch" := by
      rintro rfl
      have hrule := hsch hlabel
      rw [hu, Option.any_some, hother] at hrule
      cases hrule
    have hlxml : l ≠ "xml" := fun heq => ht.xml d hd (heq ▸ hdl)
    have hbound := hcarries d hd (by rwa [hdl, Ne, Option.some.injEq]) (hdu ▸ hother)
    rw [attributeUri, if_neg (by simpa using hlxml), if_neg (by simpa using hl.ne_empty)] at huri
    rw [hdl, hdu] at hbound
    obtain ⟨e, hfinde, heu⟩ := Option.map_eq_some_iff.1 hbound
    rw [hfinde, Option.map_some, heu] at huri
    exact (Option.some.inj huri).symm

/-- **An element is kept by its copy.** -/
theorem kept_of_tagBack (ht : t.Resolved) (hregular : t.Regular)
    (h : tagBack inherited start (copiedName t) (copiedAttributes t scope id) = some (n, o))
    (hcarries : ∀ s ∈ scope, Carries inherited s)
    (hrules : t.ruleName?.isSome → scope = none ∨ BindsRules inherited)
    (hdefault : t.ruleName? = none → t.name.uri = none → bound? inherited none = none)
    (hlabel : t.ruleName? = none → copiedLabel? t ≠ some "sch")
    (hattributes : ∀ a ∈ t.attributes, t.attributeLabel a.name = some "sch" →
      a.name.uri.any isRuleUri = true) : Kept t o := by
  have hcarries := carries_of_tagBack ht.toProper hregular h hcarries
  have hname := name_of_tagBack ht.toProper h
  have hattributes : List.Forall₂ KeptAttribute t.attributes o.attributes :=
    (forall₂_readAttribute ht.toProper hregular.xmlns h).imp fun a _ hab =>
      hab.kept ht hregular hcarries (hattributes a hab.mem)
  cases hrule : t.ruleName? with
  | some localName =>
    have hisSome : t.ruleName?.isSome := by rw [hrule]; rfl
    have hbinds := bindsRules_of_rule ht.toProper hregular h hisSome (hrules hisSome)
    exact ⟨ruleName?_of_bindsRules ht.toProper hisSome h hbinds,
      fun hnone => (by rw [hrule] at hnone; cases hnone), hattributes⟩
  | none =>
    have huri : o.name = ⟨t.name.uri.map valueBack, t.name.localName⟩ := by
      rw [hname]
      cases hu : t.name.uri with
      | some u =>
        have hother := ruleName?_eq_none.1 hrule u hu
        rw [(carries_iff ht.toProper hregular).1 hcarries _ u (hlabel hrule) hother
          (lookup?_copiedLabel? ht hregular hrule hu)]
        rfl
      | none =>
        have hnone : copiedLabel? t = none := by
          rw [copiedLabel?, hrule, if_neg (by simp), hu, Option.bind_none]
        have hkeeps : keepsDefault t = false := by
          rw [keepsDefault, ht.undeclared hu]
          rfl
        have hbound := bound?_none_of_tagBack ht.toProper hregular h hkeeps
        rw [hnone, show o.lookup? none = none from hbound.trans (hdefault hrule hu)]
        rfl
    refine ⟨(ruleName?_eq_none.2 fun u hu => ?_).trans hrule.symm, fun _ => huri, hattributes⟩
    rw [huri] at hu
    obtain ⟨v, hv, rfl⟩ := Option.map_eq_some_iff.1 hu
    exact isRuleUri_valueBack (ruleName?_eq_none.1 hrule v hv)

end Copy

/-! ## A tree of copies -/

/-- What is declared around copies of elements with given tags, inside a copy of another. -/
structure Suits (declared : List Declaration) (outer : Option Tag) (ts : List Tag) : Prop where
  carries : ∀ s ∈ outer, Carries declared s
  rules : BindsRules declared ∨ ∀ t ∈ ts, t.ruleName? = none
  default : bound? declared none = none ∨
    ∀ t ∈ ts, t.ruleName? = none → t.name.uri.isSome = true

theorem Suits.mono {declared : List Declaration} {outer : Option Tag} {ts ts' : List Tag}
    (h : Suits declared outer ts) (hsub : ts' ⊆ ts) : Suits declared outer ts' :=
  ⟨h.carries, h.rules.imp_right fun hts t ht => hts t (hsub ht),
    h.default.imp_right fun hts t ht => hts t (hsub ht)⟩

section Trees

variable {t o : Tag} {cs : List Node} {scope : Option Tag} {inherited : List Declaration}
  {start : ℕ} {n : RawName}

/-- **What suits an element suits its content.** An element of the rule language that is copied
with all declarations needs none around it. -/
theorem Suits.content (hrepro : Reproducible (.element t cs))
    (h : tagBack inherited start (copiedName t) (copiedAttributes t scope id) = some (n, o))
    (hcarries : ∀ s ∈ scope, Carries inherited s)
    (hrules : (t.ruleName?.isSome ∧ scope = none) ∨ BindsRules inherited ∨
      ∀ t' ∈ (Node.element t cs).tags, t'.ruleName? = none)
    (hdefault : bound? inherited none = none ∨
      ∀ t' ∈ (Node.element t cs).tags, t'.ruleName? = none → t'.name.uri.isSome = true) :
    Suits o.scope (some t) (Node.tagsOf cs) := by
  rw [Node.tags_element, List.forall_mem_cons] at hrules hdefault
  have hself := Node.mem_subtree_self (.element t cs)
  have ht := (hrepro.resolved t (Node.mem_tags hself)).toProper
  have hregular := hrepro.regular t (Node.mem_tags hself)
  refine ⟨?_, ?_, ?_⟩
  · intro s hs
    obtain rfl := Option.some.inj hs
    exact carries_of_tagBack ht hregular h hcarries
  · cases hrule : t.ruleName? with
    | some localName =>
      have hisSome : t.ruleName?.isSome := by rw [hrule]; rfl
      refine .inl (bindsRules_of_rule ht hregular h hisSome ?_)
      obtain ⟨-, hroot⟩ | hrules | hothers := hrules
      · exact .inl hroot
      · exact .inr hrules
      · rw [hothers.1] at hisSome
        cases hisSome
    | none =>
      obtain ⟨hisSome, -⟩ | hrules | hothers := hrules
      · rw [hrule] at hisSome
        cases hisSome
      · by_cases hsch : (t.lookup? (some "sch")).any (fun u => !isRuleUri u) = true
        · exact .inr (hrepro.apart.inside _ hself t rfl hrule hsch)
        · exact .inl (bindsRules_of_other ht hregular h (Bool.eq_false_iff.2 hsch) hrules)
      · exact .inr hothers.2
  · by_cases hkeeps : keepsDefault t = true
    · exact .inr (hrepro.defaults _ hself t rfl hkeeps)
    · rw [bound?_none_of_tagBack ht hregular h (Bool.eq_false_iff.2 hkeeps)]
      exact hdefault.imp_right And.right

theorem reproducible_of_mem_contents (h : Reproducible (.element t cs)) :
    ∀ m ∈ contents cs, Reproducible m := by
  intro m hm
  obtain hm | ⟨r, rfl⟩ := Node.mem_contentsFrom hm
  · exact h.of_mem_subtree (Node.children_subset (Node.mem_subtree_self _) hm)
  · exact ⟨nofun, nofun, ⟨nofun, nofun, by simp [Node.subtree, Node.tag?]⟩,
      by simp [OwnDefaults, Node.subtree, Node.tag?]⟩

mutual

/-- **A tree that can be copied is carried over** with all its names where what is declared around
it suits it. -/
theorem carried_of_reread : ∀ {inherited : List Declaration} {outer : Option Tag} {m m' : Node},
    Reread inherited outer m m' → Reproducible m → Suits inherited outer m.tags →
      CarriedWith Kept m m'
  | _, _, _, _, .text, _, _ => .text _
  | _, _, _, _, @Reread.element inherited outer scope t o start name cs os hscope htag hos,
      hrepro, hsuits => by
    have hmem := Node.mem_tags (Node.mem_subtree_self (.element t cs))
    have hcarries : ∀ s ∈ scope, Carries inherited s := by
      obtain rfl | rfl := hscope
      · exact nofun
      · exact hsuits.carries
    have hcontent := Suits.content hrepro htag hcarries (.inr hsuits.rules) hsuits.default
    refine .element ?_ (allCarried_of_reread hos (reproducible_of_mem_contents hrepro)
      (hcontent.mono (Node.tagsOf_contents cs)))
    refine kept_of_tagBack (hrepro.resolved t hmem) (hrepro.regular t hmem) htag hcarries
      (fun hrule => ?_) (fun hother hnone => ?_) (hrepro.apart.label t hmem)
      (hrepro.apart.attributes t hmem)
    · refine .inr (hsuits.rules.resolve_right fun hothers => ?_)
      rw [hothers t hmem] at hrule
      cases hrule
    · refine hsuits.default.resolve_right fun hnamed => ?_
      have hsome := hnamed t hmem hother
      rw [hnone] at hsome
      cases hsome

theorem allCarried_of_reread : ∀ {inherited : List Declaration} {outer : Option Tag}
    {ns ms : List Node}, AllReread inherited outer ns ms → (∀ n ∈ ns, Reproducible n) →
      Suits inherited outer (Node.tagsOf ns) → List.Forall₂ (CarriedWith Kept) ns ms
  | _, _, _, _, .nil, _, _ => .nil
  | _, _, _, _, .cons hn hns, hrepro, hsuits => by
    rw [List.forall_mem_cons] at hrepro
    rw [Node.tagsOf_cons] at hsuits
    exact .cons (carried_of_reread hn hrepro.1 (hsuits.mono (List.subset_append_left _ _)))
      (allCarried_of_reread hns hrepro.2 (hsuits.mono (List.subset_append_right _ _)))

end

/-- **A rule schema that can be copied is carried over** when it is written and read. -/
theorem carried_of_root (hrepro : Reproducible (.element t cs)) (hrule : t.ruleName?.isSome)
    {os : List Node} (h : Reread [] none (.element t cs) (.element o os)) :
    CarriedWith Kept (.element t cs) (.element o os) := by
  have hmem := Node.mem_tags (Node.mem_subtree_self (.element t cs))
  cases h with
  | @element _ _ scope _ _ _ _ _ _ hscope htag hos =>
    obtain rfl : scope = none := hscope.elim id id
    have hcontent := Suits.content hrepro htag nofun (.inl ⟨hrule, rfl⟩) (.inl rfl)
    refine .element ?_ (allCarried_of_reread hos (reproducible_of_mem_contents hrepro)
      (hcontent.mono (Node.tagsOf_contents cs)))
    exact kept_of_tagBack (hrepro.resolved t hmem) (hrepro.regular t hmem) htag nofun
      (fun _ => .inl rfl) (fun _ _ => rfl) (hrepro.apart.label t hmem)
      (hrepro.apart.attributes t hmem)

end Trees

/-! ## Prefixes -/

section Prefixes

variable {p u : String}

mutual

/-- **A prefix is kept in the whole tree** if what is declared around it keeps it. -/
theorem binds_of_reread (hp : Ordinary p u) : ∀ {inherited : List Declaration}
    {outer : Option Tag} {m m' : Node}, Reread inherited outer m m' → (∀ t ∈ m.tags, Writable t) →
      (∀ s ∈ outer, s.Proper ∧ (s.Binds p u → bound? inherited (some p) = some u)) →
        CarriedWith (fun t o => t.Binds p u → o.Binds p u) m m'
  | _, _, _, _, .text, _, _ => .text _
  | _, _, _, _, @Reread.element inherited outer scope t o start name cs os hscope htag hos, hm,
      houter => by
    rw [Node.tags_element, List.forall_mem_cons] at hm
    have hscope : ∀ s ∈ scope, s.Proper ∧ (s.Binds p u → bound? inherited (some p) = some u) := by
      obtain rfl | rfl := hscope
      · exact nofun
      · exact houter
    have hbinds : t.Binds p u → o.Binds p u := fun ht =>
      binds_of_tagBack hm.1.1 hm.1.2 (fun s hs => (hscope s hs).1) htag hp ht
        fun s hs => (hscope s hs).2
    refine .element hbinds (allBinds_of_reread hp hos
      (fun s hs => hm.2 s (Node.tagsOf_contents cs hs)) fun s hs => ?_)
    obtain rfl := Option.some.inj hs
    exact ⟨hm.1.1, hbinds⟩

theorem allBinds_of_reread (hp : Ordinary p u) : ∀ {inherited : List Declaration}
    {outer : Option Tag} {ns ms : List Node}, AllReread inherited outer ns ms →
      (∀ t ∈ Node.tagsOf ns, Writable t) →
      (∀ s ∈ outer, s.Proper ∧ (s.Binds p u → bound? inherited (some p) = some u)) →
        List.Forall₂ (CarriedWith fun t o => t.Binds p u → o.Binds p u) ns ms
  | _, _, _, _, .nil, _, _ => .nil
  | _, _, _, _, .cons hn hns, hm, houter => by
    rw [Node.tagsOf_cons, List.forall_mem_append] at hm
    exact .cons (binds_of_reread hp hn hm.1 houter) (allBinds_of_reread hp hns hm.2 houter)

end

end Prefixes

end Rules

end XmlConformance
