import Mathlib.Data.List.Forall2
import XmlConformance.Xml.Parser

/-!
# Proofs/Xml/Tags — what a start tag stands for

The attributes of a start tag are taken apart into declarations and others, one by one
(`preserved_sortAttributes`), by what each of them binds (`RawName.Binds`). The names of the others
are looked up in order (`forall₂_resolveAttributes`), and a tag is what the start tag stands for if
it holds what was found (`resolveTag_eq_some_iff`).
-/

namespace XmlConformance.Xml

/-! ## Attributes as they are written -/

/-- **What an attribute binds**, by its name: a label that is new among some declarations, the
default namespace, or nothing. -/
inductive RawName.Binds (own : List Declaration) (n : RawName) (value : String) : Binding → Prop
  | label (label : n.label = "xmlns") (mayBind : mayBind n.localName value = true)
      (new : ∀ e ∈ own, e.label ≠ some n.localName) (uri : value ≠ xmlUri) :
      Binds own n value (.declares ⟨some n.localName, value⟩)
  | repeatsXml (label : n.label = "xmlns") (uri : value = xmlUri) : Binds own n value .repeatsXml
  | default (label : n.label ≠ "xmlns") (localName : n.localName = "xmlns")
      (uri : value ≠ xmlUri ∧ value ≠ xmlnsUri) : Binds own n value (.declares ⟨none, value⟩)
  | forbidden : Binds own n value .forbidden
  | plain (label : n.label ≠ "xmlns") (localName : n.localName ≠ "xmlns") :
      Binds own n value .plain

theorem binds_of_bindingOf {own : List Declaration} {n : RawName} {value : String} {b : Binding}
    (h : bindingOf own n value = b) : n.Binds own value b := by
  subst h
  unfold bindingOf
  split
  · case isTrue hlabel =>
    split
    · exact .forbidden
    · case isFalse hmay =>
      simp only [Bool.or_eq_true, not_or, Bool.not_eq_true', Bool.not_eq_false, List.any_eq_true,
        not_exists, not_and, beq_iff_eq] at hmay
      split
      · case isTrue hxml => exact .repeatsXml (beq_iff_eq.1 hlabel) (beq_iff_eq.1 hxml)
      · case isFalse hxml =>
        exact .label (beq_iff_eq.1 hlabel) hmay.1 hmay.2 fun h => hxml (beq_iff_eq.2 h)
  · case isFalse hlabel =>
    have hlabel : n.label ≠ "xmlns" := fun h => hlabel (beq_iff_eq.2 h)
    split
    · case isTrue hlocal =>
      split
      · exact .forbidden
      · case isFalse hfixed =>
        simp only [Bool.or_eq_true, not_or, beq_iff_eq] at hfixed
        exact .default hlabel (beq_iff_eq.1 hlocal) hfixed
    · case isFalse hlocal => exact .plain hlabel fun h => hlocal (beq_iff_eq.2 h)

/-- A value that an attribute is read with. -/
def RawAttribute.ReadAs (entities : List Entity) (depth : ℕ) (a : RawAttribute) (value : String) :
    Prop :=
  ∃ cs followed followed', AttributeValue.expandAt entities (Reference.maxDepth - depth) depth
    a.value followed = some (cs, followed') ∧ value = String.ofList cs

/-- **What holds of the declarations around a start tag, and of its own, holds of those in scope** if
it is preserved when one of those around is added under a new label. -/
theorem scopeWithin_induction {P : List Declaration → Prop} {inherited own : List Declaration}
    (hinherited : P inherited) (hown : P own)
    (hadd : ∀ d ∈ inherited, ∀ scope : List Declaration, (∀ e ∈ scope, e.label ≠ d.label) →
      P scope → P (scope ++ [d])) : P (scopeWithin inherited own) := by
  unfold scopeWithin
  split
  · exact hinherited
  · refine List.foldlRecOn inherited _ hown fun scope hscope d hd => ?_
    split
    · exact hscope
    · case isFalse hnew =>
      exact hadd d hd scope (fun e he heq => hnew (List.any_eq_true.2 ⟨e, he, beq_iff_eq.2 heq⟩))
        hscope

/-- **Taking attributes apart** preserves what each declaration does, and all others are of a kind
if each of them is. -/
theorem preserved_sortAttributes {P : List Declaration → Prop} {Q : RawName × String → Prop}
    {entities : List Entity} {depth : ℕ} :
    ∀ {attributes : List RawAttribute} {own own' : List Declaration}
      {others others' : List (RawName × String)} {followed followed' : ℕ},
      (∀ a ∈ attributes, ∀ own value d, a.ReadAs entities depth value →
        bindingOf own a.name value = .declares d → P own → P (own ++ [d])) →
      (∀ a ∈ attributes, ∀ own value, a.ReadAs entities depth value →
        bindingOf own a.name value = .plain → Q (a.name, value)) →
      P own → (∀ a ∈ others, Q a) →
      sortAttributes entities depth attributes own others followed =
        some (own', others', followed') → P own' ∧ ∀ a ∈ others', Q a
  | [], _, _, _, _, _, _, _, _, hown, hothers, h => by
    cases h
    exact ⟨hown, hothers⟩
  | a :: rest, own, _, others, _, followed, _, hdeclares, hplain, hown, hothers, h => by
    rw [List.forall_mem_cons] at hdeclares hplain
    unfold sortAttributes at h
    split at h
    · cases h
    · case h_2 cs between hcs =>
      have hread : a.ReadAs entities depth (String.ofList cs) := ⟨cs, followed, between, hcs, rfl⟩
      dsimp only at h
      split at h
      · case h_1 d hd =>
        exact preserved_sortAttributes hdeclares.2 hplain.2 (hdeclares.1 own _ d hread hd hown)
          hothers h
      · exact preserved_sortAttributes hdeclares.2 hplain.2 hown hothers h
      · cases h
      · case h_4 hd =>
        exact preserved_sortAttributes hdeclares.2 hplain.2 hown (List.forall_mem_append.2
          ⟨hothers, List.forall_mem_singleton.2 (hplain.1 own _ hread hd)⟩) h

/-! ## Attributes as they are read -/

/-- Resolving the names of attributes keeps their local names and values, and their order. -/
theorem forall₂_resolveAttributes {scope : List Declaration} :
    ∀ {others : List (RawName × String)} {done attributes : List Attribute},
      resolveAttributes scope done others = some attributes →
        ∃ more, attributes = done ++ more ∧
          List.Forall₂ (fun a b => attributeUri scope a.1.label = some b.name.uri ∧
            b.name.localName = a.1.localName ∧ b.value = a.2) others more
  | [], done, attributes, h => ⟨[], by rw [List.append_nil]; exact (Option.some.inj h).symm, .nil⟩
  | (n, value) :: others, done, attributes, h => by
    rw [resolveAttributes] at h
    split at h
    · cases h
    · case h_2 uri huri =>
      dsimp only at h
      split at h
      · cases h
      · obtain ⟨more, rfl, hmore⟩ := forall₂_resolveAttributes h
        exact ⟨⟨⟨uri, n.localName⟩, value⟩ :: more, by simp, .cons ⟨huri, rfl, rfl⟩ hmore⟩

/-- Every attribute is what one of the written ones stands for. -/
theorem exists_mem_of_resolveAttributes {scope : List Declaration}
    {others : List (RawName × String)} {attributes : List Attribute}
    (h : resolveAttributes scope [] others = some attributes) :
    ∀ b ∈ attributes, ∃ a ∈ others, attributeUri scope a.1.label = some b.name.uri ∧
      b.name.localName = a.1.localName ∧ b.value = a.2 := by
  obtain ⟨more, rfl, hmore⟩ := forall₂_resolveAttributes h
  intro b hb
  obtain ⟨i, hi, rfl⟩ := List.mem_iff_getElem.1 hb
  have hi' : i < others.length := by
    rw [hmore.length_eq]
    exact hi
  exact ⟨others[i], List.getElem_mem hi', hmore.get hi' hi⟩

/-- **The attributes of a start tag** have different names. -/
theorem pairwise_resolveAttributes {scope : List Declaration} :
    ∀ {others : List (RawName × String)} {done attributes : List Attribute},
      (done.Pairwise fun a b => a.name ≠ b.name) →
      resolveAttributes scope done others = some attributes →
        attributes.Pairwise fun a b => a.name ≠ b.name
  | [], _, _, hdone, h => by
    cases h
    exact hdone
  | (name, value) :: rest, done, _, hdone, h => by
    unfold resolveAttributes at h
    split at h
    · cases h
    · dsimp only at h
      split at h
      · cases h
      · case isFalse hnew =>
        refine pairwise_resolveAttributes (List.pairwise_append.2
          ⟨hdone, List.pairwise_singleton _ _, fun a ha b hb heq => hnew ?_⟩) h
        rw [List.mem_singleton.1 hb] at heq
        exact List.any_eq_true.2 ⟨a, ha, beq_iff_eq.2 heq⟩

/-! ## Tags -/

/-- **The tag that a start tag stands for** below some declarations, when it has some of its own. -/
structure Tag.FromStart (inherited own : List Declaration) (name : RawName)
    (others : List (RawName × String)) (start : ℕ) (t : Tag) : Prop where
  label_ne : (name.label == "xmlns") = false
  localName : t.name.localName = name.localName
  uri : elementUri t.scope name.label = some t.name.uri
  attributes : resolveAttributes t.scope [] others = some t.attributes
  scope : t.scope = scopeWithin inherited own
  start : t.start = start

theorem resolveTag_eq_some_iff {inherited own : List Declaration} {name : RawName}
    {others : List (RawName × String)} {start : ℕ} {t : Tag} :
    resolveTag inherited own name others start = some t ↔
      t.FromStart inherited own name others start := by
  constructor
  · intro h
    rw [resolveTag] at h
    split at h
    · cases h
    · case isFalse hlabel =>
      split at h
      · case h_1 attributes uri hattributes huri =>
        obtain rfl := Option.some.inj h
        exact ⟨Bool.eq_false_iff.2 hlabel, rfl, huri, hattributes, rfl, rfl⟩
      · cases h
  · obtain ⟨⟨uri, localName⟩, attributes, scope, start⟩ := t
    rintro ⟨hlabel, rfl, huri, hattributes, rfl, rfl⟩
    simp only at huri hattributes
    rw [resolveTag, hlabel]
    simp only [hattributes, huri, Bool.false_eq_true, if_false]

/-- **A start tag adds an element** whose tag is what the start tag stands for. -/
theorem Content.exists_tag_of_addElement {ctx : Context} {name : RawName}
    {attributes : List RawAttribute} {selfClosing : Bool} {start : ℕ} {b b' : Builder}
    (h : addElement ctx name attributes selfClosing start b = some b') :
    ∃ own others followed tag,
      sortAttributes ctx.entities ctx.depth attributes [] [] b.followed =
        some (own, others, followed) ∧
      resolveTag b.scope own name others start = some tag ∧
      b' = if selfClosing then Builder.add { b with followed := followed } (.element tag [])
        else Builder.openElement { b with followed := followed } name.label tag := by
  unfold addElement at h
  split at h
  · cases h
  · case h_2 own others followed hsorted =>
    split at h
    · cases h
    · case h_2 tag htag =>
      exact ⟨own, others, followed, tag, hsorted, htag, (Option.some.inj h).symm⟩

end XmlConformance.Xml
