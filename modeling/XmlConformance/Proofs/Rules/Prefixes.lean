import Mathlib.Data.List.Forall2
import XmlConformance.Proofs.Rules.Copying
import XmlConformance.Proofs.Rules.Running
import XmlConformance.Proofs.Xml.Names
import XmlConformance.Proofs.Xml.Rereading
import XmlConformance.Proofs.Xml.RoundTrip

/-!
# Proofs/Rules/Prefixes — prefixes in a schema that is written out

A copy of an element declares the prefixes in scope at the element, but for those that are also in
scope at the tag around it in the schema. That tag need not be the one around the copy: what stands
in a definition is copied to where the definition is used. There a prefix that is declared around
the definition may be missing, or stand for something else (`not_keeps_prefixes`).

So a prefix is kept if it stands for the same wherever a definition is used for which it is in scope
(`SelfContained`). One copy keeps it if the copy around it does (`binds_of_tagBack`), and from there
it goes down to all copies (`keeps_prefixes`).
-/

namespace XmlConformance

open Xml

/-! ## What is in scope -/

namespace Xml

/-- Whether a prefix stands for a namespace at an element. -/
def Tag.Binds (p u : String) (t : Tag) : Prop :=
  t.lookup? (some p) = some u

instance (p u : String) (t : Tag) : Decidable (t.Binds p u) :=
  inferInstanceAs (Decidable (_ = _))

theorem Tag.Binds.exists_mem {p u : String} {t : Tag} (h : t.Binds p u) :
    ∃ d ∈ t.scope, d.label = some p ∧ d.uri = u := by
  obtain ⟨d, hd, hu⟩ := Option.map_eq_some_iff.1 h
  exact ⟨d, List.mem_of_find?_eq_some hd, by simpa using List.find?_some hd, hu⟩

theorem Tag.Proper.binds {p : String} {t : Tag} (h : t.Proper) {d : Declaration}
    (hd : d ∈ t.scope) (hlabel : d.label = some p) : t.Binds p d.uri := by
  rw [Tag.Binds, Tag.lookup?, h.scope.find?_eq_some hd hlabel]
  rfl

end Xml

namespace Rules

/-! ## The names in a copy -/

theorem joinName_some (label localName : String) :
    joinName (some label) localName = label ++ ":" ++ localName := rfl

variable {t o : Tag} {scope outer : Option Tag} {f : String → String} {p u : String}

/-- What an attribute is called in a copy is a name, with a label if the attribute belongs to a
namespace, and it declares nothing as long as `xmlns` is no prefix. -/
theorem rawName?_attributeName (ht : t.Proper) (hxmlns : t.lookup? (some "xmlns") = none)
    {a : Attribute} (ha : a ∈ t.attributes) :
    ∃ n, Reader.rawName? (t.attributeName a.name) = some n ∧ n.declares = false ∧
      n.localName = a.name.localName ∧ (n.label = "" ↔ a.name.uri = none) := by
  obtain ⟨-, hne⟩ := ht.attributes a ha
  refine ⟨_, ht.rawName?_attributeName ha, ?_, rfl, ?_⟩
  all_goals
    obtain ⟨huri, hlabel⟩ | ⟨u, l, huri, hlabel, hl, hfor⟩ := ht.attributeLabel_cases ha
  · simp [hlabel, RawName.declares, hne]
  · have hlne : l ≠ "xmlns" := by
      rintro rfl
      obtain ⟨-, hxml⟩ | ⟨-, d, hd, hdl, -⟩ := hfor
      · exact absurd hxml (by decide)
      · have hbinds := ht.binds hd hdl
        rw [Tag.Binds, hxmlns] at hbinds
        cases hbinds
    simp [hlabel, RawName.declares, hne, hlne]
  · simp [hlabel, huri]
  · simp [hlabel, huri, hl.ne_empty]

theorem written_snd (d : Declaration) : d.written.2 = d.uri := by
  unfold Declaration.written
  split <;> rfl

/-- A declaration is read as what it is, with its namespace as it comes back. -/
theorem declaration?_written {d : Declaration} (hlabel : ∀ l ∈ d.label, IsName l) :
    ∃ n, Reader.rawName? d.written.1 = some n ∧ ∀ v, declaration? (n, v) =
      if d.label.isSome && v == xmlUri then none else some ⟨d.label, v⟩ := by
  obtain ⟨label, uri⟩ := d
  cases label with
  | none => exact ⟨⟨"", "xmlns"⟩, isName_xmlns, fun v => rfl⟩
  | some l => exact ⟨⟨"xmlns", l⟩, isName_xmlns.joined (hlabel l rfl), fun v => rfl⟩

/-- An attribute that is no declaration declares nothing. -/
theorem declaration?_of_not_declares {n : RawName} (h : n.declares = false) (v : String) :
    declaration? (n, v) = none := by
  simp only [RawName.declares, Bool.or_eq_false_iff] at h
  rw [declaration?, if_neg (by simp [h.1]), if_neg (by simp [h.2])]

/-- The declarations that a copy of an element gets. -/
def keptDeclarations (t : Tag) (scope : Option Tag) : List Declaration :=
  if t.ruleName?.isSome then (t.newDeclarations scope).filter fun d => !isRuleDeclaration d
  else t.newDeclarations scope

theorem newDeclarations_subset (t : Tag) (scope : Option Tag) :
    t.newDeclarations scope ⊆ t.scope := by
  unfold Tag.newDeclarations
  split
  · exact List.filter_subset_self _
  · exact List.Subset.refl _

theorem keptDeclarations_subset (t : Tag) (scope : Option Tag) :
    keptDeclarations t scope ⊆ t.scope := by
  unfold keptDeclarations
  split
  · exact List.Subset.trans (List.filter_subset_self _) (newDeclarations_subset t scope)
  · exact newDeclarations_subset t scope

/-- A prefix that is not declared in a copy is in scope around the element. -/
theorem exists_of_not_mem_keptDeclarations {d : Declaration} (hd : d ∈ t.scope)
    (hkeeps : t.ruleName? = none ∨ isRuleDeclaration d = false) (h : d ∉ keptDeclarations t scope) :
    ∃ s ∈ scope, d ∈ s.scope := by
  have hnew : d ∉ t.newDeclarations scope := by
    unfold keptDeclarations at h
    split at h
    · case isTrue hrule =>
      have hkept := hkeeps.resolve_left fun hnone => by simp [hnone] at hrule
      exact fun hnew => h (List.mem_filter.2 ⟨hnew, by simp [hkept]⟩)
    · exact h
  unfold Tag.newDeclarations at hnew
  split at hnew
  · case h_1 s =>
    refine ⟨s, rfl, ?_⟩
    by_contra hs
    exact hnew (List.mem_filter.2 ⟨hd, by simpa using hs⟩)
  · exact absurd hd hnew

/-- What the start tag of a copy holds: a label for the rule language at the root, declarations, and
attributes. -/
theorem mem_copiedAttributes {a : String × String} :
    a ∈ copiedAttributes t scope f ↔
      (t.ruleName?.isSome ∧ scope = none ∧ a = ("xmlns:sch", ruleUri)) ∨
        (∃ d ∈ keptDeclarations t scope, d.written = a) ∨ a ∈ t.writtenAttributes f := by
  unfold copiedAttributes keptDeclarations Tag.copiedAttributes
  cases t.ruleName? with
  | none => simp
  | some localName => cases scope <;> simp

/-- The label that a copy of an element is called by. -/
def copiedLabel? (t : Tag) : Option String :=
  if t.ruleName?.isSome then some "sch" else t.name.uri.bind fun uri => (t.labelFor? uri).join

theorem ruleName?_eq_some {localName : String} : t.ruleName? = some localName ↔
    t.name.uri.any isRuleUri = true ∧ t.name.localName = localName := by
  rw [Tag.ruleName?, Option.ite_none_right_eq_some, Option.some.injEq]

theorem copiedName_eq (t : Tag) : copiedName t = joinName (copiedLabel? t) t.name.localName := by
  unfold copiedName copiedLabel?
  split
  · case h_1 localName hrule =>
    rw [hrule, Option.isSome_some, if_pos rfl, (ruleName?_eq_some.1 hrule).2, joinName_some]
    rfl
  · case h_2 hrule =>
    rw [hrule, Option.isSome_none, if_neg Bool.false_ne_true]
    rfl

theorem isName_copiedLabel? (ht : t.Proper) : ∀ l ∈ copiedLabel? t, IsName l := by
  intro l hl
  unfold copiedLabel? at hl
  split at hl
  · cases hl
    decide +kernel
  · obtain ⟨uri, -, hl⟩ := Option.bind_eq_some_iff.1 hl
    obtain ⟨d, hd, hdl⟩ := Option.map_eq_some_iff.1 (Option.join_eq_some_iff.1 hl)
    exact ht.scope.label d (List.mem_of_find?_eq_some hd) l hdl

theorem rawName?_copiedName (ht : t.Proper) : (Reader.rawName? (copiedName t)).isSome := by
  rw [copiedName_eq]
  cases hlabel : copiedLabel? t with
  | none =>
    rw [show joinName none t.name.localName = t.name.localName from rfl, ht.localName]
    rfl
  | some l =>
    rw [joinName_some, (isName_copiedLabel? ht l hlabel).joined ht.localName]
    rfl

theorem rawName?_copiedAttributes (ht : t.Proper) (hxmlns : t.lookup? (some "xmlns") = none) :
    ∀ a ∈ copiedAttributes t scope f, (Reader.rawName? a.1).isSome := by
  intro a ha
  obtain ⟨-, -, rfl⟩ | ⟨d, hd, rfl⟩ | ha := mem_copiedAttributes.1 ha
  · decide +kernel
  · obtain ⟨n, hn, -⟩ :=
      declaration?_written (ht.scope.label d (keptDeclarations_subset t scope hd))
    rw [hn]
    rfl
  · obtain ⟨b, hb, rfl⟩ := List.mem_map.1 ha
    obtain ⟨n, hn, -⟩ := rawName?_attributeName ht hxmlns hb
    rw [hn]
    rfl

/-! ## One copy -/

theorem mem_of_forall₂_named {n : RawName} {v : String} :
    ∀ {attributes : List (String × String)} {named : List (RawName × String)},
      List.Forall₂ (fun a b => Reader.rawName? a.1 = some b.1 ∧ b.2 = a.2) attributes named →
        ((n, v) ∈ named ↔ ∃ a ∈ attributes, Reader.rawName? a.1 = some n ∧ a.2 = v)
  | _, _, .nil => by simp
  | a :: attributes, b :: named, .cons hab hmore => by
    rw [List.mem_cons, mem_of_forall₂_named hmore, Prod.ext_iff]
    simp only [List.mem_cons, exists_eq_or_imp, hab.1, Option.some.injEq, ← hab.2]
    exact or_congr_left (and_congr eq_comm eq_comm)

/-- **What is declared by attributes** once they are read. -/
theorem mem_filterMap_declaration? {attributes : List (String × String)}
    {named : List (RawName × String)} (hnamed : Reader.named? attributes = some named)
    {e : Declaration} :
    e ∈ (named.map fun a => (a.1, valueBack a.2)).filterMap declaration? ↔
      ∃ a ∈ attributes, ∃ n, Reader.rawName? a.1 = some n ∧
        declaration? (n, valueBack a.2) = some e := by
  have hmem {n : RawName} {v : String} := mem_of_forall₂_named (n := n) (v := v)
    (forall₂_named? hnamed)
  simp only [List.mem_filterMap, List.mem_map, Prod.exists]
  constructor
  · rintro ⟨n, w, ⟨n', v, hb, heq⟩, he⟩
    obtain ⟨rfl, rfl⟩ := Prod.mk.inj heq
    obtain ⟨a, ha, hn, rfl⟩ := hmem.1 hb
    exact ⟨a.1, a.2, ha, n', hn, he⟩
  · rintro ⟨name, v, ha, n, hn, he⟩
    exact ⟨n, valueBack v, ⟨n, v, hmem.2 ⟨(name, v), ha, hn, rfl⟩, rfl⟩, he⟩

variable {inherited own : List Declaration} {start : ℕ} {n : RawName}

theorem declaration?_sch : Reader.rawName? "xmlns:sch" = some ⟨"xmlns", "sch"⟩ ∧
    declaration? (⟨"xmlns", "sch"⟩, valueBack ruleUri) = some ⟨some "sch", ruleUri⟩ := by
  rw [show valueBack ruleUri = ruleUri from valueBack_eq_self (by decide)]
  exact ⟨by decide +kernel, by decide⟩

/-- **The declarations of a copy as they are read**: those that the copy was given, each with its
namespace as it comes back, and one for the rule language at the root. -/
theorem exists_scope_of_tagBack (ht : t.Proper) (hxmlns : t.lookup? (some "xmlns") = none)
    (h : tagBack inherited start (copiedName t) (copiedAttributes t scope f) = some (n, o)) :
    ∃ own, o.scope = scopeWithin inherited own ∧
      (∀ e ∈ own, ((t.ruleName?.isSome ∧ scope = none) ∧ e = ⟨some "sch", ruleUri⟩) ∨
        ∃ d ∈ keptDeclarations t scope, e = ⟨d.label, valueBack d.uri⟩) ∧
      (∀ d ∈ keptDeclarations t scope, valueBack d.uri ≠ xmlUri →
        ⟨d.label, valueBack d.uri⟩ ∈ own) ∧
      (t.ruleName?.isSome → scope = none → ⟨some "sch", ruleUri⟩ ∈ own) := by
  obtain ⟨-, named, hnamed, own, others, hbind, htag⟩ := tagBack_eq_some_iff.1 h
  obtain ⟨hown, -⟩ := bindAttributes_eq_some hbind
  rw [List.nil_append] at hown
  have hmem {e : Declaration} : e ∈ own ↔ ∃ a ∈ copiedAttributes t scope f, ∃ n,
      Reader.rawName? a.1 = some n ∧ declaration? (n, valueBack a.2) = some e := by
    rw [hown]
    exact mem_filterMap_declaration? hnamed
  refine ⟨own, (resolveTag_eq_some_iff.1 htag).scope, fun e he => ?_, fun d hd huri => ?_,
    fun hrule hroot => ?_⟩
  · obtain ⟨a, ha, m, hm, hdeclares⟩ := hmem.1 he
    obtain ⟨hrule, hroot, rfl⟩ | ⟨d, hd, rfl⟩ | ha := mem_copiedAttributes.1 ha
    · obtain rfl := Option.some.inj (declaration?_sch.1.symm.trans hm)
      exact .inl ⟨⟨hrule, hroot⟩, (Option.some.inj (declaration?_sch.2.symm.trans hdeclares)).symm⟩
    · obtain ⟨m', hm', hread⟩ :=
        declaration?_written (ht.scope.label d (keptDeclarations_subset t scope hd))
      obtain rfl := Option.some.inj (hm'.symm.trans hm)
      rw [hread, written_snd] at hdeclares
      obtain ⟨-, he⟩ := Option.ite_none_left_eq_some.1 hdeclares
      exact .inr ⟨d, hd, (Option.some.inj he).symm⟩
    · obtain ⟨b, hb, rfl⟩ := List.mem_map.1 ha
      obtain ⟨m', hm', hdeclaresNot, -⟩ := rawName?_attributeName ht hxmlns hb
      obtain rfl := Option.some.inj (hm'.symm.trans hm)
      rw [declaration?_of_not_declares hdeclaresNot] at hdeclares
      cases hdeclares
  · obtain ⟨m, hm, hread⟩ :=
      declaration?_written (ht.scope.label d (keptDeclarations_subset t scope hd))
    refine hmem.2 ⟨d.written, mem_copiedAttributes.2 (.inr (.inl ⟨d, hd, rfl⟩)), m, hm, ?_⟩
    rw [hread, written_snd, if_neg (by simp [huri])]
  · exact hmem.2 ⟨_, mem_copiedAttributes.2 (.inl ⟨hrule, hroot, rfl⟩), _, declaration?_sch⟩

/-- **A prefix and a namespace that are copied with elements**: the prefix is not the one that
copies use for the rule language, and the namespace is not one of the rule language and comes back
as it was written. -/
structure Ordinary (p u : String) : Prop where
  label : p ≠ "sch"
  uri : isRuleUri u = false
  tab : '\t' ∉ u.toList
  carriageReturn : '\r' ∉ u.toList

/-- **A copy keeps what a label stands for** if what is declared around it does, whenever the label
is also in scope at the tag that the element was copied with. The label may be missing; at an
element of the rule language it must have nothing to do with that language. -/
theorem lookup?_of_tagBack {label : Option String} (ht : t.Proper)
    (hxmlns : t.lookup? (some "xmlns") = none)
    (hunique : ∀ d ∈ t.scope, ∀ e ∈ t.scope, d.label = label → e.label = label → d = e)
    (h : tagBack inherited start (copiedName t) (copiedAttributes t scope f) = some (n, o))
    (hkeeps : t.ruleName? = none ∨ label ≠ some "sch" ∧ isRuleUri u = false)
    (hlookup : t.lookup? label = some u)
    (hinherited : ∀ s ∈ scope, ∀ d ∈ s.scope, d.label = label → d.uri = u →
      bound? inherited label = some (valueBack u)) :
    o.lookup? label = some (valueBack u) := by
  obtain ⟨own, hoscope, hown, hcomplete, -⟩ := exists_scope_of_tagBack ht hxmlns h
  have hsound : ∀ e ∈ own, e.label = label →
      ∃ d ∈ keptDeclarations t scope, d.label = label ∧ e.uri = valueBack d.uri := by
    intro e he helabel
    obtain ⟨⟨hrule, -⟩, rfl⟩ | ⟨d, hd, rfl⟩ := hown e he
    · exact absurd helabel.symm (hkeeps.resolve_left fun hnone => by simp [hnone] at hrule).1
    · exact ⟨d, hd, helabel, rfl⟩
  obtain ⟨d, hdfind, rfl⟩ := Option.map_eq_some_iff.1 hlookup
  have hd : d ∈ t.scope := List.mem_of_find?_eq_some hdfind
  have hdlabel : d.label = label := by simpa using List.find?_some hdfind
  have hbound : o.lookup? label = (bound? own label).or (bound? inherited label) := by
    rw [← bound?_scopeWithin, ← hoscope]
    rfl
  rw [hbound]
  by_cases hkept : d ∈ keptDeclarations t scope
  · have hxml : valueBack d.uri ≠ xmlUri := fun heq =>
      ht.scope.uri d hd ((eq_valueBack_iff (by decide) (by decide)).1 heq)
    have hmem := hcomplete d hkept hxml
    cases hfind : own.find? (·.label == label) with
    | none => exact absurd (List.find?_eq_none.1 hfind _ hmem) (by simp [hdlabel])
    | some e =>
      obtain ⟨d', hd', hlabel', heu⟩ :=
        hsound e (List.mem_of_find?_eq_some hfind) (by simpa using List.find?_some hfind)
      obtain rfl := hunique d' (keptDeclarations_subset t scope hd') d hd hlabel' hdlabel
      rw [bound?, hfind, Option.map_some, heu]
      rfl
  · have hrule : t.ruleName? = none ∨ isRuleDeclaration d = false :=
      hkeeps.imp_right fun h => by simp [isRuleDeclaration, h.2, hdlabel, h.1]
    obtain ⟨s, hs, hds⟩ := exists_of_not_mem_keptDeclarations hd hrule hkept
    have hnone : bound? own label = none := by
      refine Option.map_eq_none_iff.2 (List.find?_eq_none.2 fun e he heq => ?_)
      obtain ⟨d', hd', hlabel', -⟩ := hsound e he (by simpa using heq)
      obtain rfl := hunique d' (keptDeclarations_subset t scope hd') d hd hlabel' hdlabel
      exact hkept hd'
    rw [hnone, hinherited s hs d hds hdlabel rfl]
    rfl

/-- **A copy keeps a prefix** if the element around it does, whenever the prefix is also in scope at
the tag that the element was copied with. -/
theorem binds_of_tagBack (ht : t.Proper) (hxmlns : t.lookup? (some "xmlns") = none)
    (hscope : ∀ s ∈ scope, s.Proper)
    (h : tagBack inherited start (copiedName t) (copiedAttributes t scope f) = some (n, o))
    (hp : Ordinary p u) (hbinds : t.Binds p u)
    (hinherited : ∀ s ∈ scope, s.Binds p u → bound? inherited (some p) = some u) :
    o.Binds p u := by
  have hback : valueBack u = u := valueBack_eq_iff.2 ⟨hp.tab, hp.carriageReturn⟩
  have hlookup := lookup?_of_tagBack ht hxmlns (fun _ hd _ he => ht.scope.eq_of_label_eq hd he) h
    (.inr ⟨fun heq => hp.label (Option.some.inj heq), hp.uri⟩) hbinds fun s hs d hd hlabel hu => by
      have hsbinds := (hscope s hs).binds hd hlabel
      rw [hu] at hsbinds
      rw [hinherited s hs hsbinds, hback]
  rwa [hback] at hlookup

/-! ## All copies -/

/-- **How an element is copied below a copy of another**: prefixes that are in scope at the tag that
it is copied with are in scope at the other. -/
structure Placed (p u : String) (outer scope : Option Tag) (t : Tag) : Prop where
  proper : t.Proper
  label : t.lookup? (some "xmlns") = none
  around : ∀ s ∈ scope, s.Proper
  binds : ∀ s ∈ scope, s.Binds p u → ∃ o ∈ outer, o.Binds p u

namespace Copy

mutual

/-- A copy in which every element is properly placed, below a copy of an element with a given
tag. -/
def Sits (p u : String) (outer : Option Tag) : Copy → Prop
  | .element t scope _ content => Placed p u outer scope t ∧ AllSit p u (some t) content
  | .text _ => True

/-- Copies in which every element is properly placed. -/
def AllSit (p u : String) (outer : Option Tag) : List Copy → Prop
  | [] => True
  | c :: cs => c.Sits p u outer ∧ AllSit p u outer cs

end

theorem AllSit.append : ∀ {cs ds : List Copy}, AllSit p u outer cs → AllSit p u outer ds →
    AllSit p u outer (cs ++ ds)
  | [], _, _, hds => hds
  | _ :: _, _, hcs, hds => ⟨hcs.1, AllSit.append hcs.2 hds⟩

mutual

theorem Sits.named : ∀ {c : Copy} {outer : Option Tag}, c.Sits p u outer → c.fragment.Named
  | .element t scope f content, _, h => by
    rw [fragment, copyOf, Fragment.Named]
    exact ⟨rawName?_copiedName h.1.proper, rawName?_copiedAttributes h.1.proper h.1.label,
      AllSit.named h.2⟩
  | .text s, _, _ => by
    rw [fragment]
    trivial

/-- The names in what is written for copies are names. -/
theorem AllSit.named : ∀ {cs : List Copy} {outer : Option Tag}, AllSit p u outer cs →
    Fragment.AllNamed (fragments cs)
  | [], _, _ => by
    rw [fragments]
    trivial
  | c :: cs, _, h => by
    rw [fragments]
    exact ⟨Sits.named h.1, AllSit.named h.2⟩

end

end Copy

/-- A fragment in front of others is read in front of what they are read as, also where its text
joins theirs. -/
theorem backAll_joinTo {inherited : List Declaration} {start : ℕ} {g : Fragment}
    {gs : List Fragment} {nodes : List Node}
    (h : Fragment.backAll inherited start (Fragment.joinTo g gs) = some nodes) :
    ∃ first more start', g.back inherited start = some first ∧
      Fragment.backAll inherited start' gs = some more ∧
      Node.tagsOf nodes = Node.tagsOf first ++ Node.tagsOf more ∧
      Node.elementsOf nodes = Node.elementsOf first ++ Node.elementsOf more := by
  unfold Fragment.joinTo at h
  split at h
  · case h_1 s s' gs =>
    rw [Fragment.backAll, Fragment.back] at h
    simp only [Option.bind_eq_bind, Option.bind_some, Option.bind_eq_some_iff] at h
    obtain ⟨more, hmore, hnodes⟩ := h
    obtain rfl := Option.some.inj hnodes
    have hlength : start + (Fragment.text (s ++ s')).chars.length =
        start + (Fragment.text s).chars.length + (Fragment.text s').chars.length := by
      rw [Fragment.chars, Fragment.chars, Fragment.chars, String.toList_append,
        List.flatMap_append, List.length_append, Nat.add_assoc]
    rw [hlength] at hmore
    have htext (r : String) : Node.tagsOf (if r = "" then [] else [.text (textBack r)]) = [] ∧
        Node.elementsOf (if r = "" then [] else [.text (textBack r)]) = [] := by
      split <;> exact ⟨rfl, rfl⟩
    refine ⟨_, (if s' = "" then [] else [.text (textBack s')]) ++ more,
      start + (Fragment.text s).chars.length, by rw [Fragment.back], ?_, ?_, ?_⟩
    · rw [Fragment.backAll, Fragment.back]
      simp only [Option.bind_eq_bind, Option.bind_some, hmore]
      rfl
    · simp only [Node.tagsOf_append, (htext _).1, List.nil_append]
    · simp only [Node.elementsOf_append, (htext _).2, List.nil_append]
  · obtain ⟨first, more, hfirst, hmore, rfl⟩ := Fragment.backAll_cons_eq_some_iff.1 h
    exact ⟨first, more, _, hfirst, hmore, Node.tagsOf_append first more,
      Node.elementsOf_append first more⟩

mutual

/-- **A copy that is properly placed keeps a prefix**, and so do all copies in it. -/
theorem forall₂_binds_of_back (hp : Ordinary p u) {outer : Option Tag}
    {inherited : List Declaration} {start : ℕ} {nodes : List Node}
    (hinherited : ∀ o ∈ outer, o.Binds p u → bound? inherited (some p) = some u) :
    ∀ c : Copy, c.Sits p u outer → c.fragment.joined.back inherited start = some nodes →
      List.Forall₂ (fun t o => Tag.Binds p u t → Tag.Binds p u o) c.tags (Node.tagsOf nodes)
  | .text s, _, h => by
    rw [Copy.fragment, Fragment.joined, Fragment.back] at h
    obtain rfl := Option.some.inj h
    have hnil : Node.tagsOf (if s = "" then [] else [.text (textBack s)]) = [] := by
      split <;> rfl
    rw [Copy.tags, hnil]
    exact .nil
  | .element t scope f content, hsits, h => by
    obtain ⟨hplaced, hcontent⟩ := hsits
    rw [Copy.fragment, copyOf, Fragment.joined] at h
    obtain ⟨n, o, children, htag, hchildren, rfl⟩ := Fragment.back_element_eq_some_iff.1 h
    have hkeeps : t.Binds p u → o.Binds p u := fun hbinds =>
      binds_of_tagBack hplaced.proper hplaced.label hplaced.around htag hp hbinds
        fun s hs hsbinds =>
          have ⟨outside, houter, houtside⟩ := hplaced.binds s hs hsbinds
          hinherited outside houter houtside
    rw [Copy.tags, Node.tagsOf_cons, Node.tags_element, Node.tagsOf_nil, List.append_nil]
    refine .cons hkeeps (forall₂_binds_of_backAll hp (fun o' ho' hbinds => ?_) content hcontent
      hchildren)
    obtain rfl := Option.some.inj ho'
    exact hkeeps hbinds

theorem forall₂_binds_of_backAll (hp : Ordinary p u) {outer : Option Tag}
    {inherited : List Declaration} {start : ℕ} {nodes : List Node}
    (hinherited : ∀ o ∈ outer, o.Binds p u → bound? inherited (some p) = some u) :
    ∀ cs : List Copy, Copy.AllSit p u outer cs →
      Fragment.backAll inherited start (Fragment.joinedAll (Copy.fragments cs)) = some nodes →
      List.Forall₂ (fun t o => Tag.Binds p u t → Tag.Binds p u o) (Copy.tagsOf cs)
        (Node.tagsOf nodes)
  | [], _, h => by
    rw [Copy.fragments, Fragment.joinedAll] at h
    obtain rfl := Option.some.inj h
    rw [Copy.tagsOf]
    exact .nil
  | c :: cs, hsit, h => by
    rw [Copy.fragments, Fragment.joinedAll] at h
    obtain ⟨first, more, start', hfirst, hmore, htags, -⟩ := backAll_joinTo h
    rw [htags, Copy.tagsOf]
    exact List.rel_append (forall₂_binds_of_back hp hinherited c hsit.1 hfirst)
      (forall₂_binds_of_backAll hp hinherited cs hsit.2 hmore)

end

/-! ## The copies of a schema -/

/-- **A schema whose definitions can be used where they are**: wherever an abstract pattern is
instantiated or an abstract rule is extended, a prefix that stands for a namespace at the definition
stands for it there. -/
structure SelfContained (p u : String) (root : Node) : Prop where
  instances : ∀ e ∈ rulesNamed "pattern" root.subtree, ∀ name ∈ e.1.plain? "is-a",
    ∀ d ∈ definition? "pattern" root.subtree name, d.1.Binds p u → e.1.Binds p u
  extensions : ∀ n ∈ root.subtree, ∀ s ∈ n.tag?, ∀ e ∈ rulesNamed "extends" n.children,
    ∀ name ∈ e.1.plain? "rule", ∀ d ∈ definition? "rule" root.subtree name,
      d.1.Binds p u → s.Binds p u

instance (p u : String) (root : Node) : Decidable (SelfContained p u root) :=
  decidable_of_iff
    ((∀ e ∈ rulesNamed "pattern" root.subtree, ∀ name ∈ e.1.plain? "is-a",
      ∀ d ∈ definition? "pattern" root.subtree name, d.1.Binds p u → e.1.Binds p u) ∧
    ∀ n ∈ root.subtree, ∀ s ∈ n.tag?, ∀ e ∈ rulesNamed "extends" n.children,
      ∀ name ∈ e.1.plain? "rule", ∀ d ∈ definition? "rule" root.subtree name,
        d.1.Binds p u → s.Binds p u)
    ⟨fun h => ⟨h.1, h.2⟩, fun h => ⟨h.1, h.2⟩⟩

/-- A schema in which every element is properly labelled and `xmlns` is no prefix. -/
def Labelled (root : Node) : Prop :=
  ∀ t ∈ root.tags, t.Proper ∧ t.lookup? (some "xmlns") = none

variable {root : Node}

/-- A definition stands in the schema. -/
theorem mem_of_definition? {localName id : String} {nodes : List Node} {d : Tag × List Node}
    (h : definition? localName nodes id = some d) : .element d.1 d.2 ∈ nodes :=
  mem_rulesNamed (List.mem_filter.1 (List.mem_of_getLast? h)).1

/-- **Instances and extensions are copied to their places**: below a copy of an element, every
element that is copied for them is properly placed. -/
structure Copiers.Sound (p u : String) (root : Node) (r : Copiers) : Prop where
  instantiate : ∀ {outer scope t cs copies}, .element t cs ∈ root.subtree → t.isRule "pattern" →
    (t.plain? "is-a").isSome → Placed p u outer scope t → r.instantiate scope t cs = .ok copies →
      Copy.AllSit p u outer copies
  extend : ∀ {outer s t n ps copies}, n ∈ root.subtree → n.tag? = some s → ∀ cs,
    .element t cs ∈ n.children → t.isRule "extends" → (s.Binds p u → ∃ o ∈ outer, o.Binds p u) →
      r.extend ps t = .ok copies → Copy.AllSit p u outer copies

section Walk

variable {r : Copiers} {ps : Parameters} {s : Tag} {m : Node}

/-- An element that stands directly below another is properly placed below a copy at which the
prefixes of the other are in scope. -/
theorem placed_of_mem (hroot : Labelled root) (hm : m ∈ root.subtree) (hs : m.tag? = some s)
    {cs : List Node} (ht : .element t cs ∈ m.children)
    (houter : s.Binds p u → ∃ o ∈ outer, o.Binds p u) : Placed p u outer (some s) t := by
  have hmt := hroot t (Node.mem_tags (Node.children_subset hm ht))
  refine ⟨hmt.1, hmt.2, fun s' hs' => ?_, fun s' hs' => ?_⟩
  · obtain rfl := Option.some.inj hs'
    exact (hroot s (List.mem_filterMap.2 ⟨m, hm, hs⟩)).1
  · obtain rfl := Option.some.inj hs'
    exact houter

mutual

theorem sit_copiesOf (hroot : Labelled root) (hr : r.Sound p u root) :
    ∀ (n : Node) {ps : Parameters} {m : Node} {s : Tag} {outer : Option Tag} {copies : List Copy},
      n ∈ m.children → m ∈ root.subtree → m.tag? = some s →
      (s.Binds p u → ∃ o ∈ outer, o.Binds p u) → copiesOf r ps (some s) n = .ok copies →
        Copy.AllSit p u outer copies
  | .text _, _, _, _, _, _, _, _, _, _, h => by
    cases h
    exact ⟨trivial, trivial⟩
  | .element t cs, _, m, s, outer, copies, hn, hm, hs, houter, h => by
    have hplaced := placed_of_mem hroot hm hs hn houter
    have helement := Node.children_subset hm hn
    rw [copiesOf] at h
    split at h
    · cases h
      trivial
    · split at h
      · case isTrue hinstance =>
        obtain ⟨hpattern, hisA⟩ := Bool.and_eq_true_iff.1 hinstance
        exact hr.instantiate helement hpattern hisA hplaced h
      · split at h
        · case isTrue hextends => exact hr.extend hm hs cs hn hextends houter h
        · split at h
          · cases h
            trivial
          · obtain ⟨content, hcontent, h⟩ := bind_eq_ok.1 h
            cases h
            have hsub : cs ⊆ (Node.element t cs).children := List.Subset.refl cs
            exact ⟨⟨hplaced, allSit_copiesOfAll hroot hr cs hsub helement rfl
              (fun hbinds => ⟨t, rfl, hbinds⟩) hcontent⟩, trivial⟩
  | .root _, _, _, _, _, _, _, _, _, _, h | .comment _, _, _, _, _, _, _, _, _, _, h
  | .instruction .., _, _, _, _, _, _, _, _, _, h => by
    cases h
    trivial

/-- **What is copied of the content of an element is properly placed** below any copy at which the
prefixes of that element are in scope. -/
theorem allSit_copiesOfAll (hroot : Labelled root) (hr : r.Sound p u root) :
    ∀ (ns : List Node) {ps : Parameters} {m : Node} {s : Tag} {outer : Option Tag}
      {copies : List Copy}, ns ⊆ m.children → m ∈ root.subtree → m.tag? = some s →
      (s.Binds p u → ∃ o ∈ outer, o.Binds p u) → copiesOfAll r ps (some s) ns = .ok copies →
        Copy.AllSit p u outer copies
  | [], _, _, _, _, _, _, _, _, _, h => by
    cases h
    trivial
  | n :: ns, _, m, s, outer, copies, hns, hm, hs, houter, h => by
    rw [copiesOfAll] at h
    obtain ⟨first, hfirst, h⟩ := bind_eq_ok.1 h
    obtain ⟨more, hmore, h⟩ := bind_eq_ok.1 h
    cases h
    rw [List.cons_subset] at hns
    exact (sit_copiesOf hroot hr n hns.1 hm hs houter hfirst).append
      (allSit_copiesOfAll hroot hr ns hns.2 hm hs houter hmore)

end

end Walk

/-- **Definitions are copied to their places**, however deep they are nested, if the schema is
self-contained. -/
theorem sound_copiers (hroot : Labelled root) (hself : SelfContained p u root) (depth : ℕ) :
    (copiers root.subtree depth).Sound p u root := by
  induction depth using Nat.strong_induction_on with
  | _ depth ih =>
    refine ⟨fun {outer scope t cs copies} ht hpattern hisA hplaced h => ?_,
      fun {outer s t n ps copies} hn hs cs ht hextends houter h => ?_⟩
    · obtain ⟨depth, d, content, own, more, rfl, hd, hown, hmore, rfl⟩ := instantiate_copiers h
      have hsound := ih depth (Nat.lt_succ_self depth)
      obtain ⟨name, hname⟩ := Option.isSome_iff_exists.1 hisA
      rw [hname, Option.getD_some] at hd
      have hbinds := hself.instances (t, cs) (mem_rulesNamed_iff.2 ⟨ht, hpattern⟩) name hname
        (d, content) hd
      refine ⟨⟨hplaced, (allSit_copiesOfAll hroot hsound _ (List.filter_subset_self cs) ht rfl
        (fun h => ⟨t, rfl, h⟩) hown).append ?_⟩, trivial⟩
      exact allSit_copiesOfAll hroot hsound _ (List.filter_subset_self content)
        (mem_of_definition? hd) rfl (fun h => ⟨t, rfl, hbinds h⟩) hmore
    · obtain ⟨depth, name, d, content, rfl, hname, hd, hcontent⟩ := extend_copiers h
      have hbinds := hself.extensions n hn s hs (t, cs) (mem_rulesNamed_iff.2 ⟨ht, hextends⟩)
        name hname (d, content) hd
      exact allSit_copiesOfAll hroot (ih depth (Nat.lt_succ_self depth)) content
        (List.Subset.refl _) (mem_of_definition? hd) rfl (fun h => houter (hbinds h)) hcontent

/-- The root element of a schema stands in it. -/
theorem schemaElement_eq_ok {d : Document} {t : Tag} {cs : List Node}
    (h : schemaElement d = .ok (t, cs)) :
    .element t cs ∈ d.root.subtree ∧ t.isRule "schema" = true := by
  unfold schemaElement Document.rootElement at h
  dsimp only at h
  split at h
  · case isTrue hrule =>
    cases hroot : d.root.elements.head? with
    | none =>
      rw [hroot] at hrule
      exact absurd hrule (by decide)
    | some e =>
      rw [hroot] at h hrule
      cases h
      exact ⟨Document.element_mem_subtree hroot, hrule⟩
  · cases h

/-- The element that a schema consists of is copied as one. -/
theorem copies_eq_ok {d : Document} {cs : List Copy} (h : copies d = .ok cs) :
    ∃ t content copied, schemaElement d = .ok (t, content) ∧
      copiesOfAll (copiers (Node.element t content).subtree definitionLimit) [] (some t) content =
        .ok copied ∧ cs = [.element t none (substitute []) copied] := by
  obtain ⟨⟨t, content⟩, hschema, h⟩ := bind_eq_ok.1 h
  have hrule := (schemaElement_eq_ok hschema).2
  have hother : ∀ localName, localName ≠ "schema" → t.isRule localName = false := by
    intro localName hne
    simp only [Tag.isRule, beq_iff_eq, beq_eq_false_iff_ne] at hrule ⊢
    rw [hrule]
    exact fun heq => hne (Option.some.inj heq).symm
  dsimp only at h
  split at h
  · case h_1 copied hcopied =>
    cases h
    rw [copiesOf, hother "pattern" (by decide), hother "rule" (by decide),
      hother "extends" (by decide), hother "param" (by decide)] at hcopied
    obtain ⟨copied, hcontent, hcopied⟩ := bind_eq_ok.1 hcopied
    cases hcopied
    exact ⟨t, content, copied, hschema, hcontent, rfl⟩
  · cases h

/-- **A self-contained schema is copied** as one element in which every element is properly
placed. -/
theorem sits_of_copies {d : Document} {cs : List Copy} (h : copies d = .ok cs)
    (hxmlns : ∀ t ∈ d.root.tags, t.lookup? (some "xmlns") = none)
    (hself : ∀ e, schemaElement d = .ok e → SelfContained p u (.element e.1 e.2)) :
    ∃ t f content, cs = [.element t none f content] ∧
      (Copy.element t none f content).Sits p u none := by
  obtain ⟨t, ns, content, hschema, hcontent, rfl⟩ := copies_eq_ok h
  have hmem := (schemaElement_eq_ok hschema).1
  have hroot : Labelled (.element t ns) := fun s hs => by
    have hs' : s ∈ d.root.tags := by
      obtain ⟨n, hn, htag⟩ := List.mem_filterMap.1 hs
      exact List.mem_filterMap.2 ⟨n, Node.subtree_subset hmem hn, htag⟩
    exact ⟨Node.proper_ofText d.wellFormed s hs', hxmlns s hs'⟩
  obtain ⟨hproper, hlabel⟩ := hroot t (Node.mem_tags (Node.mem_subtree_self _))
  have hsub : ns ⊆ (Node.element t ns).children := List.Subset.refl ns
  have hsits := allSit_copiesOfAll hroot (sound_copiers hroot (hself _ hschema) _) ns hsub
    (Node.mem_subtree_self _) rfl (fun hbinds => ⟨t, rfl, hbinds⟩) hcontent
  exact ⟨t, _, content, rfl, ⟨hproper, hlabel, by simp, by simp⟩, hsits⟩

theorem renderAll_singleton (g : Fragment) : Fragment.renderAll [g] = g.render := rfl

/-- What was written is read. -/
theorem ofText_of_writtenAll {d d' : Document} {fs : List Fragment}
    (h : writtenAll fs d = .ok d') : Node.ofText (Fragment.renderAll fs) = some d'.root :=
  ofText_of_ofText_eq_ok h

/-- **A schema that is written out keeps a prefix** at every element that is copied, wherever its
copy stands, if the schema is self-contained. -/
theorem keeps_prefixes {d d' : Document} (h : expand d = .ok d') (hp : Ordinary p u)
    (hxmlns : ∀ t ∈ d.root.tags, t.lookup? (some "xmlns") = none)
    (hself : ∀ e, schemaElement d = .ok e → SelfContained p u (.element e.1 e.2)) :
    ∃ cs, copies d = .ok cs ∧ writtenAll (Copy.fragments cs) d = .ok d' ∧
      List.Forall₂ (fun t o => Tag.Binds p u t → Tag.Binds p u o) (Copy.tagsOf cs)
        d'.root.tags := by
  rw [expand_eq] at h
  obtain ⟨cs, hcopies, hwritten⟩ := bind_eq_ok.1 h
  refine ⟨cs, hcopies, hwritten, ?_⟩
  obtain ⟨t, f, content, rfl, hsits⟩ := sits_of_copies hcopies hxmlns hself
  have htext := ofText_of_writtenAll hwritten
  rw [Copy.fragments, Copy.fragments, renderAll_singleton] at htext
  obtain ⟨n, hback, hn⟩ := Fragment.back_of_ofText_render hsits.named htext
  have hkept := forall₂_binds_of_back hp (by simp) _ hsits hback
  rw [hn, Node.tags_root, Copy.tagsOf, Copy.tagsOf, List.append_nil]
  exact hkept

/-- A rule schema with an instance of an abstract pattern whose rule extends an abstract rule. The
prefix `p` is declared for all of it. -/
def schemaOfDefinitions : Document :=
  documentOf ("<schema xmlns=\"http://purl.oclc.org/dsdl/schematron\" xmlns:p=\"urn:p\">" ++
    "<pattern abstract=\"true\" id=\"i\"><rule abstract=\"true\" id=\"r\"><report test=\"p:y\"/>" ++
    "</rule><rule context=\"p:x\"><extends rule=\"r\"/></rule></pattern><pattern is-a=\"i\"/>" ++
    "</schema>") (by decide +kernel)

theorem keeps_prefixes_schemaOfDefinitions : ∃ e cs d',
    schemaElement schemaOfDefinitions = .ok e ∧ expand schemaOfDefinitions = .ok d' ∧
      Ordinary "p" "urn:p" ∧
      (∀ t ∈ schemaOfDefinitions.root.tags, t.lookup? (some "xmlns") = none) ∧
      SelfContained "p" "urn:p" (.element e.1 e.2) ∧
      (∃ t ∈ Copy.tagsOf cs, t.isRule "report" ∧ t.Binds "p" "urn:p") ∧
      copies schemaOfDefinitions = .ok cs ∧
      writtenAll (Copy.fragments cs) schemaOfDefinitions = .ok d' ∧
      List.Forall₂ (fun t o => Tag.Binds "p" "urn:p" t → Tag.Binds "p" "urn:p" o)
        (Copy.tagsOf cs) d'.root.tags := by
  have hp : Ordinary "p" "urn:p" := ⟨by decide, by decide, by decide, by decide⟩
  have hchecks : ((schemaElement schemaOfDefinitions).toOption.any fun e =>
      (copies schemaOfDefinitions).toOption.any fun cs =>
        (writtenAll (Copy.fragments cs) schemaOfDefinitions).toOption.any fun _ =>
          decide ((∀ t ∈ schemaOfDefinitions.root.tags, t.lookup? (some "xmlns") = none) ∧
            SelfContained "p" "urn:p" (.element e.1 e.2) ∧
            ∃ t ∈ Copy.tagsOf cs, t.isRule "report" ∧ t.Binds "p" "urn:p")) = true := by
    decide +kernel
  obtain ⟨e, he, hchecks⟩ := exists_of_any_toOption hchecks
  obtain ⟨cs, hcopies, hchecks⟩ := exists_of_any_toOption hchecks
  obtain ⟨d', hwritten, hchecks⟩ := exists_of_any_toOption hchecks
  obtain ⟨hxmlns, hself, hbound⟩ := of_decide_eq_true hchecks
  have hexpand : expand schemaOfDefinitions = .ok d' := by
    rw [expand_eq, hcopies, ok_bind, hwritten]
  obtain ⟨cs', hcopies', hkept⟩ := keeps_prefixes hexpand hp hxmlns fun e' he' => by
    obtain rfl := Except.ok.inj (he.symm.trans he')
    exact hself
  obtain rfl := Except.ok.inj (hcopies.symm.trans hcopies')
  exact ⟨e, cs, d', he, hexpand, hp, hxmlns, hself, hbound, hcopies, hkept⟩

/-- A rule schema with an instance of an abstract pattern that declares a prefix. -/
def schemaOfPrefix : Document :=
  documentOf ("<schema xmlns=\"http://purl.oclc.org/dsdl/schematron\">" ++
    "<pattern abstract=\"true\" id=\"i\" xmlns:p=\"urn:p\"><rule context=\"p:x\"/></pattern>" ++
    "<pattern is-a=\"i\"/></schema>") (by decide +kernel)

/-- **A prefix that only a definition declares is lost** at the rules of its instances. -/
theorem not_keeps_prefixes : ∃ d' cs, expand schemaOfPrefix = .ok d' ∧
    copies schemaOfPrefix = .ok cs ∧ writtenAll (Copy.fragments cs) schemaOfPrefix = .ok d' ∧
      ∃ e ∈ (Copy.tagsOf cs).zip d'.root.tags, e.1.isRule "rule" ∧ e.1.Binds "p" "urn:p" ∧
        e.2.lookup? (some "p") = none := by
  have hlost : ((copies schemaOfPrefix).toOption.any fun cs =>
      (writtenAll (Copy.fragments cs) schemaOfPrefix).toOption.any fun (d' : Document) =>
        decide (∃ e ∈ (Copy.tagsOf cs).zip d'.root.tags, e.1.isRule "rule" ∧
          e.1.Binds "p" "urn:p" ∧ e.2.lookup? (some "p") = none)) = true := by
    decide +kernel
  obtain ⟨cs, hcopies, hlost⟩ := exists_of_any_toOption hlost
  obtain ⟨d', hwritten, hlost⟩ := exists_of_any_toOption hlost
  have hexpand : expand schemaOfPrefix = .ok d' := by rw [expand_eq, hcopies, ok_bind, hwritten]
  exact ⟨d', cs, hexpand, hcopies, hwritten, of_decide_eq_true hlost⟩

end Rules

end XmlConformance
