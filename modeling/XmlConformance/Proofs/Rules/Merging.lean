import Mathlib.Logic.Relation
import XmlConformance.Files
import XmlConformance.Proofs.Rules.Keeping
import XmlConformance.Proofs.Rules.Splicing
import XmlConformance.Rules.Inclusion

/-!
# Proofs/Rules/Merging — rule schemas without references to fragments

Merging the fragments that a schema refers to puts in the place of every reference what it leads to,
and does so again inside the fragment, with references relative to the URL of the fragment
(`Merged`). What comes of it is one schema, in which no reference is left (`Merged.forall_tags`); it
is carried over when it is written, if it can be copied (`includeFragments_settles`). References
that go round in a circle have no such schema, and nothing is written for them
(`exists_error_of_circle`).

The label `sch` and default declarations can get in the way of what is carried over: an element of
another language can come to be a reference (`not_includeFragments_settles`), and a fragment can be
put inside an element whose default namespace takes in elements of no namespace
(`not_keeps_default`).
-/

namespace XmlConformance.Rules

open Xml

open Node (contents)

/-! ## Where references lead -/

/-- The URL that a reference stands for in a document with a base URL, or in one without. -/
def Locates (base : Option Url) (href : String) (url : Url) : Prop :=
  (match base with
    | some base => base.join href
    | none => Url.ofText href) = .ok url

/-- **The element that the fragment of a URL selects** in a document: the root element without a
fragment, and otherwise the first element with the fragment as its id. -/
inductive Target (d : Document) : Option String → Tag × List Node → Prop
  | root {fragment : Option String} : fragment = none ∨ fragment = some "" →
      Target d fragment d.rootElement
  | named {id : String} {e : Tag × List Node} : id ≠ "" →
      (Node.elementsOf d.root.subtree).find? (fun e => e.1.plain? "id" == some id) = some e →
      Target d (some id) e

/-- **Where a reference leads**: to the URL of a document, and to an element in the document. The
reference is relative to the base URL that is given. -/
structure LeadsTo (library : Library) (base : Option Url) (t : Tag) (place : Url)
    (e : Tag × List Node) : Prop where
  found : ∃ href url d, t.plain? "href" = some href ∧ Locates base href url ∧
    place = { url with fragment := none } ∧ library.atUrl place = .ok d ∧ Target d url.fragment e

/-- What is put in the place of a reference: the element that it leads to, or what that element
holds if it is a whole schema or the reference an extension. -/
def insertedFor (t : Tag) (e : Tag × List Node) : List Node :=
  if e.1.isRule "schema" || t.isRule "extends" then e.2 else [.element e.1 e.2]

/-- **The elements and texts among some nodes with every reference replaced**, also inside
fragments. References are relative to the base URL that is given, and inside a fragment to the URL
of the fragment. -/
inductive Merged (library : Library) : Option Url → List Node → List Node → Prop
  | nil {base : Option Url} : Merged library base [] []
  | text {base : Option Url} {s : String} {ns ms : List Node} :
      Merged library base ns ms → Merged library base (.text s :: ns) (.text s :: ms)
  | other {base : Option Url} {n : Node} {ns ms : List Node} : n.isElement = false →
      n.isText = false → Merged library base ns ms → Merged library base (n :: ns) ms
  | element {base : Option Url} {t : Tag} {cs content ns ms : List Node} : isReference t = false →
      Merged library base cs content → Merged library base ns ms →
      Merged library base (.element t cs :: ns) (.element t content :: ms)
  | reference {base : Option Url} {t : Tag} {cs fragment ns ms : List Node} {place : Url}
      {e : Tag × List Node} : isReference t = true → LeadsTo library base t place e →
      Merged library (some place) (insertedFor t e) fragment → Merged library base ns ms →
      Merged library base (.element t cs :: ns) (fragment ++ ms)

section Merged

variable {library : Library} {base : Option Url} {t : Tag} {place place' : Url}
  {e e' : Tag × List Node} {ns ms ns' ms' : List Node}

theorem Target.unique {d : Document} {fragment : Option String} (h : Target d fragment e)
    (h' : Target d fragment e') : e = e' := by
  cases h with
  | root hnone =>
    cases h' with
    | root => rfl
    | named hid => simp [hid] at hnone
  | named hid hfind =>
    cases h' with
    | root hnone => simp [hid] at hnone
    | named _ hfind' => exact Option.some.inj (hfind.symm.trans hfind')

/-- What a fragment selects stands in the document. -/
theorem Target.mem {d : Document} {fragment : Option String} (h : Target d fragment e) :
    .element e.1 e.2 ∈ d.root.subtree := by
  cases h with
  | root => exact d.rootElement_mem
  | named _ hfind => exact Node.mem_elementsOf.1 (List.mem_of_find?_eq_some hfind)

theorem Target.tags_subset {d : Document} {fragment : Option String} (h : Target d fragment e) :
    (Node.element e.1 e.2).tags ⊆ d.root.tags :=
  List.filterMap_subset _ (Node.subtree_subset h.mem)

theorem tags_insertedFor : Node.tagsOf (insertedFor t e) ⊆ (Node.element e.1 e.2).tags := by
  unfold insertedFor
  split
  · exact List.subset_cons_self _ _
  · rw [Node.tagsOf_cons, Node.tagsOf_nil, List.append_nil]
    exact List.Subset.refl _

/-- **A reference leads to one element.** -/
theorem LeadsTo.unique (h : LeadsTo library base t place e)
    (h' : LeadsTo library base t place' e') :
    place = place' ∧ e = e' := by
  obtain ⟨href, url, d, hhref, hurl, rfl, hd, htarget⟩ := h.found
  obtain ⟨href', url', d', hhref', hurl', rfl, hd', htarget'⟩ := h'.found
  obtain rfl := Option.some.inj (hhref.symm.trans hhref')
  obtain rfl := Except.ok.inj (hurl.symm.trans hurl')
  obtain rfl := Except.ok.inj (hd.symm.trans hd')
  exact ⟨rfl, htarget.unique htarget'⟩

/-- **References are replaced in one way.** -/
theorem Merged.unique (h : Merged library base ns ms) :
    ∀ {ms'}, Merged library base ns ms' → ms = ms' := by
  induction h with
  | nil =>
    rintro _ ⟨⟩
    rfl
  | text _ ih =>
    intro ms' h'
    cases h' with
    | text h' => rw [ih h']
    | other _ htext => cases htext
  | other helement htext _ ih =>
    intro ms' h'
    cases h' with
    | text => cases htext
    | other _ _ h' => exact ih h'
    | element | reference => cases helement
  | element ht _ _ ihcontent ih =>
    intro ms' h'
    cases h' with
    | other helement => cases helement
    | element _ hcontent h' => rw [ihcontent hcontent, ih h']
    | reference ht' => rw [ht] at ht'; cases ht'
  | reference ht hleads _ _ ihfragment ih =>
    intro ms' h'
    cases h' with
    | other helement => cases helement
    | element ht' => rw [ht] at ht'; cases ht'
    | reference _ hleads' hfragment h' =>
      obtain ⟨rfl, rfl⟩ := hleads.unique hleads'
      rw [ihfragment hfragment, ih h']

theorem Merged.append (h : Merged library base ns ms) (hmore : Merged library base ns' ms') :
    Merged library base (ns ++ ns') (ms ++ ms') := by
  induction h with
  | nil => exact hmore
  | text _ ih => exact .text (ih hmore)
  | other helement htext _ ih => exact .other helement htext (ih hmore)
  | element ht hcontent _ _ ih => exact .element ht hcontent (ih hmore)
  | reference ht hleads hfragment _ _ ih =>
    rw [List.append_assoc]
    exact .reference ht hleads hfragment (ih hmore)

/-- **What all elements have** that stand in the documents of a library, and that are no references,
all elements have that come of a schema. -/
theorem Merged.forall_tags {P : Tag → Prop}
    (hlibrary : ∀ url d, library.atUrl url = .ok d → ∀ t ∈ d.root.tags, P t)
    (h : Merged library base ns ms) : (∀ t ∈ Node.tagsOf ns, P t) →
      ∀ t ∈ Node.tagsOf ms, isReference t = false ∧ P t := by
  induction h with
  | nil => exact fun _ => List.forall_mem_nil _
  | text _ ih =>
    rw [Node.tagsOf_cons, Node.tagsOf_cons]
    exact ih
  | other _ _ _ ih =>
    rw [Node.tagsOf_cons]
    exact fun hns => ih (List.forall_mem_append.1 hns).2
  | element ht _ _ ihcontent ih =>
    rw [Node.tagsOf_cons, Node.tags_element, Node.tagsOf_cons, Node.tags_element]
    intro hns
    obtain ⟨hself, hns⟩ := List.forall_mem_cons.1 hns
    obtain ⟨hcontent, hmore⟩ := List.forall_mem_append.1 hns
    exact List.forall_mem_cons.2
      ⟨⟨ht, hself⟩, List.forall_mem_append.2 ⟨ihcontent hcontent, ih hmore⟩⟩
  | @reference _ _ _ _ _ _ _ e _ hleads _ _ ihfragment ih =>
    rw [Node.tagsOf_cons, Node.tagsOf_append]
    intro hns
    refine List.forall_mem_append.2 ⟨ihfragment fun s hs => ?_, ih (List.forall_mem_append.1 hns).2⟩
    obtain ⟨_, _, d, -, -, -, hd, htarget⟩ := hleads.found
    exact hlibrary _ d hd s (htarget.tags_subset (tags_insertedFor hs))

end Merged

/-! ## What is written -/

section Writing

variable {library : Library} {replace : Tag → Loading (List Fragment)} {scope : Option Tag}
  {n : Node} {ns : List Node} {fs : List Fragment}

theorem mergeAll_cons_eq_ok (h : (mergeAll replace scope (n :: ns)).outcome = .ok fs) :
    ∃ first more, (merge replace scope n).outcome = .ok first ∧
      (mergeAll replace scope ns).outcome = .ok more ∧ fs = first ++ more := by
  rw [mergeAll, Tracked.outcome_bind] at h
  obtain ⟨first, hfirst, h⟩ := bind_eq_ok.1 h
  rw [Tracked.outcome_bind] at h
  obtain ⟨more, hmore, h⟩ := bind_eq_ok.1 h
  exact ⟨first, more, hfirst, hmore, (Except.ok.inj h).symm⟩

theorem merge_element_eq_ok {t : Tag} {cs : List Node} (ht : isReference t = false)
    (h : (merge replace scope (.element t cs)).outcome = .ok fs) :
    ∃ content, (mergeAll replace (some t) cs).outcome = .ok content ∧
      fs = [copyOf t scope id content] := by
  rw [merge, ht, if_neg Bool.false_ne_true, Tracked.outcome_bind] at h
  obtain ⟨content, hcontent, h⟩ := bind_eq_ok.1 h
  exact ⟨content, hcontent, (Except.ok.inj h).symm⟩

theorem fragmentTarget?_eq_some {d : Document} {fragment : Option String} {e : Tag × List Node}
    (h : fragmentTarget? d fragment = some e) : Target d fragment e := by
  unfold fragmentTarget? at h
  split at h
  · case h_1 hnone =>
    obtain rfl := Option.some.inj h
    refine .root ?_
    cases fragment with
    | none => exact .inl rfl
    | some id => exact .inr (by simpa using hnone)
  · case h_2 id hid =>
    obtain ⟨rfl, hne⟩ := Option.filter_eq_some_iff.1 hid
    refine .named (by simpa using hne) ?_
    generalize d.root.subtree = ns at h
    induction ns with
    | nil => cases h
    | cons n ns ih =>
      rw [List.findSome?_cons] at h
      cases n with
      | element t cs =>
        change List.find? _ ((t, cs) :: Node.elementsOf ns) = some e
        rw [List.find?_cons]
        dsimp only at h ⊢
        cases hid : t.plain? "id" == some id with
        | true =>
          rw [hid] at h
          exact h
        | false =>
          rw [hid] at h
          exact ih h
      | root | text | comment | instruction => exact ih h

/-- **What stands in for a reference** is what comes of the element that it leads to, and fragments
are nested less deep in there. -/
theorem replacement_eq_ok (hbase : ∀ url d, library.atUrl url = .ok d → d.base = some url)
    {depth : ℕ} {d : Document} {t : Tag} (h : (replacement library depth d t).outcome = .ok fs) :
    ∃ depth' place e included, depth = depth' + 1 ∧ LeadsTo library d.base t place e ∧
      Document.base included = some place ∧
        (mergeAll (replacement library depth' included) none (insertedFor t e)).outcome =
          .ok fs := by
  unfold replacement at h
  split at h
  · cases h
  · case h_2 href hhref =>
    split at h
    · cases h
    · case h_2 depth' =>
      rw [Tracked.outcome_bind] at h
      obtain ⟨url, hurl, h⟩ := bind_eq_ok.1 h
      rw [Tracked.outcome_bind] at h
      obtain ⟨included, hincluded, h⟩ := bind_eq_ok.1 h
      split at h
      · cases h
      · case h_2 target content htarget =>
        refine ⟨depth', _, (target, content), included, rfl, ⟨href, url, included, hhref,
          mapError_eq_ok.1 hurl, rfl, hincluded, fragmentTarget?_eq_some htarget⟩,
          hbase _ _ hincluded, ?_⟩
        unfold insertedFor
        dsimp only at h ⊢
        split at h
        · case isTrue hwhole => rwa [if_pos hwhole]
        · case isFalse hwhole =>
          rw [if_neg hwhole, mergeAll, Tracked.outcome_bind, h, ok_bind]
          simp [mergeAll, Tracked.pure]

/-- What stands in for references is written for what comes of their fragments. -/
def Replaces (library : Library) (base : Option Url) (replace : Tag → Loading (List Fragment)) :
    Prop :=
  ∀ {t : Tag} {fs : List Fragment}, (replace t).outcome = .ok fs →
    ∃ place e fragment, LeadsTo library base t place e ∧
      Merged library (some place) (insertedFor t e) fragment ∧ Writes none fragment fs

mutual

theorem merged_of_merge {base : Option Url} (hreplace : Replaces library base replace) :
    ∀ (n : Node) {scope : Option Tag} {fs : List Fragment},
    (merge replace scope n).outcome = .ok fs →
      ∃ ms, Merged library base [n] ms ∧ Writes scope ms fs
  | .text s, _, _, h => by
    cases h
    exact ⟨[.text s], .text .nil, .text .nil⟩
  | .element t cs, scope, fs, h => by
    cases ht : isReference t with
    | true =>
      rw [merge, if_pos ht] at h
      obtain ⟨place, e, fragment, hleads, hmerged, hwrites⟩ := hreplace h
      refine ⟨fragment, ?_, hwrites.within⟩
      rw [← List.append_nil fragment]
      exact .reference ht hleads hmerged .nil
    | false =>
      obtain ⟨content, hcontent, rfl⟩ := merge_element_eq_ok ht h
      obtain ⟨ms, hmerged, hwrites⟩ := merged_of_mergeAll hreplace cs hcontent
      exact ⟨[.element t ms], .element ht hmerged .nil, .element (.inr rfl) hwrites .nil⟩
  | .root _, _, _, h | .comment _, _, _, h | .instruction .., _, _, h => by
    cases h
    exact ⟨[], .other rfl rfl .nil, .nil⟩

/-- **What is written is what comes of the nodes** if that holds of what stands in for their
references. -/
theorem merged_of_mergeAll {base : Option Url} (hreplace : Replaces library base replace) :
    ∀ (ns : List Node) {scope : Option Tag} {fs : List Fragment},
    (mergeAll replace scope ns).outcome = .ok fs →
      ∃ ms, Merged library base ns ms ∧ Writes scope ms fs
  | [], _, _, h => by
    cases h
    exact ⟨[], .nil, .nil⟩
  | n :: ns, _, _, h => by
    obtain ⟨first, more, hfirst, hmore, rfl⟩ := mergeAll_cons_eq_ok h
    obtain ⟨ms, hmerged, hwrites⟩ := merged_of_merge hreplace n hfirst
    obtain ⟨ms', hmerged', hwrites'⟩ := merged_of_mergeAll hreplace ns hmore
    exact ⟨ms ++ ms', hmerged.append hmerged', hwrites.append hwrites'⟩

end

/-- **What stands in for a reference** is written for what comes of its fragment, however deep
fragments are nested in it. -/
theorem merged_of_replacement (hbase : ∀ url d, library.atUrl url = .ok d → d.base = some url)
    (depth : ℕ) : ∀ d : Document, Replaces library d.base (replacement library depth d) := by
  induction depth with
  | zero =>
    intro d t fs h
    obtain ⟨_, _, _, _, hdepth, -⟩ := replacement_eq_ok hbase h
    cases hdepth
  | succ depth ih =>
    intro d t fs h
    obtain ⟨depth', place, e, included, hdepth, hleads, hplace, hinserted⟩ :=
      replacement_eq_ok hbase h
    obtain rfl := Nat.succ.inj hdepth
    obtain ⟨ms, hmerged, hwrites⟩ := merged_of_mergeAll (ih included) _ hinserted
    exact ⟨place, e, ms, hleads, hplace ▸ hmerged, hwrites⟩

end Writing

/-! ## Circles -/

/-- **A reference that is met** in some nodes: it stands in none of the references among them. -/
inductive Meets : List Node → Tag → Prop
  | here {t : Tag} {cs ns : List Node} : isReference t = true → Meets (.element t cs :: ns) t
  | inside {t t' : Tag} {cs ns : List Node} : isReference t = false → Meets cs t' →
      Meets (.element t cs :: ns) t'
  | later {t' : Tag} {n : Node} {ns : List Node} : Meets ns t' → Meets (n :: ns) t'

/-- **A reference at a URL is followed by another** if the other is met in what the first one leads
to. -/
def Follows (library : Library) (x y : Option Url × Tag) : Prop :=
  ∃ place e, LeadsTo library x.1 x.2 place e ∧ y.1 = some place ∧ Meets (insertedFor x.2 e) y.2

/-- A reference at a URL can be replaced if fragments may be nested so deep. -/
def Replaceable (library : Library) (depth : ℕ) (x : Option Url × Tag) : Prop :=
  ∃ d fs, Document.base d = x.1 ∧ (replacement library depth d x.2).outcome = .ok fs

theorem Meets.of_mem {t : Tag} {cs : List Node} (ht : isReference t = true) :
    ∀ {ns : List Node}, .element t cs ∈ ns → Meets ns t
  | n :: ns, h => by
    obtain rfl | h := List.mem_cons.1 h
    · exact .here ht
    · exact .later (Meets.of_mem ht h)

section Circles

variable {library : Library} {replace : Tag → Loading (List Fragment)}
  {x y : Option Url × Tag} {depth : ℕ}

/-- **A reference that is met is replaced.** -/
theorem Meets.exists_replace {ns : List Node} {t : Tag} (h : Meets ns t) :
    ∀ {scope : Option Tag} {fs : List Fragment}, (mergeAll replace scope ns).outcome = .ok fs →
      ∃ fs', (replace t).outcome = .ok fs' := by
  induction h with
  | here ht =>
    intro scope fs hfs
    obtain ⟨first, _, hfirst, -⟩ := mergeAll_cons_eq_ok hfs
    rw [merge, if_pos ht] at hfirst
    exact ⟨first, hfirst⟩
  | inside ht _ ih =>
    intro scope fs hfs
    obtain ⟨_, _, hfirst, -⟩ := mergeAll_cons_eq_ok hfs
    obtain ⟨_, hcontent, -⟩ := merge_element_eq_ok ht hfirst
    exact ih hcontent
  | later _ ih =>
    intro scope fs hfs
    obtain ⟨_, _, -, hmore, -⟩ := mergeAll_cons_eq_ok hfs
    exact ih hmore

variable (hbase : ∀ url d, library.atUrl url = .ok d → d.base = some url)

include hbase

/-- **What follows a reference is replaced less deep.** -/
theorem Replaceable.follows (h : Replaceable library depth x) (hy : Follows library x y) :
    ∃ depth' < depth, Replaceable library depth' y := by
  obtain ⟨d, fs, hd, h⟩ := h
  obtain ⟨depth', place, e, included, rfl, hleads, hplace, hinserted⟩ := replacement_eq_ok hbase h
  obtain ⟨place', e', hleads', hyplace, hmeets⟩ := hy
  rw [hd] at hleads
  obtain ⟨rfl, rfl⟩ := hleads.unique hleads'
  obtain ⟨fs', hfs'⟩ := hmeets.exists_replace hinserted
  exact ⟨depth', Nat.lt_succ_self _, included, fs', hplace.trans hyplace.symm, hfs'⟩

theorem Replaceable.transGen (h : Replaceable library depth x)
    (hy : Relation.TransGen (Follows library) x y) :
    ∃ depth' < depth, Replaceable library depth' y := by
  induction hy with
  | single hfollows => exact h.follows hbase hfollows
  | tail _ hlast ih =>
    obtain ⟨between, hlt, hbetween⟩ := ih
    obtain ⟨depth', hlt', hreplaceable⟩ := hbetween.follows hbase hlast
    exact ⟨depth', hlt'.trans hlt, hreplaceable⟩

/-- **A reference that follows itself** is replaced at no depth. -/
theorem not_replaceable_of_circle (hcircle : Relation.TransGen (Follows library) x x) :
    ∀ depth, ¬Replaceable library depth x := by
  intro depth
  induction depth using Nat.strong_induction_on with
  | _ depth ih =>
    intro h
    obtain ⟨depth', hlt, h'⟩ := h.transGen hbase hcircle
    exact ih depth' hlt h'

/-- **References that come to a circle cannot be replaced.** -/
theorem not_replaceable_of_reached (hy : Relation.ReflTransGen (Follows library) x y)
    (hcircle : Relation.TransGen (Follows library) y y) : ¬Replaceable library depth x := by
  intro h
  obtain rfl | hy := Relation.reflTransGen_iff_eq_or_transGen.1 hy
  · exact not_replaceable_of_circle hbase hcircle depth h
  · obtain ⟨depth', -, h'⟩ := h.transGen hbase hy
    exact not_replaceable_of_circle hbase hcircle depth' h'

end Circles

/-! ## Whole schemas -/

/-- A document is relative to the URL that it was read from. -/
theorem base_ofText {text : String} {base : Option Url} {d : Document}
    (h : Document.ofText text base = .ok d) : d.base = base := by
  unfold Document.ofText at h
  split at h
  · cases h
    rfl
  · cases h

/-- **Files are relative to their URLs.** -/
theorem base_library (f : Files) {url : Url} {d : Document} (h : f.library.atUrl url = .ok d) :
    d.base = some url := by
  change f.atUrl url = .ok d at h
  unfold Files.atUrl at h
  split at h
  · split at h
    · cases h
    · obtain ⟨text, -, h⟩ := bind_eq_ok.1 h
      exact base_ofText h
  · split at h <;> cases h

section Schemas

variable {library : Library} {d d' : Document} {t : Tag} {cs : List Node}

/-- The root element of a rule schema is no reference. -/
theorem isReference_schema (h : t.isRule "schema" = true) : isReference t = false := by
  rw [isReference, isRule_eq_false h (by decide), isRule_eq_false h (by decide)]
  rfl

theorem rootElement_of_schemaElement {e : Tag × List Node} (h : schemaElement d = .ok e) :
    d.rootElement = e := by
  unfold schemaElement at h
  dsimp only at h
  split at h
  · exact Except.ok.inj h
  · cases h

theorem includeFragments_eq_ok (hschema : schemaElement d = .ok (t, cs))
    (h : (includeFragments library d).outcome = .ok d') :
    ∃ content, (mergeAll (replacement library nestingLimit d) (some t) cs).outcome = .ok content ∧
      writtenAll [copyOf t none id content] d = .ok d' := by
  unfold includeFragments at h
  rw [Tracked.outcome_bind, Tracked.outcome_of, hschema, ok_bind] at h
  dsimp only at h
  rw [Tracked.outcome_bind] at h
  obtain ⟨fs, hfs, h⟩ := bind_eq_ok.1 h
  obtain ⟨content, hcontent, rfl⟩ :=
    merge_element_eq_ok (isReference_schema (schemaElement_eq_ok hschema).2) hfs
  exact ⟨content, hcontent, h⟩

theorem Kept.isReference_eq {t o : Tag} (h : Kept t o) : isReference o = isReference t := by
  have hrule (localName : String) : o.isRule localName = t.isRule localName := by
    rw [Tag.isRule, Tag.isRule, h.ruleName]
  rw [isReference, isReference, hrule, hrule,
    plain?_of_forall₂ (h.attributes.imp fun _ _ h => h.toAttributeOf), Option.isSome_map]

/-- **Nothing is written for references in a circle.** -/
theorem exists_error_of_circle (hbase : ∀ url d, library.atUrl url = .ok d → d.base = some url)
    (hschema : schemaElement d = .ok (t, cs)) {x : Tag} {y : Option Url × Tag} (hx : Meets cs x)
    (hy : Relation.ReflTransGen (Follows library) (d.base, x) y)
    (hcircle : Relation.TransGen (Follows library) y y) :
    ∃ e, (includeFragments library d).outcome = .error e := by
  cases h : (includeFragments library d).outcome with
  | error e => exact ⟨e, rfl⟩
  | ok d' =>
    obtain ⟨content, hcontent, -⟩ := includeFragments_eq_ok hschema h
    obtain ⟨fs, hfs⟩ := hx.exists_replace hcontent
    exact absurd ⟨d, fs, rfl, hfs⟩ (not_replaceable_of_reached hbase hy hcircle)

/-- **What merging the fragments of a schema comes to.** If the references that are met come to a
circle, it fails. If it does not fail, what it writes is the schema with every reference replaced by
what it leads to, in which no reference is left; and if the schema that comes of it can be copied,
every element and text of it is carried over, and there is nothing else. -/
theorem includeFragments_settles (hbase : ∀ url d, library.atUrl url = .ok d → d.base = some url)
    (hschema : schemaElement d = .ok (t, cs)) :
    (∀ x y, Meets cs x → Relation.ReflTransGen (Follows library) (d.base, x) y →
      Relation.TransGen (Follows library) y y →
        ∃ e, (includeFragments library d).outcome = .error e) ∧
    ∀ d', (includeFragments library d).outcome = .ok d' →
      ∃ merged, Merged library d.base cs merged ∧
        (∀ s ∈ Node.tagsOf merged, isReference s = false) ∧
        ((∀ s ∈ (Node.element t merged).tags, s.Regular) → SetApart (.element t merged) →
          OwnDefaults (.element t merged) →
            (∀ o ∈ d'.root.tags, isReference o = false) ∧
            ∃ o os, d'.root = .root [.element o os] ∧
              CarriedWith Kept (.element t merged) (.element o os)) := by
  refine ⟨fun x y => exists_error_of_circle hbase hschema, fun d' h => ?_⟩
  obtain ⟨content, hcontent, hwritten⟩ := includeFragments_eq_ok hschema h
  obtain ⟨merged, hmerged, hwrites⟩ :=
    merged_of_mergeAll (merged_of_replacement hbase nestingLimit d) cs hcontent
  have hmem := (schemaElement_eq_ok hschema).1
  have hrule := (schemaElement_eq_ok hschema).2
  have hresolved (d : Document) : ∀ s ∈ d.root.tags, s.Resolved :=
    (Node.inherits_ofText d.wellFormed).resolved
  have hcs : ∀ s ∈ (Node.element t cs).tags, s.Resolved := fun s hs =>
    hresolved d s (List.filterMap_subset _ (Node.subtree_subset hmem) hs)
  rw [Node.tags_element, List.forall_mem_cons] at hcs
  have htags := hmerged.forall_tags (fun _ d _ => hresolved d) hcs.2
  refine ⟨merged, hmerged, fun s hs => (htags s hs).1, fun hregular hapart hdefaults => ?_⟩
  have hrepro : Reproducible (.element t merged) :=
    ⟨List.forall_mem_cons.2 ⟨hcs.1, fun s hs => (htags s hs).2⟩, hregular, hapart, hdefaults⟩
  obtain ⟨o, os, hroot, hread⟩ := reread_of_written hwrites
    (fun s hs => ⟨(hrepro.resolved s hs).toProper, (hregular s hs).xmlns⟩) hwritten
  have hcarried := carried_of_root hrepro (by rw [beq_iff_eq.1 hrule]; rfl) hread
  refine ⟨fun s hs => ?_, o, os, hroot, hcarried⟩
  rw [hroot, Node.tags_root, Node.tagsOf_cons, Node.tagsOf_nil, List.append_nil] at hs
  obtain ⟨s', hs', hkept⟩ := hcarried.exists_of_mem_tags hs
  rw [hkept.isReference_eq]
  obtain rfl | hs' := List.mem_cons.1 hs'
  · exact isReference_schema hrule
  · exact (htags s' hs').1

end Schemas

/-- The library that has a text at every URL. -/
def libraryOf (text : String) : Library where
  atUrl url := Document.ofText text (some url)
  atPath name := .error (.file name "not there")

/-- Every document of the library is relative to its URL. -/
theorem base_libraryOf (text : String) (url : Url) (d : Document)
    (h : (libraryOf text).atUrl url = .ok d) : d.base = some url :=
  base_ofText h

/-- A document of the library is the one that its text is read as. -/
theorem root_of_libraryOf {d d' : Document} {url : Url}
    (h : (libraryOf d.text).atUrl url = .ok d') :
    d'.root = d.root :=
  Option.some.inj ((ofText_of_ofText_eq_ok h).symm.trans d.wellFormed)

/-- A rule schema that refers to one of its elements. -/
def schemaOfFragments : Document :=
  documentOf ("<schema xmlns=\"http://purl.oclc.org/dsdl/schematron\">" ++
    "<include href=\"a:b#r\"/><pattern id=\"r\"/></schema>") (by decide +kernel)

/-- A rule schema that refers to itself. -/
def schemaOfItself : Document :=
  documentOf ("<schema xmlns=\"http://purl.oclc.org/dsdl/schematron\"><include href=\"a:b\"/>" ++
    "</schema>") (by decide +kernel)

/-- What is asked of an element of a schema that can be copied, where all are of the rule
language. -/
def PlainRule (t : Tag) : Prop :=
  t.Regular ∧ t.ruleName?.isSome ∧ ∀ a ∈ t.attributes, t.attributeLabel a.name ≠ some "sch"

instance (t : Tag) : Decidable (PlainRule t) := inferInstanceAs (Decidable (_ ∧ _ ∧ _))

theorem copyable_of_plainRule {n : Node} (h : ∀ t ∈ n.tags, PlainRule t) :
    (∀ t ∈ n.tags, t.Regular) ∧ SetApart n ∧ OwnDefaults n := by
  have hnone {t : Tag} (ht : t ∈ n.tags) (hother : t.ruleName? = none) : False := by
    have hrule := (h t ht).2.1
    rw [hother] at hrule
    cases hrule
  refine ⟨fun t ht => (h t ht).1, ⟨fun t ht hother => (hnone ht hother).elim,
    fun t ht a ha hsch => absurd hsch ((h t ht).2.2 a ha), fun m hm t ht hother => ?_⟩,
    fun m hm t ht _ t' ht' hother => ?_⟩
  · exact (hnone (List.mem_filterMap.2 ⟨m, hm, ht⟩) hother).elim
  · have hsub := List.Subset.trans (Node.subtrees_children_subset m) (Node.subtree_subset hm)
    exact (hnone (List.filterMap_subset _ hsub ht') hother).elim

theorem includeFragments_settles_schemaOfFragments :
    (∃ t cs d' merged, schemaElement schemaOfFragments = .ok (t, cs) ∧
      (includeFragments (libraryOf schemaOfFragments.text) schemaOfFragments).outcome = .ok d' ∧
      Merged (libraryOf schemaOfFragments.text) none cs merged ∧
      (∃ s ∈ (Node.element t cs).tags, isReference s = true) ∧
      (∀ o ∈ d'.root.tags, isReference o = false) ∧
      ∃ o os, d'.root = .root [.element o os] ∧
        CarriedWith Kept (.element t merged) (.element o os)) ∧
    ∃ t cs x y e, schemaElement schemaOfItself = .ok (t, cs) ∧ Meets cs x ∧
      Relation.ReflTransGen (Follows (libraryOf schemaOfItself.text)) (none, x) y ∧
      Relation.TransGen (Follows (libraryOf schemaOfItself.text)) y y ∧
      (includeFragments (libraryOf schemaOfItself.text) schemaOfItself).outcome = .error e := by
  constructor
  · have hchecks : ((schemaElement schemaOfFragments).toOption.any fun (e : Tag × List Node) =>
        (includeFragments (libraryOf schemaOfFragments.text) schemaOfFragments).outcome.toOption.any
          fun _ => decide ((∀ s ∈ schemaOfFragments.root.tags, PlainRule s) ∧
            ∃ s ∈ (Node.element e.1 e.2).tags, isReference s = true)) = true := by
      decide +kernel
    obtain ⟨⟨t, cs⟩, hschema, hchecks⟩ := exists_of_any_toOption hchecks
    obtain ⟨d', hinclude, hchecks⟩ := exists_of_any_toOption hchecks
    obtain ⟨hplain, hreference⟩ := of_decide_eq_true hchecks
    obtain ⟨merged, hmerged, -, hcarried⟩ :=
      (includeFragments_settles (base_libraryOf _) hschema).2 d' hinclude
    have hcs : ∀ s ∈ (Node.element t cs).tags, PlainRule s := fun s hs =>
      hplain s (List.filterMap_subset _ (Node.subtree_subset (schemaElement_eq_ok hschema).1) hs)
    rw [Node.tags_element, List.forall_mem_cons] at hcs
    have htags := hmerged.forall_tags
      (fun url d hd => by rw [root_of_libraryOf hd]; exact hplain) hcs.2
    have hmergedPlain : ∀ s ∈ (Node.element t merged).tags, PlainRule s :=
      List.forall_mem_cons.2 ⟨hcs.1, fun s hs => (htags s hs).2⟩
    obtain ⟨hregular, hapart, hdefaults⟩ := copyable_of_plainRule hmergedPlain
    exact ⟨t, cs, d', merged, hschema, hinclude, hmerged, hreference,
      hcarried hregular hapart hdefaults⟩
  · have hchecks : ((schemaElement schemaOfItself).toOption.any fun (e : Tag × List Node) =>
        (Url.ofText "a:b").toOption.any fun url => (url.join "a:b").toOption.any fun joined =>
          decide (joined = url ∧ url = { url with fragment := none } ∧
            ∃ x ∈ Node.elementsOf e.2, isReference x.1 = true ∧
              x.1.plain? "href" = some "a:b")) = true := by
      decide +kernel
    obtain ⟨⟨t, cs⟩, hschema, hchecks⟩ := exists_of_any_toOption hchecks
    obtain ⟨url, hurl, hchecks⟩ := exists_of_any_toOption hchecks
    obtain ⟨joined, hjoin, hchecks⟩ := exists_of_any_toOption hchecks
    obtain ⟨rfl, hplace, x, hx, hreference, hhref⟩ := of_decide_eq_true hchecks
    have hmeets : Meets cs x.1 := .of_mem hreference (Node.mem_elementsOf.1 hx)
    have hleads {base : Option Url} (hlocates : Locates base "a:b" joined) :
        LeadsTo (libraryOf schemaOfItself.text) base x.1 joined (t, cs) := by
      refine ⟨"a:b", joined, _, hhref, hlocates, hplace,
        ofText_eq_ok schemaOfItself.wellFormed _, ?_⟩
      rw [← rootElement_of_schemaElement hschema]
      exact .root (.inl (congrArg Url.fragment hplace))
    have hinserted : insertedFor x.1 (t, cs) = cs := by
      rw [insertedFor, (schemaElement_eq_ok hschema).2, Bool.true_or, if_pos rfl]
    have hfollows {base : Option Url} (hlocates : Locates base "a:b" joined) :
        Follows (libraryOf schemaOfItself.text) (base, x.1) (some joined, x.1) :=
      ⟨joined, (t, cs), hleads hlocates, rfl, hinserted.symm ▸ hmeets⟩
    have hfirst : Locates none "a:b" joined := hurl
    have hnext : Locates (some joined) "a:b" joined := hjoin
    have hreached := Relation.ReflTransGen.single (hfollows hfirst)
    have hcircle := Relation.TransGen.single (hfollows hnext)
    obtain ⟨e, he⟩ :=
      (includeFragments_settles (base_libraryOf _) hschema).1 _ _ hmeets hreached hcircle
    exact ⟨t, cs, x.1, _, e, hschema, hmeets, hreached, hcircle, he⟩

/-- A rule schema with an element of another language that is called `include`, by the label
`sch`. -/
def schemaOfForeignReference : Document :=
  documentOf ("<x:schema xmlns:x=\"http://purl.oclc.org/dsdl/schematron\">" ++
    "<x:pattern xmlns:sch=\"urn:o\"><sch:include/></x:pattern></x:schema>") (by decide +kernel)

/-- **What is no reference can come to be one** when fragments are merged. -/
theorem not_includeFragments_settles : ∃ d',
    (includeFragments (libraryOf "") schemaOfForeignReference).outcome = .ok d' ∧
      (∀ t ∈ schemaOfForeignReference.root.tags, isReference t = false) ∧
        ∃ o ∈ d'.root.tags, isReference o = true := by
  have hchecks : ((includeFragments (libraryOf "") schemaOfForeignReference).outcome.toOption.any
      fun (d' : Document) => decide ((∀ t ∈ schemaOfForeignReference.root.tags,
        isReference t = false) ∧ ∃ o ∈ d'.root.tags, isReference o = true)) = true := by
    decide +kernel
  obtain ⟨d', hinclude, hchecks⟩ := exists_of_any_toOption hchecks
  exact ⟨d', hinclude, of_decide_eq_true hchecks⟩

/-- A rule schema with a default namespace that refers to a fragment. -/
def schemaOfDefault : Document :=
  documentOf ("<x:schema xmlns:x=\"http://purl.oclc.org/dsdl/schematron\" xmlns=\"urn:m\">" ++
    "<x:include href=\"a:b\"/></x:schema>") (by decide +kernel)

/-- **An element of no namespace can come to be in one** when fragments are merged. -/
theorem not_keeps_default : ∃ d',
    (includeFragments (libraryOf "<n/>") schemaOfDefault).outcome = .ok d' ∧
      ∃ o ∈ d'.root.tags, o.name = ⟨some "urn:m", "n"⟩ := by
  have hchecks : ((includeFragments (libraryOf "<n/>") schemaOfDefault).outcome.toOption.any
      fun (d' : Document) => decide (∃ o ∈ d'.root.tags, o.name = ⟨some "urn:m", "n"⟩)) = true := by
    decide +kernel
  obtain ⟨d', hinclude, hchecks⟩ := exists_of_any_toOption hchecks
  exact ⟨d', hinclude, of_decide_eq_true hchecks⟩

end XmlConformance.Rules
