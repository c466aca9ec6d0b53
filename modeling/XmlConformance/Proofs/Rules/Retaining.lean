import XmlConformance.Proofs.Rules.Collecting
import XmlConformance.Proofs.Rules.Merging
import XmlConformance.Proofs.Rules.Selecting

/-!
# Proofs/Rules/Retaining — prefixes stay in scope

Values of attributes and texts use prefixes, so what is in scope at an element has to be in scope
where the element is written. It is, at every element of everything that is collected from
a grammar, that is left of a schema once its fragments are merged, or that a phase leaves
(`prefixes_retained`): a prefix stands for the same namespace as before, however often it is
declared again on the way, if it has nothing to do with the rule language.

A namespace in which there is a tab or a carriage return does not come back as it was
(`not_prefixes_retained`).
-/

namespace XmlConformance.Rules

open Xml

open Node (contents)

/-- **Prefixes are retained** in a tree that is carried over: each that an element has in scope
stands for the same at what the element becomes. -/
def Retains (n m : Node) : Prop :=
  ∀ p u, Ordinary p u → CarriedWith (fun t o => t.Binds p u → o.Binds p u) n m

section Retains

variable {n m : Node} {d d' : Document} {t o : Tag} {cs os : List Node}

theorem writable_of_document (h : ∀ t ∈ d.root.tags, t.lookup? (some "xmlns") = none) :
    ∀ t ∈ d.root.tags, Writable t := fun t ht =>
  ⟨Node.proper_ofText d.wellFormed t ht, h t ht⟩

/-- **What is read as copies below no other element retains its prefixes.** -/
theorem retains_of_reread (hn : ∀ t ∈ n.tags, Writable t) (h : Reread [] none n m) :
    Retains n m := fun _ _ hp =>
  binds_of_reread hp h hn fun s hs => (Option.not_mem_none s hs).elim

/-- What is copied into a schema that is collected retains its prefixes, since none is declared
around it. -/
theorem retains_of_copied (hn : ∀ t ∈ n.tags, Writable t) (h : Copied n m) : Retains n m := by
  obtain ⟨inherited, localName, attributes, -, houter, h⟩ := h
  intro p u hp
  refine binds_of_reread hp h hn fun s hs => ?_
  obtain rfl := Option.some.inj hs
  refine ⟨houter, fun hbinds => ?_⟩
  obtain ⟨d, hd, hlabel, -⟩ := hbinds.exists_mem
  rw [List.mem_singleton.1 hd] at hlabel
  exact absurd (Option.some.inj hlabel).symm hp.label

theorem writable_of_schemaElement (hschema : schemaElement d = .ok (t, cs))
    (h : ∀ t ∈ d.root.tags, Writable t) : ∀ s ∈ (Node.element t cs).tags, Writable s := fun s hs =>
  h s (List.filterMap_subset _ (Node.subtree_subset (schemaElement_eq_ok hschema).1) hs)

/-- What is written as one schema retains its prefixes. -/
theorem retains_of_written {ns : List Node} {content : List Fragment}
    (hn : ∀ s ∈ (Node.element t ns).tags, Writable s) (hwrites : Writes (some t) ns content)
    (h : writtenAll [copyOf t none id content] d = .ok d') :
    ∃ o os, d'.root = .root [.element o os] ∧ Retains (.element t ns) (.element o os) := by
  obtain ⟨o, os, hroot, hread⟩ := reread_of_written hwrites hn h
  exact ⟨o, os, hroot, retains_of_reread hn hread⟩

end Retains

section Stages

variable {library : Library} {d d' : Document} {t : Tag} {cs : List Node}
  {requested : Option String}

theorem exists_schemaElement_of_include (h : (includeFragments library d).outcome = .ok d') :
    ∃ t cs, schemaElement d = .ok (t, cs) := by
  cases hschema : schemaElement d with
  | ok e => exact ⟨e.1, e.2, rfl⟩
  | error e =>
    unfold includeFragments at h
    rw [Tracked.outcome_bind, Tracked.outcome_of, hschema] at h
    cases h

theorem exists_schemaElement_of_select (h : selectPhase d requested = .ok d') :
    ∃ t cs, schemaElement d = .ok (t, cs) := by
  cases hschema : schemaElement d with
  | ok e => exact ⟨e.1, e.2, rfl⟩
  | error e =>
    unfold selectPhase at h
    rw [hschema] at h
    cases h

/-- **Prefixes are retained** in whatever is written for a document in which `xmlns` is no prefix:
at all that is collected from it as a grammar, at all that comes of it as a schema once its
fragments are merged, wherever they were read, and at all that is left of it for any phase. -/
theorem prefixes_retained (hbase : ∀ url d, library.atUrl url = .ok d → d.base = some url)
    (hlibrary : ∀ url d, library.atUrl url = .ok d →
      ∀ t ∈ d.root.tags, t.lookup? (some "xmlns") = none)
    (hxmlns : ∀ t ∈ d.root.tags, t.lookup? (some "xmlns") = none) :
    (∀ d', extract d = .ok d' → ∃ o os placed, d'.root = .root [.element o os] ∧
      (∀ a p, (a, p) ∈ placed ↔ Declares d.root a p ∧ ¬Ownerless d.root p) ∧
      List.Forall₂ (fun x m => ∃ n, d.root.at? x.2 = some n ∧
        Lodged Retains (nearestName? d.root x.2) n m) placed os) ∧
    (∀ d', (includeFragments library d).outcome = .ok d' → ∃ t cs merged o os,
      schemaElement d = .ok (t, cs) ∧ Merged library d.base cs merged ∧
        d'.root = .root [.element o os] ∧ Retains (.element t merged) (.element o os)) ∧
    ∀ requested d', selectPhase d requested = .ok d' → ∃ t cs phase o os,
      schemaElement d = .ok (t, cs) ∧ Chooses t cs requested phase ∧
        d'.root = .root [.element o os] ∧
          Retains (.element t (leftFor cs phase ++ variablesOf phase)) (.element o os) := by
  have hwritable := writable_of_document hxmlns
  refine ⟨fun d' h => ?_, fun d' h => ?_, fun requested d' h => ?_⟩
  · obtain ⟨o, os, hroot, -, hlodged⟩ := forall₂_lodged_of_extract hxmlns h
    refine ⟨o, os, collected d.root, hroot, fun a p => mem_collected, hlodged.imp ?_⟩
    rintro x m ⟨n, hn, -, hm⟩
    refine ⟨n, hn, hm.imp fun m => retains_of_copied fun s hs => hwritable s ?_⟩
    exact List.filterMap_subset _ (Node.subtree_subset (Node.mem_subtree_of_at? hn)) hs
  · obtain ⟨t, cs, hschema⟩ := exists_schemaElement_of_include h
    obtain ⟨content, hcontent, hwritten⟩ := includeFragments_eq_ok hschema h
    obtain ⟨merged, hmerged, hwrites⟩ :=
      merged_of_mergeAll (merged_of_replacement hbase nestingLimit d) cs hcontent
    have hcs := List.forall_mem_cons.1 (writable_of_schemaElement hschema hwritable)
    have htags := hmerged.forall_tags
      (fun url d hd => writable_of_document (hlibrary url d hd)) hcs.2
    obtain ⟨o, os, hroot, hretains⟩ := retains_of_written
      (List.forall_mem_cons.2 ⟨hcs.1, fun s hs => (htags s hs).2⟩) hwrites hwritten
    exact ⟨t, cs, merged, o, os, hschema, hmerged, hroot, hretains⟩
  · obtain ⟨t, cs, hschema⟩ := exists_schemaElement_of_select h
    obtain ⟨phase, hchooses, hselect⟩ | ⟨name, -, -, herror⟩ :=
      @selectPhase_eq d t cs requested hschema
    · have hwritten := hselect.symm.trans h
      rw [selected_eq] at hwritten
      have hcs := List.forall_mem_cons.1 (writable_of_schemaElement hschema hwritable)
      have hleft := List.filterMap_subset Node.tag? (subtrees_left hchooses.mem)
      obtain ⟨o, os, hroot, hretains⟩ := retains_of_written
        (List.forall_mem_cons.2 ⟨hcs.1, fun s hs => hcs.2 s (hleft hs)⟩)
        (writes_copyAllRules (some t) _) hwritten
      exact ⟨t, cs, phase, o, os, hschema, hchooses, hroot, hretains⟩
    · cases herror.symm.trans h

end Stages

/-- A rule schema with an annotation of a grammar in it, and a prefix of its own. -/
def schemaOfAnnotation : Document :=
  documentOf ("<schema xmlns=\"http://purl.oclc.org/dsdl/schematron\" xmlns:p=\"u\">" ++
    "<x:appinfo xmlns:x=\"http://www.w3.org/2001/XMLSchema\"><ns/></x:appinfo></schema>")
    (by decide +kernel)

theorem prefixes_retained_schemaOfAnnotation : ∃ d₁ d₂ d₃,
    extract schemaOfAnnotation = .ok d₁ ∧
      (includeFragments (libraryOf schemaOfAnnotation.text) schemaOfAnnotation).outcome = .ok d₂ ∧
      selectPhase schemaOfAnnotation none = .ok d₃ ∧ Ordinary "p" "u" ∧
      (∃ o os placed, d₁.root = .root [.element o os] ∧ os.length = 1 ∧
        List.Forall₂ (fun (x : Position × Position) m => ∃ n,
          schemaOfAnnotation.root.at? x.2 = some n ∧
            Lodged Retains (nearestName? schemaOfAnnotation.root x.2) n m) placed os) ∧
      (∃ t merged o os, d₂.root = .root [.element o os] ∧
        Retains (.element t merged) (.element o os)) ∧
      ∃ t ns o os, d₃.root = .root [.element o os] ∧ Retains (.element t ns) (.element o os) := by
  have hchecks : ((extract schemaOfAnnotation).toOption.any fun (d₁ : Document) =>
      (includeFragments (libraryOf schemaOfAnnotation.text) schemaOfAnnotation).outcome.toOption.any
        fun _ => (selectPhase schemaOfAnnotation none).toOption.any fun _ =>
          decide ((∀ t ∈ schemaOfAnnotation.root.tags, t.lookup? (some "xmlns") = none) ∧
            d₁.rootElement.2.length = 1)) = true := by
    decide +kernel
  obtain ⟨d₁, hextract, hchecks⟩ := exists_of_any_toOption hchecks
  obtain ⟨d₂, hinclude, hchecks⟩ := exists_of_any_toOption hchecks
  obtain ⟨d₃, hselect, hchecks⟩ := exists_of_any_toOption hchecks
  obtain ⟨hxmlns, hlength⟩ := of_decide_eq_true hchecks
  have hlibrary (url : Url) (d : Document)
      (h : (libraryOf schemaOfAnnotation.text).atUrl url = .ok d) :
      ∀ t ∈ d.root.tags, t.lookup? (some "xmlns") = none := by
    rw [root_of_libraryOf h]
    exact hxmlns
  obtain ⟨hextracts, hincludes, hselects⟩ := prefixes_retained (base_libraryOf _) hlibrary hxmlns
  obtain ⟨o, os, placed, hroot, -, hlodged⟩ := hextracts d₁ hextract
  obtain ⟨t, cs, merged, o₂, os₂, -, -, hroot₂, hretains₂⟩ := hincludes d₂ hinclude
  obtain ⟨t₃, cs₃, phase, o₃, os₃, -, -, hroot₃, hretains₃⟩ := hselects none d₃ hselect
  rw [Document.rootElement_eq hroot] at hlength
  exact ⟨d₁, d₂, d₃, hextract, hinclude, hselect, ⟨by decide, by decide, by decide, by decide⟩,
    ⟨o, os, placed, hroot, hlength, hlodged⟩, ⟨t, merged, o₂, os₂, hroot₂, hretains₂⟩,
    ⟨t₃, _, o₃, os₃, hroot₃, hretains₃⟩⟩

/-- A rule schema with a prefix for a namespace in which there is a tab. -/
def schemaOfTab : Document :=
  documentOf ("<sch:schema xmlns:sch=\"http://purl.oclc.org/dsdl/schematron\" " ++
    "xmlns:p=\"a&#9;b\"/>") (by decide +kernel)

/-- **A namespace can be lost** with a tab in it. -/
theorem not_prefixes_retained : ∃ d',
    (includeFragments (libraryOf "") schemaOfTab).outcome = .ok d' ∧
      schemaOfTab.rootElement.1.Binds "p" "a\tb" ∧ ¬d'.rootElement.1.Binds "p" "a\tb" := by
  have hchecks : ((includeFragments (libraryOf "") schemaOfTab).outcome.toOption.any
      fun (d' : Document) => decide (schemaOfTab.rootElement.1.Binds "p" "a\tb" ∧
        ¬d'.rootElement.1.Binds "p" "a\tb")) = true := by
    decide +kernel
  obtain ⟨d', hinclude, hchecks⟩ := exists_of_any_toOption hchecks
  exact ⟨d', hinclude, of_decide_eq_true hchecks⟩

end XmlConformance.Rules
