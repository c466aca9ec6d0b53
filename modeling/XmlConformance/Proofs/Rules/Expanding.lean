import XmlConformance.Proofs.Rules.Renaming
import XmlConformance.Proofs.Rules.Splicing
import XmlConformance.Proofs.Rules.Substituting

/-!
# Proofs/Rules/Expanding — a schema without abstract patterns and rules

A schema that is written out has no abstract pattern or rule left and no extension
(`WrittenOut.tags`). Its patterns are those that were concrete, each with the rules that it had, and
those of an abstract pattern behind them if it is an instance of one; the checks of a rule are those
that it had, with the checks of an abstract rule in the place of every extension (`WrittenSchema`).
Nothing is written if extensions that have to be replaced go round in a circle.

That is so if the schema keeps other languages apart (`expand_settles`). Otherwise an element of
another language can come to be one of the rule language (`not_expand_settles`).
-/

namespace XmlConformance.Rules

open Xml

/-! ## What is written -/

/-- The concrete patterns or rules among some nodes. -/
def concrete (localName : String) (ns : List Node) : List (Tag × List Node) :=
  (rulesNamed localName ns).filter fun e => !isAbstract e.1

/-- An element has the values of another, passed through a function and read again. -/
def HasValues (f : String → String) (t o : Tag) : Prop :=
  ∀ localName, o.plain? localName = (t.plain? localName).map fun v => valueBack (f v)

/-- **A check as it is written**: of the same kind, with parameters replaced in its values. -/
structure WrittenCheck (ps : Parameters) (c o : CheckKind × Tag × List Node) : Prop where
  kind : o.1 = c.1
  values : HasValues (substitute ps) c.2.1 o.2.1

/-- **A rule as it is written**, with its checks, and those of abstract rules in the places of
extensions. -/
structure WrittenRule (schema : List Node) (ps : Parameters) (r o : Tag × List Node) : Prop where
  values : HasValues (substitute ps) r.1 o.1
  checks : ∃ content, Spliced schema r.2 content ∧
    List.Forall₂ (WrittenCheck ps) (checkElements content) (checkElements o.2)

/-- **What a pattern consists of**, and the parameters that are replaced in it: its own content, and
then that of the abstract pattern of which it is an instance. -/
inductive PatternContent (schema : List Node) : Tag × List Node → Parameters → List Node → Prop
  | own {t : Tag} {cs content : List Node} : t.plain? "is-a" = none → Spliced schema cs content →
      PatternContent schema (t, cs) [] content
  | instantiated {t d : Tag} {name : String} {cs content own more : List Node} :
      t.plain? "is-a" = some name → definition? "pattern" schema name = some (d, content) →
      Spliced schema (without "param" cs) own → Spliced schema (without "title" content) more →
      PatternContent schema (t, cs) (parametersOf cs) (own ++ more)

/-- **A pattern as it is written**, with the rules that it consists of. -/
structure WrittenPattern (schema : List Node) (p o : Tag × List Node) : Prop where
  values : HasValues id p.1 o.1
  rules : ∃ ps content, PatternContent schema p ps content ∧
    List.Forall₂ (WrittenRule schema ps) (concrete "rule" content) (concrete "rule" o.2)

/-- An element that need not be written out: it is no extension, and no abstract pattern or
rule. -/
structure Final (t : Tag) : Prop where
  notExtends : t.isRule "extends" = false
  notDefinition : ((t.isRule "pattern" || t.isRule "rule") && isAbstract t) = false

/-- **A schema as it is written out**: every element is final, and its patterns are those that the
schema consists of. -/
structure WrittenOut (schema : List Node) (cs : List Node) (d : Document) : Prop where
  tags : ∀ o ∈ d.root.tags, Final o
  patterns : ∃ t' cs' content, schemaElement d = .ok (t', cs') ∧ Spliced schema cs content ∧
    List.Forall₂ (WrittenPattern schema) (concrete "pattern" content) (concrete "pattern" cs')

/-! ## Where copies come from -/

section Copies

variable {root : Node}

/-- **A copy of an element in a schema**, with the tag that the element stands below. -/
structure Stands (root : Node) (c : ElementCopy) : Prop extends Final c.tag where
  source : ∃ m ∈ root.subtree, ∃ s cs ps, m.tag? = some s ∧ c.scope = some s ∧
    .element c.tag cs ∈ m.children ∧ CopiedFrom root.subtree ps (c.tag, cs) c

/-- **What is copied of the content of an element are copies of elements in the schema.** -/
theorem stands_of_copiesOfAll (depth : ℕ) : ∀ (ns : List Node) {m : Node} {s : Tag}
    {ps : Parameters} {copied : List Copy}, m ∈ root.subtree → m.tag? = some s → ns ⊆ m.children →
      copiesOfAll (copiers root.subtree depth) ps (some s) ns = .ok copied →
        ∀ c ∈ Copy.elements copied, Stands root c := by
  induction depth using Nat.strong_induction_on with
  | _ depth ih =>
    intro ns m s ps
    induction ns with
    | nil =>
      rintro _ - - - ⟨⟩
      exact List.forall_mem_nil _
    | cons n ns ihns =>
      intro copied hm hs hns h
      obtain ⟨hn, hns⟩ := List.cons_subset.1 hns
      obtain ⟨first, hfirst, h⟩ := bind_eq_ok.1 h
      obtain ⟨rest, hrest, h⟩ := bind_eq_ok.1 h
      cases h
      rw [Copy.elements_append]
      refine List.forall_mem_append.2 ⟨?_, ihns hm hs hns hrest⟩
      cases n with
      | root _ | comment _ | instruction _ _ | text _ =>
        cases hfirst
        exact List.forall_mem_nil _
      | element t cs =>
        obtain ⟨-, rfl⟩ | ⟨hdefinition, hinstance, hcopies⟩ | ⟨-, hcopies⟩ | ⟨-, rfl⟩ |
          ⟨hdefinition, hinstance, hextends, content, hcontent, rfl⟩ := copiesOf_element hfirst
        · exact List.forall_mem_nil _
        · obtain ⟨hpattern, hisA⟩ := Bool.and_eq_true_iff.1 hinstance
          obtain ⟨name, hname⟩ := Option.isSome_iff_exists.1 hisA
          obtain ⟨depth', d, content, own, others, -, hd, hown, hothers, rfl⟩ :=
            instantiate_copiers hcopies
          rw [hname, Option.getD_some] at hd
          exact List.forall_mem_singleton.2 ⟨⟨isRule_eq_false hpattern (by decide), hdefinition⟩,
            m, hm, s, cs, ps, hs, rfl, hn, .instantiated hpattern hname hd hown hothers⟩
        · obtain ⟨depth', name, d, content, rfl, -, hd, hcontent⟩ := extend_copiers hcopies
          exact ih depth' (Nat.lt_succ_self _) content (mem_of_definition? hd) rfl
            (List.Subset.refl _) hcontent
        · exact List.forall_mem_nil _
        · exact List.forall_mem_singleton.2 ⟨⟨hextends, hdefinition⟩, m, hm, s, cs, ps, hs, rfl, hn,
            .plain hinstance hcontent⟩

/-- What is copied inside a copy are copies of elements in the schema. -/
theorem CopiedFrom.stands {ps : Parameters} {e : Tag × List Node} {c : ElementCopy}
    (h : CopiedFrom root.subtree ps e c) (he : .element e.1 e.2 ∈ root.subtree) :
    ∀ c' ∈ Copy.elements c.content, Stands root c' := by
  cases h with
  | plain _ hcontent => exact stands_of_copiesOfAll _ _ he rfl (List.Subset.refl _) hcontent
  | @instantiated t d _ name cs content depth own more _ _ hd hown hmore =>
    rw [Copy.elements_append]
    exact List.forall_mem_append.2
      ⟨stands_of_copiesOfAll depth _ he rfl (List.filter_subset_self cs) hown,
        stands_of_copiesOfAll depth _ (mem_of_definition? hd) rfl
          (List.filter_subset_self content) hmore⟩

theorem Stands.content {c : ElementCopy} (h : Stands root c) :
    ∀ c' ∈ Copy.elements c.content, Stands root c' := by
  obtain ⟨m, hm, s, cs, ps, -, -, hmem, hfrom⟩ := h.source
  exact hfrom.stands (Node.children_subset hm hmem)

theorem Stands.mem_tags {c : ElementCopy} (h : Stands root c) : c.tag ∈ root.tags := by
  obtain ⟨m, hm, -, cs, -, -, -, hmem, -⟩ := h.source
  exact Node.mem_tags (Node.children_subset hm hmem)

end Copies

/-! ## What copies are read as -/

/-- **An element that a copy is read as** below some declarations. -/
structure ReadFor (inherited : List Declaration) (c : ElementCopy) (o : Tag × List Node) :
    Prop where
  tag : ∃ start n, tagBack inherited start (copiedName c.tag)
    (copiedAttributes c.tag c.scope c.values) = some (n, o.1)
  content : ∃ start, Fragment.backAll o.1.scope start
    (Fragment.joinedAll (Copy.fragments c.content)) = some o.2

/-- **Copies are read one by one.** -/
theorem forall₂_readFor {inherited : List Declaration} : ∀ {cs : List Copy} {start : ℕ}
    {nodes : List Node},
    Fragment.backAll inherited start (Fragment.joinedAll (Copy.fragments cs)) = some nodes →
      List.Forall₂ (ReadFor inherited) (Copy.elements cs) (Node.elementsOf nodes)
  | [], _, _, h => by
    rw [Copy.fragments, Fragment.joinedAll] at h
    obtain rfl := Option.some.inj h
    exact .nil
  | c :: cs, _, _, h => by
    rw [Copy.fragments, Fragment.joinedAll] at h
    obtain ⟨first, more, start', hfirst, hmore, -, helements⟩ := backAll_joinTo h
    rw [helements, ← List.singleton_append, Copy.elements_append]
    refine List.rel_append ?_ (forall₂_readFor hmore)
    cases c with
    | text s =>
      rw [Copy.fragment, Fragment.joined, Fragment.back] at hfirst
      obtain rfl := Option.some.inj hfirst
      split <;> exact .nil
    | element t scope f content =>
      rw [Copy.fragment, copyOf, Fragment.joined] at hfirst
      obtain ⟨n, o, children, htag, hchildren, rfl⟩ := Fragment.back_element_eq_some_iff.1 hfirst
      exact .cons ⟨⟨_, n, htag⟩, _, hchildren⟩ .nil

/-- A schema whose elements are properly labelled and kept apart, and in which no definition depends
on a parameter. -/
structure Expandable (root : Node) : Prop where
  labelled : Labelled root
  fixed : ∀ t ∈ root.tags, ∀ v ∈ t.plain? "abstract", '$' ∉ v.toList
  apart : Apart root

/-- Two elements that are dealt with in the same way. -/
structure SameKind (t o : Tag) : Prop where
  rules : ∀ localName ∈ ruleKinds, o.isRule localName = t.isRule localName
  isAbstract : isAbstract o = isAbstract t

theorem CopiedFrom.values_eq {schema : List Node} {ps : Parameters} {e : Tag × List Node}
    {c : ElementCopy} (h : CopiedFrom schema ps e c) {v : String} (hv : '$' ∉ v.toList) :
    c.values v = v := by
  cases h with
  | plain => exact substitute_eq_self hv ps
  | instantiated => rfl

namespace Stands

variable {root : Node} {inherited : List Declaration} {c : ElementCopy} {o : Tag × List Node}

theorem declaresApart (hroot : Expandable root) (hc : Stands root c) :
    DeclaresApart root c.scope c.tag := by
  obtain ⟨m, hm, s, cs, -, hs, hscope, hmem, -⟩ := hc.source
  rw [hscope]
  exact hroot.apart.declared m hm s hs (c.tag, cs) (List.mem_filterMap.2 ⟨_, hmem, rfl⟩)

/-- **Inside a copy** the labels of homonyms stay clear. -/
theorem clear (hroot : Expandable root) (hc : Stands root c) (hinherited : Clear root inherited)
    (ho : ReadFor inherited c o) : Clear root o.1.scope := by
  obtain ⟨start, n, htag⟩ := ho.tag
  obtain ⟨hproper, hxmlns⟩ := hroot.labelled c.tag hc.mem_tags
  exact clear_of_tagBack hproper hxmlns hroot.apart (hc.declaresApart hroot) hinherited htag

theorem isAbstract_eq (hroot : Expandable root) (hc : Stands root c) (ho : ReadFor inherited c o) :
    isAbstract o.1 = isAbstract c.tag := by
  obtain ⟨start, n, htag⟩ := ho.tag
  obtain ⟨hproper, hxmlns⟩ := hroot.labelled c.tag hc.mem_tags
  obtain ⟨_, -, _, cs, ps, -, -, -, hfrom⟩ := hc.source
  exact isAbstract_of_tagBack hproper hxmlns
    (fun v hv => hfrom.values_eq (hroot.fixed c.tag hc.mem_tags v hv)) htag

theorem isRule (hroot : Expandable root) (hc : Stands root c) (hinherited : Clear root inherited)
    (ho : ReadFor inherited c o) {localName : String} (hkind : localName ∈ ruleKinds)
    (hrule : o.1.isRule localName = true) : c.tag.isRule localName = true := by
  obtain ⟨start, n, htag⟩ := ho.tag
  exact isRule_of_tagBack (hroot.labelled c.tag hc.mem_tags).1 hc.mem_tags
    (hc.clear hroot hinherited ho) htag hkind hrule

/-- **What is written need not be written out again.** -/
theorem final (hroot : Expandable root) (hc : Stands root c) (hinherited : Clear root inherited)
    (ho : ReadFor inherited c o) : Final o.1 := by
  have hrule {localName : String} (hkind : localName ∈ ruleKinds) :=
    hc.isRule hroot hinherited ho hkind
  refine ⟨?_, ?_⟩
  · by_contra hextends
    rw [Bool.not_eq_false] at hextends
    have hextends := hrule (by decide) hextends
    rw [hc.notExtends] at hextends
    cases hextends
  · by_contra hdefinition
    rw [Bool.not_eq_false, Bool.and_eq_true, Bool.or_eq_true, hc.isAbstract_eq hroot ho]
      at hdefinition
    have hdefinition := Bool.and_eq_true_iff.2 ⟨Bool.or_eq_true_iff.2
      (hdefinition.1.imp (hrule (by decide)) (hrule (by decide))), hdefinition.2⟩
    rw [hc.notDefinition] at hdefinition
    cases hdefinition

/-- **A copy is of the kind of its element** where the label `sch` stands for the rule language. -/
theorem sameKind (hroot : Expandable root) (hc : Stands root c) (hinherited : Clear root inherited)
    (hsch : bound? inherited (some "sch") = some ruleUri) (ho : ReadFor inherited c o) :
    SameKind c.tag o.1 := by
  refine ⟨fun localName hkind => ?_, hc.isAbstract_eq hroot ho⟩
  obtain ⟨start, n, htag⟩ := ho.tag
  obtain ⟨hproper, hxmlns⟩ := hroot.labelled c.tag hc.mem_tags
  rw [Bool.eq_iff_iff]
  refine ⟨hc.isRule hroot hinherited ho hkind, fun hrule => ?_⟩
  have hlookup := lookup?_sch_of_tagBack hproper hxmlns (by rw [beq_iff_eq.1 hrule]; rfl)
    (.inr hsch) htag
  exact isRule_of_lookup? hproper hlookup htag hrule

theorem hasValues (hroot : Expandable root) (hc : Stands root c) (ho : ReadFor inherited c o) :
    HasValues c.values c.tag o.1 := by
  obtain ⟨start, n, htag⟩ := ho.tag
  obtain ⟨hproper, hxmlns⟩ := hroot.labelled c.tag hc.mem_tags
  exact plain?_of_tagBack hproper hxmlns htag

end Stands

section Final

variable {root : Node}

mutual

/-- **Every element that is read of a copy is final.** -/
theorem final_of_back (hroot : Expandable root) {inherited : List Declaration} {start : ℕ}
    {nodes : List Node} (hinherited : Clear root inherited) : ∀ c : Copy,
    (∀ e ∈ Copy.elements [c], Stands root e) → c.fragment.joined.back inherited start = some nodes →
      ∀ o ∈ Node.tagsOf nodes, Final o
  | .text s, _, h => by
    rw [Copy.fragment, Fragment.joined, Fragment.back] at h
    obtain rfl := Option.some.inj h
    split <;> exact List.forall_mem_nil _
  | .element t scope f content, hc, h => by
    rw [Copy.fragment, copyOf, Fragment.joined] at h
    obtain ⟨n, o, children, htag, hchildren, rfl⟩ := Fragment.back_element_eq_some_iff.1 h
    have hstands : Stands root ⟨t, scope, f, content⟩ := List.forall_mem_singleton.1 hc
    have hread : ReadFor inherited ⟨t, scope, f, content⟩ (o, children) :=
      ⟨⟨_, n, htag⟩, _, hchildren⟩
    rw [Node.tagsOf_cons, Node.tags_element, Node.tagsOf_nil, List.append_nil]
    exact List.forall_mem_cons.2 ⟨hstands.final hroot hinherited hread,
      final_of_backAll hroot (hstands.clear hroot hinherited hread) content hstands.content
        hchildren⟩

theorem final_of_backAll (hroot : Expandable root) {inherited : List Declaration} {start : ℕ}
    {nodes : List Node} (hinherited : Clear root inherited) : ∀ cs : List Copy,
    (∀ e ∈ Copy.elements cs, Stands root e) →
      Fragment.backAll inherited start (Fragment.joinedAll (Copy.fragments cs)) = some nodes →
        ∀ o ∈ Node.tagsOf nodes, Final o
  | [], _, h => by
    rw [Copy.fragments, Fragment.joinedAll] at h
    obtain rfl := Option.some.inj h
    exact List.forall_mem_nil _
  | c :: cs, hcs, h => by
    rw [Copy.fragments, Fragment.joinedAll] at h
    obtain ⟨first, more, start', hfirst, hmore, htags, -⟩ := backAll_joinTo h
    rw [← List.singleton_append, Copy.elements_append, List.forall_mem_append] at hcs
    rw [htags]
    exact List.forall_mem_append.2 ⟨final_of_back hroot hinherited c hcs.1 hfirst,
      final_of_backAll hroot hinherited cs hcs.2 hmore⟩

end

end Final

/-! ## What contents are read as -/

/-- Declarations below which elements of the rule language are read as such, and no others. -/
structure Ready (root : Node) (declared : List Declaration) : Prop where
  clear : Clear root declared
  label : bound? declared (some "sch") = some ruleUri

/-- **An element is copied and read** below some declarations. -/
def Becomes (root : Node) (ps : Parameters) (inherited : List Declaration)
    (e o : Tag × List Node) : Prop :=
  ∃ c, CopiedFrom root.subtree ps e c ∧ Stands root c ∧ ReadFor inherited c o

section Contents

variable {root : Node} {ps : Parameters} {inherited : List Declaration} {nodes children : List Node}
  {content : List Copy} {start : ℕ}

theorem Stands.ready {c : ElementCopy} {o : Tag × List Node} (hroot : Expandable root)
    (hc : Stands root c) (hready : Ready root inherited) (ho : ReadFor inherited c o)
    (hrule : c.tag.ruleName?.isSome) : Ready root o.1.scope := by
  obtain ⟨start, n, htag⟩ := ho.tag
  obtain ⟨hproper, hxmlns⟩ := hroot.labelled c.tag hc.mem_tags
  exact ⟨hc.clear hroot hready.clear ho,
    lookup?_sch_of_tagBack hproper hxmlns hrule (.inr hready.label) htag⟩

/-- **Elements of the kinds that count are copied and read one by one.** -/
theorem forall₂_becomes (hroot : Expandable root) (hready : Ready root inherited) {q : Tag → Bool}
    (hq : Lasting q) (hkind : ∀ t o, SameKind t o → q o = q t)
    (hall : CopiedAll root.subtree ps nodes content)
    (hstands : ∀ c ∈ Copy.elements content, Stands root c)
    (hback : Fragment.backAll inherited start (Fragment.joinedAll (Copy.fragments content)) =
      some children) :
    List.Forall₂ (fun e o => q e.1 = true ∧ Becomes root ps inherited e o)
      ((Node.elementsOf nodes).filter fun e => q e.1)
      ((Node.elementsOf children).filter fun e => q e.1) := by
  have hread := (List.forall₂_and_left _ _).2 ⟨hstands, forall₂_readFor hback⟩
  refine (List.forall₂_and_left _ _).2 ⟨fun e he => (List.mem_filter.1 he).2, ?_⟩
  refine forall₂_comp (fun e c o he hc => ⟨c, he, hc⟩) (hall q hq) (List.rel_filter ?_ hread)
  intro c o hc
  have hsame := hc.1.sameKind hroot hready.clear hready.label hc.2
  exact iff_of_eq (congrArg (· = true) (hkind _ _ hsame).symm)

theorem concrete_eq (localName : String) (ns : List Node) : concrete localName ns =
    (Node.elementsOf ns).filter fun e => e.1.isRule localName && !isAbstract e.1 := by
  have hnamed : rulesNamed localName ns =
      (Node.elementsOf ns).filter fun e => e.1.isRule localName := by
    rw [rulesNamed, Node.elementsOf, List.filter_filterMap]
    refine List.filterMap_congr fun n _ => ?_
    cases n <;> simp [Option.filter]
  rw [concrete, hnamed, List.filter_filter]
  exact List.filter_congr fun e _ => Bool.and_comm _ _

/-- **Concrete patterns or rules** are copied and read one by one. -/
theorem forall₂_concrete (hroot : Expandable root) (hready : Ready root inherited)
    {localName : String} (hlocal : localName ∈ ["pattern", "rule"])
    (hall : CopiedAll root.subtree ps nodes content)
    (hstands : ∀ c ∈ Copy.elements content, Stands root c)
    (hback : Fragment.backAll inherited start (Fragment.joinedAll (Copy.fragments content)) =
      some children) :
    List.Forall₂ (fun e o => e.1.isRule localName = true ∧ Becomes root ps inherited e o)
      (concrete localName nodes) (concrete localName children) := by
  have hkinds : localName ∈ ruleKinds ∧ localName ≠ "extends" ∧ localName ≠ "param" := by
    have : ∀ l ∈ ["pattern", "rule"], l ∈ ruleKinds ∧ l ≠ "extends" ∧ l ≠ "param" := by decide
    exact this localName hlocal
  rw [concrete_eq, concrete_eq]
  refine (forall₂_becomes (q := fun t => t.isRule localName && !isAbstract t) hroot hready ?_ ?_
    hall hstands hback).imp fun e o h => ⟨(Bool.and_eq_true_iff.1 h.1).1, h.2⟩
  · intro t ht
    obtain ⟨hrule, habstract⟩ := Bool.and_eq_true_iff.1 ht
    refine ⟨isRule_eq_false hrule hkinds.2.1, isRule_eq_false hrule hkinds.2.2, ?_⟩
    rw [Bool.not_eq_true'] at habstract
    rw [habstract, Bool.and_false]
  · intro t o h
    rw [h.rules localName hkinds.1, h.isAbstract]

/-- The checks among some nodes are their elements of two kinds. -/
theorem checkElements_eq (ns : List Node) : checkElements ns =
    ((Node.elementsOf ns).filter fun e => (checkKind? e.1).isSome).filterMap fun e =>
      (checkKind? e.1).map fun kind => (kind, e) := by
  rw [checkElements, Node.elementsOf, List.filter_filterMap, List.filterMap_filterMap]
  refine List.filterMap_congr fun n _ => ?_
  cases n with
  | element t cs => cases hkind : checkKind? t <;> simp [Option.filter, hkind]
  | _ => rfl

theorem checkKind?_eq (t : Tag) : checkKind? t =
    if t.isRule "assert" then some .assert else if t.isRule "report" then some .report
    else none := by
  unfold checkKind? Tag.isRule
  split
  · case h_1 h => rw [h]; rfl
  · case h_2 h => rw [h]; rfl
  · case h_3 hassert hreport =>
    rw [if_neg (by simpa using hassert), if_neg (by simpa using hreport)]

theorem lasting_checkKind? : Lasting fun t => (checkKind? t).isSome := by
  intro t ht
  have hrule : t.isRule "assert" = true ∨ t.isRule "report" = true := by
    dsimp only at ht
    rw [checkKind?_eq] at ht
    by_contra hnot
    rw [not_or] at hnot
    rw [if_neg hnot.1, if_neg hnot.2] at ht
    cases ht
  obtain hrule | hrule := hrule <;>
  · refine ⟨isRule_eq_false hrule (by decide), isRule_eq_false hrule (by decide), ?_⟩
    rw [isRule_eq_false hrule (by decide), isRule_eq_false hrule (by decide)]
    rfl

/-- **The checks of a rule** are copied and read one by one. -/
theorem forall₂_checks (hroot : Expandable root) (hready : Ready root inherited)
    (hall : CopiedAll root.subtree ps nodes content)
    (hstands : ∀ c ∈ Copy.elements content, Stands root c)
    (hback : Fragment.backAll inherited start (Fragment.joinedAll (Copy.fragments content)) =
      some children) :
    List.Forall₂ (WrittenCheck ps) (checkElements nodes) (checkElements children) := by
  have hkind (t o : Tag) (h : SameKind t o) : checkKind? o = checkKind? t := by
    rw [checkKind?_eq, checkKind?_eq, h.rules "assert" (by decide), h.rules "report" (by decide)]
  rw [checkElements_eq, checkElements_eq]
  refine List.rel_filterMap ?_ (forall₂_becomes hroot hready lasting_checkKind?
    (fun t o h => by rw [hkind t o h]) hall hstands hback)
  rintro ⟨t, cs⟩ o ⟨hcheck, c, hfrom, hc, ho⟩
  have hsame := hkind _ _ (hc.sameKind hroot hready.clear hready.label ho)
  obtain ⟨kind, hkind⟩ := Option.isSome_iff_exists.1 hcheck
  dsimp only at hkind ⊢
  cases hfrom with
  | plain =>
    rw [hsame, hkind]
    exact .some ⟨rfl, hc.hasValues hroot ho⟩
  | instantiated hpattern =>
    rw [checkKind?_eq, isRule_eq_false hpattern (by decide),
      isRule_eq_false hpattern (by decide)] at hkind
    cases hkind

/-- **A rule is written** with its checks, and with those of the rules that it extends. -/
theorem Becomes.writtenRule {e o : Tag × List Node} (hroot : Expandable root)
    (hready : Ready root inherited) (hrule : e.1.isRule "rule" = true)
    (h : Becomes root ps inherited e o) : WrittenRule root.subtree ps e o := by
  obtain ⟨c, hfrom, hc, ho⟩ := h
  have hready := hc.ready hroot hready ho (by rw [hfrom.tag_eq, beq_iff_eq.1 hrule]; rfl)
  obtain ⟨start, hback⟩ := ho.content
  have hvalues := hc.hasValues hroot ho
  have hstands := hc.content
  cases hfrom with
  | plain _ hcontent =>
    obtain ⟨nodes, hspliced, hall⟩ := exists_spliced _ _ hcontent
    exact ⟨hvalues, nodes, hspliced, forall₂_checks hroot hready hall hstands hback⟩
  | instantiated hpattern =>
    rw [isRule_eq_false hpattern (by decide)] at hrule
    cases hrule

/-- **A pattern is written** with its rules, and with those of the abstract pattern of which it is
an instance. -/
theorem Becomes.writtenPattern {e o : Tag × List Node} (hroot : Expandable root)
    (hready : Ready root inherited) (hrule : e.1.isRule "pattern" = true)
    (h : Becomes root [] inherited e o) : WrittenPattern root.subtree e o := by
  obtain ⟨c, hfrom, hc, ho⟩ := h
  have hready := hc.ready hroot hready ho (by rw [hfrom.tag_eq, beq_iff_eq.1 hrule]; rfl)
  obtain ⟨start, hback⟩ := ho.content
  have hvalues := hc.hasValues hroot ho
  have hstands := hc.content
  have hrules {ps : Parameters} {nodes : List Node}
      (hall : CopiedAll root.subtree ps nodes c.content) :
      List.Forall₂ (WrittenRule root.subtree ps) (concrete "rule" nodes) (concrete "rule" o.2) :=
    (forall₂_concrete hroot hready (by decide) hall hstands hback).imp
      fun _ _ h => h.2.writtenRule hroot hready h.1
  cases hfrom with
  | @plain t _ _ _ _ hinstance hcontent =>
    obtain ⟨nodes, hspliced, hall⟩ := exists_spliced _ _ hcontent
    have hisA : t.plain? "is-a" = none := by
      rw [show t.isRule "pattern" = true from hrule, Bool.true_and] at hinstance
      exact Option.isNone_iff_eq_none.1 (Option.isSome_eq_false_iff.1 hinstance)
    exact ⟨hvalues, [], nodes, .own hisA hspliced, hrules hall⟩
  | instantiated _ hname hd hown hmore =>
    obtain ⟨own, hsplicedOwn, hallOwn⟩ := exists_spliced _ _ hown
    obtain ⟨more, hsplicedMore, hallMore⟩ := exists_spliced _ _ hmore
    exact ⟨hvalues, _, own ++ more, .instantiated hname hd hsplicedOwn hsplicedMore,
      hrules (hallOwn.append hallMore)⟩

end Contents

/-! ## Whole schemas -/

section Schemas

variable {d d' : Document} {t : Tag} {cs : List Node}

/-- **A schema that needs an abstract rule in a circle is not written out.** -/
theorem exists_expand_eq_error {name other : String} (hschema : schemaElement d = .ok (t, cs))
    (hneeds : Needs (Node.element t cs).subtree cs name)
    (hother : Relation.ReflTransGen (Extends (Node.element t cs).subtree) name other)
    (hcircle : Relation.TransGen (Extends (Node.element t cs).subtree) other other) :
    ∃ e, expand d = .error (.rules e) := by
  cases hcopies : copies d with
  | ok copied =>
    obtain ⟨t', cs', copied, hschema', hcopied, -⟩ := copies_eq_ok hcopies
    cases hschema.symm.trans hschema'
    exact absurd ⟨_, _, _, hcopied⟩ (not_copyable_of_circle hneeds hother hcircle)
  | error e =>
    rw [expand_eq, hcopies, error_bind]
    rw [copies, hschema, ok_bind] at hcopies
    dsimp only at hcopies
    split at hcopies
    · cases hcopies
    · cases hcopies
      exact ⟨_, rfl⟩

/-- What is written for a schema has names. -/
theorem allNamed_of_copies {copied : List Copy} (h : copies d = .ok copied)
    (hxmlns : ∀ t ∈ d.root.tags, t.lookup? (some "xmlns") = none) :
    Fragment.AllNamed (Copy.fragments copied) := by
  -- no element binds a prefix that is no name, so every schema is self-contained for it
  have hbinds (t : Tag) (ht : t ∈ d.root.tags) : ¬t.Binds "" "" := fun hbinds =>
    have ⟨e, he, hlabel, _⟩ := hbinds.exists_mem
    absurd ((Node.proper_ofText d.wellFormed t ht).scope.label e he "" hlabel) (by decide)
  obtain ⟨t, f, content, rfl, hsits⟩ := sits_of_copies (p := "") (u := "") h hxmlns fun e he => by
    have hdefinition {localName id : String} {e' : Tag × List Node}
        (he' : definition? localName (Node.element e.1 e.2).subtree id = some e') :
        ¬e'.1.Binds "" "" := by
      have hmem := Node.subtree_subset (schemaElement_eq_ok he).1 (mem_of_definition? he')
      exact hbinds _ (Node.mem_tags hmem)
    exact ⟨fun _ _ _ _ _ he' h => absurd h (hdefinition he'),
      fun _ _ _ _ _ _ _ _ _ he' h => absurd h (hdefinition he')⟩
  exact ⟨hsits.named, trivial⟩

/-- **A schema that keeps other languages apart is written out** as it is meant. -/
theorem writtenOut_of_expand (hschema : schemaElement d = .ok (t, cs))
    (hroot : Expandable (.element t cs))
    (hxmlns : ∀ t ∈ d.root.tags, t.lookup? (some "xmlns") = none)
    (h : expand d = .ok d') : WrittenOut (Node.element t cs).subtree cs d' := by
  rw [expand_eq] at h
  obtain ⟨copied, hcopies, hwritten⟩ := bind_eq_ok.1 h
  have hnamed := allNamed_of_copies hcopies hxmlns
  obtain ⟨t', cs', content, hschema', hcontent, rfl⟩ := copies_eq_ok hcopies
  cases hschema.symm.trans hschema'
  have htext := ofText_of_writtenAll hwritten
  rw [Copy.fragments, Copy.fragments, renderAll_singleton] at htext
  obtain ⟨n, hback, hn⟩ := Fragment.back_of_ofText_render hnamed.1 htext
  obtain ⟨name, o, children, htag, hchildren, hnode⟩ := Fragment.back_element_eq_some_iff.1 hback
  obtain rfl := List.singleton_inj.1 hnode
  have hself : .element t cs ∈ (Node.element t cs).subtree := Node.mem_subtree_self _
  obtain ⟨hproper, hlabel⟩ := hroot.labelled t (Node.mem_tags hself)
  have hrule := (schemaElement_eq_ok hschema).2
  have hisRule : t.ruleName?.isSome := by rw [beq_iff_eq.1 hrule]; rfl
  have hdeclares : DeclaresApart (.element t cs) none t := fun hnone => by
    rw [hnone] at hisRule
    cases hisRule
  have hsch := lookup?_sch_of_tagBack hproper hlabel hisRule (.inl rfl) htag
  have hready : Ready (.element t cs) o.scope :=
    ⟨clear_of_tagBack hproper hlabel hroot.apart hdeclares (fun _ _ _ _ h => by cases h) htag, hsch⟩
  have ho : o.isRule "schema" = true := isRule_of_lookup? hproper hsch htag hrule
  have hstands := stands_of_copiesOfAll _ cs hself rfl (List.Subset.refl _) hcontent
  obtain ⟨nodes, hspliced, hall⟩ := exists_spliced _ _ hcontent
  refine ⟨?_, o, children, nodes, ?_, hspliced, ?_⟩
  · rw [hn, Node.tags_root, Node.tagsOf_cons, Node.tags_element, Node.tagsOf_nil, List.append_nil]
    refine List.forall_mem_cons.2 ⟨⟨isRule_eq_false ho (by decide), ?_⟩,
      final_of_backAll hroot hready.clear content hstands hchildren⟩
    rw [isRule_eq_false ho (by decide), isRule_eq_false ho (by decide)]
    rfl
  · rw [schemaElement, Document.rootElement_eq hn]
    exact if_pos ho
  · exact (forall₂_concrete hroot hready (by decide) hall hstands hchildren).imp
      fun _ _ h => h.2.writtenPattern hroot hready h.1

/-- **What becomes of a schema that is to be written out.** If abstract rules that it needs extend
each other in a circle, it is not written. If it is written, no definition depends on a parameter,
and other languages are kept apart, then every concrete pattern and rule is written with what it
consists of, and nothing else is. -/
theorem expand_settles (hschema : schemaElement d = .ok (t, cs)) :
    (∀ name other, Needs (Node.element t cs).subtree cs name →
      Relation.ReflTransGen (Extends (Node.element t cs).subtree) name other →
      Relation.TransGen (Extends (Node.element t cs).subtree) other other →
        ∃ e, expand d = .error (.rules e)) ∧
    ((∀ t ∈ d.root.tags, ∀ v ∈ t.plain? "abstract", '$' ∉ v.toList) →
      (∀ t ∈ d.root.tags, t.lookup? (some "xmlns") = none) → Apart (.element t cs) →
        ∀ d', expand d = .ok d' → WrittenOut (Node.element t cs).subtree cs d') := by
  refine ⟨fun name other => exists_expand_eq_error hschema, fun hfixed hxmlns hapart d' h => ?_⟩
  have hsub {t' : Tag} (ht' : t' ∈ (Node.element t cs).tags) : t' ∈ d.root.tags := by
    obtain ⟨n, hn, htag⟩ := List.mem_filterMap.1 ht'
    exact List.mem_filterMap.2
      ⟨n, Node.subtree_subset (schemaElement_eq_ok hschema).1 hn, htag⟩
  refine writtenOut_of_expand hschema ⟨fun t' ht' => ?_, fun t' ht' => hfixed t' (hsub ht'), hapart⟩
    hxmlns h
  exact ⟨Node.proper_ofText d.wellFormed t' (hsub ht'), hxmlns t' (hsub ht')⟩

end Schemas

theorem Needs.of_extends {schema ns : List Node} {name : String} {e : Tag × List Node}
    (he : e ∈ rulesNamed "extends" ns) (hname : e.1.plain? "rule" = some name) :
    Needs schema ns name := by
  obtain ⟨hmem, hextends⟩ := mem_rulesNamed_iff.1 he
  exact ⟨ns, e.1, e.2, .refl, hmem, hextends, hname⟩

/-- A concrete pattern or rule needs what it is written with. -/
theorem Needs.concrete {schema ns : List Node} {localName name : String} {e : Tag × List Node}
    (hlocal : localName ∈ ["pattern", "rule"]) (he : e ∈ concrete localName ns)
    (hisA : e.1.plain? "is-a" = none) (h : Needs schema e.2 name) : Needs schema ns name := by
  obtain ⟨ms, t, cs, hms, hmem⟩ := h
  obtain ⟨hrule, habstract⟩ := List.mem_filter.1 he
  obtain ⟨hin, hrule⟩ := mem_rulesNamed_iff.1 hrule
  rw [Bool.not_eq_true'] at habstract
  have hne : localName ≠ "extends" ∧ localName ≠ "param" := by
    have : ∀ l ∈ ["pattern", "rule"], l ≠ "extends" ∧ l ≠ "param" := by decide
    exact this localName hlocal
  refine ⟨ms, t, cs, .head (.content hin (isRule_eq_false hrule hne.1)
    (isRule_eq_false hrule hne.2) ?_ ?_) hms, hmem⟩
  · rw [habstract, Bool.and_false]
  · rw [hisA, Option.isSome_none, Bool.and_false]

/-- A rule schema with an instance of an abstract pattern whose rule extends an abstract rule. -/
def schemaOfExtensions : Document :=
  documentOf ("<schema xmlns=\"http://purl.oclc.org/dsdl/schematron\">" ++
    "<pattern abstract=\"true\" id=\"i\"><rule context=\"$x\"><extends rule=\"r\"/></rule>" ++
    "</pattern><rule abstract=\"true\" id=\"r\"><report test=\"b\"/></rule><pattern is-a=\"i\">" ++
    "<param name=\"x\" value=\"c\"/></pattern></schema>") (by decide +kernel)

/-- A rule schema with a rule that extends an abstract rule, which extends itself. -/
def schemaOfCircle : Document :=
  documentOf ("<schema xmlns=\"http://purl.oclc.org/dsdl/schematron\"><pattern>" ++
    "<rule><extends rule=\"r\"/></rule><rule abstract=\"true\" id=\"r\"><extends rule=\"r\"/>" ++
    "</rule></pattern></schema>") (by decide +kernel)

theorem expand_settles_schemaOfExtensions :
    (∃ t cs d', schemaElement schemaOfExtensions = .ok (t, cs) ∧
      (∀ t ∈ schemaOfExtensions.root.tags, ∀ v ∈ t.plain? "abstract", '$' ∉ v.toList) ∧
      (∀ t ∈ schemaOfExtensions.root.tags, t.lookup? (some "xmlns") = none) ∧
      Apart (.element t cs) ∧ expand schemaOfExtensions = .ok d' ∧
      WrittenOut (Node.element t cs).subtree cs d') ∧
    ∃ t cs e, schemaElement schemaOfCircle = .ok (t, cs) ∧
      Needs (Node.element t cs).subtree cs "r" ∧
      Relation.TransGen (Extends (Node.element t cs).subtree) "r" "r" ∧
      expand schemaOfCircle = .error (.rules e) := by
  constructor
  · have hchecks : ((schemaElement schemaOfExtensions).toOption.any fun e =>
        (expand schemaOfExtensions).toOption.any fun _ =>
          decide ((∀ t ∈ schemaOfExtensions.root.tags,
              (t.plain? "abstract").all fun v => !v.toList.contains '$') ∧
            (∀ t ∈ schemaOfExtensions.root.tags, t.lookup? (some "xmlns") = none) ∧
            Apart (.element e.1 e.2))) = true := by
      decide +kernel
    obtain ⟨⟨t, cs⟩, hschema, hchecks⟩ := exists_of_any_toOption hchecks
    obtain ⟨d', hexpand, hchecks⟩ := exists_of_any_toOption hchecks
    obtain ⟨hfixed, hxmlns, hapart⟩ := of_decide_eq_true hchecks
    have hfixed (t : Tag) (ht : t ∈ schemaOfExtensions.root.tags) :
        ∀ v ∈ t.plain? "abstract", '$' ∉ v.toList := by
      intro v hv
      have hall := hfixed t ht
      rw [hv] at hall
      simpa using hall
    exact ⟨t, cs, d', hschema, hfixed, hxmlns, hapart, hexpand,
      (expand_settles hschema).2 hfixed hxmlns hapart d' hexpand⟩
  · have hchecks : ((schemaElement schemaOfCircle).toOption.any fun e =>
        ((concrete "pattern" e.2).any fun p => (p.1.plain? "is-a").isNone &&
          (concrete "rule" p.2).any fun r => (r.1.plain? "is-a").isNone &&
            (rulesNamed "extends" r.2).any fun x => x.1.plain? "rule" == some "r") &&
        (definition? "rule" (Node.element e.1 e.2).subtree "r").any fun d =>
          (rulesNamed "extends" d.2).any fun x => x.1.plain? "rule" == some "r") = true := by
      decide +kernel
    obtain ⟨⟨t, cs⟩, hschema, hchecks⟩ := exists_of_any_toOption hchecks
    simp only [Bool.and_eq_true, List.any_eq_true, Option.any_eq_true, Option.isNone_iff_eq_none,
      beq_iff_eq] at hchecks
    obtain ⟨⟨p, hp, hpisA, r, hr, hrisA, x, hx, hxname⟩, d, hd, y, hy, hyname⟩ := hchecks
    have hneeds : Needs (Node.element t cs).subtree cs "r" :=
      .concrete (by decide) hp hpisA (.concrete (by decide) hr hrisA (.of_extends hx hxname))
    have hcircle : Relation.TransGen (Extends (Node.element t cs).subtree) "r" "r" :=
      .single ⟨d.1, d.2, hd, .of_extends hy hyname⟩
    obtain ⟨e, he⟩ := (expand_settles hschema).1 "r" "r" hneeds .refl hcircle
    exact ⟨t, cs, e, hschema, hneeds, hcircle, he⟩

/-- A rule schema with an element of another language that is called `extends`, by the label
`sch`. -/
def schemaOfHomonym : Document :=
  documentOf ("<x:schema xmlns:x=\"http://purl.oclc.org/dsdl/schematron\">" ++
    "<x:pattern xmlns:sch=\"urn:o\"><sch:extends/></x:pattern></x:schema>") (by decide +kernel)

/-- **What is no extension can come to be one** in a schema that is written out. -/
theorem not_expand_settles : ∃ d', expand schemaOfHomonym = .ok d' ∧
    (∀ t ∈ schemaOfHomonym.root.tags, t.plain? "abstract" = none ∧ t.isRule "extends" = false) ∧
      ∃ o ∈ d'.root.tags, o.isRule "extends" = true := by
  have hchecks : ((expand schemaOfHomonym).toOption.any fun (d' : Document) =>
      decide ((∀ t ∈ schemaOfHomonym.root.tags,
        t.plain? "abstract" = none ∧ t.isRule "extends" = false) ∧
          ∃ o ∈ d'.root.tags, o.isRule "extends" = true)) = true := by
    decide +kernel
  obtain ⟨d', hexpand, hchecks⟩ := exists_of_any_toOption hchecks
  exact ⟨d', hexpand, of_decide_eq_true hchecks⟩

end XmlConformance.Rules
