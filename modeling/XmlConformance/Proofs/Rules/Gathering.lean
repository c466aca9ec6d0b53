import XmlConformance.Proofs.Rules.Isolation
import XmlConformance.Proofs.Text.Marking
import XmlConformance.Proofs.Xml.Rereading

/-!
# Proofs/Rules/Gathering — the texts that titles and variables get

The text of a title, or of a variable without an expression, is gathered from an element and all
nodes below it. Text nodes contribute what they hold. But comments contribute as well, and an
element that begins with a text contributes it once more. So a variable gets the text of the text
nodes just if there is nothing else to gather (`OnlyTexts`), and a title gets their words just if
the rest is spare (`OnlyWords`). This holds of every rule set that is compiled, of the variables
that are bound in a run of it, and of the report that is written (`RuleSet.texts_compile`).
-/

namespace XmlConformance.Rules

open Xml XmlConformance.Path

/-! ## What is gathered -/

/-- The characters that are gathered from some nodes; those of text nodes are marked. -/
def gathered (ns : List Node) : List (Char × Bool) :=
  ns.flatMap fun n => (ownText n).toList.map fun c => (c, n.isText)

theorem gathered_append (ns ms : List Node) : gathered (ns ++ ms) = gathered ns ++ gathered ms :=
  List.flatMap_append

theorem toList_gatheredText (t : Tag) (cs : List Node) :
    (gatheredText t cs).toList = (gathered (Node.element t cs).subtree).map (·.1) := by
  rw [gatheredText, String.toList_join, gathered, List.map_flatMap, List.flatMap_map]
  simp [Function.comp_def]

/-- What a node contributes that is no text node is not kept. -/
theorem kept_gathered_cons {n : Node} (h : n.isText = false) (ns : List Node) :
    Text.kept (gathered (n :: ns)) = Text.kept (gathered ns) := by
  have hnone : Text.kept ((ownText n).toList.map fun c => (c, n.isText)) = [] := by
    simp [Text.kept, h]
  rw [gathered, List.flatMap_cons, Text.kept_append, hnone, List.nil_append, ← gathered]

mutual

/-- The characters that are marked are those of the text nodes. -/
theorem kept_gathered_subtree : ∀ n : Node, Text.kept (gathered n.subtree) = n.characters
  | .root cs => (kept_gathered_cons rfl _).trans (kept_gathered_subtrees cs)
  | .element t cs => (kept_gathered_cons rfl _).trans (kept_gathered_subtrees cs)
  | .text s => by
    simp [Node.subtree, gathered, ownText, Node.isText, Text.kept, Node.characters,
      List.filter_map, Function.comp_def]
  | .comment s => kept_gathered_cons rfl []
  | .instruction target value => rfl

theorem kept_gathered_subtrees : ∀ ns : List Node,
    Text.kept (gathered (Node.subtrees ns)) = Node.charactersOf ns
  | [] => rfl
  | n :: ns => by
    rw [Node.subtrees, gathered_append, Text.kept_append, kept_gathered_subtree n,
      kept_gathered_subtrees ns, Node.charactersOf]

end

theorem kept_gathered_element (t : Tag) (cs : List Node) :
    Text.kept (gathered (Node.element t cs).subtree) =
      (Node.element t cs).stringValue.toList := by
  rw [kept_gathered_subtree, Node.characters, Node.stringValue, String.toList_ofList]

/-- **Nothing but texts is gathered** from an element: neither an element in it nor the element
itself begins with a text, and no comment holds one. -/
def OnlyTexts (e : Tag × List Node) : Prop :=
  ∀ n ∈ (Node.element e.1 e.2).subtree, n.isText = false → ownText n = ""

/-- **Nothing but the words of texts is gathered** from an element: what no text node holds is white
space, and stands inside no word. -/
def OnlyWords (e : Tag × List Node) : Prop :=
  Text.SpareBehind Text.isBlank [] (gathered (Node.element e.1 e.2).subtree)

variable {e : Tag × List Node}

/-- **The text nodes make up what is gathered** just if nothing else is gathered. -/
theorem gatheredText_eq_stringValue_iff :
    gatheredText e.1 e.2 = (Node.element e.1 e.2).stringValue ↔ OnlyTexts e := by
  rw [← String.toList_inj, toList_gatheredText, ← kept_gathered_element,
    Text.map_fst_eq_kept_iff, gathered, OnlyTexts, List.forall_mem_flatMap]
  refine forall₂_congr fun n _ => ?_
  rw [List.forall_mem_map, ← String.toList_eq_nil_iff]
  cases n.isText <;> simp [List.eq_nil_iff_forall_not_mem]

/-- **The words of the text nodes are the words that are gathered** just if the rest is spare. -/
theorem normalizeSpace_gatheredText_iff :
    Text.normalizeSpace (gatheredText e.1 e.2) =
      Text.normalizeSpace (Node.element e.1 e.2).stringValue ↔ OnlyWords e := by
  rw [Text.normalizeSpace_eq_iff, toList_gatheredText, ← kept_gathered_element]
  exact Text.runs_kept_iff_behind _ []

/-! ## Variables -/

/-- **What an element that binds a variable gives to it** if it has no expression: a text, which is
that of its text nodes just if nothing else is gathered. -/
structure Gives (e : Tag × List Node) (v : String × Sequence) : Prop where
  name : e.1.plain? "name" = some v.1
  literal : e.1.plain? "value" = none → ∃ text, v.2 = [.string text] ∧
    (text = (Node.element e.1 e.2).stringValue ↔ OnlyTexts e)

/-- **Bindings bind what the elements among some nodes give**, in every run that gets past them. -/
def BindTexts (cs : List Node) (bindings : List Binding) : Prop :=
  ∀ (s : Scene) (item : Item) (vars vars' : Variables) (indexes rest : Indexes),
    s.bindAll item bindings vars indexes = .ok (vars', rest) →
      ∃ values, vars' = values.reverse ++ vars ∧ List.Forall₂ Gives (rulesNamed "let" cs) values

section Variables

variable {ns : Namespaces} {s : Scene} {item : Item} {indexes rest : Indexes}

theorem gives_of_compileBinding {b : Binding} (h : compileBinding ns e.1 e.2 = .ok b)
    {vars : Variables} {value : Sequence}
    (hvalue : s.valueOf vars item b.value indexes = .ok (value, rest)) :
    Gives e (b.variableName, value) := by
  obtain ⟨name, hname, h⟩ := bind_eq_ok.1 h
  have hplain : e.1.plain? "name" = some name := by
    unfold required at hname
    split at hname
    · case h_1 v hv => rw [hv, Except.ok.inj hname]
    · cases hname
  split at h
  · case h_1 v hv =>
    obtain ⟨expression, -, h⟩ := bind_eq_ok.1 h
    cases h
    refine ⟨hplain, fun hnone => ?_⟩
    rw [hnone] at hv
    cases hv
  · cases h
    cases hvalue
    exact ⟨hplain, fun _ => ⟨_, rfl, gatheredText_eq_stringValue_iff⟩⟩

/-- One variable after the other is bound to what its element gives. -/
theorem exists_values_of_bindAll : ∀ {es : List (Tag × List Node)} {bs : List Binding}
    {vars vars' : Variables} {indexes : Indexes},
    List.Forall₂ (fun e b => compileBinding ns e.1 e.2 = .ok b) es bs →
      s.bindAll item bs vars indexes = .ok (vars', rest) →
        ∃ values, vars' = values.reverse ++ vars ∧ List.Forall₂ Gives es values
  | [], [], _, _, _, _, h => by
    cases h
    exact ⟨[], rfl, .nil⟩
  | e :: es, b :: bs, vars, _, _, hbs, h => by
    obtain ⟨hb, hbs⟩ := List.forall₂_cons.1 hbs
    obtain ⟨⟨value, between⟩, hvalue, h⟩ := bind_eq_ok.1 h
    obtain ⟨values, rfl, hvalues⟩ := exists_values_of_bindAll hbs h
    refine ⟨(b.variableName, value) :: values, ?_,
      .cons (gives_of_compileBinding hb hvalue) hvalues⟩
    rw [List.reverse_cons, List.append_assoc]
    rfl

/-- **What bindings are compiled to** binds what their elements give. -/
theorem bindTexts_compileBindings {cs : List Node} {bs : List Binding}
    (h : compileBindings ns cs = .ok bs) : BindTexts cs bs :=
  fun _ _ _ _ _ _ hbind => exists_values_of_bindAll (forall₂_of_mapM_eq_ok h) hbind

end Variables

/-! ## Titles -/

/-- **A title says what the title element among some nodes says**: it has the words of the text
nodes just if the rest of what is gathered is spare. -/
structure TitledBy (cs : List Node) (title : Option String) : Prop where
  untitled : rulesNamed "title" cs = [] → title = none
  titled : ∀ e rest, rulesNamed "title" cs = e :: rest → ∃ text, title = some text ∧
    (text = Text.normalizeSpace (Node.element e.1 e.2).stringValue ↔ OnlyWords e)

theorem titledBy_title? (cs : List Node) : TitledBy cs (title? cs) where
  untitled h := by rw [title?, h]; rfl
  titled e rest h := by
    rw [title?, h]
    exact ⟨_, rfl, normalizeSpace_gatheredText_iff⟩

theorem staysInValue_of_not_isBlank {c : Char} (h : Text.isBlank c = false) :
    staysInValue c = true := by
  rw [staysInValue, Bool.not_eq_true']
  by_contra hne
  simp only [Bool.not_eq_false, Bool.or_eq_true, beq_iff_eq] at hne
  obtain (rfl | rfl) | rfl := hne <;> exact absurd h (by decide)

/-- A title comes back from a report as it was written. -/
theorem map_valueBack_title? (cs : List Node) : (title? cs).map valueBack = title? cs := by
  rw [title?, Option.map_map]
  refine Option.map_congr fun e _ => valueBack_eq_self ?_
  refine (Text.allChars_normalizeSpace _).mono fun c hc => ?_
  obtain hc | hc := Bool.or_eq_true_iff.1 hc
  · rw [eq_of_beq hc]
    decide
  · exact staysInValue_of_not_isBlank (by simpa using hc)

/-! ## Titles in reports -/

/-- The tag of an element of a report that belongs to a pattern. -/
def activePattern? : Node → Option Tag
  | .element t _ => if t.name == ⟨some reportUri, "active-pattern"⟩ then some t else none
  | _ => none

/-- The names of the patterns in a report, in its order. -/
def patternNames (ns : List Node) : List (Option String) :=
  (ns.filterMap activePattern?).map (·.plain? "name")

/-- **Fragments of a report name patterns**, wherever they stand in it. -/
def NamePatterns (fs : List Fragment) (names : List (Option String)) : Prop :=
  ∀ start nodes, Fragment.backAll reportScope start fs = some nodes →
    patternNames nodes = names

namespace NamePatterns

theorem nil : NamePatterns [] [] := by
  intro start nodes h
  cases h
  rfl

theorem append {fs gs : List Fragment} {names more : List (Option String)}
    (hfs : NamePatterns fs names) (hgs : NamePatterns gs more) :
    NamePatterns (fs ++ gs) (names ++ more) := by
  intro start nodes h
  rw [backAll_append] at h
  obtain ⟨first, hfirst, h⟩ := Option.bind_eq_some_iff.1 h
  obtain ⟨second, hsecond, h⟩ := Option.bind_eq_some_iff.1 h
  cases h
  rw [patternNames, List.filterMap_append, List.map_append]
  exact congrArg₂ (· ++ ·) (hfs start first hfirst) (hgs _ second hsecond)

theorem flatMap {α : Type} {f : α → List Fragment} {g : α → List (Option String)} :
    ∀ {l : List α}, (∀ a ∈ l, NamePatterns (f a) (g a)) → NamePatterns (l.flatMap f) (l.flatMap g)
  | [], _ => nil
  | a :: l, h => by
    rw [List.forall_mem_cons] at h
    exact h.1.append (flatMap h.2)

variable {attributes : List (String × String)} {content : List Fragment}

/-- An element is read with its name and its attributes. -/
theorem element {name : String} (localName : String) {names : List (Option String)}
    (hname : Reader.rawName? name = some ⟨"svrl", localName⟩) (h : AreReported attributes)
    (hnames : ∀ start cs, patternNames [.element ⟨⟨some reportUri, localName⟩,
      attributesBack attributes, reportScope, start⟩ cs] = names) :
    NamePatterns [.element name attributes content] names := by
  intro start nodes hback
  rw [Fragment.backAll, Fragment.back, tagBack_reportScope localName start hname h] at hback
  simp only [Option.bind_eq_bind, Option.bind_some, Fragment.backAll] at hback
  obtain ⟨nodes', hnodes', hback⟩ := Option.bind_eq_some_iff.1 hback
  obtain ⟨cs, -, hcs⟩ := Option.bind_eq_some_iff.1 hnodes'
  cases hcs
  cases hback
  exact hnames start cs

/-- The element of a pattern has its title as its name. -/
theorem active (h : AreReported attributes) :
    NamePatterns [.element "svrl:active-pattern" attributes content]
      [(attributes.lookup "name").map valueBack] := by
  refine element "active-pattern" (by decide) h fun start cs => ?_
  exact congrArg (fun name => [name]) (plain?_attributesBack rfl "name")

/-- No other element names a pattern. -/
theorem other {name : String} (localName : String)
    (hname : Reader.rawName? name = some ⟨"svrl", localName⟩) (h : AreReported attributes)
    (hne : localName ≠ "active-pattern") : NamePatterns [.element name attributes content] [] := by
  refine element localName hname h fun start cs => ?_
  have hnone : activePattern? (.element ⟨⟨some reportUri, localName⟩, attributesBack attributes,
      reportScope, start⟩ cs) = none := if_neg (by simpa using hne)
  rw [patternNames, List.filterMap_cons_none hnone]
  rfl

theorem remark (root : Node) (item : Item) (r : Remark) :
    NamePatterns [r.fragment root item] [] := by
  have h := r.areReported root item
  unfold Remark.fragment
  cases r.check.kind with
  | assert => exact other "failed-assert" (by decide) h (by decide)
  | report => exact other "successful-report" (by decide) h (by decide)

theorem ruleOutcome (root : Node) (o : RuleOutcome) : NamePatterns (o.fragments root) [] := by
  have hfired : NamePatterns [.element "svrl:fired-rule" o.written []] [] :=
    other "fired-rule" (by decide) o.areReported (by decide)
  have hremarks := flatMap fun r (_ : r ∈ o.remarks) => remark root o.item r
  rw [← List.map_eq_flatMap, List.flatMap_eq_nil_iff.2 fun _ _ => rfl] at hremarks
  exact hfired.append hremarks

/-- **What a report says of a pattern** names the pattern by its title. -/
theorem patternOutcome (root : Node) (o : PatternOutcome) :
    NamePatterns (o.fragments root) [o.pattern.title.map valueBack] := by
  have hlookup : o.written.lookup "name" = o.pattern.title := by
    unfold PatternOutcome.written
    cases o.pattern.id <;> cases o.pattern.title <;> rfl
  have hactive : NamePatterns [.element "svrl:active-pattern" o.written []] _ :=
    active o.areReported
  have hrules := flatMap fun r (_ : r ∈ o.outcomes) => ruleOutcome root r
  rw [List.flatMap_eq_nil_iff.2 fun _ _ => rfl] at hrules
  rw [hlookup] at hactive
  exact hactive.append hrules

end NamePatterns

/-- **A fragment that a report may hold**: an element with names, in which texts stand apart. -/
structure IsReported (f : Fragment) : Prop where
  named : f.Named
  joined : f.Joined
  isElement : f.isText = false

namespace IsReported

variable {name : String} {attributes : List (String × String)} {content : List Fragment}

theorem allNamed : ∀ {fs : List Fragment}, (∀ f ∈ fs, IsReported f) → Fragment.AllNamed fs
  | [], _ => trivial
  | _ :: _, h => ⟨(List.forall_mem_cons.1 h).1.named, allNamed (List.forall_mem_cons.1 h).2⟩

theorem allJoined : ∀ {fs : List Fragment}, (∀ f ∈ fs, IsReported f) → Fragment.AllJoined fs
  | [], _ => trivial
  | f :: fs, h => by
    obtain ⟨hf, hfs⟩ := List.forall_mem_cons.1 h
    exact ⟨hf.joined, fun htext => absurd htext (by rw [hf.isElement]; decide), allJoined hfs⟩

theorem element (hname : (Reader.rawName? name).isSome)
    (hattributes : ∀ a ∈ attributes, (Reader.rawName? a.1).isSome)
    (hcontent : ∀ f ∈ content, IsReported f) : IsReported (.element name attributes content) :=
  ⟨⟨hname, hattributes, allNamed hcontent⟩, allJoined hcontent, rfl⟩

theorem isSome_of_areReported (h : AreReported attributes) :
    ∀ a ∈ attributes, (Reader.rawName? a.1).isSome :=
  fun a ha => Option.isSome_of_mem (h.plain a ha).1

/-- The element that holds a message. -/
theorem text (s : String) : IsReported (.element "svrl:text" [] [.text s]) :=
  ⟨⟨by decide, nofun, trivial, trivial⟩, ⟨trivial, nofun, trivial⟩, rfl⟩

theorem remark (root : Node) (item : Item) (r : Remark) : IsReported (r.fragment root item) := by
  have hname : (Reader.rawName? r.check.kind.element).isSome := by
    cases r.check.kind <;> decide
  exact element hname (isSome_of_areReported (r.areReported root item))
    (List.forall_mem_singleton.2 (text r.text))

theorem ruleOutcome (root : Node) (o : RuleOutcome) : ∀ f ∈ o.fragments root, IsReported f :=
  List.forall_mem_cons.2 ⟨element (by decide) (isSome_of_areReported o.areReported) nofun,
    List.forall_mem_map.2 fun r _ => remark root o.item r⟩

theorem patternOutcome (root : Node) (o : PatternOutcome) : ∀ f ∈ o.fragments root, IsReported f :=
  List.forall_mem_cons.2 ⟨element (by decide) (isSome_of_areReported o.areReported) nofun,
    List.forall_mem_flatMap.2 fun r _ => ruleOutcome root r⟩

theorem reportOf (rs : RuleSet) (root : Node) (outcomes : List PatternOutcome) :
    IsReported (reportOf rs root outcomes) := by
  have htitle : AreReported (optional "title" rs.title) :=
    (map_fst_optional "title" rs.title).trans (by decide)
  refine element (by decide) ?_ (List.forall_mem_flatMap.2 fun o _ => patternOutcome root o)
  exact List.forall_mem_append.2 ⟨by decide, isSome_of_areReported htitle⟩

end IsReported

/-- **A report has the title of the rule set**, and names the patterns that were applied by their
titles. -/
theorem titles_of_ofText_reportOf {rs : RuleSet} {root : Node} {outcomes : List PatternOutcome}
    {report : Document}
    (h : Document.ofText (reportOf rs root outcomes).render none = .ok report) :
    report.rootElement.1.plain? "title" = rs.title.map valueBack ∧
      patternNames report.rootElement.2 = outcomes.map fun o => o.pattern.title.map valueBack := by
  have hreported := IsReported.reportOf rs root outcomes
  have hnames := NamePatterns.flatMap fun o (_ : o ∈ outcomes) =>
    NamePatterns.patternOutcome root o
  obtain ⟨-, n, hback, hroot⟩ := Fragment.back_of_ofText_render_of_joined hreported.joined
    hreported.named (ofText_of_ofText_eq_ok h)
  have htag := tagBack_root rs.title
  rw [Fragment.back, show [("xmlns:svrl", reportUri), ("xmlns:sch", ruleUri)] =
    reportDeclarations from rfl, htag, Option.bind_eq_bind, Option.bind_some] at hback
  obtain ⟨children, hchildren, hback⟩ := Option.bind_eq_some_iff.1 hback
  cases hback
  rw [Document.rootElement_eq hroot]
  refine ⟨?_, ?_⟩
  · rw [plain?_attributesBack rfl]
    cases rs.title <;> rfl
  · rw [hnames _ _ hchildren, List.map_eq_flatMap]

/-! ## Rule sets -/

/-- The rules among the children of a pattern that are compiled. -/
def concreteRules (cs : List Node) : List (Tag × List Node) :=
  (rulesNamed "rule" cs).filter fun (t, _) => t.plain? "abstract" != some "true"

/-- **A pattern has the texts of its element**: its variables and those of its rules are bound to
what their elements give. -/
structure PatternTexts (e : Tag × List Node) (p : Pattern) : Prop where
  bindings : BindTexts e.2 p.bindings
  rules : List.Forall₂ (fun e r => BindTexts e.2 r.bindings) (concreteRules e.2) p.rules

/-- **A rule set has the texts of its schema**: all its variables are bound to what their elements
give, and every report of it has the titles that the elements give. -/
structure RuleSet.TextsOf (cs : List Node) (rs : RuleSet) : Prop where
  bindings : BindTexts cs rs.bindings
  patterns : List.Forall₂ PatternTexts (rulesNamed "pattern" cs) rs.patterns
  title : ∀ parameters d report, rs.run parameters d = .ok report →
    TitledBy cs (report.rootElement.1.plain? "title")
  names : ∀ parameters d report, rs.run parameters d = .ok report →
    List.Forall₂ (fun e name => TitledBy e.2 name) (rulesNamed "pattern" cs)
      (patternNames report.rootElement.2)

theorem patternTexts_compilePattern {schema : Namespaces} {p : Pattern}
    (h : compilePattern schema e.1 e.2 = .ok p) :
    PatternTexts e p ∧ p.title = title? e.2 := by
  obtain ⟨rules, hrules, h⟩ := bind_eq_ok.1 h
  obtain ⟨bindings, hbindings, h⟩ := bind_eq_ok.1 h
  cases h
  refine ⟨⟨bindTexts_compileBindings hbindings, (forall₂_of_mapM_eq_ok hrules).imp ?_⟩, rfl⟩
  intro e r hr
  obtain ⟨_, -, hr⟩ := bind_eq_ok.1 hr
  obtain ⟨_, -, hr⟩ := bind_eq_ok.1 hr
  obtain ⟨_, -, hr⟩ := bind_eq_ok.1 hr
  obtain ⟨bindings, hbindings, hr⟩ := bind_eq_ok.1 hr
  cases hr
  exact bindTexts_compileBindings hbindings

/-- Going through a list gives for each member what the step gives for it. -/
theorem Scene.forall₂_each {α β : Type} {f : α → Run β} : ∀ {l : List α} {bs : List β}
    {indexes rest : Indexes}, each f l indexes = .ok (bs, rest) →
      List.Forall₂ (fun a b => ∃ before after, f a before = .ok (b, after)) l bs
  | [], _, _, _, h => by
    cases h
    exact .nil
  | a :: l, bs, indexes, rest, h => by
    obtain ⟨⟨b, between⟩, hb, h⟩ := bind_eq_ok.1 h
    obtain ⟨⟨more, end'⟩, hmore, h⟩ := bind_eq_ok.1 h
    cases h
    exact .cons ⟨indexes, between, hb⟩ (forall₂_each hmore)

namespace RuleSet

/-- The patterns that are applied are those of the rule set. -/
theorem map_pattern_outcomes {rs : RuleSet} {parameters : List (String × String)} {root : Node}
    {os : List PatternOutcome} (h : rs.outcomes parameters root = .ok os) :
    os.map (·.pattern) = rs.patterns := by
  obtain ⟨⟨vars, indexes⟩, -, h⟩ := bind_eq_ok.1 h
  obtain ⟨⟨found, rest⟩, hfound, h⟩ := bind_eq_ok.1 h
  cases h
  refine List.forall₂_eq_eq_eq ▸ List.forall₂_map_left_iff.2 ?_
  refine (Scene.forall₂_each hfound).flip.imp fun o p hp => ?_
  obtain ⟨_, _, hp⟩ := hp
  exact Scene.pattern_of_patternOutcome hp

/-- **A report has the titles of the rule set**, as they are. -/
theorem titles_of_run {rs : RuleSet} {parameters : List (String × String)} {d report : Document}
    (h : rs.run parameters d = .ok report) :
    report.rootElement.1.plain? "title" = rs.title.map valueBack ∧
      patternNames report.rootElement.2 = rs.patterns.map fun p => p.title.map valueBack := by
  obtain ⟨os, hos, h⟩ := bind_eq_ok.1 h
  rw [← map_pattern_outcomes hos, List.map_map]
  exact titles_of_ofText_reportOf h

/-- **The texts of variables and titles** are those of the text nodes, each once, just if nothing
else is gathered with them. -/
theorem texts_compile {schema : Document} {rs : RuleSet} (h : RuleSet.compile schema = .ok rs) :
    ∃ t cs, schemaElement schema = .ok (t, cs) ∧ rs.TextsOf cs := by
  obtain ⟨⟨t, cs⟩, helement, h⟩ := bind_eq_ok.1 h
  obtain ⟨ns, -, h⟩ := bind_eq_ok.1 h
  obtain ⟨keys, -, h⟩ := bind_eq_ok.1 h
  obtain ⟨bindings, hbindings, h⟩ := bind_eq_ok.1 h
  obtain ⟨patterns, hpatterns, h⟩ := bind_eq_ok.1 h
  cases h
  have hcompiled := (forall₂_of_mapM_eq_ok hpatterns).imp fun e p hp =>
    patternTexts_compilePattern hp
  refine ⟨t, cs, helement, bindTexts_compileBindings hbindings, hcompiled.imp fun _ _ hp => hp.1,
    fun parameters d report hrun => ?_, fun parameters d report hrun => ?_⟩
  · rw [(titles_of_run hrun).1, map_valueBack_title?]
    exact titledBy_title? cs
  · rw [(titles_of_run hrun).2, List.forall₂_map_right_iff]
    refine hcompiled.imp fun e p hp => ?_
    rw [hp.2, map_valueBack_title?]
    exact titledBy_title? e.2

/-- The texts that variables get without an expression. -/
def literals (bindings : List Binding) : List (String × String) :=
  bindings.filterMap fun b =>
    match b.value with
    | .literal text => some (b.variableName, text)
    | .expression _ => none

/-- What the text nodes say of the elements with a name among some nodes. -/
def textsNamed (name : String) (cs : List Node) : List String :=
  (rulesNamed name cs).map fun e => (Node.element e.1 e.2).stringValue

/-- A schema in which no text comes first in its element. -/
def schemaOfTexts : Document :=
  documentOf ("<schema xmlns=\"http://purl.oclc.org/dsdl/schematron\"><title><emph/>A title</title>" ++
    "<let name=\"x\"><emph/>a</let><pattern><title><!-- --> of a pattern</title>" ++
    "<rule context=\"/a\"><let name=\"y\"/></rule></pattern></schema>") (by decide +kernel)

/-- A schema in which texts come first, with a comment in one of them. -/
def schemaOfLeadingTexts : Document :=
  documentOf ("<schema xmlns=\"http://purl.oclc.org/dsdl/schematron\"><title>T<!--c--></title>" ++
    "<let name=\"x\">a</let><pattern><title>P</title></pattern></schema>") (by decide +kernel)

theorem texts_schemaOfTexts : ∃ rs, RuleSet.compile schemaOfTexts = .ok rs ∧
    literals rs.bindings = [("x", "a")] ∧
    ∃ t cs, schemaElement schemaOfTexts = .ok (t, cs) ∧ rs.TextsOf cs := by
  have hliterals : (RuleSet.compile schemaOfTexts).toOption.any
      (fun rs => literals rs.bindings == [("x", "a")]) = true := by decide +kernel
  obtain ⟨rs, hcompile, hliterals⟩ := exists_of_any_toOption hliterals
  exact ⟨rs, hcompile, eq_of_beq hliterals, texts_compile hcompile⟩

/-- **A text that comes first is gathered twice**, and comments are gathered as well. -/
theorem texts_schemaOfLeadingTexts : ∃ t cs rs report,
    schemaElement schemaOfLeadingTexts = .ok (t, cs) ∧
    RuleSet.compile schemaOfLeadingTexts = .ok rs ∧
    rs.run [] elementDocument = .ok report ∧
    textsNamed "let" cs = ["a"] ∧ literals rs.bindings = [("x", "aa")] ∧
    textsNamed "title" cs = ["T"] ∧ report.rootElement.1.plain? "title" = some "TTc" ∧
    (rulesNamed "pattern" cs).map (fun e => textsNamed "title" e.2) = [["P"]] ∧
      patternNames report.rootElement.2 = [some "PP"] := by
  have helement : (schemaElement schemaOfLeadingTexts).toOption.any (fun e =>
      textsNamed "let" e.2 == ["a"] && (textsNamed "title" e.2 == ["T"] &&
        (rulesNamed "pattern" e.2).map (fun e => textsNamed "title" e.2) == [["P"]])) = true := by
    decide +kernel
  have hcompile : (RuleSet.compile schemaOfLeadingTexts).toOption.any (fun rs =>
      literals rs.bindings == [("x", "aa")] &&
        (rs.run [] elementDocument).toOption.any (fun report =>
          report.rootElement.1.plain? "title" == some "TTc" &&
            patternNames report.rootElement.2 == [some "PP"])) = true := by
    decide +kernel
  obtain ⟨⟨t, cs⟩, helement, htexts⟩ := exists_of_any_toOption helement
  obtain ⟨hlet, htexts⟩ := Bool.and_eq_true_iff.1 htexts
  obtain ⟨htitle, hpattern⟩ := Bool.and_eq_true_iff.1 htexts
  obtain ⟨rs, hcompile, hrun⟩ := exists_of_any_toOption hcompile
  obtain ⟨hliterals, hrun⟩ := Bool.and_eq_true_iff.1 hrun
  obtain ⟨report, hreport, htitles⟩ := exists_of_any_toOption hrun
  obtain ⟨hreportTitle, hnames⟩ := Bool.and_eq_true_iff.1 htitles
  exact ⟨t, cs, rs, report, helement, hcompile, hreport, eq_of_beq hlet, eq_of_beq hliterals,
    eq_of_beq htitle, eq_of_beq hreportTitle, eq_of_beq hpattern, eq_of_beq hnames⟩

end RuleSet

end XmlConformance.Rules
