import XmlConformance.Proofs.Rules.Findings
import XmlConformance.Proofs.Text.Spacing
import XmlConformance.Proofs.Xml.ReadingBack
import XmlConformance.Proofs.Xml.Subtrees
import XmlConformance.Proofs.Xml.Unlabelled

/-!
# Proofs/Rules/Reporting — reports are read as they were meant

A report that is written and read again has an entry for every rule that fired and for every
assertion that failed, in the order in which they were written (`entries_ofText_reportOf`). The rule
that fired last in front of a failed assertion is the one that the assertion belongs to, so the
findings of the report are those of the outcomes that it was written from
(`findings_entriesOf`). Names and locations come back as they were, and of the white space in a text
nothing is left that could make a difference.
-/

namespace XmlConformance

open Xml

/-! ## Values that come back -/

namespace Xml

theorem PathText.valueBack {s : String} (h : PathText s) : valueBack s = s := by
  refine valueBack_eq_self (h.mono fun c hc => ?_)
  have hne : ∀ d, isPathChar d = false → (c == d) = false := by
    rintro d hd
    refine beq_false_of_ne ?_
    rintro rfl
    rw [hc] at hd
    cases hd
  rw [staysInValue, hne _ (by decide), hne _ (by decide)]
  rfl

end Xml

namespace Text

/-- Reading line ends anew keeps the words of a text. -/
theorem runs_push (reversed : List Char) (c : Char) (atEnd : Bool) (rest : List Char) :
    runs isBlank ((LineEnd.push reversed c atEnd).reverse ++ rest) =
      runs isBlank (reversed.reverse ++ c :: rest) := by
  have hcr : isBlank '\r' = true := by decide
  have hlf : isBlank '\n' = true := by decide
  unfold LineEnd.push
  split
  · case h_1 before =>
    simp only [List.reverse_cons, List.append_assoc, List.singleton_append]
    split
    · case isTrue h =>
      obtain ⟨-, rfl⟩ : atEnd = true ∧ c = '\r' := by simpa using h
      simp [runs_append_cons, runs_cons, hcr, hlf]
    · split
      · case isTrue h =>
        obtain rfl : c = '\n' := by simpa using h
        simp [runs_append_cons, runs_cons, hcr, hlf]
      · simp [runs_append_cons, hcr, hlf]
  · split
    · case isTrue h =>
      obtain ⟨-, rfl⟩ : atEnd = true ∧ c = '\r' := by simpa using h
      simp [runs_append_cons, hcr, hlf]
    · simp

theorem runs_textBackFrom : ∀ (cs reversed : List Char) (verbatim : Bool),
    runs isBlank (textBackFrom reversed verbatim cs).reverse =
      runs isBlank (reversed.reverse ++ cs)
  | [], reversed, _ => by rw [textBackFrom, List.append_nil]
  | c :: cs, reversed, verbatim => by
    rw [textBackFrom]
    split
    · rw [runs_textBackFrom cs, List.reverse_cons, List.append_assoc, List.singleton_append]
    · split
      · rw [runs_textBackFrom cs, List.reverse_cons, List.append_assoc, List.singleton_append]
      · rw [runs_textBackFrom cs, runs_push]

/-- **The words of a text come back.** -/
theorem normalizeSpace_textBack (s : String) : normalizeSpace (textBack s) = normalizeSpace s := by
  rw [normalizeSpace, normalizeSpace, words, words, textBack, String.toList_ofList,
    runs_textBackFrom]
  rfl

end Text

namespace Rules

open XmlConformance.Path

/-! ## Tags of reports -/

/-- What is declared at the root of a report. -/
def reportScope : List Declaration := [⟨some "svrl", reportUri⟩, ⟨some "sch", ruleUri⟩]

/-- The names of the attributes in a report, in an order that every element keeps. -/
def reportNames : List String := ["context", "test", "id", "name", "role", "location", "title"]

/-- Attributes of an element of a report. -/
def AreReported (attributes : List (String × String)) : Prop :=
  (attributes.map (·.1)).Sublist reportNames

variable {attributes : List (String × String)}

theorem rawName?_of_mem_reportNames :
    ∀ name ∈ reportNames, Reader.rawName? name = some ⟨"", name⟩ ∧ name ≠ "xmlns" := by
  decide

theorem AreReported.plain (h : AreReported attributes) :
    ∀ a ∈ attributes, Reader.rawName? a.1 = some ⟨"", a.1⟩ ∧ a.1 ≠ "xmlns" :=
  fun _ ha => rawName?_of_mem_reportNames _ (h.subset (List.mem_map_of_mem ha))

theorem AreReported.nodup (h : AreReported attributes) : (attributes.map (·.1)).Nodup :=
  List.Nodup.sublist h (by decide)

/-- **The tag of an element of a report**: its name is in the namespace of reports, and its
attributes are in none. -/
theorem tagBack_reportScope {name : String} (localName : String) (start : ℕ)
    (hname : Reader.rawName? name = some ⟨"svrl", localName⟩) (h : AreReported attributes) :
    tagBack reportScope start name attributes =
      some (⟨"svrl", localName⟩,
        ⟨⟨some reportUri, localName⟩, attributesBack attributes, reportScope, start⟩) := by
  have hbind := bindAttributes_of_plain [] [] fun a ha => (h.plain a ha).2
  have hresolve := resolveAttributes_of_nodup reportScope [] h.nodup
  refine tagBack_eq_some_iff.2 ⟨hname, _, named?_of_plain fun a ha => (h.plain a ha).1, [],
    namedPlainly attributes, ?_, ?_⟩
  · rw [List.map_map]
    exact hbind
  · have huri : elementUri reportScope "svrl" = some (some reportUri) := by decide
    rw [resolveTag, if_neg (show ¬("svrl" == "xmlns") = true by decide)]
    simp only [scopeWithin, List.isEmpty_nil, if_true, huri]
    rw [show resolveAttributes reportScope [] (namedPlainly attributes) =
      some (attributesBack attributes) from hresolve]

/-- The value of an attribute of an element of a report. -/
theorem plain?_attributesBack {t : Tag} (ht : t.attributes = attributesBack attributes)
    (name : String) : t.plain? name = (attributes.lookup name).map valueBack := by
  rw [Tag.plain?, Tag.attribute?, ht]
  clear ht
  induction attributes with
  | nil => rfl
  | cons a attributes ih =>
    obtain ⟨n, v⟩ := a
    rw [attributesBack, List.map_cons, ← attributesBack]
    by_cases hn : n = name
    · rw [List.find?_cons_of_pos (by simp [hn]), List.lookup_cons, beq_iff_eq.2 hn.symm]
      rfl
    · rw [List.find?_cons_of_neg (by simp [hn]), List.lookup_cons,
        beq_eq_false_iff_ne.2 (Ne.symm hn)]
      exact ih

/-! ## Fragments of reports -/

theorem backAll_append (inherited : List Declaration) : ∀ (start : ℕ) (fs gs : List Fragment),
    Fragment.backAll inherited start (fs ++ gs) =
      (do
        let nodes ← Fragment.backAll inherited start fs
        let more ← Fragment.backAll inherited (start + (Fragment.charsOf fs).length) gs
        return nodes ++ more)
  | start, [], gs => by simp [Fragment.backAll, Fragment.charsOf]
  | start, f :: fs, gs => by
    rw [List.cons_append, Fragment.backAll, Fragment.backAll, backAll_append inherited _ fs gs,
      Fragment.charsOf, List.length_append, ← Nat.add_assoc]
    cases f.back inherited start with
    | none => rfl
    | some nodes =>
      cases Fragment.backAll inherited (start + f.chars.length) fs with
      | none => rfl
      | some more =>
        simp only [Option.bind_eq_bind, Option.bind_some, Option.pure_def, Option.bind_assoc,
          List.append_assoc]

/-- **Fragments of a report are read as entries**, wherever they stand in it. -/
def ReadAs (fs : List Fragment) (es : List Entry) : Prop :=
  ∀ start, ∃ nodes, Fragment.backAll reportScope start fs = some nodes ∧
    (Node.subtrees nodes).filterMap entry? = es

namespace ReadAs

theorem nil : ReadAs [] [] := fun _ => ⟨[], rfl, rfl⟩

theorem append {fs gs : List Fragment} {es es' : List Entry} (hfs : ReadAs fs es)
    (hgs : ReadAs gs es') : ReadAs (fs ++ gs) (es ++ es') := by
  intro start
  obtain ⟨nodes, hnodes, rfl⟩ := hfs start
  obtain ⟨more, hmore, rfl⟩ := hgs (start + (Fragment.charsOf fs).length)
  refine ⟨nodes ++ more, ?_, ?_⟩
  · rw [backAll_append, hnodes, Option.bind_eq_bind, Option.bind_some, hmore]
    rfl
  · rw [Node.subtrees_append, List.filterMap_append]

theorem flatMap {α : Type} {f : α → List Fragment} {g : α → List Entry} :
    ∀ {l : List α}, (∀ a ∈ l, ReadAs (f a) (g a)) → ReadAs (l.flatMap f) (l.flatMap g)
  | [], _ => nil
  | a :: l, h => by
    rw [List.forall_mem_cons] at h
    exact h.1.append (flatMap h.2)

/-- An element is read as an entry, behind which the entries of its content follow. -/
theorem element {name : String} (localName : String) {content : List Fragment}
    {es es' : List Entry} (hname : Reader.rawName? name = some ⟨"svrl", localName⟩)
    (h : AreReported attributes)
    (hcontent : ReadAs content es')
    (hentry : ∀ start cs, Fragment.backAll reportScope start content = some cs → ∀ start,
      List.filterMap entry? [.element ⟨⟨some reportUri, localName⟩, attributesBack attributes,
        reportScope, start⟩ cs] = es) :
    ReadAs [.element name attributes content] (es ++ es') := by
  intro start
  obtain ⟨cs, hcs, rfl⟩ := hcontent (start + (tagChars name attributes).length + 1)
  refine ⟨[.element ⟨⟨some reportUri, localName⟩, attributesBack attributes, reportScope, start⟩
    cs], ?_, ?_⟩
  · rw [Fragment.backAll, Fragment.back, tagBack_reportScope localName start hname h]
    simp only [Option.bind_eq_bind, Option.bind_some, Fragment.backAll]
    rw [hcs]
    rfl
  · rw [Node.subtrees, Node.subtree, Node.subtrees, List.append_nil, ← hentry _ cs hcs start,
      ← List.filterMap_append]
    rfl

end ReadAs

/-! ## Entries -/

/-- The entries that a remark is read as. -/
def Remark.entries (root : Node) (item : Item) (r : Remark) : List Entry :=
  match r.check.kind with
  | .assert =>
    [.failed ⟨some (valueBack r.check.test.source), some (item.location root),
      Text.normalizeSpace r.text⟩]
  | .report => []

/-- The entries that the outcome of a rule is read as. -/
def RuleOutcome.entries (root : Node) (o : RuleOutcome) : List Entry :=
  .fired (valueBack o.rule.context.source) (o.rule.role.map valueBack) ::
    o.remarks.flatMap (Remark.entries root o.item)

/-- The entries that the outcome of a pattern is read as. -/
def PatternOutcome.entries (root : Node) (o : PatternOutcome) : List Entry :=
  o.outcomes.flatMap (RuleOutcome.entries root)

theorem map_fst_optional (name : String) (value : Option String) :
    ((optional name value).map (·.1)).Sublist [name] := by
  cases value with
  | none => exact List.nil_sublist _
  | some v => exact List.Sublist.refl _

/-- The element of a rule that fired is an entry. -/
theorem filterMap_entry_fired {t : Tag} (ht : t.name = ⟨some reportUri, "fired-rule"⟩)
    (cs : List Node) : List.filterMap entry? [.element t cs] =
      [.fired ((t.plain? "context").getD "") (t.plain? "role")] := by
  have h : entry? (.element t cs) = some (.fired ((t.plain? "context").getD "")
      (t.plain? "role")) := by
    unfold entry?
    dsimp only
    rw [if_pos (by simp [ht])]
  exact List.filterMap_cons_some h

/-- The element of a failed assertion is an entry. -/
theorem filterMap_entry_failed {t : Tag} (ht : t.name = ⟨some reportUri, "failed-assert"⟩)
    (cs : List Node) : List.filterMap entry? [.element t cs] =
      [.failed ⟨t.plain? "test", t.plain? "location",
        Text.normalizeSpace (Node.element t cs).stringValue⟩] := by
  have h : entry? (.element t cs) = some (.failed ⟨t.plain? "test", t.plain? "location",
      Text.normalizeSpace (Node.element t cs).stringValue⟩) := by
    unfold entry?
    dsimp only
    rw [if_neg (by simp [ht]), if_pos (by simp [ht])]
  exact List.filterMap_cons_some h

/-- No other element is an entry. -/
theorem filterMap_entry_of_ne {t : Tag} {localName : String}
    (ht : t.name = ⟨some reportUri, localName⟩) (hfired : localName ≠ "fired-rule")
    (hfailed : localName ≠ "failed-assert") (cs : List Node) :
    List.filterMap entry? [.element t cs] = [] := by
  have h : entry? (.element t cs) = none := by
    unfold entry?
    dsimp only
    rw [if_neg (by simpa [ht] using hfired), if_neg (by simpa [ht] using hfailed)]
  exact List.filterMap_cons_none h

/-- The element that holds a message has no entry of its own. -/
theorem readAs_text (s : String) : ReadAs [.element "svrl:text" [] [.text s]] [] := by
  have hcontent : ReadAs [.text s] [] := by
    intro start
    refine ⟨if s = "" then [] else [.text (textBack s)], ?_, ?_⟩
    · rw [Fragment.backAll, Fragment.back, Fragment.backAll]
      simp
    · by_cases hs : s = ""
      · rw [if_pos hs]
        rfl
      · rw [if_neg hs]
        simp [Node.subtrees, Node.subtree, entry?]
  change ReadAs _ ([] ++ [])
  exact .element "text" (by decide) (List.nil_sublist _) hcontent fun _ cs _ start =>
    filterMap_entry_of_ne rfl (by decide) (by decide) cs

/-- The message of a failed assertion is read as it was meant. -/
theorem normalizeSpace_stringValue {s : String} {start : ℕ} {cs : List Node} (t : Tag)
    (h : Fragment.backAll reportScope start [.element "svrl:text" [] [.text s]] = some cs) :
    Text.normalizeSpace (Node.element t cs).stringValue = Text.normalizeSpace s := by
  have hnone : AreReported [] := List.nil_sublist _
  rw [Fragment.backAll, Fragment.back, tagBack_reportScope "text" start (by decide) hnone] at h
  simp only [Fragment.backAll, Fragment.back, Option.bind_eq_bind, Option.bind_some,
    Option.pure_def, Option.some.injEq] at h
  rw [← h]
  by_cases hs : s = ""
  · rw [if_pos hs, hs]
    rfl
  · rw [if_neg hs, ← Text.normalizeSpace_textBack s]
    simp [Node.stringValue, Node.charactersOf, Node.characters]

/-- What a report says of a check. -/
def Remark.written (root : Node) (item : Item) (r : Remark) : List (String × String) :=
  [("test", r.check.test.source)] ++ optional "id" r.check.id ++ optional "role" r.check.role ++
    [("location", item.location root)]

theorem Remark.areReported (root : Node) (item : Item) (r : Remark) :
    AreReported (r.written root item) := by
  unfold AreReported Remark.written
  simp only [List.map_append, List.map_cons, List.map_nil]
  refine List.Sublist.trans ((((List.Sublist.refl ["test"]).append
    (map_fst_optional "id" _)).append (map_fst_optional "role" _)).append (.refl _)) ?_
  decide

theorem readAs_remark {root : Node} (hroot : root.Clean) (item : Item) (r : Remark) :
    ReadAs [r.fragment root item] (r.entries root item) := by
  have hlookup : (r.written root item).lookup "test" = some r.check.test.source ∧
      (r.written root item).lookup "location" = some (item.location root) := by
    unfold Remark.written
    cases r.check.id <;> cases r.check.role <;> exact ⟨rfl, rfl⟩
  have hlocation := (Item.pathText_location hroot item).valueBack
  change ReadAs [.element _ (r.written root item) _] _
  unfold Remark.entries
  cases r.check.kind with
  | assert =>
    change ReadAs _ ([_] ++ [])
    refine .element "failed-assert" (by decide) (r.areReported root item)
      (readAs_text r.text) fun start cs hcs start' => ?_
    rw [filterMap_entry_failed rfl, plain?_attributesBack rfl, plain?_attributesBack rfl,
      hlookup.1, hlookup.2, normalizeSpace_stringValue _ hcs, Option.map_some, Option.map_some,
      hlocation]
  | report =>
    change ReadAs _ ([] ++ [])
    exact .element "successful-report" (by decide) (r.areReported root item)
      (readAs_text r.text) fun _ cs _ start =>
        filterMap_entry_of_ne rfl (by decide) (by decide) cs

/-- What a report says of a rule that fired. -/
def RuleOutcome.written (o : RuleOutcome) : List (String × String) :=
  [("context", o.rule.context.source)] ++ optional "id" o.rule.id ++ optional "role" o.rule.role

theorem RuleOutcome.areReported (o : RuleOutcome) : AreReported o.written := by
  unfold AreReported RuleOutcome.written
  simp only [List.map_append, List.map_cons, List.map_nil]
  refine List.Sublist.trans (((List.Sublist.refl ["context"]).append
    (map_fst_optional "id" _)).append (map_fst_optional "role" _)) ?_
  decide

theorem readAs_ruleOutcome {root : Node} (hroot : root.Clean) (o : RuleOutcome) :
    ReadAs (o.fragments root) (o.entries root) := by
  have hlookup : o.written.lookup "context" = some o.rule.context.source ∧
      o.written.lookup "role" = o.rule.role := by
    unfold RuleOutcome.written
    cases o.rule.id <;> cases o.rule.role <;> exact ⟨rfl, rfl⟩
  have hfired : ReadAs [.element "svrl:fired-rule" o.written []]
      [.fired (valueBack o.rule.context.source) (o.rule.role.map valueBack)] := by
    change ReadAs _ ([_] ++ [])
    refine .element "fired-rule" (by decide) o.areReported .nil fun _ cs _ start => ?_
    rw [filterMap_entry_fired rfl, plain?_attributesBack rfl, plain?_attributesBack rfl,
      hlookup.1, hlookup.2]
    rfl
  unfold RuleOutcome.fragments RuleOutcome.entries
  rw [List.map_eq_flatMap]
  exact hfired.append (.flatMap fun r _ => readAs_remark hroot o.item r)

/-- What a report says of a pattern. -/
def PatternOutcome.written (o : PatternOutcome) : List (String × String) :=
  optional "id" o.pattern.id ++ optional "name" o.pattern.title

theorem PatternOutcome.areReported (o : PatternOutcome) : AreReported o.written := by
  unfold AreReported PatternOutcome.written
  rw [List.map_append]
  exact ((map_fst_optional "id" _).append (map_fst_optional "name" _)).trans (by decide)

theorem readAs_patternOutcome {root : Node} (hroot : root.Clean) (o : PatternOutcome) :
    ReadAs (o.fragments root) (o.entries root) := by
  have hactive : ReadAs [.element "svrl:active-pattern" o.written []] [] := by
    change ReadAs _ ([] ++ [])
    exact .element "active-pattern" (by decide) o.areReported .nil fun _ cs _ start =>
      filterMap_entry_of_ne rfl (by decide) (by decide) cs
  exact hactive.append (.flatMap fun r _ => readAs_ruleOutcome hroot r)

/-! ## Whole reports -/

/-- The declarations at the root of a report. -/
def reportDeclarations : List (String × String) :=
  [("xmlns:svrl", reportUri), ("xmlns:sch", ruleUri)]

/-- **The tag at the root of a report** declares what is in scope in it. -/
theorem tagBack_root (title : Option String) :
    tagBack [] 0 "svrl:schematron-output" (reportDeclarations ++ optional "title" title) =
      some (⟨"svrl", "schematron-output"⟩,
        ⟨⟨some reportUri, "schematron-output"⟩, attributesBack (optional "title" title),
          reportScope, 0⟩) := by
  have hplain : AreReported (optional "title" title) :=
    (map_fst_optional "title" title).trans (by decide)
  have hreport : valueBack reportUri = reportUri := valueBack_eq_self (by decide)
  have hrule : valueBack ruleUri = ruleUri := valueBack_eq_self (by decide)
  have hresolve := resolveAttributes_of_nodup reportScope [] hplain.nodup
  have hbind := bindAttributes_of_plain reportScope [] fun a ha => (hplain.plain a ha).2
  have hdeclared : Reader.named? reportDeclarations =
      some [(⟨"xmlns", "svrl"⟩, reportUri), (⟨"xmlns", "sch"⟩, ruleUri)] := by decide
  refine tagBack_eq_some_iff.2 ⟨by decide, _,
    named?_append hdeclared (named?_of_plain fun a ha => (hplain.plain a ha).1), reportScope,
    namedPlainly (optional "title" title), ?_, ?_⟩
  · simp only [List.map_cons, hreport, hrule, List.map_map, List.cons_append, List.nil_append]
    exact hbind
  · have huri : elementUri reportScope "svrl" = some (some reportUri) := by decide
    have hscope : scopeWithin [] reportScope = reportScope := rfl
    rw [resolveTag, if_neg (by decide)]
    simp only [hscope, huri]
    rw [show resolveAttributes reportScope [] (namedPlainly (optional "title" title)) =
      some (attributesBack (optional "title" title)) from hresolve]

theorem xmlText_optional (name : String) {value : Option String} (h : ∀ s ∈ value, XmlText s) :
    ∀ a ∈ optional name value, XmlText a.2 := by
  intro a ha
  obtain ⟨s, hs, rfl⟩ := List.mem_map.1 ha
  exact h s (Option.mem_toList.1 hs)

/-- Elements stand next to each other as they like. -/
theorem allClean_of_elements : ∀ {fs : List Fragment},
    (∀ f ∈ fs, f.Clean ∧ f.isText = false) → Fragment.AllClean fs
  | [], _ => trivial
  | f :: fs, h => by
    rw [List.forall_mem_cons] at h
    exact ⟨h.1.1, fun htext => absurd htext (by rw [h.1.2]; decide), allClean_of_elements h.2⟩

theorem Remark.Clean.fragment {root : Node} (hroot : root.Clean) (item : Item) {r : Remark}
    (h : r.Clean) : (r.fragment root item).Clean := by
  refine ⟨?_, ⟨nofun, ⟨h.text, nofun, trivial⟩⟩, nofun, trivial⟩
  simp only [List.forall_mem_append, List.forall_mem_singleton]
  exact ⟨⟨⟨h.check.test.source, xmlText_optional _ h.check.id⟩, xmlText_optional _ h.check.role⟩,
    (Item.pathText_location hroot item).xmlText⟩

theorem RuleOutcome.Clean.fragments {root : Node} (hroot : root.Clean) {o : RuleOutcome}
    (h : o.Clean) : ∀ f ∈ o.fragments root, f.Clean ∧ f.isText = false := by
  refine List.forall_mem_cons.2 ⟨⟨⟨?_, trivial⟩, rfl⟩, List.forall_mem_map.2 fun r hr =>
    ⟨(h.remarks r hr).fragment hroot o.item, rfl⟩⟩
  simp only [List.forall_mem_append, List.forall_mem_singleton]
  exact ⟨⟨h.rule.context.source, xmlText_optional _ h.rule.id⟩, xmlText_optional _ h.rule.role⟩

theorem PatternOutcome.Clean.fragments {root : Node} (hroot : root.Clean) {o : PatternOutcome}
    (h : o.Clean) : ∀ f ∈ o.fragments root, f.Clean ∧ f.isText = false := by
  refine List.forall_mem_cons.2 ⟨⟨⟨?_, trivial⟩, rfl⟩, fun f hf => ?_⟩
  · exact List.forall_mem_append.2
      ⟨xmlText_optional _ h.pattern.id, xmlText_optional _ h.pattern.title⟩
  · obtain ⟨r, hr, hf⟩ := List.mem_flatMap.1 hf
    exact (h.outcomes r hr).fragments hroot f hf

/-- A text that is well-formed is read. -/
theorem ofText_eq_ok {text : String} {root : Node} (h : Node.ofText text = some root)
    (base : Option Url) : Document.ofText text base = .ok ⟨text, base, root, h⟩ := by
  unfold Document.ofText
  split
  · case h_1 root' h' =>
    obtain rfl : root = root' := Option.some.inj (h.symm.trans h')
    rfl
  · case h_2 h' =>
    rw [h] at h'
    cases h'

/-- The tree of a document is what its text is read as. -/
theorem ofText_of_ofText_eq_ok {text : String} {base : Option Url} {d : Document}
    (h : Document.ofText text base = .ok d) : Node.ofText text = some d.root := by
  unfold Document.ofText at h
  split at h
  · case h_1 root hroot =>
    cases h
    exact hroot
  · cases h

/-- **A report is read again** as the entries of the outcomes that it was written from. -/
theorem entries_of_ofText_reportOf {rs : RuleSet} {root : Node} {outcomes : List PatternOutcome}
    (htitle : ∀ s ∈ rs.title, XmlText s) (hroot : root.Clean)
    (houtcomes : ∀ o ∈ outcomes, o.Clean) :
    ∃ report : Document, Document.ofText (reportOf rs root outcomes).render none = .ok report ∧
      entries report = outcomes.flatMap (PatternOutcome.entries root) := by
  have hdeclarations : ∀ a ∈ reportDeclarations, XmlText a.2 := by decide
  have hreport : reportOf rs root outcomes = .element "svrl:schematron-output"
    (reportDeclarations ++ optional "title" rs.title)
      (outcomes.flatMap (PatternOutcome.fragments root)) := rfl
  have hclean : (reportOf rs root outcomes).Clean := by
    refine ⟨List.forall_mem_append.2 ⟨hdeclarations, xmlText_optional _ htitle⟩,
      allClean_of_elements fun f hf => ?_⟩
    obtain ⟨o, ho, hf⟩ := List.mem_flatMap.1 hf
    exact (houtcomes o ho).fragments hroot f hf
  obtain ⟨children, hchildren, hentries⟩ :=
    ReadAs.flatMap (fun o (_ : o ∈ outcomes) => readAs_patternOutcome hroot o)
      (0 + (tagChars "svrl:schematron-output"
        (reportDeclarations ++ optional "title" rs.title)).length + 1)
  have hback : (reportOf rs root outcomes).back [] 0 = some [.element ⟨⟨some reportUri,
      "schematron-output"⟩, attributesBack (optional "title" rs.title), reportScope, 0⟩
        children] := by
    rw [hreport, Fragment.back, tagBack_root, Option.bind_eq_bind, Option.bind_some]
    dsimp only
    rw [hchildren]
    rfl
  rw [hreport] at hclean hback ⊢
  refine ⟨_, ofText_eq_ok (Fragment.ofText_render hclean hback) none, ?_⟩
  have hroot := filterMap_entry_of_ne (t := ⟨⟨some reportUri, "schematron-output"⟩,
    attributesBack (optional "title" rs.title), reportScope, 0⟩) rfl (by decide) (by decide) children
  rw [← hentries, entries]
  simp only [Node.subtree, Node.subtrees, List.append_nil]
  rw [List.filterMap_cons_none rfl, ← List.singleton_append, List.filterMap_append, hroot,
    List.nil_append]

/-! ## Findings -/

/-- **Entries find something** whatever rule fired before, and whatever follows them. -/
def Find (es : List Entry) (fs : List Finding) : Prop :=
  ∀ active, ∃ active', ∀ rest, findingsFrom active (es ++ rest) = fs ++ findingsFrom active' rest

theorem Find.flatMap {α : Type} {f : α → List Entry} {g : α → List Finding} :
    ∀ {l : List α}, (∀ a ∈ l, Find (f a) (g a)) → Find (l.flatMap f) (l.flatMap g)
  | [], _ => fun active => ⟨active, fun _ => rfl⟩
  | a :: l, h => fun active => by
    rw [List.forall_mem_cons] at h
    obtain ⟨between, hfirst⟩ := h.1 active
    obtain ⟨active', hmore⟩ := Find.flatMap h.2 between
    refine ⟨active', fun rest => ?_⟩
    rw [List.flatMap_cons, List.flatMap_cons, List.append_assoc, List.append_assoc, hfirst, hmore]

/-- A role is that of warnings exactly if it comes back as such. -/
theorem map_valueBack_eq_warning (role : Option String) :
    (role.map valueBack != some warningRole) = (role != some warningRole) := by
  rw [Bool.eq_iff_iff, bne_iff_ne, bne_iff_ne, not_iff_not]
  cases role with
  | none => exact Iff.rfl
  | some r =>
    rw [Option.map_some, Option.some_inj, Option.some_inj]
    exact eq_valueBack_iff (by decide) (by decide)

/-- What follows a rule that fired belongs to this rule. -/
theorem findingsFrom_remarks (root : Node) (rule : Rule) (item : Item) (rest : List Entry) :
    ∀ remarks : List Remark,
      findingsFrom (some (valueBack rule.context.source, rule.role.map valueBack))
          (remarks.flatMap (Remark.entries root item) ++ rest) =
        remarks.flatMap (Remark.findings root rule item) ++
          findingsFrom (some (valueBack rule.context.source, rule.role.map valueBack)) rest
  | [] => rfl
  | r :: remarks => by
    have ih := findingsFrom_remarks root rule item rest remarks
    rw [List.flatMap_cons, List.flatMap_cons, List.append_assoc, List.append_assoc, ← ih]
    unfold Remark.entries Remark.findings
    cases r.check.kind with
    | assert =>
      rw [List.singleton_append, List.singleton_append, findingsFrom, findingOf,
        ← map_valueBack_eq_warning rule.role]
      rfl
    | report => rfl

theorem find_ruleOutcome (root : Node) (o : RuleOutcome) :
    Find (o.entries root) (o.findings root) :=
  fun _ => ⟨_, fun rest => findingsFrom_remarks root o.rule o.item rest o.remarks⟩

/-- **The findings of a report are those of the outcomes** that it was written from. -/
theorem findings_flatMap_entries (root : Node) (outcomes : List PatternOutcome) :
    findings (outcomes.flatMap (PatternOutcome.entries root)) =
      outcomes.flatMap (PatternOutcome.findings root) := by
  have h : Find (outcomes.flatMap (PatternOutcome.entries root))
      (outcomes.flatMap (PatternOutcome.findings root)) :=
    .flatMap fun o _ => .flatMap fun r _ => find_ruleOutcome root r
  obtain ⟨active, h⟩ := h none
  have hall := h []
  rw [List.append_nil, findingsFrom, List.append_nil] at hall
  exact hall

end Rules

end XmlConformance
