import XmlConformance.Proofs.Path.Indexing
import XmlConformance.Proofs.Rules.Running

/-!
# Proofs/Rules/Isolation — what a pattern says does not depend on the others

The patterns of a rule set are applied one after the other, and pass on the indexes of keys that
were built. An index is built with the variables at the first use of its key. As long as no pattern
binds a variable that the definitions of keys read (`Pattern.Spares`), this does not matter: what a
pattern says is what it says when it is alone (`RuleSet.outcomes_alone`), and a report is put
together from what the report of each pattern alone holds (`RuleSet.text_run`).
-/

namespace XmlConformance.Rules

open Xml XmlConformance.Path

/-! ## Variables that are spared -/

/-- Bindings do not bind any of some variables. -/
def SparesAll (names : List String) (bindings : List Binding) : Prop :=
  ∀ b ∈ bindings, b.variableName ∉ names

/-- **A pattern spares some variables**: neither it nor a rule of it binds any of them. -/
structure Pattern.Spares (names : List String) (p : Pattern) : Prop where
  bindings : SparesAll names p.bindings
  rules : ∀ rule ∈ p.rules, SparesAll names rule.bindings

namespace Scene

variable {s : Scene} {given vars : Variables} {start : Indexes} {item : Item}

/-- Bindings keep the values of the variables that they spare. -/
theorem sameOn_of_bindAll {names : List String} :
    ∀ {bindings : List Binding} {vars vars' : Variables}
    {indexes rest : Indexes}, s.bindAll item bindings vars indexes = .ok (vars', rest) →
      SparesAll names bindings → SameOn names vars' vars
  | [], vars, _, _, _, h, _ => by
    cases h
    exact .refl names vars
  | b :: bindings, vars, vars', indexes, rest, h, hspares => by
    rw [SparesAll, List.forall_mem_cons] at hspares
    obtain ⟨⟨value, between⟩, -, h⟩ := bind_eq_ok.1 h
    exact (sameOn_of_bindAll h hspares.2).trans (sameOn_cons hspares.1 value vars)

/-! ## What a pattern does can be repeated -/

section Each

variable {α β : Type} {C : Indexes → Prop} {f : α → Run β}

theorem repeatable_each : ∀ {l : List α}, (∀ a ∈ l, Repeatable C (f a)) → Repeatable C (each f l)
  | [], _ => .ended []
  | a :: l, h => by
    rw [List.forall_mem_cons] at h
    exact h.1.next fun _ _ _ _ => (repeatable_each h.2).next fun _ _ _ _ => .ended _

/-- Every result of going through a list comes from a member. -/
theorem mem_of_each : ∀ {l : List α} {bs : List β} {indexes rest : Indexes},
    each f l indexes = .ok (bs, rest) →
      ∀ b ∈ bs, ∃ a ∈ l, ∃ before after, f a before = .ok (b, after)
  | [], _, _, _, h => by
    cases h
    exact nofun
  | a :: l, bs, indexes, rest, h => by
    obtain ⟨⟨b, between⟩, hb, h⟩ := bind_eq_ok.1 h
    obtain ⟨⟨more, end'⟩, hmore, h⟩ := bind_eq_ok.1 h
    cases h
    refine List.forall_mem_cons.2 ⟨⟨a, List.mem_cons_self, indexes, between, hb⟩, fun b' hb' => ?_⟩
    obtain ⟨a', ha', hgives⟩ := mem_of_each hmore b' hb'
    exact ⟨a', List.mem_cons_of_mem a ha', hgives⟩

end Each

theorem repeatable_evaluate (h : SameOn s.keys.reads vars given) (e : Expression) :
    Repeatable (Continues s.root given s.keys start) (e.evaluate s.root s.keys vars item) :=
  e.repeatable_evaluate h start item

theorem repeatable_evaluateBoolean (h : SameOn s.keys.reads vars given) (e : Expression) :
    Repeatable (Continues s.root given s.keys start)
      (e.evaluateBoolean s.root s.keys vars item) := by
  refine (repeatable_evaluate h e).next fun items _ _ _ => ?_
  dsimp only
  split
  · exact .ended _
  · exact .throw _

theorem repeatable_evaluateString (h : SameOn s.keys.reads vars given) (e : Expression) :
    Repeatable (Continues s.root given s.keys start) (e.evaluateString s.root s.keys vars item) :=
  (repeatable_evaluate h e).next fun _ _ _ _ => .ended _

theorem repeatable_valueOf (h : SameOn s.keys.reads vars given) (v : Value) :
    Repeatable (Continues s.root given s.keys start) (s.valueOf vars item v) := by
  cases v with
  | expression e => exact repeatable_evaluate h e
  | literal text => exact .ended _

theorem repeatable_bindAll : ∀ {bindings : List Binding} {vars : Variables},
    SparesAll s.keys.reads bindings → SameOn s.keys.reads vars given →
      Repeatable (Continues s.root given s.keys start) (s.bindAll item bindings vars)
  | [], _, _, _ => .ended _
  | b :: bindings, vars, hspares, h => by
    rw [SparesAll, List.forall_mem_cons] at hspares
    exact (repeatable_valueOf h b.value).next fun value _ _ _ =>
      repeatable_bindAll hspares.2 ((sameOn_cons hspares.1 value vars).trans h)

theorem repeatable_partText (h : SameOn s.keys.reads vars given) (part : MessagePart) :
    Repeatable (Continues s.root given s.keys start) (s.partText vars item part) := by
  match part with
  | .text t => exact .ended _
  | .valueOf e => exact repeatable_evaluateString h e
  | .nameOf none => exact .ended _
  | .nameOf (some e) => exact (repeatable_evaluate h e).next fun _ _ _ _ => .ended _

theorem repeatable_messageText (h : SameOn s.keys.reads vars given) (parts : List MessagePart) :
    Repeatable (Continues s.root given s.keys start) (s.messageText vars item parts) :=
  (repeatable_each fun part _ => repeatable_partText h part).next fun _ _ _ _ => .ended _

theorem repeatable_remark? (h : SameOn s.keys.reads vars given) (c : Check) :
    Repeatable (Continues s.root given s.keys start) (s.remark? vars item c) := by
  refine (repeatable_evaluateBoolean h c.test).next fun holds _ _ _ => ?_
  cases hsaid : holds == (c.kind == .report) with
  | true =>
    simp only [hsaid, if_true]
    exact (repeatable_messageText h c.message).next fun text _ _ _ =>
      .ended (some (⟨c, text⟩ : Remark))
  | false =>
    simp only [hsaid, Bool.false_eq_true, if_false]
    exact .ended none

theorem repeatable_ruleOutcome (h : SameOn s.keys.reads vars given) {firing : Item × Rule}
    (hspares : SparesAll s.keys.reads firing.2.bindings) :
    Repeatable (Continues s.root given s.keys start) (s.ruleOutcome vars firing) := by
  refine (repeatable_bindAll hspares h).next fun vars' _ _ hvars' => ?_
  have hsame : SameOn s.keys.reads vars' given := (sameOn_of_bindAll hvars' hspares).trans h
  exact (repeatable_each fun c _ => repeatable_remark? hsame c).next fun _ _ _ _ => .ended _

theorem repeatable_selections (h : SameOn s.keys.reads vars given) (rule : Rule) :
    Repeatable (Continues s.root given s.keys start) (s.selections vars rule) :=
  (repeatable_evaluate h rule.context).next fun _ _ _ _ => .ended _

theorem repeatable_firings (h : SameOn s.keys.reads vars given) (rules : List Rule) :
    Repeatable (Continues s.root given s.keys start) (s.firings vars rules) :=
  (repeatable_each fun rule _ => repeatable_selections h rule).next fun _ _ _ _ => .ended _

/-- Only rules of a pattern fire. -/
theorem rule_mem_of_firings {rules : List Rule} {fs : List (Item × Rule)} {indexes rest : Indexes}
    (h : s.firings vars rules indexes = .ok (fs, rest)) : ∀ f ∈ fs, f.2 ∈ rules := by
  obtain ⟨⟨found, between⟩, hfound, h⟩ := bind_eq_ok.1 h
  cases h
  intro f hf
  obtain ⟨selected, hselected, hf⟩ :=
    List.mem_flatten.1 (List.mem_of_find?_eq_some (mem_firstOfEach.1 hf))
  obtain ⟨rule, hrule, before, after, hgives⟩ := mem_of_each hfound selected hselected
  obtain ⟨⟨items, _⟩, -, hgives⟩ := bind_eq_ok.1 hgives
  cases hgives
  obtain ⟨item, -, rfl⟩ := List.mem_map.1 hf
  exact hrule

/-- **What a pattern says** does not depend on which indexes were built. -/
theorem repeatable_patternOutcome {p : Pattern} (hp : p.Spares s.keys.reads) :
    Repeatable (Continues s.root given s.keys start) (s.patternOutcome given p) := by
  refine (repeatable_bindAll hp.bindings (.refl _ _)).next fun vars _ _ hvars => ?_
  have hsame : SameOn s.keys.reads vars given := sameOn_of_bindAll hvars hp.bindings
  refine (repeatable_firings hsame p.rules).next fun fs _ _ hfs => ?_
  refine (repeatable_each fun f hf => ?_).next fun _ _ _ _ => .ended _
  exact repeatable_ruleOutcome hsame (hp.rules f.2 (rule_mem_of_firings hfs f hf))

/-- Going through a list gives for each member what the member gives at the start. -/
theorem forall₂_of_each {α β : Type} {f : α → Run β} {C : Indexes → Prop} (hstart : C start) :
    ∀ {l : List α} {bs : List β} {indexes rest : Indexes}, (∀ a ∈ l, Repeatable C (f a)) →
      C indexes → each f l indexes = .ok (bs, rest) →
        List.Forall₂ (fun a b => ∃ after, f a start = .ok (b, after)) l bs
  | [], _, _, _, _, _, h => by
    cases h
    exact .nil
  | a :: l, bs, indexes, rest, hl, hindexes, h => by
    rw [List.forall_mem_cons] at hl
    obtain ⟨⟨b, between⟩, hb, h⟩ := bind_eq_ok.1 h
    obtain ⟨⟨more, end'⟩, hmore, h⟩ := bind_eq_ok.1 h
    cases h
    obtain ⟨e, he, -⟩ | ⟨b', rest', after, hb', hafter, hrest', -⟩ :=
      hl.1 indexes start hindexes hstart
    · cases he.symm.trans hb
    · cases hb.symm.trans hb'
      exact .cons ⟨after, hafter⟩ (forall₂_of_each hstart hl.2 hrest' hmore)

theorem pattern_of_patternOutcome {p : Pattern} {o : PatternOutcome} {indexes rest : Indexes}
    (h : s.patternOutcome vars p indexes = .ok (o, rest)) : o.pattern = p := by
  obtain ⟨_, -, h⟩ := bind_eq_ok.1 h
  obtain ⟨_, -, h⟩ := bind_eq_ok.1 h
  obtain ⟨_, -, h⟩ := bind_eq_ok.1 h
  cases h
  rfl

end Scene

/-! ## Patterns alone -/

namespace RuleSet

/-- A rule set with other patterns. -/
def withPatterns (rs : RuleSet) (ps : List Pattern) : RuleSet := { rs with patterns := ps }

variable {rs : RuleSet} {parameters : List (String × String)} {ps : List Pattern}

/-- **What a pattern says among others it says alone.** -/
theorem outcomes_alone {root : Node} (hps : ∀ p ∈ ps, p.Spares rs.keys.reads)
    {os : List PatternOutcome} (h : (rs.withPatterns ps).outcomes parameters root = .ok os) :
    List.Forall₂ (fun p o => o.pattern = p ∧
      (rs.withPatterns [p]).outcomes parameters root = .ok [o]) ps os := by
  obtain ⟨⟨given, start⟩, hgiven, h⟩ := bind_eq_ok.1 h
  obtain ⟨⟨found, rest⟩, hfound, h⟩ := bind_eq_ok.1 h
  cases h
  let s : Scene := ⟨root, rs.keys⟩
  have hstart : Continues s.root given s.keys start start := .refl start
  refine (Scene.forall₂_of_each hstart (f := s.patternOutcome given)
    (fun p hp => Scene.repeatable_patternOutcome (hps p hp)) hstart hfound).imp ?_
  rintro p o ⟨after, hafter⟩
  refine ⟨Scene.pattern_of_patternOutcome hafter, ?_⟩
  have heach : Scene.each (s.patternOutcome given) [p] start = .ok ([o], after) := by
    rw [Scene.each, hafter]
    rfl
  exact bind_eq_ok.2 ⟨(given, start), hgiven, bind_eq_ok.2 ⟨([o], after), heach, rfl⟩⟩

/-! ## The parts of a report -/

/-- **The part of a report that belongs to a pattern**: what the report holds if the pattern is
alone. -/
def part (rs : RuleSet) (parameters : List (String × String)) (root : Node) (p : Pattern) :
    List Fragment :=
  match (rs.withPatterns [p]).outcomes parameters root with
  | .ok os => os.flatMap (PatternOutcome.fragments root)
  | .error _ => []

/-- The elements of a report that stand behind the one of a pattern, up to the next pattern. -/
def followers : List String :=
  ["svrl:fired-rule", "svrl:failed-assert", "svrl:successful-report"]

/-- An element of a report is not the one of a pattern. -/
def Follows (f : Fragment) : Prop :=
  ∃ name attributes content, f = .element name attributes content ∧ name ∈ followers

theorem follows_of_mem_fragments {root : Node} {o : RuleOutcome} {f : Fragment}
    (hf : f ∈ o.fragments root) : Follows f := by
  obtain rfl | hf := List.mem_cons.1 hf
  · exact ⟨_, _, _, rfl, by decide⟩
  · obtain ⟨r, -, rfl⟩ := List.mem_map.1 hf
    have helement : ∀ kind : CheckKind, kind.element ∈ followers := by
      intro kind
      cases kind <;> decide
    exact ⟨_, _, _, rfl, helement r.check.kind⟩

/-- A part of a report begins with the element of its pattern, and no other pattern begins in it. -/
def IsPartOf (p : Pattern) (part : List Fragment) : Prop :=
  ∃ behind, part = .element "svrl:active-pattern"
    (optional "id" p.id ++ optional "name" p.title) [] :: behind ∧ ∀ f ∈ behind, Follows f

theorem isPartOf_fragments (root : Node) (o : PatternOutcome) :
    IsPartOf o.pattern (o.fragments root) := by
  refine ⟨o.outcomes.flatMap (RuleOutcome.fragments root), rfl, fun f hf => ?_⟩
  obtain ⟨r, -, hf⟩ := List.mem_flatMap.1 hf
  exact follows_of_mem_fragments hf

/-- What the patterns say makes the parts of the report, one by one. -/
theorem flatMap_part {root : Node} {os : List PatternOutcome}
    (h : List.Forall₂ (fun p o => o.pattern = p ∧
      (rs.withPatterns [p]).outcomes parameters root = .ok [o]) ps os) :
    ps.flatMap (rs.part parameters root) = os.flatMap (PatternOutcome.fragments root) ∧
      ∀ p ∈ ps, IsPartOf p (rs.part parameters root p) := by
  induction h with
  | nil => exact ⟨rfl, nofun⟩
  | @cons p o ps os hpo _ ih =>
    have hpart : rs.part parameters root p = o.fragments root := by
      rw [part, hpo.2]
      exact List.append_nil _
    rw [List.flatMap_cons, List.flatMap_cons, hpart, ih.1]
    refine ⟨rfl, List.forall_mem_cons.2 ⟨?_, ih.2⟩⟩
    rw [hpart, ← hpo.1]
    exact isPartOf_fragments root o

/-- **A report is put together from the parts of its patterns**, each of which is what it is if the
pattern is alone: it does not depend on which other patterns there are, nor on their order. -/
theorem text_run {d report : Document} (hps : ∀ p ∈ ps, p.Spares rs.keys.reads)
    (h : (rs.withPatterns ps).run parameters d = .ok report) :
    report.text = (Fragment.element "svrl:schematron-output"
      ([("xmlns:svrl", reportUri), ("xmlns:sch", ruleUri)] ++ optional "title" rs.title)
      (ps.flatMap (rs.part parameters d.root))).render ∧
    ∀ p ∈ ps, IsPartOf p (rs.part parameters d.root p) := by
  obtain ⟨os, hos, h⟩ := bind_eq_ok.1 h
  have htext : report.text = (reportOf (rs.withPatterns ps) d.root os).render := by
    unfold Document.ofText at h
    split at h
    · cases h
      rfl
    · cases h
  obtain ⟨hparts, hbegins⟩ := flatMap_part (outcomes_alone hps hos)
  refine ⟨?_, hbegins⟩
  rw [htext, hparts]
  rfl

/-! ## A variable that a key reads -/

/-- A run of rules that can be written has a report if the evaluation of the rules succeeds. -/
theorem exists_run_eq_ok {d : Document} {os : List PatternOutcome} (hrs : rs.Clean)
    (hroot : d.root.Clean) (hparameters : ∀ p ∈ parameters, XmlText p.2)
    (h : rs.outcomes parameters d.root = .ok os) : ∃ report, rs.run parameters d = .ok report := by
  obtain ⟨e, he, -⟩ | ⟨os', hos', -, hclean⟩ := findings_outcomes hrs hroot hparameters
  · cases he.symm.trans h
  · obtain ⟨report, hreport, -⟩ := entries_of_ofText_reportOf hrs.title hroot hclean
    exact ⟨report, bind_eq_ok.2 ⟨os', hos', hreport⟩⟩

/-- The root element, if its name is `a`. -/
def elementA : Expression := ⟨"/a", .slash .root (.step .child (.name none "a") [])⟩

/-- The key `k` finds the element `a` by the value of the variable `x`. -/
def keysOfX : Keys := [("k", ⟨elementA, ⟨"$x", .var "x"⟩⟩)]

/-- The variable `x` has a text as its value. -/
def bindX (text : String) : Binding := ⟨"x", .expression ⟨"'" ++ text ++ "'", .literal text⟩⟩

/-- The element `a` has to be found by the key `k`. -/
def ruleOfKey (text : String) : Rule where
  context := elementA
  id := none
  role := none
  bindings := []
  checks := [⟨.assert, ⟨"key('k', '" ++ text ++ "')", .call .key [.literal "k", .literal text]⟩,
    none, none, [.text text]⟩]

/-- A pattern that looks for a text with the key `k`. -/
def patternOfKey (bindings : List Binding) (text : String) : Pattern :=
  ⟨none, none, bindings, [ruleOfKey text]⟩

/-- The variable that the key reads is a variable of the schema. -/
def sharedX : RuleSet :=
  ⟨none, keysOfX, [bindX "1"], [patternOfKey [] "1", patternOfKey [] "2"]⟩

/-- Every pattern binds the variable that the key reads for itself. -/
def ownX : RuleSet :=
  ⟨none, keysOfX, [], [patternOfKey [bindX "1"] "1", patternOfKey [bindX "2"] "2"]⟩

/-- A document that consists of an element `a`. -/
def elementDocument : Document := documentOf "<a/>" (by decide +kernel)

theorem clean_elementA : elementA.Clean where
  source := by decide
  body := by simp [elementA, Expr.Clean, Expr.AllClean]

theorem clean_keysOfX : keysOfX.Clean := by
  refine List.forall_mem_singleton.2 ⟨clean_elementA, by decide, ?_⟩
  simp [Expr.Clean]

theorem clean_bindX {text : String} (h : XmlText text) : (bindX text).value.Clean := by
  have hquote : XmlText "'" := by decide
  refine ⟨(hquote.append h).append hquote, ?_⟩
  simpa [Expr.Clean] using h

theorem clean_ruleOfKey {text : String} (h : XmlText text) : (ruleOfKey text).Clean where
  context := clean_elementA
  id := nofun
  role := nofun
  bindings := nofun
  checks := by
    have hcall : XmlText "key('k', '" := by decide
    have hend : XmlText "')" := by decide
    have hk : XmlText "k" := by decide
    refine List.forall_mem_singleton.2 ⟨⟨(hcall.append h).append hend, ?_⟩, nofun, nofun,
      List.forall_mem_singleton.2 h⟩
    simp [Expr.Clean, Expr.AllClean, h, hk]

theorem cleanBindings_nil : CleanBindings [] := List.forall_mem_nil _

theorem clean_patternOfKey {bindings : List Binding} (hbindings : CleanBindings bindings)
    {text : String} (h : XmlText text) : (patternOfKey bindings text).Clean :=
  ⟨nofun, nofun, hbindings, List.forall_mem_singleton.2 (clean_ruleOfKey h)⟩

/-- The rules of these patterns can be written, so that only their evaluation can fail. -/
theorem exists_run_of_keysOfX {bindings : List Binding} (hbindings : CleanBindings bindings)
    (hps : ∀ p ∈ ps, p.Clean) {os : List PatternOutcome}
    (h : outcomes ⟨none, keysOfX, bindings, ps⟩ [] elementDocument.root = .ok os) :
    ∃ report, run ⟨none, keysOfX, bindings, ps⟩ [] elementDocument = .ok report := by
  have hd : XmlText elementDocument.text := by decide
  exact exists_run_eq_ok ⟨nofun, clean_keysOfX, hbindings, hps⟩ (clean_root hd) nofun h

/-- **Patterns that share what a key reads** may be reordered. -/
theorem text_run_sharedX : ∃ report,
    (∀ p ∈ sharedX.patterns.reverse, p.Spares sharedX.keys.reads) ∧
    (sharedX.withPatterns sharedX.patterns.reverse).run [] elementDocument = .ok report ∧
    report.text = (Fragment.element "svrl:schematron-output"
      ([("xmlns:svrl", reportUri), ("xmlns:sch", ruleUri)] ++ optional "title" sharedX.title)
      (sharedX.patterns.reverse.flatMap (sharedX.part [] elementDocument.root))).render ∧
    ∀ p ∈ sharedX.patterns.reverse, IsPartOf p (sharedX.part [] elementDocument.root p) := by
  have hevaluated : ((sharedX.withPatterns sharedX.patterns.reverse).outcomes []
      elementDocument.root).toOption.any (fun _ => true) = true := by decide +kernel
  obtain ⟨os, hos, -⟩ := exists_of_any_toOption hevaluated
  have hclean : ∀ p ∈ [patternOfKey [] "2", patternOfKey [] "1"], p.Clean := by
    simp only [List.forall_mem_cons]
    exact ⟨clean_patternOfKey cleanBindings_nil (by decide),
      clean_patternOfKey cleanBindings_nil (by decide), nofun⟩
  have hspares : ∀ p ∈ sharedX.patterns.reverse, p.Spares sharedX.keys.reads := by
    have hspares : ∀ text, (patternOfKey [] text).Spares sharedX.keys.reads := fun text =>
      ⟨nofun, List.forall_mem_singleton.2 nofun⟩
    exact List.forall_mem_cons.2 ⟨hspares "2", List.forall_mem_singleton.2 (hspares "1")⟩
  obtain ⟨report, hreport⟩ := exists_run_of_keysOfX
    (List.forall_mem_singleton.2 (clean_bindX (by decide))) hclean hos
  exact ⟨report, hspares, hreport, text_run hspares hreport⟩

/-- **Patterns that bind what a key reads** do not say what they say alone: the second part of the
report is not the part of the second pattern. -/
theorem part_ownX_ne : ∃ p q os os' report report', ownX.patterns = [p, q] ∧
    ownX.outcomes [] elementDocument.root = .ok os ∧
    ownX.run [] elementDocument = .ok report ∧
    (ownX.withPatterns [q]).outcomes [] elementDocument.root = .ok os' ∧
    (ownX.withPatterns [q]).run [] elementDocument = .ok report' ∧
    (os.map (PatternOutcome.fragments elementDocument.root))[1]? ≠
      (os'.map (PatternOutcome.fragments elementDocument.root))[0]? := by
  have hevaluated : (ownX.outcomes [] elementDocument.root).toOption.any (fun os =>
      os.map (fun o => (o.fragments elementDocument.root).length) == [2, 3]) = true := by
    decide +kernel
  have halone : ((ownX.withPatterns [patternOfKey [bindX "2"] "2"]).outcomes []
      elementDocument.root).toOption.any (fun os =>
        os.map (fun o => (o.fragments elementDocument.root).length) == [2]) = true := by
    decide +kernel
  obtain ⟨os, hos, hlength⟩ := exists_of_any_toOption hevaluated
  obtain ⟨os', hos', hlength'⟩ := exists_of_any_toOption halone
  have hclean (text : String) (h : XmlText text) : (patternOfKey [bindX text] text).Clean :=
    clean_patternOfKey (List.forall_mem_singleton.2 (clean_bindX h)) h
  have hq : ∀ p ∈ [patternOfKey [bindX "2"] "2"], p.Clean :=
    List.forall_mem_singleton.2 (hclean "2" (by decide))
  have hps : ∀ p ∈ ownX.patterns, p.Clean :=
    List.forall_mem_cons.2 ⟨hclean "1" (by decide), hq⟩
  obtain ⟨report, hreport⟩ := exists_run_of_keysOfX cleanBindings_nil hps hos
  obtain ⟨report', hreport'⟩ := exists_run_of_keysOfX cleanBindings_nil hq hos'
  refine ⟨_, _, os, os', report, report', rfl, hos, hreport, hos', hreport', fun h => ?_⟩
  have hlengths := congrArg (Option.map List.length) h
  rw [← List.getElem?_map, ← List.getElem?_map, List.map_map, List.map_map] at hlengths
  have hfirst : os.map (List.length ∘ PatternOutcome.fragments elementDocument.root) = [2, 3] :=
    eq_of_beq hlength
  have hsecond : os'.map (List.length ∘ PatternOutcome.fragments elementDocument.root) = [2] :=
    eq_of_beq hlength'
  rw [hfirst, hsecond] at hlengths
  cases hlengths

end RuleSet

end XmlConformance.Rules
