import XmlConformance.Proofs.Rules.Compiling
import XmlConformance.Proofs.Rules.Firing
import XmlConformance.Proofs.Xml.Reading
import XmlConformance.Rules.Report

/-!
# Proofs/Rules/Findings — findings without a report

What a rule set finds in a document can be said without a report (`RuleSet.findingsIn`): pattern by
pattern, a walk through the document asks at every node and attribute for the first rule whose
context selects it, and every assertion of that rule whose test is false is a finding. Here a run of
the rule set is compared with that (`RuleSet.findings_outcomes`). Both evaluate the same expressions
in the same order, so they fail alike (`Agree`).
-/

namespace XmlConformance.Rules

open Xml XmlConformance.Path

/-! ## The findings of a rule set -/

/-- The finding that the test of a check of a rule is false for an item. A report holds expressions
as values of attributes, in which a tab and a carriage return do not survive. -/
def findingOf (root : Node) (rule : Rule) (item : Item) (c : Check) (text : String) : Finding where
  isError := rule.role != some warningRole
  context := some (valueBack rule.context.source)
  test := some (valueBack c.test.source)
  location := some (item.location root)
  text := Text.normalizeSpace text

namespace Scene

/-- What the context of a rule selects. -/
def selected (s : Scene) (vars : Variables) (rule : Rule) : Run (Rule × Sequence) :=
  fun indexes => do
    let (items, indexes) ← rule.context.evaluate s.root s.keys vars (.node []) indexes
    return ((rule, items), indexes)

/-- What a check of a rule finds at an item. A report that speaks up finds nothing, but has to have
a message. -/
def checkFindings (s : Scene) (vars : Variables) (rule : Rule) (item : Item) (c : Check) :
    Run (List Finding) := fun indexes => do
  let (holds, indexes) ← c.test.evaluateBoolean s.root s.keys vars item indexes
  match c.kind, holds with
  | .assert, false =>
    let (text, indexes) ← s.messageText vars item c.message indexes
    return ([findingOf s.root rule item c text], indexes)
  | .report, true =>
    let (_, indexes) ← s.messageText vars item c.message indexes
    return ([], indexes)
  | .assert, true | .report, false => return ([], indexes)

/-- What a rule finds at an item on which it fires. -/
def ruleFindings (s : Scene) (vars : Variables) (firing : Item × Rule) : Run (List Finding) :=
  fun indexes => do
    let (item, rule) := firing
    let (vars, indexes) ← s.bindAll item rule.bindings vars indexes
    let (found, indexes) ← each (s.checkFindings vars rule item) rule.checks indexes
    return (found.flatten, indexes)

/-- What a pattern finds. -/
def patternFindings (s : Scene) (vars : Variables) (p : Pattern) : Run (List Finding) :=
  fun indexes => do
    let (vars, indexes) ← s.bindAll (.node []) p.bindings vars indexes
    let (selected, indexes) ← each (s.selected vars) p.rules indexes
    let (found, indexes) ← each (s.ruleFindings vars) (firingsAlong s.root selected) indexes
    return (found.flatten, indexes)

end Scene

/-- **What a rule set finds in a document**, pattern by pattern. -/
def RuleSet.findingsIn (rs : RuleSet) (parameters : List (String × String)) (root : Node) :
    Except Failure (List Finding) := do
  let s : Scene := ⟨root, rs.keys⟩
  let given : Variables := parameters.map fun (name, value) => (name, [.string value])
  let (vars, indexes) ← s.bindAll (.node []) rs.bindings given []
  let (found, _) ← Scene.each (s.patternFindings vars) rs.patterns indexes
  return found.flatten

/-! ## What the outcomes of a run find -/

/-- What a remark finds: only assertions find something. -/
def Remark.findings (root : Node) (rule : Rule) (item : Item) (r : Remark) : List Finding :=
  match r.check.kind with
  | .assert => [findingOf root rule item r.check r.text]
  | .report => []

def RuleOutcome.findings (root : Node) (o : RuleOutcome) : List Finding :=
  o.remarks.flatMap (Remark.findings root o.rule o.item)

def PatternOutcome.findings (root : Node) (o : PatternOutcome) : List Finding :=
  o.outcomes.flatMap (RuleOutcome.findings root)

/-- A remark that can be written. -/
structure Remark.Clean (r : Remark) : Prop where
  check : r.check.Clean
  text : XmlText r.text

/-- What a rule has to say, if it can be written. -/
structure RuleOutcome.Clean (o : RuleOutcome) : Prop where
  rule : o.rule.Clean
  remarks : ∀ r ∈ o.remarks, r.Clean

/-- What a pattern has to say, if it can be written. -/
structure PatternOutcome.Clean (o : PatternOutcome) : Prop where
  pattern : o.pattern.Clean
  outcomes : ∀ r ∈ o.outcomes, r.Clean

/-! ## Runs that agree -/

section Agree

variable {root : Node} {α β γ δ : Type}

/-- **Two runs agree**: from sound indexes both fail alike, or both end with related results and the
same indexes, which are sound. -/
def Agree (root : Node) (R : α → β → Prop) (x : Run α) (y : Run β) : Prop :=
  ∀ indexes, SoundIndexes root indexes →
    (∃ e, x indexes = .error e ∧ y indexes = .error e) ∨
      ∃ a b rest, x indexes = .ok (a, rest) ∧ y indexes = .ok (b, rest) ∧ R a b ∧
        SoundIndexes root rest

namespace Agree

variable {R : α → β → Prop} {Q : γ → δ → Prop}

theorem of_gives {P : α → Prop} {x : Run α} (h : Gives root P x) :
    Agree root (fun a b => a = b ∧ P a) x x := by
  intro indexes hindexes
  cases hx : x indexes with
  | error e => exact .inl ⟨e, rfl, rfl⟩
  | ok r =>
    obtain ⟨ha, hrest⟩ := h indexes hindexes r.1 r.2 hx
    exact .inr ⟨r.1, r.1, r.2, rfl, rfl, ⟨rfl, ha⟩, hrest⟩

theorem next {x : Run α} {y : Run β} {f : α × Indexes → Except Failure (γ × Indexes)}
    {g : β × Indexes → Except Failure (δ × Indexes)} (h : Agree root R x y)
    (hfg : ∀ a b, R a b →
      Agree root Q (fun indexes => f (a, indexes)) fun indexes => g (b, indexes)) :
    Agree root Q (fun indexes => x indexes >>= f) fun indexes => y indexes >>= g := by
  intro indexes hindexes
  obtain ⟨e, hx, hy⟩ | ⟨a, b, rest, hx, hy, hab, hrest⟩ := h indexes hindexes
  · exact .inl ⟨e, by simp [hx], by simp [hy]⟩
  · simp only [hx, hy, ok_bind]
    exact hfg a b hab rest hrest

/-- A run that goes on with what an evaluation gives agrees with one that goes on with the same. -/
theorem next_same {P : α → Prop} {x : Run α} {f : α × Indexes → Except Failure (γ × Indexes)}
    {g : α × Indexes → Except Failure (δ × Indexes)} (h : Gives root P x)
    (hfg : ∀ a, P a →
      Agree root Q (fun indexes => f (a, indexes)) fun indexes => g (a, indexes)) :
    Agree root Q (fun indexes => x indexes >>= f) fun indexes => x indexes >>= g := by
  refine (of_gives h).next ?_
  rintro a b ⟨rfl, ha⟩
  exact hfg a ha

theorem ended {a : α} {b : β} (h : R a b) :
    Agree root R (fun indexes => .ok (a, indexes)) fun indexes => .ok (b, indexes) :=
  fun indexes hindexes => .inr ⟨a, b, indexes, rfl, rfl, h, hindexes⟩

theorem each {ι : Type} {f : ι → Run α} {g : ι → Run β} : ∀ {l : List ι},
    (∀ i ∈ l, Agree root R (f i) (g i)) →
      Agree root (List.Forall₂ R) (Scene.each f l) (Scene.each g l)
  | [], _ => .ended .nil
  | i :: l, h => by
    rw [List.forall_mem_cons] at h
    exact h.1.next fun a b hab => (each h.2).next fun as bs habs => .ended (.cons hab habs)

end Agree

theorem gives_each {ι : Type} {P : α → Prop} {f : ι → Run α} : ∀ {l : List ι},
    (∀ i ∈ l, Gives root P (f i)) → Gives root (fun as => ∀ a ∈ as, P a) (Scene.each f l)
  | [], _ => .ended nofun
  | i :: l, h => by
    rw [List.forall_mem_cons] at h
    exact h.1.next fun a ha => (gives_each h.2).next fun as has =>
      .ended (List.forall_mem_cons.2 ⟨ha, has⟩)

end Agree

/-! ## A run and its findings -/

/-- A scene that can be written. -/
structure Scene.Clean (s : Scene) : Prop where
  root : s.root.Clean
  keys : Keys.Clean s.keys

/-- Variables with sound values. -/
def SoundVariables (root : Node) (vars : Variables) : Prop :=
  ∀ named ∈ vars, AllSound root named.2

namespace Scene

variable {s : Scene} {vars : Variables} {item : Item}

theorem gives_valueOf (hs : s.Clean) (hvars : SoundVariables s.root vars)
    (hitem : item.Sound s.root) {v : Value} (hv : v.Clean) :
    Gives s.root (AllSound s.root) (s.valueOf vars item v) := by
  cases v with
  | expression e => exact Expression.gives_evaluate hv hs.root hs.keys hvars hitem
  | literal text => exact .ended (.one hv)

theorem gives_bindAll (hs : s.Clean) (hitem : item.Sound s.root) :
    ∀ {bindings : List Binding} {vars : Variables}, CleanBindings bindings →
      SoundVariables s.root vars →
        Gives s.root (SoundVariables s.root) (s.bindAll item bindings vars)
  | [], _, _, hvars => .ended hvars
  | b :: rest, vars, hbindings, hvars => by
    rw [CleanBindings, List.forall_mem_cons] at hbindings
    exact (gives_valueOf hs hvars hitem hbindings.1).next fun value hvalue =>
      gives_bindAll hs hitem hbindings.2 (List.forall_mem_cons.2 ⟨hvalue, hvars⟩)

theorem gives_partText (hs : s.Clean) (hvars : SoundVariables s.root vars)
    (hitem : item.Sound s.root) {part : MessagePart} (hpart : part.Clean) :
    Gives s.root XmlText (s.partText vars item part) := by
  match part, hpart with
  | .text t, hpart => exact .ended hpart
  | .valueOf e, hpart => exact Expression.gives_evaluateString hpart hs.root hs.keys hvars hitem
  | .nameOf none, _ => exact .ended (Item.nameText_name hs.root item).xmlText
  | .nameOf (some e), hpart =>
    refine (Expression.gives_evaluate (hpart e rfl) hs.root hs.keys hvars hitem).next
      fun items _ => .ended (xmlText_getD fun t ht => ?_)
    obtain ⟨i, -, rfl⟩ := Option.map_eq_some_iff.1 ht
    exact (Item.nameText_name hs.root i).xmlText

theorem gives_messageText (hs : s.Clean) (hvars : SoundVariables s.root vars)
    (hitem : item.Sound s.root) {parts : List MessagePart} (hparts : ∀ part ∈ parts, part.Clean) :
    Gives s.root XmlText (s.messageText vars item parts) :=
  (gives_each fun part hpart => gives_partText hs hvars hitem (hparts part hpart)).next
    fun _ htexts => .ended (.join htexts)

/-- **A check has something to say exactly if it finds something or is a report that holds.** -/
theorem agree_remark? (hs : s.Clean) (hvars : SoundVariables s.root vars)
    (hitem : item.Sound s.root) (rule : Rule) {c : Check} (hc : c.Clean) :
    Agree s.root
      (fun r found => r.toList.flatMap (Remark.findings s.root rule item) = found ∧
        ∀ r' ∈ r, r'.Clean)
      (s.remark? vars item c) (s.checkFindings vars rule item c) := by
  refine Agree.next_same (Expression.gives_evaluateBoolean hc.test hs.root hs.keys hvars hitem)
    fun holds _ => ?_
  have hmessage := gives_messageText hs hvars hitem hc.message
  obtain ⟨kind, test, id, role, message⟩ := c
  have hsaid : ∀ text, XmlText text →
      ∀ r ∈ some (⟨⟨kind, test, id, role, message⟩, text⟩ : Remark), r.Clean := by
    rintro text htext r ⟨⟩
    exact ⟨hc, htext⟩
  cases kind <;> cases holds
  · exact Agree.next_same hmessage fun text htext => .ended ⟨rfl, hsaid text htext⟩
  · exact .ended ⟨rfl, nofun⟩
  · exact .ended ⟨rfl, nofun⟩
  · exact Agree.next_same hmessage fun text htext => .ended ⟨rfl, hsaid text htext⟩

theorem flatMap_findings_of_forall₂ {α : Type} {P : α → Prop} {findings : α → List Finding}
    {as : List α} {found : List (List Finding)}
    (h : List.Forall₂ (fun a f => findings a = f ∧ P a) as found) :
    as.flatMap findings = found.flatten ∧ ∀ a ∈ as, P a := by
  induction h with
  | nil => exact ⟨rfl, nofun⟩
  | cons hab _ ih =>
    rw [List.flatMap_cons, List.flatten_cons, hab.1, ih.1]
    exact ⟨rfl, List.forall_mem_cons.2 ⟨hab.2, ih.2⟩⟩

theorem agree_ruleOutcome (hs : s.Clean) (hvars : SoundVariables s.root vars)
    {firing : Item × Rule} (hitem : firing.1.Sound s.root) (hrule : firing.2.Clean) :
    Agree s.root (fun o found => o.findings s.root = found ∧ o.Clean)
      (s.ruleOutcome vars firing) (s.ruleFindings vars firing) := by
  refine Agree.next_same (gives_bindAll hs hitem hrule.bindings hvars) fun vars hvars => ?_
  refine (Agree.each fun c hc => agree_remark? hs hvars hitem firing.2 (hrule.checks c hc)).next
    fun remarks found hfound => .ended ?_
  obtain ⟨hfindings, hclean⟩ := flatMap_findings_of_forall₂ hfound
  refine ⟨?_, hrule, fun r hr => ?_⟩
  · rw [← hfindings, RuleOutcome.findings, List.filterMap_eq_flatMap_toList, List.flatMap_assoc]
    rfl
  · obtain ⟨r?, hr?, hr⟩ := List.mem_filterMap.1 hr
    exact hclean r? hr? r hr

/-- What the rules of a pattern select are items of the document. -/
theorem agree_selections (hs : s.Clean) (hvars : SoundVariables s.root vars) {rule : Rule}
    (hrule : rule.Clean) :
    Agree s.root
      (fun fs selected => asSelections selected = fs ∧
        (AllSound s.root selected.2 ∧ selected.1.Clean))
      (s.selections vars rule) (s.selected vars rule) :=
  Agree.next_same
    (Expression.gives_evaluate hrule.context hs.root hs.keys hvars (Item.sound_root s.root))
    fun _ hitems => .ended ⟨rfl, hitems, hrule⟩

/-- **The rules fire where the walk through the document finds them**, and nowhere else. -/
theorem firstOfEach_flatten {root : Node} {fs : List (List (Item × Rule))}
    {selected : List (Rule × Sequence)}
    (h : List.Forall₂ (fun fs selected => asSelections selected = fs ∧
      (AllSound root selected.2 ∧ selected.1.Clean)) fs selected) :
    firstOfEach fs.flatten = firingsAlong root selected ∧
      ∀ f ∈ firingsAlong root selected, f.1.Sound root ∧ f.2.Clean := by
  have hselected : fs.flatten = selected.flatMap asSelections ∧
      ∀ s ∈ selected, AllSound root s.2 ∧ s.1.Clean := by
    induction h with
    | nil => exact ⟨rfl, nofun⟩
    | cons hfs _ ih =>
      rw [List.flatten_cons, List.flatMap_cons, hfs.1, ih.1]
      exact ⟨rfl, List.forall_mem_cons.2 ⟨hfs.2, ih.2⟩⟩
  refine ⟨?_, fun f hf => ?_⟩
  · rw [hselected.1]
    exact firstOfEach_flatMap fun s hs item hitem hnode =>
      ((hselected.2 s hs).1 item hitem).isIn hnode
  · obtain ⟨item, hitem, hf⟩ := List.mem_filterMap.1 hf
    obtain ⟨s, hs, rfl⟩ := Option.map_eq_some_iff.1 hf
    exact ⟨Item.sound_of_isIn (mem_itemsOf.1 hitem),
      (hselected.2 s (List.mem_of_find?_eq_some hs)).2⟩

theorem agree_patternOutcome (hs : s.Clean) (hvars : SoundVariables s.root vars) {p : Pattern}
    (hp : p.Clean) :
    Agree s.root (fun o found => o.findings s.root = found ∧ o.Clean)
      (s.patternOutcome vars p) (s.patternFindings vars p) := by
  refine Agree.next_same (gives_bindAll hs (Item.sound_root _) hp.bindings hvars)
    fun vars hvars => ?_
  have hfirings : Agree s.root (fun fs selected => fs = firingsAlong s.root selected ∧
      ∀ f ∈ fs, f.1.Sound s.root ∧ f.2.Clean) (s.firings vars p.rules)
      (each (s.selected vars) p.rules) := by
    intro indexes hindexes
    have h := Agree.each (fun rule hrule => agree_selections hs hvars (hp.rules rule hrule))
      indexes hindexes
    obtain ⟨e, hx, hy⟩ | ⟨fs, selected, rest, hx, hy, hfs, hrest⟩ := h
    · exact .inl ⟨e, by simp [firings, hx], hy⟩
    · obtain ⟨hfirst, hsound⟩ := firstOfEach_flatten hfs
      refine .inr ⟨firstOfEach fs.flatten, selected, rest, by simp [firings, hx], hy,
        ⟨hfirst, ?_⟩, hrest⟩
      rwa [hfirst]
  refine hfirings.next ?_
  rintro fs selected ⟨rfl, hsound⟩
  refine (Agree.each fun f hf =>
    agree_ruleOutcome hs hvars (hsound f hf).1 (hsound f hf).2).next fun outcomes found hfound =>
      .ended ?_
  obtain ⟨hfindings, hclean⟩ := flatMap_findings_of_forall₂ hfound
  exact ⟨hfindings, hp, hclean⟩

end Scene

/-- **A run and the findings of a rule set end alike**: both fail with the same failure, or what the
outcomes of the run find is what the rule set finds. -/
theorem RuleSet.findings_outcomes {rs : RuleSet} (hrs : rs.Clean) {root : Node}
    (hroot : root.Clean) {parameters : List (String × String)}
    (hparameters : ∀ p ∈ parameters, XmlText p.2) :
    (∃ e, rs.outcomes parameters root = .error e ∧ rs.findingsIn parameters root = .error e) ∨
      ∃ outcomes, rs.outcomes parameters root = .ok outcomes ∧
        rs.findingsIn parameters root =
          .ok (outcomes.flatMap (PatternOutcome.findings root)) ∧
        ∀ o ∈ outcomes, o.Clean := by
  have hs : Scene.Clean ⟨root, rs.keys⟩ := ⟨hroot, hrs.keys⟩
  have hgiven : SoundVariables root
      (parameters.map fun p => (p.1, [Item.string p.2])) :=
    List.forall_mem_map.2 fun p hp => .one (hparameters p hp)
  unfold outcomes findingsIn
  dsimp only
  cases hbound : Scene.bindAll ⟨root, rs.keys⟩ (.node []) rs.bindings
      (parameters.map fun p => (p.1, [Item.string p.2])) [] with
  | error e => exact .inl ⟨e, rfl, rfl⟩
  | ok bound =>
    obtain ⟨hvars, hindexes⟩ := Scene.gives_bindAll hs (Item.sound_root root) hrs.bindings hgiven
      [] nofun bound.1 bound.2 hbound
    have hfound := Agree.each
      (fun p hp => Scene.agree_patternOutcome hs hvars (hrs.patterns p hp)) bound.2 hindexes
    simp only [ok_bind]
    obtain ⟨e, hx, hy⟩ | ⟨outcomes, found, rest, hx, hy, hall, -⟩ := hfound
    · exact .inl ⟨e, by rw [hx]; rfl, by rw [hy]; rfl⟩
    · obtain ⟨hfindings, hclean⟩ := Scene.flatMap_findings_of_forall₂ hall
      refine .inr ⟨outcomes, by rw [hx]; rfl, ?_, hclean⟩
      rw [hy, hfindings]
      rfl

end XmlConformance.Rules
