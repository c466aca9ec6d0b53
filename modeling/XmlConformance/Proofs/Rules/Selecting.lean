import XmlConformance.Proofs.Rules.Keeping
import XmlConformance.Proofs.Rules.Splicing
import XmlConformance.Proofs.Xml.Placing
import XmlConformance.Rules.Phase

/-!
# Proofs/Rules/Selecting — the patterns that a phase leaves in a schema

Selecting a phase leaves the children of the schema in their order, without the phases and without
the patterns that only other phases list; the variables of the phase come behind them
(`SelectedFrom`). If the schema keeps the label `sch` apart, they are all carried over with what is
in them (`selectPhase_settles`); otherwise an element of another language can come to be a phase
(`not_selectPhase_settles`).

What is left of a schema for one phase is also left of it for all, whatever its labels are: the
patterns of every phase are a part of those without a selection, but for their places in the text
(`patterns_sublist`).
-/

namespace XmlConformance.Rules

open Xml

open Node (contents)

/-! ## What is asked for -/

/-- **What a schema is asked for**: a phase with a name, or all its patterns. The name `#DEFAULT`,
or none, asks for what the schema names. -/
inductive Asks (schema : Tag) : Option String → Option String → Prop
  | all : Asks schema (some "#ALL") none
  | named {name : String} : name ≠ "#ALL" → name ≠ "#DEFAULT" →
      Asks schema (some name) (some name)
  | default {requested : Option String} {name : String} :
      (requested = none ∨ requested = some "#DEFAULT") →
      schema.plain? "defaultPhase" = some name → name ≠ "#ALL" → Asks schema requested (some name)
  | defaultAll {requested : Option String} :
      (requested = none ∨ requested = some "#DEFAULT") →
      schema.plain? "defaultPhase" = some "#ALL" → Asks schema requested none
  | undetermined {requested : Option String} :
      (requested = none ∨ requested = some "#DEFAULT") →
      schema.plain? "defaultPhase" = none → Asks schema requested none

section Names

variable {schema : Tag} {requested : Option String} {name : String}

theorem phaseName?_of_default (h : requested = none ∨ requested = some "#DEFAULT") :
    phaseName? schema requested = (schema.plain? "defaultPhase").filter (· != allPhases) := by
  have hdefault : requested.all (· == defaultPhase) = true := by
    obtain rfl | rfl := h <;> decide
  rw [phaseName?, if_pos hdefault]

theorem phaseName?_of_ne (h : name ≠ "#DEFAULT") :
    phaseName? schema (some name) = (some name).filter (· != allPhases) := by
  rw [phaseName?, if_neg (by simpa [defaultPhase] using h)]

theorem filter_of_ne (h : name ≠ "#ALL") : (some name).filter (· != allPhases) = some name := by
  rw [Option.filter_some, if_pos (by simpa [allPhases] using h)]

/-- **Every request asks for something.** -/
theorem asks_phaseName? (schema : Tag) (requested : Option String) :
    Asks schema requested (phaseName? schema requested) := by
  by_cases hdefault : requested = none ∨ requested = some "#DEFAULT"
  · rw [phaseName?_of_default hdefault]
    cases hname : schema.plain? "defaultPhase" with
    | none => exact .undetermined hdefault hname
    | some name =>
      by_cases hne : name = "#ALL"
      · subst hne
        exact .defaultAll hdefault hname
      · rw [filter_of_ne hne]
        exact .default hdefault hname hne
  · rw [not_or] at hdefault
    obtain ⟨name, rfl⟩ := Option.ne_none_iff_exists'.1 hdefault.1
    have hname : name ≠ "#DEFAULT" := fun heq => hdefault.2 (congrArg some heq)
    rw [phaseName?_of_ne hname]
    by_cases hne : name = "#ALL"
    · subst hne
      exact .all
    · rw [filter_of_ne hne]
      exact .named hne hname

/-- **No request asks for two things.** -/
theorem Asks.eq_phaseName? {asked : Option String} (h : Asks schema requested asked) :
    asked = phaseName? schema requested := by
  cases h with
  | all => rfl
  | named hall hdefault => rw [phaseName?_of_ne hdefault, filter_of_ne hall]
  | default hrequested hname hall => rw [phaseName?_of_default hrequested, hname, filter_of_ne hall]
  | defaultAll hrequested hname =>
    rw [phaseName?_of_default hrequested, hname]
    rfl
  | undetermined hrequested hname =>
    rw [phaseName?_of_default hrequested, hname]
    rfl

end Names

/-- **The phase that a schema is asked for**: the first of the name, or none if all patterns are
asked for. -/
inductive Chooses (schema : Tag) (cs : List Node) :
    Option String → Option (Tag × List Node) → Prop
  | all {requested : Option String} : Asks schema requested none → Chooses schema cs requested none
  | phase {requested : Option String} {name : String} {p : Tag × List Node} :
      Asks schema requested (some name) →
      (rulesNamed "phase" cs).find? (fun p => p.1.plain? "id" == some name) = some p →
      Chooses schema cs requested (some p)

/-! ## What is left -/

/-- Whether a phase lists the patterns with an id. -/
def Lists (phase : Tag × List Node) (id : String) : Prop :=
  ∃ e ∈ rulesNamed "active" phase.2, e.1.plain? "pattern" = some id

instance (phase : Tag × List Node) (id : String) : Decidable (Lists phase id) :=
  inferInstanceAs (Decidable (∃ e ∈ rulesNamed "active" phase.2, e.1.plain? "pattern" = some id))

/-- **What stays for a phase**: what is no phase, and of the patterns those that have no id, that
the phase lists or that none does. Without a phase all patterns stay. -/
structure Stays (phases : List (Tag × List Node)) (phase : Option (Tag × List Node)) (n : Node) :
    Prop where
  notPhase : n.isRule "phase" = false
  active : n.isRule "pattern" = true → ∀ p ∈ phase, ∀ t ∈ n.tag?, ∀ id ∈ t.plain? "id",
    Lists p id ∨ ∀ q ∈ phases, ¬Lists q id

instance (phases : List (Tag × List Node)) (phase : Option (Tag × List Node)) (n : Node) :
    Decidable (Stays phases phase n) :=
  decidable_of_iff (n.isRule "phase" = false ∧ (n.isRule "pattern" = true → ∀ p ∈ phase,
    ∀ t ∈ n.tag?, ∀ id ∈ t.plain? "id", Lists p id ∨ ∀ q ∈ phases, ¬Lists q id))
    ⟨fun h => ⟨h.1, h.2⟩, fun h => ⟨h.1, h.2⟩⟩

/-- **What is left of the content of a schema** for a phase. -/
def leftFor (cs : List Node) (phase : Option (Tag × List Node)) : List Node :=
  cs.filter fun n => decide (Stays (rulesNamed "phase" cs) phase n)

/-- What of the content of a schema no phase lists. -/
def unlisted (cs : List Node) : List Node :=
  cs.filter fun n => decide (∀ t ∈ n.tag?, ∀ id ∈ t.plain? "id",
    ∀ q ∈ rulesNamed "phase" cs, ¬Lists q id)

/-- The variables of a phase. -/
def variablesOf (phase : Option (Tag × List Node)) : List Node :=
  phase.toList.flatMap fun p => p.2.filter (·.isRule "let")

/-- The patterns among some nodes. -/
def patternsOf (ns : List Node) : List Node :=
  ns.filter (·.isRule "pattern")

theorem mem_listedBy {phase : Tag × List Node} {id : String} :
    id ∈ listedBy phase ↔ Lists phase id := by
  rw [listedBy, List.mem_filterMap]
  rfl

theorem isActive_iff {phases : List (Tag × List Node)} {p : Tag × List Node} {t : Tag} :
    isActive phases p t = true ↔
      ∀ id ∈ t.plain? "id", Lists p id ∨ ∀ q ∈ phases, ¬Lists q id := by
  unfold isActive
  cases t.plain? "id" with
  | none => simp
  | some id => simp [mem_listedBy]

theorem isRule_of_not_isElement (localName : String) (n : Node) (h : n.isElement = false) :
    n.isRule localName = false := by
  cases n with
  | element => cases h
  | root | text | comment | instruction => rfl

theorem map_rulesNamed (localName : String) (ns : List Node) :
    ((rulesNamed localName ns).map fun (t, cs) => Node.element t cs) =
      ns.filter (·.isRule localName) := by
  rw [rulesNamed, List.map_filterMap, ← List.filterMap_eq_filter]
  refine List.filterMap_congr fun n _ => ?_
  cases n with
  | element t cs =>
    change Option.map _ (if t.isRule localName = true then some (t, cs) else none) =
      if t.isRule localName = true then some (Node.element t cs) else none
    split <;> rfl
  | root | text | comment | instruction => rfl

theorem stays_iff {phases : List (Tag × List Node)} {phase : Option (Tag × List Node)} {n : Node} :
    Stays phases phase n ↔ (!n.isRule "phase" && (!n.isRule "pattern" ||
      phase.all fun p => n.tag?.any (isActive phases p))) = true := by
  rw [Bool.and_eq_true, Bool.or_eq_true, Bool.not_eq_true', Bool.not_eq_true', Option.all_eq_true]
  constructor
  · rintro ⟨hphase, hactive⟩
    refine ⟨hphase, or_iff_not_imp_left.2 fun hpattern p hp => ?_⟩
    rw [Bool.not_eq_false] at hpattern
    obtain ⟨t, ht, -⟩ := (Option.any_eq_true _ _).1 hpattern
    exact (Option.any_eq_true _ _).2 ⟨t, ht, isActive_iff.2 (hactive hpattern p hp t ht)⟩
  · rintro ⟨hphase, hactive⟩
    refine ⟨hphase, fun hpattern p hp t ht => ?_⟩
    have hany := hactive.resolve_left (by simp [hpattern]) p hp
    obtain ⟨t', ht', hisActive⟩ := (Option.any_eq_true _ _).1 hany
    obtain rfl := Option.some.inj (ht'.symm.trans ht)
    exact isActive_iff.1 hisActive

/-- **What is written for a phase** is what is left of the schema, and the variables of the
phase. -/
theorem selected_eq (t : Tag) (cs : List Node) (phase : Option (Tag × List Node)) :
    selected (t, cs) phase =
      copyOf t none id (copyAllRules (some t) (leftFor cs phase ++ variablesOf phase)) := by
  have hleft : leftFor cs phase = cs.filter fun n => !n.isRule "phase" && (!n.isRule "pattern" ||
      phase.all fun p => n.tag?.any (isActive (rulesNamed "phase" cs) p)) := by
    refine List.filter_congr fun n _ => ?_
    rw [Bool.eq_iff_iff, decide_eq_true_iff, stays_iff]
  have hvariables : variablesOf phase = phase.toList.flatMap fun p =>
      (rulesNamed "let" p.2).map fun (t, cs) => Node.element t cs := by
    simp only [variablesOf, map_rulesNamed]
  rw [hleft, hvariables]
  rfl

section Left

variable {t : Tag} {cs : List Node} {phase : Option (Tag × List Node)}

theorem leftFor_subset : leftFor cs phase ⊆ cs := List.filter_subset_self _

/-- The variables of a phase of the schema stand in the schema. -/
theorem subtrees_variablesOf (h : ∀ p ∈ phase, .element p.1 p.2 ∈ cs) :
    Node.subtrees (variablesOf phase) ⊆ Node.subtrees cs := by
  intro m hm
  obtain ⟨n, hn, hm⟩ := Node.mem_subtrees.1 hm
  obtain ⟨p, hp, hn⟩ := List.mem_flatMap.1 hn
  have hp := h p (by simpa using hp)
  refine Node.mem_subtrees.2 ⟨_, hp, Node.subtree_subset ?_ hm⟩
  exact Node.children_subset (Node.mem_subtree_self _) (List.mem_of_mem_filter hn)

theorem subtrees_left (h : ∀ p ∈ phase, .element p.1 p.2 ∈ cs) :
    Node.subtrees (leftFor cs phase ++ variablesOf phase) ⊆ Node.subtrees cs := by
  rw [Node.subtrees_append]
  exact List.append_subset.2 ⟨Node.subtrees_mono leftFor_subset, subtrees_variablesOf h⟩

/-- **What is left for a phase is left for all.** -/
theorem leftFor_sublist (cs : List Node) (phase : Option (Tag × List Node)) :
    (leftFor cs phase).Sublist (leftFor cs none) := by
  refine List.monotone_filter_right cs fun n hn => ?_
  rw [decide_eq_true_iff] at hn ⊢
  exact ⟨hn.notPhase, fun _ => nofun⟩

theorem filter_leftFor_phase : (leftFor cs phase).filter (·.isRule "phase") = [] :=
  List.filter_eq_nil_iff.2 fun n hn => by
    have hstays : Stays (rulesNamed "phase" cs) phase n := by simpa using (List.mem_filter.1 hn).2
    rw [hstays.notPhase]
    exact Bool.false_ne_true

/-- **What no phase lists is left for every phase.** -/
theorem patternsOf_unlisted_sublist (cs : List Node) (phase : Option (Tag × List Node)) :
    (patternsOf (unlisted cs)).Sublist (patternsOf (leftFor cs phase)) := by
  rw [patternsOf, unlisted, List.filter_filter, patternsOf, leftFor, List.filter_filter]
  refine List.monotone_filter_right cs fun n hn => ?_
  rw [Bool.and_eq_true, decide_eq_true_iff] at hn ⊢
  refine ⟨hn.1, Bool.eq_false_iff.2 fun hphase => ?_,
    fun _ p _ t ht id hid => .inr (hn.2 t ht id hid)⟩
  obtain ⟨t, ht, hpattern⟩ := (Option.any_eq_true _ _).1 hn.1
  rw [Node.isRule, ht, Option.any_some, isRule_eq_false hpattern (by decide)] at hphase
  cases hphase

theorem Chooses.mem {requested : Option String} (h : Chooses t cs requested phase) :
    ∀ p ∈ phase, .element p.1 p.2 ∈ cs := by
  cases h with
  | all => exact nofun
  | phase _ hfind =>
    intro p hp
    obtain rfl := Option.some.inj hp
    exact mem_rulesNamed (List.mem_of_find?_eq_some hfind)

end Left

/-! ## What is written -/

section Documents

variable {d d' : Document} {t : Tag} {cs : List Node} {requested : Option String}
  {phase : Option (Tag × List Node)}

/-- **What is asked for is written**, if there is a phase of the name. -/
theorem selectPhase_eq (hschema : schemaElement d = .ok (t, cs)) :
    (∃ phase, Chooses t cs requested phase ∧
      selectPhase d requested = writtenAll [selected (t, cs) phase] d) ∨
    ∃ name, Asks t requested (some name) ∧
      (∀ p ∈ rulesNamed "phase" cs, p.1.plain? "id" ≠ some name) ∧
        selectPhase d requested = .error (.rules (.undefinedPhase name)) := by
  have hasks := asks_phaseName? t requested
  unfold selectPhase
  rw [hschema, ok_bind]
  dsimp only
  cases hname : phaseName? t requested with
  | none => exact .inl ⟨none, .all (hname ▸ hasks), rfl⟩
  | some name =>
    rw [hname] at hasks
    cases hfind : (rulesNamed "phase" cs).find? fun p => p.1.plain? "id" == some name with
    | some p => exact .inl ⟨some p, .phase hasks hfind, by simp only [hfind]; rfl⟩
    | none =>
      refine .inr ⟨name, hasks, fun p hp => ?_, by simp only [hfind]⟩
      simpa using List.find?_eq_none.1 hfind p hp

/-- **A phase that no element names is not selected.** -/
theorem selectPhase_undefined {name : String} (hschema : schemaElement d = .ok (t, cs))
    (hasks : Asks t requested (some name))
    (hnone : ∀ p ∈ rulesNamed "phase" cs, p.1.plain? "id" ≠ some name) :
    selectPhase d requested = .error (.rules (.undefinedPhase name)) := by
  obtain ⟨phase, hchooses, -⟩ | ⟨name', hasks', -, herror⟩ :=
    selectPhase_eq hschema
  · cases hchooses with
    | all hall => cases hasks.eq_phaseName?.trans hall.eq_phaseName?.symm
    | phase hasks' hfind =>
      cases hasks.eq_phaseName?.trans hasks'.eq_phaseName?.symm
      have hid := List.find?_some hfind
      exact absurd (by simpa using hid) (hnone _ (List.mem_of_find?_eq_some hfind))
  · cases hasks.eq_phaseName?.trans hasks'.eq_phaseName?.symm
    exact herror

/-- **A schema with the patterns of a phase**: its root element is kept, and its content is what is
left for the phase and the variables of the phase, all carried over. So are its patterns; those that
no phase lists are among them. -/
structure SelectedFrom (t : Tag) (cs : List Node) (phase : Option (Tag × List Node))
    (o : Tag) (os : List Node) : Prop where
  root : Kept t o
  content : List.Forall₂ (CarriedWith Kept) (contents (leftFor cs phase ++ variablesOf phase)) os
  patterns : List.Forall₂ (CarriedWith Kept) (patternsOf (leftFor cs phase)) (patternsOf os)
  common : List.SublistForall₂ (CarriedWith Kept) (patternsOf (unlisted cs)) (patternsOf os)
  noPhase : ∀ m ∈ os, m.isRule "phase" = false

theorem filter_variablesOf {localName : String} (h : localName ≠ "let") :
    (variablesOf phase).filter (·.isRule localName) = [] := by
  refine List.filter_eq_nil_iff.2 fun n hn => ?_
  obtain ⟨p, -, hn⟩ := List.mem_flatMap.1 hn
  have hlet := (List.mem_filter.1 hn).2
  cases n with
  | element t cs =>
    rw [isRule_element] at hlet ⊢
    rw [isRule_eq_false hlet h.symm]
    exact Bool.false_ne_true
  | root | text | comment | instruction => cases hlet

theorem CarriedWith.isRule_eq {n m : Node} (h : CarriedWith Kept n m) (localName : String) :
    m.isRule localName = n.isRule localName := by
  cases h with
  | text => rfl
  | element hkept => rw [isRule_element, isRule_element, Tag.isRule, Tag.isRule, hkept.ruleName]

theorem forall₂_filter {ns os : List Node} (h : List.Forall₂ (CarriedWith Kept) (contents ns) os)
    (localName : String) : List.Forall₂ (CarriedWith Kept) (ns.filter (·.isRule localName))
      (os.filter (·.isRule localName)) := by
  rw [← Node.filter_contents (isRule_of_not_isElement localName)]
  exact List.rel_filter (fun _ _ hnm => iff_of_eq (congrArg (· = true) (hnm.isRule_eq _).symm)) h

theorem exists_sublist_of_forall₂ {R : Node → Node → Prop} {l ns : List Node}
    (hsub : l.Sublist ns) : ∀ {ms : List Node}, List.Forall₂ R ns ms →
      ∃ l', List.Forall₂ R l l' ∧ l'.Sublist ms := by
  induction hsub with
  | slnil => exact fun h => ⟨_, h, .refl _⟩
  | cons _ _ ih =>
    rintro _ (_ | ⟨_, h⟩)
    obtain ⟨l', hl, hsub⟩ := ih h
    exact ⟨l', hl, hsub.cons _⟩
  | cons_cons _ _ ih =>
    rintro _ (_ | ⟨hR, h⟩)
    obtain ⟨l', hl, hsub⟩ := ih h
    exact ⟨_ :: l', .cons hR hl, hsub.cons_cons _⟩

/-- **A schema that can be copied is selected from.** -/
theorem selectedFrom_of_written (hrepro : Reproducible (.element t cs)) (hrule : t.ruleName?.isSome)
    (hphase : ∀ p ∈ phase, .element p.1 p.2 ∈ cs)
    (h : writtenAll [selected (t, cs) phase] d = .ok d') :
    ∃ o os, d'.root = .root [.element o os] ∧ SelectedFrom t cs phase o os := by
  have hleft := hrepro.replace hrule (subtrees_left hphase)
  rw [selected_eq] at h
  obtain ⟨o, os, hroot, hread⟩ := reread_of_written (writes_copyAllRules (some t) _)
    (fun s hs => ⟨(hleft.resolved s hs).toProper, (hleft.regular s hs).xmlns⟩) h
  obtain ⟨-⟩ | ⟨hkept, hcontent⟩ := carried_of_root hleft hrule hread
  have hpatterns := forall₂_filter hcontent "pattern"
  have hphases := forall₂_filter hcontent "phase"
  rw [List.filter_append, filter_variablesOf (by decide), List.append_nil] at hpatterns hphases
  refine ⟨o, os, hroot, hkept, hcontent, hpatterns, ?_, ?_⟩
  · obtain ⟨l, hl, hsub⟩ :=
      exists_sublist_of_forall₂ (patternsOf_unlisted_sublist cs phase) hpatterns
    exact List.sublistForall₂_iff.2 ⟨l, hl, hsub⟩
  · rw [filter_leftFor_phase] at hphases
    intro m hm
    have hnil := List.forall₂_nil_left_iff.1 hphases
    exact Bool.eq_false_iff.2 (List.filter_eq_nil_iff.1 hnil m hm)

/-! ## Different phases of a schema -/

/-- **An element that a copy of another is read as** below some declarations, wherever it stands. -/
def ReadFrom (inherited : List Declaration) (scope : Option Tag) (e o : Tag × List Node) : Prop :=
  ∃ start, (copyOf e.1 scope id (copyAllRules (some e.1) e.2)).joined.back inherited start =
    some [.element o.1 o.2]

/-- **The elements among some nodes are copied and read one by one.** -/
theorem forall₂_readFrom {inherited : List Declaration} {scope : Option Tag} :
    ∀ (ns : List Node) {start : ℕ} {nodes : List Node}, Fragment.backAll inherited start
      (Fragment.joinedAll (copyAllRules scope ns)) = some nodes →
        List.Forall₂ (ReadFrom inherited scope) (Node.elementsOf ns) (Node.elementsOf nodes)
  | [], _, _, h => by
    rw [copyAllRules, Fragment.joinedAll] at h
    obtain rfl := Option.some.inj h
    exact .nil
  | .text s :: ns, _, _, h => by
    rw [copyAllRules, copyRules, List.singleton_append, Fragment.joinedAll] at h
    obtain ⟨first, more, start', hfirst, hmore, -, helements⟩ := backAll_joinTo h
    rw [Fragment.joined, Fragment.back] at hfirst
    obtain rfl := Option.some.inj hfirst
    have hnil : Node.elementsOf (if s = "" then [] else [.text (textBack s)]) = [] := by
      split <;> rfl
    rw [helements, hnil]
    exact forall₂_readFrom ns hmore
  | .element t cs :: ns, _, _, h => by
    rw [copyAllRules, copyRules, List.singleton_append, Fragment.joinedAll] at h
    obtain ⟨first, more, start', hfirst, hmore, -, helements⟩ := backAll_joinTo h
    obtain ⟨o, os, rfl⟩ := Fragment.eq_singleton_of_back rfl hfirst
    rw [helements]
    exact .cons ⟨_, hfirst⟩ (forall₂_readFrom ns hmore)
  | .root _ :: ns, _, _, h | .comment _ :: ns, _, _, h | .instruction .. :: ns, _, _, h => by
    rw [copyAllRules, copyRules, List.nil_append] at h
    exact forall₂_readFrom ns h

theorem ReadFrom.unplaced_eq {inherited : List Declaration} {scope : Option Tag}
    {e o o' : Tag × List Node} (h : ReadFrom inherited scope e o)
    (h' : ReadFrom inherited scope e o') :
    (Node.element o.1 o.2).unplaced = (Node.element o'.1 o'.2).unplaced := by
  obtain ⟨_, h⟩ := h
  obtain ⟨_, h'⟩ := h'
  simpa using Fragment.back_unplaced h h'

/-- What a part of some nodes is read as is a part of what they are read as, but for its place. -/
theorem unplaced_sublist {inherited : List Declaration} {scope : Option Tag}
    {l l' : List (Tag × List Node)} (hsub : l.Sublist l') :
    ∀ {os os' : List (Tag × List Node)}, List.Forall₂ (ReadFrom inherited scope) l os →
      List.Forall₂ (ReadFrom inherited scope) l' os' →
        (os.map fun o => (Node.element o.1 o.2).unplaced).Sublist
          (os'.map fun o => (Node.element o.1 o.2).unplaced) := by
  induction hsub with
  | slnil =>
    rintro _ _ ⟨⟩ ⟨⟩
    exact .slnil
  | cons _ _ ih =>
    rintro _ _ h (_ | ⟨_, h'⟩)
    exact .cons _ (ih h h')
  | cons_cons _ _ ih =>
    rintro _ _ (_ | ⟨ho, h⟩) (_ | ⟨ho', h'⟩)
    rw [List.map_cons, List.map_cons, ho.unplaced_eq ho']
    exact .cons_cons _ (ih h h')

theorem patternsOf_eq (ns : List Node) : patternsOf ns =
    ((Node.elementsOf ns).map fun e => Node.element e.1 e.2).filter (·.isRule "pattern") := by
  rw [patternsOf, Node.elementsOf, List.map_filterMap, List.filter_filterMap,
    ← List.filterMap_eq_filter]
  refine List.filterMap_congr fun n _ => ?_
  cases n with
  | element t cs => rfl
  | root | text | comment | instruction => rfl

theorem map_unplaced_patternsOf (ns : List Node) : (patternsOf ns).map Node.unplaced =
    ((Node.elementsOf ns).map fun e => (Node.element e.1 e.2).unplaced).filter
      (·.isRule "pattern") := by
  rw [patternsOf_eq, List.filter_map, List.filter_map, List.map_map]
  rfl

theorem exists_of_forall₂_append {α β : Type} {R : α → β → Prop} :
    ∀ {l₁ l₂ : List α} {m : List β}, List.Forall₂ R (l₁ ++ l₂) m →
      ∃ m₁ m₂, m = m₁ ++ m₂ ∧ List.Forall₂ R l₁ m₁ ∧ List.Forall₂ R l₂ m₂
  | [], _, m, h => ⟨[], m, rfl, .nil, h⟩
  | _ :: _, _, _, .cons hR h => by
    obtain ⟨m₁, m₂, rfl, h₁, h₂⟩ := exists_of_forall₂_append h
    exact ⟨_ :: m₁, m₂, rfl, .cons hR h₁, h₂⟩

/-- What is no element of the rule language by its local name does not become one. -/
theorem ReadFrom.isRule_eq_false {inherited : List Declaration} {scope : Option Tag}
    {e o : Tag × List Node} {localName : String} (h : ReadFrom inherited scope e o)
    (he : e.1.Proper) (hne : e.1.name.localName ≠ localName) : o.1.isRule localName = false := by
  obtain ⟨start, h⟩ := h
  rw [copyOf, Fragment.joined] at h
  obtain ⟨n, o', os, htag, -, hnode⟩ := Fragment.back_element_eq_some_iff.1 h
  obtain ⟨rfl, -⟩ := Node.element.inj (List.singleton_inj.1 hnode)
  refine Bool.eq_false_iff.2 fun hrule => hne ?_
  rw [← (isRule_iff.1 hrule).2, name_of_tagBack he htag]

theorem localName_of_mem_variablesOf {e : Tag × List Node}
    (h : e ∈ Node.elementsOf (variablesOf phase)) : e.1.name.localName = "let" := by
  obtain ⟨p, -, h⟩ := List.mem_flatMap.1 (Node.mem_elementsOf.1 h)
  exact (isRule_iff.1 (List.mem_filter.1 h).2).2

/-- **The patterns for a phase are a part of the patterns for all**, but for their places in the
text. -/
theorem patterns_sublist {all : Document} (hlabelled : ∀ s ∈ (Node.element t cs).tags, Writable s)
    (hphase : ∀ p ∈ phase, .element p.1 p.2 ∈ cs)
    (h : writtenAll [selected (t, cs) phase] d = .ok d')
    (hall : writtenAll [selected (t, cs) none] d = .ok all) :
    ∃ o os os', d'.root = .root [.element o os] ∧ all.root = .root [.element o os'] ∧
      ((patternsOf os).map Node.unplaced).Sublist ((patternsOf os').map Node.unplaced) := by
  rw [selected_eq] at h hall
  have hnamed {ns : List Node} (hns : Node.subtrees ns ⊆ Node.subtrees cs) :
      (copyOf t none id (copyAllRules (some t) ns)).Named := by
    have hwrites : Writes none [.element t ns] [copyOf t none id (copyAllRules (some t) ns)] :=
      .element (.inl rfl) (writes_copyAllRules (some t) ns) .nil
    refine (hwrites.allNamed fun s hs => hlabelled s ?_).1
    rw [Node.tagsOf_cons, Node.tagsOf_nil, List.append_nil] at hs
    exact List.cons_subset_cons t (List.filterMap_subset _ hns) hs
  obtain ⟨_, o, os, start, hroot, htag, hos⟩ := back_of_written (hnamed (subtrees_left hphase)) h
  have hsub : Node.subtrees (leftFor cs none ++ variablesOf none) ⊆ Node.subtrees cs :=
    subtrees_left nofun
  obtain ⟨_, o', os', start', hroot', htag', hos'⟩ := back_of_written (hnamed hsub) hall
  obtain ⟨-, rfl⟩ := Prod.mk.inj (Option.some.inj (htag.symm.trans htag'))
  refine ⟨o, os, os', hroot, hroot', ?_⟩
  have hread := forall₂_readFrom _ hos
  have hread' := forall₂_readFrom _ hos'
  rw [Node.elementsOf_append] at hread
  rw [show variablesOf none = [] from rfl, List.append_nil] at hread'
  obtain ⟨left, behind, heq, hleft, hbehind⟩ := exists_of_forall₂_append hread
  -- the variables of the phase are no patterns, so they can be left aside
  have hnone : (behind.map fun e => (Node.element e.1 e.2).unplaced).filter
      (·.isRule "pattern") = [] := by
    rw [List.filter_map, List.map_eq_nil_iff, List.filter_eq_nil_iff]
    intro e he
    obtain ⟨v, hv, hread⟩ := exists_of_mem_forall₂ hbehind he
    have hmem : v.1 ∈ (Node.element t cs).tags := by
      have hv := subtrees_left hphase (Node.mem_subtrees.2
        ⟨_, List.mem_append_right _ (Node.mem_elementsOf.1 hv), Node.mem_subtree_self _⟩)
      exact Node.mem_tags (List.mem_cons_of_mem _ hv)
    have hfalse : e.1.isRule "pattern" = false := hread.isRule_eq_false (hlabelled v.1 hmem).1
      (by rw [localName_of_mem_variablesOf hv]; decide)
    exact Bool.eq_false_iff.1 hfalse
  rw [map_unplaced_patternsOf, map_unplaced_patternsOf, heq, List.map_append, List.filter_append,
    hnone, List.append_nil]
  exact (unplaced_sublist ((leftFor_sublist cs phase).filterMap _) hleft hread').filter _

/-- **What selecting a phase of a schema comes to.** No phase and `#DEFAULT` ask for the same. A
name that no phase has fails. If the declarations of the schema can be written again, then the
patterns for any phase are a part of the patterns for all; and if `sch` is set apart for the rule
language, whatever is written is the schema with the patterns of the phase that was asked for. -/
theorem selectPhase_settles (hschema : schemaElement d = .ok (t, cs)) :
    selectPhase d none = selectPhase d (some "#DEFAULT") ∧
    (∀ requested name, Asks t requested (some name) →
      (∀ p ∈ rulesNamed "phase" cs, p.1.plain? "id" ≠ some name) →
        selectPhase d requested = .error (.rules (.undefinedPhase name))) ∧
    ((∀ s ∈ d.root.tags, s.Regular) →
      (∀ requested d' all, selectPhase d requested = .ok d' → selectPhase d (some "#ALL") = .ok all →
        ∃ o os os', d'.root = .root [.element o os] ∧ all.root = .root [.element o os'] ∧
          ((patternsOf os).map Node.unplaced).Sublist ((patternsOf os').map Node.unplaced)) ∧
      (SetApart (.element t cs) → ∀ requested d', selectPhase d requested = .ok d' →
        ∃ phase o os, Chooses t cs requested phase ∧ d'.root = .root [.element o os] ∧
          SelectedFrom t cs phase o os)) := by
  have hwritten {requested : Option String} {d' : Document} (h : selectPhase d requested = .ok d') :
      ∃ phase, Chooses t cs requested phase ∧ writtenAll [selected (t, cs) phase] d = .ok d' := by
    obtain ⟨phase, hchooses, hselect⟩ | ⟨name, -, -, herror⟩ :=
      selectPhase_eq hschema
    · exact ⟨phase, hchooses, hselect.symm.trans h⟩
    · cases herror.symm.trans h
  refine ⟨rfl, fun requested name => selectPhase_undefined hschema, fun hregular =>
    ⟨fun requested d' all h hall => ?_, fun hapart requested d' h => ?_⟩⟩
  · obtain ⟨phase, hchooses, h⟩ := hwritten h
    obtain ⟨_, hchoosesAll, hall⟩ := hwritten hall
    cases hchoosesAll with
    | all =>
      refine patterns_sublist (fun s hs => ?_) hchooses.mem h hall
      have hs : s ∈ d.root.tags :=
        List.filterMap_subset _ (Node.subtree_subset (schemaElement_eq_ok hschema).1) hs
      exact ⟨Node.proper_ofText d.wellFormed s hs, (hregular s hs).xmlns⟩
    | phase hasks => cases hasks.eq_phaseName?
  · obtain ⟨phase, hchooses, h⟩ := hwritten h
    have hrule : t.ruleName?.isSome := by
      rw [beq_iff_eq.1 (schemaElement_eq_ok hschema).2]
      rfl
    obtain ⟨o, os, hroot, hselected⟩ := selectedFrom_of_written
      (reproducible_of_schemaElement hschema hregular hapart) hrule hchooses.mem h
    exact ⟨phase, o, os, hchooses, hroot, hselected⟩

end Documents

/-- A rule schema with two phases, of which one is the default. -/
def schemaOfPhases : Document :=
  documentOf ("<schema xmlns=\"http://purl.oclc.org/dsdl/schematron\" defaultPhase=\"a\">" ++
    "<phase id=\"a\"><let/><active pattern=\"p\"/></phase><phase id=\"b\">" ++
    "<active pattern=\"q\"/></phase><pattern id=\"p\"/><pattern id=\"q\"/></schema>")
    (by decide +kernel)

theorem selectPhase_settles_schemaOfPhases : ∃ t cs d' all,
    schemaElement schemaOfPhases = .ok (t, cs) ∧
      selectPhase schemaOfPhases (some "c") = .error (.rules (.undefinedPhase "c")) ∧
      (∀ s ∈ schemaOfPhases.root.tags, s.Regular) ∧ SetApart (.element t cs) ∧
      selectPhase schemaOfPhases none = .ok d' ∧ selectPhase schemaOfPhases (some "#ALL") = .ok all ∧
      (∃ o os os', d'.root = .root [.element o os] ∧ all.root = .root [.element o os'] ∧
        ((patternsOf os).map Node.unplaced).Sublist ((patternsOf os').map Node.unplaced)) ∧
      ∃ phase o os, Chooses t cs none phase ∧ d'.root = .root [.element o os] ∧
        SelectedFrom t cs phase o os := by
  have hchecks : ((schemaElement schemaOfPhases).toOption.any fun (e : Tag × List Node) =>
      (selectPhase schemaOfPhases none).toOption.any fun _ =>
        (selectPhase schemaOfPhases (some "#ALL")).toOption.any fun _ =>
          decide ((∀ s ∈ schemaOfPhases.root.tags, s.Regular) ∧ SetApart (.element e.1 e.2) ∧
            ∀ p ∈ rulesNamed "phase" e.2, p.1.plain? "id" ≠ some "c")) = true := by
    decide +kernel
  obtain ⟨⟨t, cs⟩, hschema, hchecks⟩ := exists_of_any_toOption hchecks
  obtain ⟨d', hselect, hchecks⟩ := exists_of_any_toOption hchecks
  obtain ⟨all, hall, hchecks⟩ := exists_of_any_toOption hchecks
  obtain ⟨hregular, hapart, hnone⟩ := of_decide_eq_true hchecks
  obtain ⟨-, hundefined, hsettles⟩ := selectPhase_settles hschema
  exact ⟨t, cs, d', all, hschema, hundefined _ "c" (.named (by decide) (by decide)) hnone, hregular,
    hapart, hselect, hall, (hsettles hregular).1 _ _ _ hselect hall,
    (hsettles hregular).2 hapart _ _ hselect⟩

/-- A rule schema with an element of another language that is called `phase`, by the label `sch`. -/
def schemaOfForeignPhase : Document :=
  documentOf ("<x:schema xmlns:x=\"http://purl.oclc.org/dsdl/schematron\" xmlns:sch=\"urn:o\">" ++
    "<sch:phase id=\"n\"/><x:pattern/></x:schema>") (by decide +kernel)

/-- **What is no phase can come to be one** when the patterns of a phase are selected. -/
theorem not_selectPhase_settles : ∃ d', selectPhase schemaOfForeignPhase none = .ok d' ∧
    (∀ t ∈ schemaOfForeignPhase.root.tags, t.isRule "phase" = false) ∧
      ∃ m ∈ d'.rootElement.2, m.isRule "phase" = true := by
  have hchecks : ((selectPhase schemaOfForeignPhase none).toOption.any fun (d' : Document) =>
      decide ((∀ t ∈ schemaOfForeignPhase.root.tags, t.isRule "phase" = false) ∧
        ∃ m ∈ d'.rootElement.2, m.isRule "phase" = true)) = true := by
    decide +kernel
  obtain ⟨d', hselect, hchecks⟩ := exists_of_any_toOption hchecks
  exact ⟨d', hselect, of_decide_eq_true hchecks⟩

end XmlConformance.Rules
