import XmlConformance.Proofs.Outcome
import XmlConformance.Proofs.Path.Evaluating
import XmlConformance.Rules.RuleSet

/-!
# Proofs/Rules/Compiling — rule sets that are compiled from clean schemas

If a rule schema is a clean tree, then so are all texts and expressions of the rule set that is
compiled from it (`RuleSet.clean_compile`).
-/

namespace XmlConformance.Rules

open Xml XmlConformance.Path

/-! ## Clean rule sets -/

/-- A value that can be written. -/
def Value.Clean : Value → Prop
  | .expression e => e.Clean
  | .literal text => XmlText text

/-- Bindings whose values can be written. -/
def CleanBindings (bindings : List Binding) : Prop :=
  ∀ b ∈ bindings, b.value.Clean

/-- A piece of a message that can be written. -/
def MessagePart.Clean : MessagePart → Prop
  | .text s => XmlText s
  | .valueOf e => e.Clean
  | .nameOf e => ∀ e' ∈ e, e'.Clean

/-- A check that can be written. -/
structure Check.Clean (c : Check) : Prop where
  test : c.test.Clean
  id : ∀ s ∈ c.id, XmlText s
  role : ∀ s ∈ c.role, XmlText s
  message : ∀ part ∈ c.message, part.Clean

/-- A rule that can be written. -/
structure Rule.Clean (r : Rule) : Prop where
  context : r.context.Clean
  id : ∀ s ∈ r.id, XmlText s
  role : ∀ s ∈ r.role, XmlText s
  bindings : CleanBindings r.bindings
  checks : ∀ c ∈ r.checks, c.Clean

/-- A pattern that can be written. -/
structure Pattern.Clean (p : Pattern) : Prop where
  id : ∀ s ∈ p.id, XmlText s
  title : ∀ s ∈ p.title, XmlText s
  bindings : CleanBindings p.bindings
  rules : ∀ r ∈ p.rules, r.Clean

/-- A rule set that can be written. -/
structure RuleSet.Clean (rs : RuleSet) : Prop where
  title : ∀ s ∈ rs.title, XmlText s
  keys : Keys.Clean rs.keys
  bindings : CleanBindings rs.bindings
  patterns : ∀ p ∈ rs.patterns, p.Clean

/-! ## Texts inside elements -/

theorem mem_rulesNamed_iff {localName : String} {cs : List Node} {e : Tag × List Node} :
    e ∈ rulesNamed localName cs ↔ .element e.1 e.2 ∈ cs ∧ e.1.isRule localName := by
  rw [rulesNamed, List.mem_filterMap]
  constructor
  · rintro ⟨n, hn, hsome⟩
    split at hsome
    · split at hsome
      · case isTrue hrule =>
        cases hsome
        exact ⟨hn, hrule⟩
      · cases hsome
    · cases hsome
  · rintro ⟨hn, hrule⟩
    exact ⟨_, hn, if_pos hrule⟩

theorem mem_rulesNamed {localName : String} {cs : List Node} {e : Tag × List Node}
    (h : e ∈ rulesNamed localName cs) : Node.element e.1 e.2 ∈ cs :=
  (mem_rulesNamed_iff.1 h).1

variable {cs : List Node}

theorem xmlText_ownText {n : Node} (h : n.Clean) : XmlText (ownText n) := by
  cases n with
  | root cs => exact .empty
  | element t cs =>
    match cs, h with
    | [], _ => exact .empty
    | .text s :: _, h => exact h.2.1
    | .root _ :: _, _ | .element .. :: _, _ | .comment _ :: _, _ | .instruction .. :: _, _ =>
      exact .empty
  | text s | comment s => exact h
  | instruction target value => exact .empty

theorem xmlText_gatheredText {t : Tag} (h : (Node.element t cs).Clean) :
    XmlText (gatheredText t cs) :=
  .join (List.forall_mem_map.2 fun n hn => xmlText_ownText (h.subtree n hn))

theorem xmlText_title? (h : ∀ n ∈ cs, n.Clean) : ∀ s ∈ title? cs, XmlText s := by
  intro s hs
  obtain ⟨⟨t, cs'⟩, he, rfl⟩ := Option.map_eq_some_iff.1 hs
  exact Text.xmlText_normalizeSpace
    (xmlText_gatheredText (h _ (mem_rulesNamed (List.mem_of_mem_head? he))))

theorem xmlText_required {t : Tag} (h : t.Clean) {localName v : String} {cause : Error}
    (hv : required t localName cause = .ok v) : XmlText v := by
  unfold required at hv
  split at hv
  · case h_1 v' hv' =>
    cases hv
    exact h.plain? hv'
  · cases hv

/-! ## Compilation -/

theorem clean_compileBinding {ns : Namespaces} {t : Tag} {b : Binding}
    (h : (Node.element t cs).Clean) (hb : compileBinding ns t cs = .ok b) : b.value.Clean := by
  obtain ⟨name, -, hb⟩ := bind_eq_ok.1 hb
  split at hb
  · case h_1 v hv =>
    obtain ⟨e, he, hb⟩ := bind_eq_ok.1 hb
    cases hb
    exact Expression.clean_compile (h.1.plain? hv) he
  · cases hb
    exact xmlText_gatheredText h

theorem clean_compileBindings {ns : Namespaces} {bs : List Binding} (h : ∀ n ∈ cs, n.Clean)
    (hbs : compileBindings ns cs = .ok bs) : CleanBindings bs :=
  forall_of_mapM_eq_ok hbs fun _ he _ hb => clean_compileBinding (h _ (mem_rulesNamed he)) hb

mutual

theorem clean_compileMessageNode {ns : Namespaces} : ∀ {n : Node} {parts : List MessagePart},
    n.Clean → compileMessageNode ns n = .ok parts → ∀ p ∈ parts, p.Clean
  | .text s, parts, h, hparts => by
    cases hparts
    exact List.forall_mem_singleton.2 h
  | .element t cs, parts, h, hparts => by
    unfold compileMessageNode at hparts
    split at hparts
    · obtain ⟨select, hselect, hparts⟩ := bind_eq_ok.1 hparts
      obtain ⟨e, he, hparts⟩ := bind_eq_ok.1 hparts
      cases hparts
      exact List.forall_mem_singleton.2
        (Expression.clean_compile (xmlText_required h.1 hselect) he)
    · split at hparts
      · case h_1 p hp =>
        obtain ⟨e, he, hparts⟩ := bind_eq_ok.1 hparts
        cases hparts
        refine List.forall_mem_singleton.2 fun e' he' => ?_
        cases he'
        exact Expression.clean_compile (h.1.plain? hp) he
      · cases hparts
        exact List.forall_mem_singleton.2 nofun
    · exact clean_compileMessage (Node.allClean_iff.1 h.2) hparts
  | .root _, parts, _, hparts | .comment _, parts, _, hparts
  | .instruction .., parts, _, hparts => by
    cases hparts
    exact nofun

theorem clean_compileMessage {ns : Namespaces} : ∀ {cs : List Node} {parts : List MessagePart},
    (∀ n ∈ cs, n.Clean) → compileMessage ns cs = .ok parts → ∀ p ∈ parts, p.Clean
  | [], parts, _, hparts => by
    cases hparts
    exact nofun
  | n :: rest, parts, h, hparts => by
    rw [List.forall_mem_cons] at h
    obtain ⟨first, hfirst, hparts⟩ := bind_eq_ok.1 hparts
    obtain ⟨more, hmore, hparts⟩ := bind_eq_ok.1 hparts
    cases hparts
    exact List.forall_mem_append.2
      ⟨clean_compileMessageNode h.1 hfirst, clean_compileMessage h.2 hmore⟩

end

theorem clean_compileCheck {schema : Namespaces} {kind : CheckKind} {t : Tag} {c : Check}
    (h : (Node.element t cs).Clean) (hc : compileCheck schema kind t cs = .ok c) : c.Clean := by
  obtain ⟨test, htest, hc⟩ := bind_eq_ok.1 hc
  obtain ⟨e, he, hc⟩ := bind_eq_ok.1 hc
  obtain ⟨message, hmessage, hc⟩ := bind_eq_ok.1 hc
  cases hc
  exact ⟨Expression.clean_compile (xmlText_required h.1 htest) he, fun _ => h.1.plain?,
    fun _ => h.1.plain?, clean_compileMessage (Node.allClean_iff.1 h.2) hmessage⟩

theorem mem_checkElements {c : CheckKind × Tag × List Node} (h : c ∈ checkElements cs) :
    Node.element c.2.1 c.2.2 ∈ cs := by
  obtain ⟨n, hn, hsome⟩ := List.mem_filterMap.1 h
  split at hsome
  · obtain ⟨kind, -, rfl⟩ := Option.map_eq_some_iff.1 hsome
    exact hn
  · cases hsome

theorem clean_compileRule {schema : Namespaces} {t : Tag} {r : Rule}
    (h : (Node.element t cs).Clean) (hr : compileRule schema t cs = .ok r) : r.Clean := by
  have hcs := Node.allClean_iff.1 h.2
  obtain ⟨context, hcontext, hr⟩ := bind_eq_ok.1 hr
  obtain ⟨checks, hchecks, hr⟩ := bind_eq_ok.1 hr
  obtain ⟨e, he, hr⟩ := bind_eq_ok.1 hr
  obtain ⟨bindings, hbindings, hr⟩ := bind_eq_ok.1 hr
  cases hr
  exact
    { context := Expression.clean_pattern (xmlText_required h.1 hcontext) he
      id := fun _ => h.1.plain?
      role := fun _ => h.1.plain?
      bindings := clean_compileBindings hcs hbindings
      checks := forall_of_mapM_eq_ok hchecks fun c hmem _ hc =>
        clean_compileCheck (hcs _ (mem_checkElements hmem)) hc }

theorem clean_compilePattern {schema : Namespaces} {t : Tag} {p : Pattern}
    (h : (Node.element t cs).Clean) (hp : compilePattern schema t cs = .ok p) : p.Clean := by
  have hcs := Node.allClean_iff.1 h.2
  obtain ⟨rules, hrules, hp⟩ := bind_eq_ok.1 hp
  obtain ⟨bindings, hbindings, hp⟩ := bind_eq_ok.1 hp
  cases hp
  exact
    { id := fun _ => h.1.plain?
      title := xmlText_title? hcs
      bindings := clean_compileBindings hcs hbindings
      rules := forall_of_mapM_eq_ok hrules fun e hmem _ hr =>
        clean_compileRule (hcs _ (mem_rulesNamed (List.mem_filter.1 hmem).1)) hr }

theorem clean_compileKey {schema : Namespaces} {t : Tag} {key : String × KeyDefinition}
    (h : t.Clean) (hkey : compileKey schema t = .ok key) :
    key.2.pattern.Clean ∧ key.2.value.Clean := by
  unfold compileKey at hkey
  dsimp only at hkey
  split at hkey
  · case h_1 name pattern use hname hpattern huse =>
    obtain ⟨p, hp, hkey⟩ := bind_eq_ok.1 hkey
    obtain ⟨v, hv, hkey⟩ := bind_eq_ok.1 hkey
    cases hkey
    exact ⟨Expression.clean_pattern (h.plain? hpattern) hp,
      Expression.clean_compile (h.plain? huse) hv⟩
  · cases hkey

theorem mem_keyElements {t : Tag} (h : t ∈ keyElements cs) : ∃ cs', Node.element t cs' ∈ cs := by
  obtain ⟨n, hn, hsome⟩ := List.mem_filterMap.1 h
  obtain ⟨ht, -⟩ := Option.filter_eq_some_iff.1 hsome
  cases n with
  | element t' cs' =>
    cases ht
    exact ⟨cs', hn⟩
  | _ => cases ht

/-- The root element of a document that is a rule schema. -/
theorem clean_schemaElement {d : Document} {e : Tag × List Node} (hroot : d.root.Clean)
    (h : schemaElement d = .ok e) : (Node.element e.1 e.2).Clean := by
  unfold schemaElement Document.rootElement at h
  dsimp only at h
  split at h
  · cases h
    cases hhead : d.root.elements.head? with
    | none => exact ⟨⟨⟨nofun, .empty⟩, nofun, nofun⟩, trivial⟩
    | some e =>
      obtain ⟨n, hn, hsome⟩ := List.mem_filterMap.1 (List.mem_of_mem_head? hhead)
      split at hsome
      · cases hsome
        exact hroot.children _ hn
      · cases hsome
  · cases h

/-- **A rule set can be written if its schema can.** -/
theorem RuleSet.clean_compile {d : Document} {rs : RuleSet} (hroot : d.root.Clean)
    (h : RuleSet.compile d = .ok rs) : rs.Clean := by
  obtain ⟨⟨t, cs⟩, helement, h⟩ := bind_eq_ok.1 h
  obtain ⟨schema, -, h⟩ := bind_eq_ok.1 h
  obtain ⟨keys, hkeys, h⟩ := bind_eq_ok.1 h
  obtain ⟨bindings, hbindings, h⟩ := bind_eq_ok.1 h
  obtain ⟨patterns, hpatterns, h⟩ := bind_eq_ok.1 h
  cases h
  have hcs := Node.allClean_iff.1 (clean_schemaElement hroot helement).2
  exact
    { title := xmlText_title? hcs
      keys := forall_of_mapM_eq_ok hkeys fun t hmem _ hkey => by
        obtain ⟨cs', hmem⟩ := mem_keyElements hmem
        exact clean_compileKey (hcs _ hmem).1 hkey
      bindings := clean_compileBindings hcs hbindings
      patterns := forall_of_mapM_eq_ok hpatterns fun e hmem _ hp =>
        clean_compilePattern (hcs _ (mem_rulesNamed hmem)) hp }

end XmlConformance.Rules
