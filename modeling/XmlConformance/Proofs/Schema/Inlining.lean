import XmlConformance.Proofs.Outcome
import XmlConformance.Proofs.Schema.Words
import XmlConformance.Schema.Resolution

/-!
# Proofs/Schema/Inlining — resolving components keeps what they admit

In a grammar a reference to a group has given way to the model of the group, with the bounds of the
reference, and the content of a type begins with that of the type that it extends. The language of
such content is what the components admit (`Components.TypeAdmits`).

What references lead to is given by a lookup, so this holds as far as the lookup keeps what is
admitted (`Lookup.InlinesGroups`, `Lookup.InlinesBases`). Every lookup that a grammar is made with
does, by induction on how often definitions are entered from within others (`inlines_lookup`).
-/

namespace XmlConformance.Schema

open Xml

/-! ## Bounds apart -/

namespace Particle

variable (elements : Table ElementDecl)

/-- The language of a particle that occurs once, whatever its bounds. -/
def languageOnce (p : Particle) : Language ExpandedName := (p.withOccurs .once).language elements

@[simp] theorem occurs_withOccurs (o : Occurs) (p : Particle) : (p.withOccurs o).occurs = o := by
  cases p <;> rfl

@[simp] theorem languageOnce_withOccurs (o : Occurs) (p : Particle) :
    (p.withOccurs o).languageOnce elements = p.languageOnce elements := by
  cases p <;> rfl

theorem language_eq_times (p : Particle) :
    p.language elements = p.occurs.times (p.languageOnce elements) := by
  cases p <;> simp only [languageOnce, language, denotes, withOccurs, occurs, Occurs.times_once]

theorem denotesEach_eq_map (ps : List Particle) :
    denotesEach elements Leaf.names ps = ps.map (language elements) := by
  induction ps with
  | nil => rfl
  | cons p ps ih =>
    rw [denotesEach, ih]
    rfl

theorem languageOnce_sequence (o : Occurs) (items : List Particle) :
    (sequence o items).languageOnce elements = (items.map (language elements)).prod := by
  rw [languageOnce, withOccurs, language, denotes, Occurs.times_once, denotesEach_eq_map]

theorem languageOnce_choice (o : Occurs) (items : List Particle) :
    (choice o items).languageOnce elements = (items.map (language elements)).sum := by
  rw [languageOnce, withOccurs, language, denotes, Occurs.times_once, denotesEach_eq_map]

end Particle

/-- The language of some content. -/
def Content.language (elements : Table ElementDecl) : Content → Language ExpandedName
  | .empty | .simple _ => 1
  | .elements p => p.language elements

/-! ## Particles -/

variable {c : Components} {elements : Table ElementDecl} {l : Lookup}

/-- Elements are declared under the same names in a table as in components. -/
def Components.SameNames (c : Components) (elements : Table ElementDecl) : Prop :=
  ∀ n, (elements.find? n).map ElementDecl.name = (c.elements.find? n).map ElementDecl.name

/-- **What groups are found to hold** admits what the models of the groups admit. -/
def Lookup.InlinesGroups (l : Lookup) (c : Components) (elements : Table ElementDecl) : Prop :=
  ∀ ⦃depth n q⦄, l.group depth n = .ok q →
    ∃ g, c.groups.find? n = some g ∧ q.languageOnce elements = c.wordsOnce g

namespace Components

theorem name_of_resolveElement {d d' : ElementDecl} (h : c.resolveElement l d = .ok d') :
    d'.name = d.name := by
  obtain ⟨name, type, nillable, isAbstract, fixed⟩ := d
  obtain ⟨type', -, h⟩ := bind_eq_ok.1 h
  cases h
  rfl

theorem languageOnce_reference (hnames : c.SameNames elements) (o : Occurs) (n : ExpandedName) :
    (Particle.reference o n).languageOnce elements = c.wordsOnce (.reference o n) := by
  rw [wordsOnce_reference, Particle.languageOnce, Particle.withOccurs, Particle.language,
    Particle.denotes, Occurs.times_once]
  have hsame := congrArg (Option.map fun m => ({[m]} : Language ExpandedName)) (hnames n)
  simpa [Option.map_map, Function.comp_def] using congrArg (Option.getD · 0) hsame

mutual

/-- **Resolving a particle** keeps its bounds and what it admits. -/
theorem languageOnce_of_resolveParticle (hnames : c.SameNames elements)
    (hl : l.InlinesGroups c elements) {depth : ℕ} : ∀ p {p'},
      c.resolveParticle l depth p = .ok p' →
        p'.occurs = p.occurs ∧ p'.languageOnce elements = c.wordsOnce p
  | .element o d, p', h => by
    obtain ⟨d', hd, h⟩ := bind_eq_ok.1 h
    cases h
    refine ⟨rfl, ?_⟩
    rw [wordsOnce_element, ← name_of_resolveElement hd, ← Leaf.names_element]
    exact Occurs.times_once _
  | .reference o n, p', h => by
    cases h
    exact ⟨rfl, languageOnce_reference hnames o n⟩
  | .sequence o items, p', h => by
    obtain ⟨items', hitems, h⟩ := bind_eq_ok.1 h
    cases h
    refine ⟨rfl, ?_⟩
    rw [wordsOnce_sequence, Particle.languageOnce_sequence,
      language_of_resolveParticles hnames hl items hitems]
  | .choice o items, p', h => by
    obtain ⟨items', hitems, h⟩ := bind_eq_ok.1 h
    cases h
    refine ⟨rfl, ?_⟩
    rw [wordsOnce_choice, Particle.languageOnce_choice,
      language_of_resolveParticles hnames hl items hitems]
  | .all o items, p', h => by
    obtain ⟨items', -, h⟩ := bind_eq_ok.1 h
    cases h
    exact ⟨rfl, (Occurs.times_once _).trans (c.wordsOnce_all o items).symm⟩
  | .group o n, p', h => by
    obtain ⟨q, hq, h⟩ := bind_eq_ok.1 h
    cases h
    obtain ⟨g, found, hlanguage⟩ := hl hq
    refine ⟨q.occurs_withOccurs o, ?_⟩
    rw [Particle.languageOnce_withOccurs, hlanguage, wordsOnce_group c o found]
  | .any o w, p', h => by
    cases h
    exact ⟨rfl, (Occurs.times_once _).trans (c.wordsOnce_any o w).symm⟩

theorem language_of_resolveParticles (hnames : c.SameNames elements)
    (hl : l.InlinesGroups c elements) {depth : ℕ} : ∀ ps {ps'},
      c.resolveParticles l depth ps = .ok ps' →
        ps'.map (Particle.language elements) = ps.map c.words
  | [], ps', h => by
    cases h
    rfl
  | p :: ps, ps', h => by
    obtain ⟨p', hp, h⟩ := bind_eq_ok.1 h
    obtain ⟨rest, hrest, h⟩ := bind_eq_ok.1 h
    cases h
    obtain ⟨hoccurs, hlanguage⟩ := languageOnce_of_resolveParticle hnames hl p hp
    rw [List.map_cons, List.map_cons, language_of_resolveParticles hnames hl ps hrest,
      Particle.language_eq_times, hoccurs, hlanguage, ← words_eq_times]

end

theorem language_of_resolveParticle (hnames : c.SameNames elements)
    (hl : l.InlinesGroups c elements) {depth : ℕ} {p p' : Particle}
    (h : c.resolveParticle l depth p = .ok p') : p'.language elements = c.words p := by
  obtain ⟨hoccurs, hlanguage⟩ := languageOnce_of_resolveParticle hnames hl p h
  rw [Particle.language_eq_times, hoccurs, hlanguage, ← words_eq_times]

theorem language_of_resolveContent (hnames : c.SameNames elements)
    (hl : l.InlinesGroups c elements) : ∀ {t t' : Content}, c.resolveContent l t = .ok t' →
      t'.isSimple = t.isSimple ∧ t'.language elements = c.contentWords t
  | .empty, _, h => by
    cases h
    exact ⟨rfl, rfl⟩
  | .elements p, _, h => by
    obtain ⟨p', hp, h⟩ := bind_eq_ok.1 h
    cases h
    exact ⟨rfl, language_of_resolveParticle hnames hl hp⟩
  | .simple t, _, h => by
    cases h
    exact ⟨rfl, rfl⟩

/-! ## Types -/

/-- The content of a type, given what is known of its base. -/
def extendBy (base : Option (ComplexType × Derivation)) (own : Content) : Content :=
  match base with
  | some (b, .extension) => extendContent b.content own
  | _ => own

/-- **What a complex type is put together from**: what is there of its own, and what is found of its
base. -/
theorem resolveComplex_eq_ok {t t' : ComplexType} (h : c.resolveComplex l t = .ok t') :
    ∃ uses wildcard own base,
      c.attributesOf groupLimit ⟨t.attributes, t.attributeGroups, t.wildcard⟩ =
        .ok (uses, wildcard) ∧
      c.resolveContent l t.content = .ok own ∧ resolveBase l t.base = .ok base ∧
      t' = derive t.mixed own uses wildcard base := by
  obtain ⟨mixed, base, content, attributes, groups, wildcard⟩ := t
  obtain ⟨⟨uses, wildcard'⟩, hattributes, h⟩ := bind_eq_ok.1 h
  obtain ⟨own, hown, h⟩ := bind_eq_ok.1 h
  obtain ⟨base', hbase, h⟩ := bind_eq_ok.1 h
  exact ⟨uses, wildcard', own, base', hattributes, hown, hbase, (Except.ok.inj h).symm⟩

theorem content_of_resolveComplex {t t' : ComplexType} (h : c.resolveComplex l t = .ok t') :
    ∃ base own, resolveBase l t.base = .ok base ∧ c.resolveContent l t.content = .ok own ∧
      t'.content = extendBy base own := by
  obtain ⟨uses, wildcard, own, base, -, hown, hbase, rfl⟩ := resolveComplex_eq_ok h
  refine ⟨base, own, hbase, hown, ?_⟩
  rcases base with _ | ⟨b, _ | _⟩ <;> rfl

theorem extendContent_of_isSimple {inherited own : Content} (h : inherited.isSimple = true) :
    extendContent inherited own = own := by
  cases inherited with
  | simple _ => rfl
  | empty => cases h
  | elements _ => cases h

theorem isSimple_extendContent (inherited own : Content) :
    (extendContent inherited own).isSimple = own.isSimple := by
  cases inherited <;> cases own <;> rfl

/-- **Extended content** is what is inherited with the own content behind it. -/
theorem language_extendContent {inherited own : Content} (hinherited : inherited.isSimple = false)
    (hown : own.isSimple = false) : (extendContent inherited own).language elements =
      inherited.language elements * own.language elements := by
  cases inherited with
  | simple _ => cases hinherited
  | empty => exact (one_mul _).symm
  | elements p =>
    cases own with
    | simple _ => cases hown
    | empty => exact (mul_one _).symm
    | elements q =>
      show Particle.language elements (.sequence .once [p, q]) = _
      rw [Particle.language_eq_times, Particle.languageOnce_sequence]
      simp [Particle.occurs, Content.language]

/-- **A type in place of another** has content of the same kind, and as its language what the other
type admits. -/
def Inlined (c : Components) (elements : Table ElementDecl) (t t' : ComplexType) : Prop :=
  t'.content.isSimple = t.content.isSimple ∧
    (t.content.isSimple = false → t'.content.language elements = c.typeWords t)

/-- A complex type that a name stands for as a base. -/
def IsBase (c : Components) (n : ExpandedName) (t : ComplexType) : Prop :=
  isSchemaName n = false ∧ c.types.find? n = some (.complex t)

end Components

/-- **What bases are found to be** is in the place of the complex types that have the names; without
such a type nothing is found. -/
def Lookup.InlinesBases (l : Lookup) (c : Components) (elements : Table ElementDecl) : Prop :=
  ∀ ⦃n b⦄, l.base n = .ok b →
    (b = none ∧ ∀ t, ¬ c.IsBase n t) ∨ ∃ t t', b = some t' ∧ c.IsBase n t ∧ c.Inlined elements t t'

namespace Components

theorem resolveBase_eq_some {base : Option (ExpandedName × Derivation)} {b : ComplexType}
    {derivation : Derivation} (h : resolveBase l base = .ok (some (b, derivation))) :
    ∃ n, base = some (n, derivation) ∧ l.base n = .ok (some b) := by
  cases base with
  | none => cases h
  | some base =>
    obtain ⟨n, derivation'⟩ := base
    obtain ⟨found, hfound, h⟩ := bind_eq_ok.1 h
    obtain ⟨b', rfl, hb⟩ := Option.map_eq_some_iff.1 (Except.ok.inj h)
    cases hb
    exact ⟨n, rfl, hfound⟩

/-- What a type extends is found. -/
theorem Extends.exists_base (hbases : l.InlinesBases c elements) {t b : ComplexType}
    (h : c.Extends t b) {base : Option (ComplexType × Derivation)}
    (hbase : resolveBase l t.base = .ok base) :
    ∃ b', base = some (b', .extension) ∧ c.Inlined elements b b' := by
  obtain ⟨n, htbase, hschema, htype, -⟩ := h
  rw [htbase] at hbase
  obtain ⟨found, hfound, hbase⟩ := bind_eq_ok.1 hbase
  cases hbase
  obtain ⟨-, hnone⟩ | ⟨b₀, b', rfl, hb₀, hinlined⟩ := hbases hfound
  · exact absurd ⟨hschema, htype⟩ (hnone b)
  · obtain rfl := TypeDefinition.complex.inj (Option.some.inj (hb₀.2.symm.trans htype))
    exact ⟨b', rfl, hinlined⟩

/-- Of what is found as the base of an extension, a text is not taken over, and anything else is
extended. -/
theorem extends_of_resolveBase (hbases : l.InlinesBases c elements) {t b' : ComplexType}
    (hbase : resolveBase l t.base = .ok (some (b', .extension)))
    (hsimple : b'.content.isSimple = false) : ∃ b, c.Extends t b := by
  obtain ⟨n, htbase, hfound⟩ := resolveBase_eq_some hbase
  obtain ⟨hnone, -⟩ | ⟨b, b₀, hsome, ⟨hschema, htype⟩, hkind, -⟩ := hbases hfound
  · cases hnone
  · cases hsome
    exact ⟨b, n, htbase, hschema, htype, hkind.symm.trans hsimple⟩

/-- **Resolving a complex type** keeps what it admits. -/
theorem inlined_of_resolveComplex (hnames : c.SameNames elements)
    (hgroups : l.InlinesGroups c elements) (hbases : l.InlinesBases c elements)
    {t t' : ComplexType} (h : c.resolveComplex l t = .ok t') : c.Inlined elements t t' := by
  obtain ⟨base, own, hbase, hown, hcontent⟩ := content_of_resolveComplex h
  obtain ⟨hkind, hlanguage⟩ := language_of_resolveContent hnames hgroups hown
  by_cases hextends : ∃ b, c.Extends t b
  · obtain ⟨b, hextends⟩ := hextends
    have hsimple : b.content.isSimple = false := hextends.choose_spec.2.2.2
    obtain ⟨b', rfl, hkindb, hlanguageb⟩ := hextends.exists_base hbases hbase
    have hcontent : t'.content = extendContent b'.content own := hcontent
    refine ⟨?_, fun ht => ?_⟩
    · rw [hcontent, isSimple_extendContent, hkind]
    · rw [typeWords_of_extends hextends, ← hlanguageb hsimple, ← hlanguage, hcontent]
      exact language_extendContent (hkindb.trans hsimple) (hkind.trans ht)
  · have halone : t'.content = own := by
      rcases base with _ | ⟨b', _ | _⟩
      · exact hcontent
      · refine hcontent.trans (extendContent_of_isSimple ?_)
        exact by_contra fun hsimple => hextends
          (extends_of_resolveBase hbases hbase (Bool.eq_false_of_not_eq_true hsimple))
      · exact hcontent
    refine ⟨halone ▸ hkind, fun _ => ?_⟩
    rw [typeWords_of_alone (not_exists.1 hextends), halone, hlanguage]

/-! ## Following references -/

/-- What a group is found to hold is what resolving makes of its model. -/
theorem lookup_group_eq_ok {steps depth : ℕ} {inside : List ExpandedName} {n : ExpandedName}
    {q : Particle} (h : (c.lookup steps inside).group depth n = .ok q) :
    ∃ steps' depth' g, steps = steps' + 1 ∧ c.groups.find? n = some g ∧
      c.resolveParticle (c.lookup steps' inside) depth' g = .ok q := by
  match steps, depth, h with
  | steps + 1, depth + 1, h =>
    simp only [lookup, enter] at h
    split at h
    · cases h
    · next g found => exact ⟨steps, depth, g, rfl, found, h⟩

/-- What a base is found to be is what resolving makes of the type, or nothing where no complex type
has the name. -/
theorem lookup_base_eq_ok {steps : ℕ} {inside : List ExpandedName} {n : ExpandedName}
    {b : Option ComplexType} (h : (c.lookup steps inside).base n = .ok b) :
    (b = none ∧ ∀ t, ¬ c.IsBase n t) ∨ ∃ steps' t t', steps = steps' + 1 ∧ b = some t' ∧
      c.IsBase n t ∧ n ∉ inside ∧ c.resolveComplex (c.lookup steps' (n :: inside)) t = .ok t' := by
  match steps, h with
  | steps + 1, h =>
    simp only [lookup, enter] at h
    split at h
    · next hschema =>
      cases h
      exact .inl ⟨rfl, fun t ht => Bool.noConfusion (hschema.symm.trans ht.1)⟩
    next hschema =>
    split at h
    · cases h
    next hinside =>
    split at h
    · cases h
    · next s found =>
      cases h
      exact .inl ⟨rfl, fun t ht => by cases found.symm.trans ht.2⟩
    · next t found =>
      obtain ⟨t', ht', rfl⟩ := map_eq_ok.1 h
      exact .inr ⟨steps, t, t', rfl, rfl, ⟨Bool.eq_false_of_not_eq_true hschema, found⟩,
        by simpa using hinside, ht'⟩

/-- **However far references are followed**, what they lead to keeps what is admitted. -/
theorem inlines_lookup (hnames : c.SameNames elements) : ∀ steps inside,
    (c.lookup steps inside).InlinesGroups c elements ∧
      (c.lookup steps inside).InlinesBases c elements := by
  intro steps
  induction steps with
  | zero => exact fun _ => ⟨nofun, nofun⟩
  | succ steps ih =>
    refine fun inside => ⟨fun depth n q h => ?_, fun n b h => ?_⟩
    · obtain ⟨_, depth', g, hsteps, found, hg⟩ := lookup_group_eq_ok h
      cases hsteps
      exact ⟨g, found, (languageOnce_of_resolveParticle hnames (ih inside).1 g hg).2⟩
    · obtain hnone | ⟨_, t, t', hsteps, rfl, hbase, -, ht⟩ := lookup_base_eq_ok h
      · exact .inl hnone
      · cases hsteps
        obtain ⟨hgroups, hbases⟩ := ih (n :: inside)
        exact .inr ⟨t, t', rfl, hbase, inlined_of_resolveComplex hnames hgroups hbases ht⟩

end Components

end XmlConformance.Schema
