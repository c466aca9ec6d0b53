import XmlConformance.Proofs.Schema.Holding

/-!
# Proofs/Schema/Inheriting — the attributes of types that extend others

A type that extends another one takes over its attributes and its wildcard. What it says itself of
attributes, in its own uses and attribute groups, comes first: of the uses of a name the last one
counts (`find?_override`), also if it prohibits the attribute, and an own wildcard stands in place
of that of the base. So an extension loses no attribute unless it prohibits it, and no namespace
unless its own wildcard leaves it out (`inherits_of_resolve`).

The base of a type is resolved anew for each type that extends it, in other circumstances than the
definition itself; what comes of it is always the same (`Resolves.unique`).
-/

namespace XmlConformance.Schema

open Xml

variable {c : Components} {l l' : Lookup}

/-! ## One result -/

/-- Groups and bases are never found to be different things. -/
structure Lookup.Coincides (l l' : Lookup) : Prop where
  group : ∀ depth depth' n, Coincide (l.group depth n) (l'.group depth' n)
  base : ∀ n, Coincide (l.base n) (l'.base n)

namespace Components

theorem coincide_resolveBase (hl : l.Coincides l') :
    ∀ base, Coincide (resolveBase l base) (resolveBase l' base)
  | none => .refl _
  | some (n, _) => (hl.base n).bind fun _ => .refl _

mutual

theorem coincide_resolveParticle (hl : l.Coincides l') (depth depth' : ℕ) :
    ∀ p, Coincide (c.resolveParticle l depth p) (c.resolveParticle l' depth' p)
  | .element _ d => (coincide_resolveElement hl d).bind fun _ => .refl _
  | .reference _ _ => .refl _
  | .sequence _ items => (coincide_resolveParticles hl depth depth' items).bind fun _ => .refl _
  | .choice _ items => (coincide_resolveParticles hl depth depth' items).bind fun _ => .refl _
  | .all _ items => (coincide_resolveParticles hl depth depth' items).bind fun _ => .refl _
  | .group _ n => (hl.group depth depth' n).bind fun _ => .refl _
  | .any _ _ => .refl _

theorem coincide_resolveParticles (hl : l.Coincides l') (depth depth' : ℕ) :
    ∀ ps, Coincide (c.resolveParticles l depth ps) (c.resolveParticles l' depth' ps)
  | [] => .refl _
  | p :: ps => (coincide_resolveParticle hl depth depth' p).bind fun _ =>
      (coincide_resolveParticles hl depth depth' ps).bind fun _ => .refl _

theorem coincide_resolveElement (hl : l.Coincides l') :
    ∀ d, Coincide (c.resolveElement l d) (c.resolveElement l' d)
  | ⟨_, type, _, _, _⟩ => (coincide_resolveType hl type).bind fun _ => .refl _

theorem coincide_resolveType (hl : l.Coincides l') :
    ∀ type, Coincide (c.resolveType l type) (c.resolveType l' type)
  | .any => .refl _
  | .named _ => .refl _
  | .complex t => (coincide_resolveComplex hl t).bind fun _ => .refl _
  | .simple _ => .refl _

theorem coincide_resolveComplex (hl : l.Coincides l') :
    ∀ t, Coincide (c.resolveComplex l t) (c.resolveComplex l' t)
  | ⟨_, base, content, _, _, _⟩ => (Coincide.refl _).bind fun _ =>
      (coincide_resolveContent hl content).bind fun _ =>
        (coincide_resolveBase hl base).bind fun _ => .refl _

theorem coincide_resolveContent (hl : l.Coincides l') :
    ∀ t, Coincide (c.resolveContent l t) (c.resolveContent l' t)
  | .empty => .refl _
  | .elements p => (coincide_resolveParticle hl groupLimit groupLimit p).bind fun _ => .refl _
  | .simple _ => .refl _

end

/-- **Wherever references are followed from**, they never lead to different things. -/
theorem coincides_lookup (steps steps' : ℕ) : ∀ inside inside',
    (c.lookup steps inside).Coincides (c.lookup steps' inside') := by
  induction steps generalizing steps' with
  | zero => exact fun _ _ => ⟨fun _ _ _ => nofun, fun _ => nofun⟩
  | succ steps ih =>
    refine fun inside inside' => ⟨fun depth depth' n q q' h h' => ?_, fun n b b' h h' => ?_⟩
    · obtain ⟨_, _, g, hsteps, found, hg⟩ := lookup_group_eq_ok h
      obtain ⟨steps', _, g', -, found', hg'⟩ := lookup_group_eq_ok h'
      cases hsteps
      cases found.symm.trans found'
      exact coincide_resolveParticle (ih steps' inside inside') _ _ g q q' hg hg'
    · obtain ⟨rfl, hnone⟩ | ⟨_, t, u, hsteps, rfl, ht, -, hu⟩ := lookup_base_eq_ok h <;>
        obtain ⟨rfl, hnone'⟩ | ⟨steps', t', u', -, rfl, ht', -, hu'⟩ := lookup_base_eq_ok h'
      · rfl
      · exact absurd ht' (hnone t')
      · exact absurd ht (hnone' t)
      · cases hsteps
        cases ht.2.symm.trans ht'.2
        exact congrArg some (coincide_resolveComplex (ih steps' _ _) t u u' hu hu')

/-- **Resolving makes one thing of a complex type**, wherever it stands. -/
theorem Resolves.unique {t t₁ t₂ : ComplexType} (h₁ : c.Resolves t t₁) (h₂ : c.Resolves t t₂) :
    t₁ = t₂ := by
  obtain ⟨steps₁, inside₁, h₁⟩ := h₁
  obtain ⟨steps₂, inside₂, h₂⟩ := h₂
  exact coincide_resolveComplex (coincides_lookup steps₁ steps₂ inside₁ inside₂) t t₁ t₂ h₁ h₂

end Components

/-! ## Attributes in place of others -/

section Override

variable {n : ExpandedName} {u : AttributeUse}

theorem find?_overrideOne (u : AttributeUse) (n : ExpandedName) : ∀ inherited : List AttributeUse,
    (overrideOne inherited u).find? (·.name == n) =
      if u.name == n then some u else inherited.find? (·.name == n)
  | [] => by
    rw [overrideOne, List.find?_singleton, List.find?_nil]
  | v :: rest => by
    rw [overrideOne]
    split
    · next heq =>
      rw [List.find?_cons, List.find?_cons, eq_of_beq heq]
      cases u.name == n <;> rfl
    · next hne =>
      rw [List.find?_cons, List.find?_cons, find?_overrideOne u n rest]
      split
      · next hv =>
        rw [if_neg fun hu => hne (beq_iff_eq.2 ((eq_of_beq hv).trans (eq_of_beq hu).symm))]
      · rfl

/-- **Of the uses of a name**, the last one of those that take the place of others counts. -/
theorem find?_override (n : ExpandedName) (inherited own : List AttributeUse) :
    (override inherited own).find? (·.name == n) =
      (own.reverse.find? (·.name == n)).or (inherited.find? (·.name == n)) := by
  induction own generalizing inherited with
  | nil => rfl
  | cons u own ih =>
    rw [override, List.foldl_cons, ← override, ih, find?_overrideOne, List.reverse_cons,
      List.find?_append, Option.or_assoc, List.find?_singleton]
    cases u.name == n <;> rfl

end Override

/-- **The last use of a name** prohibits it. -/
def Prohibits (uses : List AttributeUse) (n : ExpandedName) : Prop :=
  ∃ u, uses.reverse.find? (·.name == n) = some u ∧ u.use = .prohibited

/-- **An attribute is there** unless the uses that take the place of others prohibit it. -/
theorem exists_mem_kept {inherited own : List AttributeUse} {v : AttributeUse}
    (member : v ∈ inherited) (hinherited : ∀ u ∈ inherited, u.use ≠ .prohibited)
    (hown : ¬ Prohibits own v.name) :
    ∃ u ∈ (override inherited own).filter (·.use != .prohibited), u.name = v.name := by
  have hsome : (inherited.find? (·.name == v.name)).isSome :=
    List.find?_isSome.2 ⟨v, member, BEq.rfl⟩
  obtain ⟨u, hu⟩ : ∃ u, (override inherited own).find? (·.name == v.name) = some u := by
    rw [← Option.isSome_iff_exists, find?_override, Option.isSome_or, hsome, Bool.or_true]
  have huse : u.use ≠ .prohibited := by
    rw [find?_override, Option.or_eq_some_iff] at hu
    obtain hlast | ⟨-, hfirst⟩ := hu
    · exact fun huse => hown ⟨u, hlast, huse⟩
    · exact hinherited u (List.mem_of_find?_eq_some hfirst)
  have hname := List.find?_some hu
  exact ⟨u, List.mem_filter.2 ⟨List.mem_of_find?_eq_some hu, bne_iff_ne.2 huse⟩, eq_of_beq hname⟩

/-! ## Extensions -/

/-- What a complex type itself says of attributes. -/
def ComplexType.own (t : ComplexType) : AttributeGroup :=
  ⟨t.attributes, t.attributeGroups, t.wildcard⟩

/-- A complex type admits attributes of a namespace that it does not name. -/
def ComplexType.AdmitsOthers (t : ComplexType) (uri : Option String) : Prop :=
  ∃ w, t.wildcard = some w ∧ w.allows uri = true

/-- **No resolved type prohibits an attribute.** -/
theorem use_ne_prohibited_of_resolveComplex {t t' : ComplexType}
    (h : c.resolveComplex l t = .ok t') : ∀ u ∈ t'.attributes, u.use ≠ .prohibited := by
  obtain ⟨uses, wildcard, own, base, -, -, -, rfl⟩ := Components.resolveComplex_eq_ok h
  intro u hu
  rcases base with _ | ⟨b, _ | _⟩ <;> exact bne_iff_ne.1 (List.mem_filter.1 hu).2

namespace Components

variable {g : Grammar} {t t' b b' : ComplexType} {n : ExpandedName}

/-- An extension has the attributes of its base as far as it does not prohibit them, and the
wildcard of its base if it has none. -/
theorem Resolves.derive (h : c.Resolves t t') (derived : t.base = some (n, .extension))
    (base : c.IsBase n b) (hb : c.Resolves b b') :
    ∃ uses wildcard, c.attributesOf groupLimit t.own = .ok (uses, wildcard) ∧
      t'.attributes = (override b'.attributes uses).filter (·.use != .prohibited) ∧
      t'.wildcard = wildcard.or b'.wildcard := by
  obtain ⟨steps, inside, h⟩ := h
  obtain ⟨uses, wildcard, own, found, hattributes, -, hbase, rfl⟩ := resolveComplex_eq_ok h
  rw [derived] at hbase
  obtain ⟨b₀, hb₀, hbase⟩ := bind_eq_ok.1 hbase
  obtain ⟨-, hnone⟩ | ⟨steps', b₁, b₂, -, rfl, hb₁, -, hb₂⟩ := lookup_base_eq_ok hb₀
  · exact absurd base (hnone b)
  · cases base.2.symm.trans hb₁.2
    cases hbase
    rw [hb.unique ⟨steps', _, hb₂⟩]
    exact ⟨uses, wildcard, hattributes, rfl, rfl⟩

/-- **What is extended stays.** A grammar holds what resolving makes of each complex type of the
components and nothing else, and that is one thing. Where a type extends a complex type that has a
name outside the schema namespace, it has every attribute of the base as the grammar has it, unless
the last of its own uses of the name prohibits it; and of the namespaces that the wildcard of the
base admits, it admits those that its own wildcard, if it has one, does not leave out. -/
theorem inherits_of_resolve (h : c.resolve = .ok g) :
    (∀ t, c.Holds t → ∃ t', g.components.Holds t' ∧ c.Resolves t t') ∧
    (∀ t', g.components.Holds t' → ∃ t, c.Holds t ∧ c.Resolves t t') ∧
    (∀ t t₁ t₂, c.Resolves t t₁ → c.Resolves t t₂ → t₁ = t₂) ∧
    ∀ t t' n b', c.Resolves t t' → t.base = some (n, .extension) → isSchemaName n = false →
      g.types.find? n = some (.complex b') →
      ∃ uses wildcard, c.attributesOf groupLimit t.own = .ok (uses, wildcard) ∧
        (∀ v ∈ b'.attributes, ¬ Prohibits uses v.name → ∃ u ∈ t'.attributes, u.name = v.name) ∧
        ∀ uri, b'.AdmitsOthers uri →
          (t'.AdmitsOthers uri ↔ ∀ w, wildcard = some w → w.allows uri = true) := by
  refine ⟨fun t => exists_resolves_of_holds h, fun t' => exists_holds_of_holds h,
    fun t t₁ t₂ => Resolves.unique, fun t t' n b' ht derived hschema found => ?_⟩
  obtain ⟨d, hd, inside, hdefinition⟩ := (related_of_resolve h).1.exists_left found
  obtain ⟨b, rfl, hb⟩ := resolves_of_resolveDefinition hdefinition
  obtain ⟨uses, wildcard, hattributes, huses, hwildcard⟩ := ht.derive derived ⟨hschema, hd⟩ hb
  refine ⟨uses, wildcard, hattributes, fun v hv hown => ?_, fun uri hadmits => ?_⟩
  · obtain ⟨steps, inside, hb⟩ := hb
    rw [huses]
    exact exists_mem_kept hv (use_ne_prohibited_of_resolveComplex hb) hown
  · unfold ComplexType.AdmitsOthers
    rw [hwildcard]
    cases wildcard with
    | none => exact iff_of_true hadmits nofun
    | some w => simp

/-- A use of an attribute in no namespace, with any value. -/
def anyUse (name : String) (use : Use) : AttributeUse := ⟨⟨none, name⟩, none, use, none, false⟩

/-- A report is a document that must have a language. -/
def reportType : ComplexType :=
  ⟨false, some (⟨none, "Document"⟩, .extension), .empty, [anyUse "language" .required], [], none⟩

/-- Reports and documents; a document may have an author, a language and any other attributes. -/
def reports : Components where
  types :=
    [(⟨none, "Document"⟩, .complex ⟨false, none, .empty, [anyUse "author" .optional,
      anyUse "language" .optional], [], some ⟨.any, .lax⟩⟩),
     (⟨none, "Report"⟩, .complex reportType)]

/-- **Reports may have what documents may have.** -/
theorem inherits_reports : ∃ g b' t', reports.resolve = .ok g ∧
    g.types.find? ⟨none, "Document"⟩ = some (.complex b') ∧ g.components.Holds t' ∧
    reports.Resolves reportType t' ∧ (∀ v ∈ b'.attributes, ∃ u ∈ t'.attributes, u.name = v.name) ∧
    ∀ uri, b'.AdmitsOthers uri → t'.AdmitsOthers uri := by
  obtain ⟨hheld, -, -, hextends⟩ := inherits_of_resolve (c := reports) rfl
  obtain ⟨t', holds, hresolves⟩ := hheld reportType (.named (n := ⟨none, "Report"⟩) rfl)
  obtain ⟨uses, wildcard, hown, hattributes, hothers⟩ :=
    hextends reportType t' ⟨none, "Document"⟩ _ hresolves rfl rfl rfl
  cases (hown : Except.ok ([anyUse "language" .required], none) = .ok (uses, wildcard))
  refine ⟨_, _, t', rfl, rfl, holds, hresolves, fun v hv => hattributes v hv ?_,
    fun uri hadmits => (hothers uri hadmits).2 nofun⟩
  rintro ⟨u, hu, huse⟩
  cases List.mem_singleton.1 (List.mem_of_find?_eq_some hu)
  cases huse

/-- A type with the attribute `a` and any others. -/
def openType : ComplexType :=
  ⟨false, none, .empty, [anyUse "a" .optional], [], some ⟨.any, .skip⟩⟩

/-- A type that extends it, prohibits the attribute `a`, and admits others in no namespace only. -/
def closedType : ComplexType :=
  ⟨false, some (⟨none, "Open"⟩, .extension), .empty, [anyUse "a" .prohibited], [],
    some ⟨.among [none], .skip⟩⟩

/-- A type that has a type in the schema namespace as its base. -/
def outsideType : ComplexType :=
  ⟨false, some (schemaName "Open", .extension), .empty, [], [], none⟩

def closings : Components where
  types := [(⟨none, "Open"⟩, .complex openType), (⟨none, "Closed"⟩, .complex closedType),
    (schemaName "Open", .complex openType), (⟨none, "Outside"⟩, .complex outsideType)]

/-- **An extension can take something away**: an attribute, if it prohibits it; a namespace, with a
wildcard of its own; and all that a base in the schema namespace has. -/
theorem not_inherits_closings : ∃ g b' t' s' u', closings.resolve = .ok g ∧
    g.types.find? ⟨none, "Open"⟩ = some (.complex b') ∧
    g.types.find? ⟨none, "Closed"⟩ = some (.complex t') ∧
    g.types.find? (schemaName "Open") = some (.complex s') ∧
    g.types.find? ⟨none, "Outside"⟩ = some (.complex u') ∧
    closedType.base = some (⟨none, "Open"⟩, .extension) ∧
    outsideType.base = some (schemaName "Open", .extension) ∧
    b'.attributes.map (·.name) = [⟨none, "a"⟩] ∧ t'.attributes.map (·.name) = [] ∧
    b'.AdmitsOthers (some "urn:u") ∧ ¬ t'.AdmitsOthers (some "urn:u") ∧
    s'.attributes.map (·.name) = [⟨none, "a"⟩] ∧ u'.attributes.map (·.name) = [] := by
  refine ⟨_, _, _, _, _, rfl, rfl, rfl, rfl, rfl, rfl, rfl, rfl, rfl, ⟨_, rfl, rfl⟩, ?_, rfl, rfl⟩
  rintro ⟨w, hw, hallows⟩
  cases hw
  cases hallows

end Components

end XmlConformance.Schema
