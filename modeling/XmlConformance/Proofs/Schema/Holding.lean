import XmlConformance.Proofs.Schema.Inlining

/-!
# Proofs/Schema/Holding — the complex types of a grammar and of its components

Components hold complex types under names, as the types of declared elements, and within the content
of other types, whether it is written there or in a group (`Components.Holds`). A grammar holds no
others than those that resolving makes of them, each with the language that the components admit
(`language_of_resolve`).
-/

namespace XmlConformance.Schema

open Xml

/-! ## Declarations in content -/

/-- **A declaration stands in a particle**, or in a group that the particle refers to. -/
inductive Particle.Declares (groups : Table Particle) : Particle → ElementDecl → Prop
  | element {o : Occurs} {d : ElementDecl} : Declares groups (.element o d) d
  | sequence {o : Occurs} {items : List Particle} {p : Particle} {d : ElementDecl}
      (member : p ∈ items) (declares : Declares groups p d) : Declares groups (.sequence o items) d
  | choice {o : Occurs} {items : List Particle} {p : Particle} {d : ElementDecl}
      (member : p ∈ items) (declares : Declares groups p d) : Declares groups (.choice o items) d
  | all {o : Occurs} {items : List Particle} {p : Particle} {d : ElementDecl}
      (member : p ∈ items) (declares : Declares groups p d) : Declares groups (.all o items) d
  | group {o : Occurs} {n : ExpandedName} {g : Particle} {d : ElementDecl}
      (found : groups.find? n = some g) (declares : Declares groups g d) :
      Declares groups (.group o n) d

/-- A declaration stands in some content. -/
def Content.Declares (groups : Table Particle) (t : Content) (d : ElementDecl) : Prop :=
  ∃ p, t = .elements p ∧ p.Declares groups d

theorem Particle.declares_withOccurs {groups : Table Particle} {o : Occurs} {p : Particle}
    {d : ElementDecl} (h : (p.withOccurs o).Declares groups d) : p.Declares groups d := by
  cases p with
  | element _ _ =>
    cases h
    exact .element
  | sequence _ _ =>
    cases h with
    | sequence member declares => exact .sequence member declares
  | choice _ _ =>
    cases h with
    | choice member declares => exact .choice member declares
  | all _ _ =>
    cases h with
    | all member declares => exact .all member declares
  | group _ _ =>
    cases h with
    | group found declares => exact .group found declares
  | reference _ _ => cases h
  | any _ _ => cases h

/-- Extended content declares what one of its parts does. -/
theorem declares_of_extendContent {groups : Table Particle} {inherited own : Content}
    {d : ElementDecl} (h : (extendContent inherited own).Declares groups d) :
    inherited.Declares groups d ∨ own.Declares groups d := by
  obtain ⟨p, hp, declares⟩ := h
  cases inherited with
  | simple _ => exact .inr ⟨p, hp, declares⟩
  | empty => exact .inr ⟨p, hp, declares⟩
  | elements q =>
    cases own with
    | simple _ => exact .inr ⟨p, hp, declares⟩
    | empty => exact .inl ⟨p, hp, declares⟩
    | elements r =>
      cases hp
      cases declares with
      | sequence member declares =>
        obtain rfl | member := List.mem_cons.1 member
        · exact .inl ⟨_, rfl, declares⟩
        · obtain rfl := List.mem_singleton.1 member
          exact .inr ⟨_, rfl, declares⟩

/-- Own content declares the same where other content is in front of it. -/
theorem Content.Declares.extendBy {groups : Table Particle} {own : Content} {d : ElementDecl}
    (h : own.Declares groups d) (base : Option (ComplexType × Derivation)) :
    (Components.extendBy base own).Declares groups d := by
  obtain ⟨p, rfl, declares⟩ := h
  rcases base with _ | ⟨⟨mixed, base, content, attributes, attributeGroups, wildcard⟩, _ | _⟩
  · exact ⟨p, rfl, declares⟩
  · cases content with
    | elements q => exact ⟨_, rfl, .sequence (List.mem_cons_of_mem q List.mem_cons_self) declares⟩
    | empty => exact ⟨p, rfl, declares⟩
    | simple _ => exact ⟨p, rfl, declares⟩
  · exact ⟨p, rfl, declares⟩

/-! ## Complex types -/

namespace Components

/-- **The complex types that components hold**: under names, of declared elements, and within the
content of others. -/
inductive Holds (c : Components) : ComplexType → Prop
  | named {n : ExpandedName} {t : ComplexType} (found : c.types.find? n = some (.complex t)) :
      Holds c t
  | declared {n : ExpandedName} {d : ElementDecl} {t : ComplexType}
      (found : c.elements.find? n = some d) (type : d.type = .complex t) : Holds c t
  | inside {t u : ComplexType} {d : ElementDecl} (outer : Holds c t)
      (declares : t.content.Declares c.groups d) (type : d.type = .complex u) : Holds c u

/-- **What resolving makes of a complex type**, while some types are being resolved. -/
def Resolves (c : Components) (t t' : ComplexType) : Prop :=
  ∃ steps inside, c.resolveComplex (c.lookup steps inside) t = .ok t'

/-- What resolving makes of a declaration. -/
def ResolvesDecl (c : Components) (d d' : ElementDecl) : Prop :=
  ∃ steps inside, c.resolveElement (c.lookup steps inside) d = .ok d'

end Components

/-- A grammar, seen as components: there are no groups in it. -/
def Grammar.components (g : Grammar) : Components :=
  { elements := g.elements, attributes := g.attributes, types := g.types }

variable {c : Components} {l : Lookup}

namespace Components

theorem eq_named_of_resolveTypeName {n : ExpandedName} {t : ElementType}
    (h : c.resolveTypeName n = .ok t) : t = .named n := by
  unfold resolveTypeName at h
  dsimp only at h
  generalize (if isSchemaName n then _ else _ : Bool) = known at h
  cases known with
  | true => exact (Except.ok.inj h).symm
  | false => cases h

/-- A complex type of a resolved declaration is what resolving made of one. -/
theorem ResolvesDecl.complex {d d' : ElementDecl} {t' : ComplexType} (h : c.ResolvesDecl d d')
    (type : d'.type = .complex t') : ∃ t, d.type = .complex t ∧ c.Resolves t t' := by
  obtain ⟨steps, inside, h⟩ := h
  obtain ⟨name, dtype, nillable, isAbstract, fixed⟩ := d
  obtain ⟨dtype', htype, h⟩ := bind_eq_ok.1 h
  cases h
  obtain rfl : dtype' = .complex t' := type
  cases dtype with
  | any => cases htype
  | named n => cases eq_named_of_resolveTypeName htype
  | simple _ => cases htype
  | complex t =>
    obtain ⟨u, hu, htype⟩ := bind_eq_ok.1 htype
    cases htype
    exact ⟨t, rfl, steps, inside, hu⟩

end Components

/-! ## Where declarations come from -/

/-- **What groups are found to hold** declares only what stands in the groups. -/
def Lookup.TracesGroups (l : Lookup) (c : Components) : Prop :=
  ∀ ⦃depth n q d'⦄, l.group depth n = .ok q → q.Declares [] d' →
    ∃ g d, c.groups.find? n = some g ∧ g.Declares c.groups d ∧ c.ResolvesDecl d d'

namespace Components

mutual

/-- **A resolved particle** declares only what stands in the particle. -/
theorem declares_of_resolveParticle {steps : ℕ} {inside : List ExpandedName}
    (hl : (c.lookup steps inside).TracesGroups c) {depth : ℕ} {d' : ElementDecl} : ∀ p {p'},
      c.resolveParticle (c.lookup steps inside) depth p = .ok p' → p'.Declares [] d' →
        ∃ d, p.Declares c.groups d ∧ c.ResolvesDecl d d'
  | .element o d, p', h, declares => by
    obtain ⟨d'', hd, h⟩ := bind_eq_ok.1 h
    cases h
    cases declares
    exact ⟨d, .element, steps, inside, hd⟩
  | .reference o n, p', h, declares => by
    cases h
    cases declares
  | .sequence o items, p', h, declares => by
    obtain ⟨items', hitems, h⟩ := bind_eq_ok.1 h
    cases h
    cases declares with
    | sequence member declares =>
      obtain ⟨p, hp, d, hd⟩ := declares_of_resolveParticles hl items hitems member declares
      exact ⟨d, .sequence hp hd.1, hd.2⟩
  | .choice o items, p', h, declares => by
    obtain ⟨items', hitems, h⟩ := bind_eq_ok.1 h
    cases h
    cases declares with
    | choice member declares =>
      obtain ⟨p, hp, d, hd⟩ := declares_of_resolveParticles hl items hitems member declares
      exact ⟨d, .choice hp hd.1, hd.2⟩
  | .all o items, p', h, declares => by
    obtain ⟨items', hitems, h⟩ := bind_eq_ok.1 h
    cases h
    cases declares with
    | all member declares =>
      obtain ⟨p, hp, d, hd⟩ := declares_of_resolveParticles hl items hitems member declares
      exact ⟨d, .all hp hd.1, hd.2⟩
  | .group o n, p', h, declares => by
    obtain ⟨q, hq, h⟩ := bind_eq_ok.1 h
    cases h
    obtain ⟨g, d, found, hd⟩ := hl hq (Particle.declares_withOccurs declares)
    exact ⟨d, .group found hd.1, hd.2⟩
  | .any o w, p', h, declares => by
    cases h
    cases declares

theorem declares_of_resolveParticles {steps : ℕ} {inside : List ExpandedName}
    (hl : (c.lookup steps inside).TracesGroups c) {depth : ℕ} {p' : Particle} {d' : ElementDecl} :
    ∀ ps {ps'}, c.resolveParticles (c.lookup steps inside) depth ps = .ok ps' → p' ∈ ps' →
      p'.Declares [] d' → ∃ p ∈ ps, ∃ d, p.Declares c.groups d ∧ c.ResolvesDecl d d'
  | [], ps', h, member, _ => by
    cases h
    cases member
  | p :: ps, ps', h, member, declares => by
    obtain ⟨first, hp, h⟩ := bind_eq_ok.1 h
    obtain ⟨rest, hrest, h⟩ := bind_eq_ok.1 h
    cases h
    obtain rfl | member := List.mem_cons.1 member
    · exact ⟨p, List.mem_cons_self, declares_of_resolveParticle hl p hp declares⟩
    · obtain ⟨q, hq, hd⟩ := declares_of_resolveParticles hl ps hrest member declares
      exact ⟨q, List.mem_cons_of_mem p hq, hd⟩

end

theorem tracesGroups_lookup (steps : ℕ) (inside : List ExpandedName) :
    (c.lookup steps inside).TracesGroups c := by
  induction steps with
  | zero => exact fun _ _ _ _ h => nomatch h
  | succ steps ih =>
    intro depth n q d' h declares
    obtain ⟨_, depth', g, hsteps, found, hg⟩ := lookup_group_eq_ok h
    cases hsteps
    obtain ⟨d, hd⟩ := declares_of_resolveParticle ih g hg declares
    exact ⟨g, d, found, hd⟩

theorem declares_of_resolveContent {steps : ℕ} {inside : List ExpandedName} {t t' : Content}
    {d' : ElementDecl} (h : c.resolveContent (c.lookup steps inside) t = .ok t')
    (declares : t'.Declares [] d') : ∃ d, t.Declares c.groups d ∧ c.ResolvesDecl d d' := by
  obtain ⟨p', rfl, declares⟩ := declares
  cases t with
  | empty => cases h
  | simple _ => cases h
  | elements p =>
    obtain ⟨q, hp, h⟩ := bind_eq_ok.1 h
    cases h
    obtain ⟨d, hd⟩ :=
      declares_of_resolveParticle (tracesGroups_lookup steps inside) p hp declares
    exact ⟨d, ⟨p, rfl, hd.1⟩, hd.2⟩

/-- **What a resolved type declares** stands in a type that the components hold: itself, or one that
it is derived from. -/
theorem holds_declares_of_resolveComplex (steps : ℕ) : ∀ {inside : List ExpandedName}
    {t t' : ComplexType} {d' : ElementDecl},
      c.resolveComplex (c.lookup steps inside) t = .ok t' → c.Holds t →
      t'.content.Declares [] d' →
        ∃ u d, c.Holds u ∧ u.content.Declares c.groups d ∧ c.ResolvesDecl d d' := by
  induction steps using Nat.strong_induction_on with
  | _ steps ih =>
    intro inside t t' d' h holds declares
    obtain ⟨base, own, hbase, hown, hcontent⟩ := content_of_resolveComplex h
    rw [hcontent] at declares
    have hinside (declares : own.Declares [] d') :
        ∃ u d, c.Holds u ∧ u.content.Declares c.groups d ∧ c.ResolvesDecl d d' := by
      obtain ⟨d, hd⟩ := declares_of_resolveContent hown declares
      exact ⟨t, d, holds, hd⟩
    rcases base with _ | ⟨b', _ | _⟩
    · exact hinside declares
    · rcases declares_of_extendContent declares with declares | declares
      · obtain ⟨n, -, hfound⟩ := resolveBase_eq_some hbase
        obtain ⟨hnone, -⟩ | ⟨steps', b, _, rfl, hsome, hb, -, hresolve⟩ := lookup_base_eq_ok hfound
        · cases hnone
        · cases hsome
          exact ih steps' steps'.lt_succ_self hresolve (.named hb.2) declares
      · exact hinside declares
    · exact hinside declares

end Components

/-! ## Where declarations go -/

theorem Particle.Declares.withOccurs {groups : Table Particle} {p : Particle} {d : ElementDecl}
    (h : p.Declares groups d) (o : Occurs) : (p.withOccurs o).Declares groups d := by
  cases h with
  | element => exact .element
  | sequence member declares => exact .sequence member declares
  | choice member declares => exact .choice member declares
  | all member declares => exact .all member declares
  | group found declares => exact .group found declares

namespace Components

theorem exists_mem_of_resolveParticles {depth : ℕ} {p : Particle} : ∀ {ps ps' : List Particle},
    c.resolveParticles l depth ps = .ok ps' → p ∈ ps →
      ∃ p' ∈ ps', c.resolveParticle l depth p = .ok p'
  | [], _, _, member => nomatch member
  | q :: ps, _, h, member => by
    obtain ⟨first, hq, h⟩ := bind_eq_ok.1 h
    obtain ⟨rest, hrest, h⟩ := bind_eq_ok.1 h
    cases h
    obtain rfl | member := List.mem_cons.1 member
    · exact ⟨first, List.mem_cons_self, hq⟩
    · obtain ⟨p', member', hp⟩ := exists_mem_of_resolveParticles hrest member
      exact ⟨p', List.mem_cons_of_mem first member', hp⟩

/-- **What stands in a particle** or in its groups is resolved and stands in the resolved
particle. -/
theorem exists_declares_of_resolveParticle {inside : List ExpandedName} {p : Particle}
    {d : ElementDecl} (declares : p.Declares c.groups d) : ∀ {steps depth : ℕ} {p' : Particle},
      c.resolveParticle (c.lookup steps inside) depth p = .ok p' →
        ∃ steps' d', p'.Declares [] d' ∧ c.resolveElement (c.lookup steps' inside) d = .ok d' := by
  induction declares with
  | element =>
    intro steps depth p' h
    obtain ⟨d', hd, h⟩ := bind_eq_ok.1 h
    cases h
    exact ⟨steps, d', .element, hd⟩
  | sequence member _ ih =>
    intro steps depth p' h
    obtain ⟨items', hitems, h⟩ := bind_eq_ok.1 h
    cases h
    obtain ⟨q', member', hq⟩ := exists_mem_of_resolveParticles hitems member
    obtain ⟨steps', d', declares', hd⟩ := ih hq
    exact ⟨steps', d', .sequence member' declares', hd⟩
  | choice member _ ih =>
    intro steps depth p' h
    obtain ⟨items', hitems, h⟩ := bind_eq_ok.1 h
    cases h
    obtain ⟨q', member', hq⟩ := exists_mem_of_resolveParticles hitems member
    obtain ⟨steps', d', declares', hd⟩ := ih hq
    exact ⟨steps', d', .choice member' declares', hd⟩
  | all member _ ih =>
    intro steps depth p' h
    obtain ⟨items', hitems, h⟩ := bind_eq_ok.1 h
    cases h
    obtain ⟨q', member', hq⟩ := exists_mem_of_resolveParticles hitems member
    obtain ⟨steps', d', declares', hd⟩ := ih hq
    exact ⟨steps', d', .all member' declares', hd⟩
  | group found _ ih =>
    intro steps depth p' h
    obtain ⟨q, hq, h⟩ := bind_eq_ok.1 h
    cases h
    obtain ⟨_, _, g, -, found', hg⟩ := lookup_group_eq_ok hq
    cases found.symm.trans found'
    obtain ⟨steps', d', declares', hd⟩ := ih hg
    exact ⟨steps', d', declares'.withOccurs _, hd⟩

theorem exists_declares_of_resolveContent {steps : ℕ} {inside : List ExpandedName} {t t' : Content}
    {d : ElementDecl} (h : c.resolveContent (c.lookup steps inside) t = .ok t')
    (declares : t.Declares c.groups d) :
    ∃ steps' d', t'.Declares [] d' ∧ c.resolveElement (c.lookup steps' inside) d = .ok d' := by
  obtain ⟨p, rfl, declares⟩ := declares
  obtain ⟨p', hp, h⟩ := bind_eq_ok.1 h
  cases h
  obtain ⟨steps', d', declares', hd⟩ := exists_declares_of_resolveParticle declares hp
  exact ⟨steps', d', ⟨p', rfl, declares'⟩, hd⟩

/-- The complex type of a declaration is resolved. -/
theorem exists_complex_of_resolveElement {d d' : ElementDecl} {t : ComplexType}
    (h : c.resolveElement l d = .ok d') (type : d.type = .complex t) :
    ∃ t', d'.type = .complex t' ∧ c.resolveComplex l t = .ok t' := by
  obtain ⟨name, dtype, nillable, isAbstract, fixed⟩ := d
  obtain rfl : dtype = .complex t := type
  obtain ⟨dtype', htype, h⟩ := bind_eq_ok.1 h
  obtain ⟨t', ht', htype⟩ := bind_eq_ok.1 htype
  cases htype
  cases h
  exact ⟨t', rfl, ht'⟩

end Components

/-! ## Tables -/

/-- Components under the same names are related, one by one. -/
def Table.Related {α : Type} (R : α → α → Prop) (t t' : Table α) : Prop :=
  List.Forall₂ (fun e e' => e.1 = e'.1 ∧ R e.2 e'.2) t t'

/-- **Under a name** there is something in both tables, or in neither. -/
theorem Table.Related.find? {α : Type} {R : α → α → Prop} {t t' : Table α}
    (h : Table.Related R t t') (n : ExpandedName) :
    (t.find? n = none ∧ t'.find? n = none) ∨
      ∃ a a', t.find? n = some a ∧ t'.find? n = some a' ∧ R a a' := by
  induction h with
  | nil => exact .inl ⟨rfl, rfl⟩
  | @cons e e' t t' he _ ih =>
    obtain ⟨m, a⟩ := e
    obtain ⟨m', a'⟩ := e'
    obtain ⟨rfl, hrelated⟩ := he
    simp only [Table.find?, List.lookup_cons] at ih ⊢
    split
    · exact .inr ⟨a, a', rfl, rfl, hrelated⟩
    · exact ih

theorem Table.Related.exists_right {α : Type} {R : α → α → Prop} {t t' : Table α}
    (h : Table.Related R t t') {n : ExpandedName} {a : α} (found : t.find? n = some a) :
    ∃ a', t'.find? n = some a' ∧ R a a' := by
  obtain ⟨hnone, -⟩ | ⟨b, a', hb, ha', hrelated⟩ := h.find? n
  · cases found.symm.trans hnone
  · obtain rfl := Option.some.inj (found.symm.trans hb)
    exact ⟨a', ha', hrelated⟩

theorem Table.Related.exists_left {α : Type} {R : α → α → Prop} {t t' : Table α}
    (h : Table.Related R t t') {n : ExpandedName} {a' : α} (found : t'.find? n = some a') :
    ∃ a, t.find? n = some a ∧ R a a' := by
  obtain ⟨-, hnone⟩ | ⟨a, b, ha, hb, hrelated⟩ := h.find? n
  · cases found.symm.trans hnone
  · obtain rfl := Option.some.inj (found.symm.trans hb)
    exact ⟨a, ha, hrelated⟩

namespace Components

theorem related_of_resolveTypes {follow : Following} : ∀ {types types' : Table TypeDefinition},
    c.resolveTypes follow types = .ok types' →
      Table.Related (fun d d' => ∃ n, c.resolveDefinition (follow [n]) d = .ok d') types types'
  | [], _, h => by
    cases h
    exact .nil
  | (n, d) :: rest, _, h => by
    obtain ⟨d', hd, h⟩ := bind_eq_ok.1 h
    obtain ⟨rest', hrest, h⟩ := bind_eq_ok.1 h
    cases h
    exact .cons ⟨rfl, n, hd⟩ (related_of_resolveTypes hrest)

theorem related_of_resolveElements {follow : Following} :
    ∀ {decls decls' : Table ElementDecl}, c.resolveElements follow decls = .ok decls' →
      Table.Related (fun d d' => c.resolveElement (follow []) d = .ok d') decls decls'
  | [], _, h => by
    cases h
    exact .nil
  | (n, d) :: rest, _, h => by
    obtain ⟨d', hd, h⟩ := bind_eq_ok.1 h
    obtain ⟨rest', hrest, h⟩ := bind_eq_ok.1 h
    cases h
    exact .cons ⟨rfl, hd⟩ (related_of_resolveElements hrest)

/-! ## Grammars -/

variable {g : Grammar}

/-- A grammar that was made of components has what resolving makes of each of them. -/
theorem related_of_resolve (h : c.resolve = .ok g) :
    Table.Related (fun d d' => ∃ inside,
      c.resolveDefinition (c.lookup c.stepLimit inside) d = .ok d') c.types g.types ∧
    Table.Related (fun d d' => c.resolveElement (c.lookup c.stepLimit []) d = .ok d')
      c.elements g.elements := by
  obtain ⟨types, htypes, h⟩ := bind_eq_ok.1 h
  obtain ⟨decls, hdecls, h⟩ := bind_eq_ok.1 h
  obtain ⟨_, -, h⟩ := bind_eq_ok.1 h
  cases h
  refine ⟨(related_of_resolveTypes htypes).imp ?_, related_of_resolveElements hdecls⟩
  rintro e e' ⟨hname, n, hresolve⟩
  exact ⟨hname, [n], hresolve⟩

theorem sameNames_of_resolve (h : c.resolve = .ok g) : c.SameNames g.elements := by
  intro n
  obtain ⟨hc, hg⟩ | ⟨d, d', hc, hg, hresolve⟩ := (related_of_resolve h).2.find? n
  · rw [hc, hg]
  · rw [hc, hg]
    exact congrArg some (name_of_resolveElement hresolve)

/-- A complex type as a definition is resolved as a complex type. -/
theorem resolves_of_resolveDefinition {steps : ℕ} {inside : List ExpandedName} {d : TypeDefinition}
    {t' : ComplexType} (h : c.resolveDefinition (c.lookup steps inside) d = .ok (.complex t')) :
    ∃ t, d = .complex t ∧ c.Resolves t t' := by
  cases d with
  | simple _ => cases h
  | complex t =>
    obtain ⟨u, hu, h⟩ := bind_eq_ok.1 h
    cases h
    exact ⟨t, rfl, steps, inside, hu⟩

/-- **A grammar holds no other complex types** than what resolving makes of those that the
components hold. -/
theorem exists_holds_of_holds (h : c.resolve = .ok g) {t' : ComplexType}
    (holds : g.components.Holds t') : ∃ t, c.Holds t ∧ c.Resolves t t' := by
  induction holds with
  | named found =>
    obtain ⟨d, hd, inside, hresolve⟩ := (related_of_resolve h).1.exists_left found
    obtain ⟨t, rfl, hresolves⟩ := resolves_of_resolveDefinition hresolve
    exact ⟨t, .named hd, hresolves⟩
  | declared found type =>
    obtain ⟨d, hd, hresolve⟩ := (related_of_resolve h).2.exists_left found
    obtain ⟨t, htype, hresolves⟩ := ResolvesDecl.complex ⟨_, _, hresolve⟩ type
    exact ⟨t, .declared hd htype, hresolves⟩
  | inside _ declares type ih =>
    obtain ⟨t, holds, steps, inside, hresolve⟩ := ih
    obtain ⟨u, d, hu, hd, hresolved⟩ :=
      holds_declares_of_resolveComplex steps hresolve holds declares
    obtain ⟨t₁, htype, hresolves⟩ := hresolved.complex type
    exact ⟨t₁, .inside hu hd htype, hresolves⟩

/-- A complex type under a name is under the name in the grammar. -/
theorem exists_resolves_of_find? (h : c.resolve = .ok g) {n : ExpandedName} {t : ComplexType}
    (found : c.types.find? n = some (.complex t)) :
    ∃ t', g.types.find? n = some (.complex t') ∧ c.Resolves t t' := by
  obtain ⟨d', hd', inside, hresolve⟩ := (related_of_resolve h).1.exists_right found
  obtain ⟨t', ht', hd⟩ := bind_eq_ok.1 hresolve
  cases hd
  exact ⟨t', hd', _, _, ht'⟩

/-- The complex type of a declared element is the type of the element in the grammar. -/
theorem exists_resolves_of_declared (h : c.resolve = .ok g) {n : ExpandedName} {d : ElementDecl}
    {t : ComplexType} (found : c.elements.find? n = some d) (type : d.type = .complex t) :
    ∃ d' t', g.elements.find? n = some d' ∧ d'.type = .complex t' ∧ c.Resolves t t' := by
  obtain ⟨d', hd', hresolve⟩ := (related_of_resolve h).2.exists_right found
  obtain ⟨t', htype, ht'⟩ := exists_complex_of_resolveElement hresolve type
  exact ⟨d', t', hd', htype, _, _, ht'⟩

/-- **A grammar holds all complex types** that the components hold, as resolving makes them. -/
theorem exists_resolves_of_holds (h : c.resolve = .ok g) {t : ComplexType} (holds : c.Holds t) :
    ∃ t', g.components.Holds t' ∧ c.Resolves t t' := by
  induction holds with
  | named found =>
    obtain ⟨t', found', hresolves⟩ := exists_resolves_of_find? h found
    exact ⟨t', .named found', hresolves⟩
  | declared found type =>
    obtain ⟨d', t', found', type', hresolves⟩ := exists_resolves_of_declared h found type
    exact ⟨t', .declared found' type', hresolves⟩
  | inside _ declares type ih =>
    obtain ⟨t', holds', steps, inside, ht'⟩ := ih
    obtain ⟨base, own, -, hown, hcontent⟩ := content_of_resolveComplex ht'
    obtain ⟨steps', d', declares', hd'⟩ := exists_declares_of_resolveContent hown declares
    obtain ⟨u', type', hu'⟩ := exists_complex_of_resolveElement hd' type
    exact ⟨u', .inside holds' (hcontent ▸ declares'.extendBy base) type', steps', inside, hu'⟩

/-- **Making a grammar keeps what complex types admit.** Every complex type under a name and of a
declared element is there with what resolving makes of it; all that the grammar holds comes from
what the components hold; and what comes of a type with children or without content has as its
language what the type admits: groups stand for their models, as often as the references to them
permit, extended types come first, and restricted types admit their own content alone. -/
theorem language_of_resolve {c : Components} {g : Grammar} (h : c.resolve = .ok g) :
    (∀ n t, c.types.find? n = some (.complex t) →
      ∃ t', g.types.find? n = some (.complex t') ∧ c.Resolves t t') ∧
    (∀ n d t, c.elements.find? n = some d → d.type = .complex t →
      ∃ d' t', g.elements.find? n = some d' ∧ d'.type = .complex t' ∧ c.Resolves t t') ∧
    (∀ t', g.components.Holds t' → ∃ t, c.Holds t ∧ c.Resolves t t') ∧
    ∀ t t', c.Resolves t t' →
      t'.content.isSimple = t.content.isSimple ∧
        (t.content.isSimple = false → t'.content.language g.elements = c.typeWords t) := by
  refine ⟨fun n t => exists_resolves_of_find? h, fun n d t => exists_resolves_of_declared h,
    fun t' => exists_holds_of_holds h, ?_⟩
  rintro t t' ⟨steps, inside, hresolve⟩
  obtain ⟨hgroups, hbases⟩ := inlines_lookup (sameNames_of_resolve h) steps inside
  exact inlined_of_resolveComplex (sameNames_of_resolve h) hgroups hbases hresolve

/-- A declaration of an element without namespace that may hold anything. -/
def anyElement (name : String) : ElementDecl := ⟨⟨none, name⟩, .any, false, false, none⟩

/-- A note holds the group `Lines` up to two times. -/
def noteType : ComplexType :=
  ⟨false, none, .elements (.group ⟨0, some 2⟩ ⟨none, "Lines"⟩), [], [], none⟩

/-- A letter is a note with a signature. -/
def letterType : ComplexType :=
  ⟨false, some (⟨none, "Note"⟩, .extension), .elements (.element .once (anyElement "signature")), [],
    [], none⟩

/-- Notes and letters; the group `Lines` holds a line. -/
def letters : Components where
  types := [(⟨none, "Note"⟩, .complex noteType), (⟨none, "Letter"⟩, .complex letterType)]
  groups := [(⟨none, "Lines"⟩, .sequence .once [.element .once (anyElement "line")])]

theorem admits_once_element {c : Components} (d : ElementDecl) :
    c.Admits (.element .once d) [d.name] := by
  show [d.name] ∈ c.words (.element .once d)
  rw [words_of_once c rfl]
  exact .element

theorem typeAdmits_letterType :
    letters.TypeAdmits letterType [⟨none, "line"⟩, ⟨none, "line"⟩, ⟨none, "signature"⟩] := by
  have hmodel : letters.AdmitsOnce (.sequence .once [.element .once (anyElement "line")])
      [[⟨none, "line"⟩]].flatten := .sequence (.cons (admits_once_element _) .nil)
  have hgroup : letters.Admits (.group ⟨0, some 2⟩ ⟨none, "Lines"⟩)
      [[⟨none, "line"⟩], [⟨none, "line"⟩]].flatten := by
    refine .inARow ⟨Nat.zero_le 2, ?_⟩ fun w hw => ?_
    · rintro most ⟨⟩
      exact .inl le_rfl
    · obtain rfl : w = [⟨none, "line"⟩] := by simpa using hw
      exact .group rfl hmodel
  have hnote : letters.TypeAdmits noteType [⟨none, "line"⟩, ⟨none, "line"⟩] :=
    .own (fun b ⟨n, hbase, _⟩ => by cases hbase) hgroup
  exact .extended ⟨⟨none, "Note"⟩, rfl, rfl, rfl, rfl⟩ hnote (admits_once_element _)

/-- **Letters as a grammar has them** hold two lines and a signature. -/
theorem language_of_letters : ∃ g t', letters.resolve = .ok g ∧
    g.types.find? ⟨none, "Letter"⟩ = some (.complex t') ∧
    t'.content.language g.elements = letters.typeWords letterType ∧
    [⟨none, "line"⟩, ⟨none, "line"⟩, ⟨none, "signature"⟩] ∈ t'.content.language g.elements := by
  obtain ⟨hnamed, -, -, hlanguage⟩ := language_of_resolve (c := letters) rfl
  obtain ⟨t', found, hresolves⟩ := hnamed ⟨none, "Letter"⟩ letterType rfl
  have heq := (hlanguage letterType t' hresolves).2 rfl
  exact ⟨_, t', rfl, found, heq, heq ▸ typeAdmits_letterType⟩

/-- A type in the schema namespace. -/
def baseOfSchemas : ComplexType :=
  ⟨false, none, .elements (.sequence .once [.element .once (anyElement "A")]), [], [], none⟩

/-- A type that is derived from it by extension. -/
def extensionOfSchemas : ComplexType :=
  ⟨false, some (schemaName "Base", .extension),
    .elements (.sequence .once [.element .once (anyElement "B")]), [], [], none⟩

/-- A schema whose target is the schema namespace. -/
def schemaOfSchemas : Components where
  types := [(schemaName "Base", .complex baseOfSchemas)]
  elements := [(schemaName "root",
    ⟨schemaName "root", .complex extensionOfSchemas, false, false, none⟩)]

theorem words_sequence_element (c : Components) (d : ElementDecl) :
    c.words (.sequence .once [.element .once d]) = {[d.name]} := by
  rw [words_of_once c rfl, wordsOnce_sequence, List.map_singleton, List.prod_singleton,
    words_of_once c rfl, wordsOnce_element]

/-- **A type that a schema defines in the schema namespace is not extended**: there is nothing of it
in the language of the type that has it as its base. -/
theorem language_of_schemaOfSchemas : ∃ g d t', schemaOfSchemas.resolve = .ok g ∧
    g.elements.find? (schemaName "root") = some d ∧ d.type = .complex t' ∧
    t'.content.language g.elements ≠ schemaOfSchemas.contentWords baseOfSchemas.content *
      schemaOfSchemas.contentWords extensionOfSchemas.content := by
  refine ⟨_, _, _, rfl, rfl, rfl, fun h => ?_⟩
  rw [baseOfSchemas, extensionOfSchemas, contentWords, contentWords, words_sequence_element,
    words_sequence_element] at h
  have hown : [⟨none, "B"⟩] ∈
      Particle.language [] (.sequence .once [.element .once (anyElement "B")]) := by
    simp only [Particle.language, Particle.denotes, Particle.denotesEach, Occurs.times_once,
      List.prod_singleton, Leaf.names_element]
    rfl
  obtain ⟨u, rfl, v, rfl, huv⟩ := (Set.ext_iff.1 h _).1 hown
  exact absurd (congrArg List.length huv) (Nat.succ_succ_ne_one 0)

end Components

end XmlConformance.Schema
