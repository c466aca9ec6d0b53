import Mathlib.Logic.Relation
import XmlConformance.Proofs.Schema.Failing
import XmlConformance.Proofs.Schema.References

/-!
# Proofs/Schema/Circles — types that are derived from themselves

To resolve a complex type, its base is resolved, and the types without a name that elements in its
content have. The types of elements that are given by name are not; they may lead back to the type
that the elements stand in. So a circle is only reported where these ways
(`Components.Needs`) lead from the definition of a name to a type that has the name as its base
(`Components.DerivedFromItself`), and then it is never passed over (`resolve_circularType`).

The types without a name count in this: a type can hold an element whose type extends it, and is
reported, though no type is its own base however far bases are followed (`resolve_nest`).
-/

namespace XmlConformance.Schema

open Xml Relation

namespace Components

/-! ## What resolving a type needs -/

/-- An element in the content of a type has a type without a name. -/
def Encloses (c : Components) (t u : ComplexType) : Prop :=
  ∃ d, t.content.Declares c.groups d ∧ d.type = .complex u

/-- **To resolve a type, another one has to be resolved**: the type of an element in its content, if
it has no name, or the base. -/
inductive Needs (c : Components) (t u : ComplexType) : Prop
  | element (encloses : c.Encloses t u)
  | base {n : ExpandedName} {derivation : Derivation} (derived : t.base = some (n, derivation))
      (base : c.IsBase n u)

/-- A type needs one that has a name as its base. -/
def NeedsBase (c : Components) (t : ComplexType) (n : ExpandedName) : Prop :=
  ∃ u derivation, ReflTransGen c.Needs t u ∧ u.base = some (n, derivation)

/-- **A type is derived from itself**: what is defined under its name needs a type that has the name
as its base. -/
def DerivedFromItself (c : Components) (n : ExpandedName) : Prop :=
  isSchemaName n = false ∧ ∃ t, (n, .complex t) ∈ c.types ∧ c.NeedsBase t n

/-- A type under a name has another name as its base. -/
def BaseOf (c : Components) (n m : ExpandedName) : Prop :=
  ∃ t derivation, (n, .complex t) ∈ c.types ∧ t.base = some (m, derivation)

variable {c : Components} {t u v : ComplexType} {m n : ExpandedName} {inside : List ExpandedName}
  {l : Lookup}

theorem NeedsBase.head (h : c.Needs t u) (hu : c.NeedsBase u n) : c.NeedsBase t n := by
  obtain ⟨v, derivation, hneeds, hbase⟩ := hu
  exact ⟨v, derivation, .head h hneeds, hbase⟩

/-! ## Reported circles -/

/-- **Where a circle is met** while some types are being resolved: a base is one of them, or is met
again as it is resolved itself. -/
def Meets (c : Components) (inside : List ExpandedName) (n : ExpandedName) (t : ComplexType) :
    Prop :=
  isSchemaName n = false ∧ c.NeedsBase t n ∧
    (n ∈ inside ∨ ∃ v, c.types.find? n = some (.complex v) ∧ c.NeedsBase v n)

theorem Meets.head (h : c.Needs t u) (hu : c.Meets inside n u) : c.Meets inside n t :=
  ⟨hu.1, hu.2.1.head h, hu.2.2⟩

/-- A circle that is met as a base is resolved. -/
theorem Meets.of_base {derivation : Derivation} (derived : t.base = some (m, derivation))
    (base : c.IsBase m v) (h : c.Meets (m :: inside) n v) : c.Meets inside n t := by
  obtain ⟨hschema, hneeds, hmember | hagain⟩ := h
  · obtain rfl | hmember := List.mem_cons.1 hmember
    · exact ⟨hschema, hneeds.head (.base derived base), .inr ⟨v, base.2, hneeds⟩⟩
    · exact ⟨hschema, hneeds.head (.base derived base), .inl hmember⟩
  · exact ⟨hschema, hneeds.head (.base derived base), .inr hagain⟩

/-- A circle is met in the type of a declaration. -/
def MeetsDecl (c : Components) (inside : List ExpandedName) (n : ExpandedName) (d : ElementDecl) :
    Prop :=
  ∃ u, d.type = .complex u ∧ c.Meets inside n u

end Components

/-- **What is found of groups and bases** reports a circle only where it is met. -/
structure Lookup.TracesCircles (l : Lookup) (c : Components) (inside : List ExpandedName)
    (n : ExpandedName) : Prop where
  group : ∀ {depth m}, l.group depth m = .error (.circularType n) →
    ∃ g d, c.groups.find? m = some g ∧ g.Declares c.groups d ∧ c.MeetsDecl inside n d
  base : ∀ {t m derivation}, t.base = some (m, derivation) →
    l.base m = .error (.circularType n) → c.Meets inside n t

namespace Components

variable {c : Components} {t u v : ComplexType} {m n : ExpandedName} {inside : List ExpandedName}
  {l : Lookup}

mutual

theorem meets_of_resolveParticle (hl : l.TracesCircles c inside n) {depth : ℕ} :
    ∀ p, c.resolveParticle l depth p = .error (.circularType n) →
      ∃ d, p.Declares c.groups d ∧ c.MeetsDecl inside n d
  | .element _ d, h => ⟨d, .element, meets_of_resolveElement hl d (bind_pure_eq_error.1 h)⟩
  | .sequence _ items, h =>
    have ⟨_, hp, d, declares, hd⟩ := meets_of_resolveParticles hl items (bind_pure_eq_error.1 h)
    ⟨d, .sequence hp declares, hd⟩
  | .choice _ items, h =>
    have ⟨_, hp, d, declares, hd⟩ := meets_of_resolveParticles hl items (bind_pure_eq_error.1 h)
    ⟨d, .choice hp declares, hd⟩
  | .all _ items, h =>
    have ⟨_, hp, d, declares, hd⟩ := meets_of_resolveParticles hl items (bind_pure_eq_error.1 h)
    ⟨d, .all hp declares, hd⟩
  | .group _ _, h =>
    have ⟨_, d, found, declares, hd⟩ := hl.group (bind_pure_eq_error.1 h)
    ⟨d, .group found declares, hd⟩

theorem meets_of_resolveParticles (hl : l.TracesCircles c inside n) {depth : ℕ} :
    ∀ ps, c.resolveParticles l depth ps = .error (.circularType n) →
      ∃ p ∈ ps, ∃ d, p.Declares c.groups d ∧ c.MeetsDecl inside n d
  | p :: ps, h => by
    obtain hp | ⟨p', -, h⟩ := bind_eq_error.1 h
    · exact ⟨p, List.mem_cons_self, meets_of_resolveParticle hl p hp⟩
    · obtain ⟨q, hq, hd⟩ := meets_of_resolveParticles hl ps (bind_pure_eq_error.1 h)
      exact ⟨q, List.mem_cons_of_mem p hq, hd⟩

theorem meets_of_resolveElement (hl : l.TracesCircles c inside n) :
    ∀ d, c.resolveElement l d = .error (.circularType n) → c.MeetsDecl inside n d
  | ⟨_, type, _, _, _⟩, h => meets_of_resolveType hl type (bind_pure_eq_error.1 h)

theorem meets_of_resolveType (hl : l.TracesCircles c inside n) :
    ∀ type, c.resolveType l type = .error (.circularType n) →
      ∃ u, type = .complex u ∧ c.Meets inside n u
  | .named m, h => nomatch c.failsWith_resolveTypeName m _ h
  | .complex u, h => ⟨u, rfl, meets_of_resolveComplex hl u (bind_pure_eq_error.1 h)⟩

/-- **A circle in a complex type** is met in its content or with its base. -/
theorem meets_of_resolveComplex (hl : l.TracesCircles c inside n) :
    ∀ t, c.resolveComplex l t = .error (.circularType n) → c.Meets inside n t
  | ⟨mixed, base, content, attributes, groups, wildcard⟩, h => by
    obtain h | ⟨found, -, h⟩ := bind_eq_error.1 h
    · exact nomatch c.failsWith_attributesOf groupLimit _ _ h
    obtain h | ⟨own, -, h⟩ := bind_eq_error.1 h
    · obtain ⟨d, declares, u, type, hu⟩ := meets_of_resolveContent hl content h
      exact hu.head (.element ⟨d, declares, type⟩)
    · cases base with
      | none => cases h
      | some base => exact hl.base rfl (bind_pure_eq_error.1 (bind_pure_eq_error.1 h))

theorem meets_of_resolveContent (hl : l.TracesCircles c inside n) :
    ∀ t, c.resolveContent l t = .error (.circularType n) →
      ∃ d, t.Declares c.groups d ∧ c.MeetsDecl inside n d
  | .elements p, h =>
    have ⟨d, declares, hd⟩ := meets_of_resolveParticle hl p (bind_pure_eq_error.1 h)
    ⟨d, ⟨p, rfl, declares⟩, hd⟩

end

theorem lookup_group_eq_error {steps depth : ℕ}
    (h : (c.lookup (steps + 1) inside).group depth m = .error (.circularType n)) :
    ∃ depth' g, c.groups.find? m = some g ∧
      c.resolveParticle (c.lookup steps inside) depth' g = .error (.circularType n) := by
  match depth, h with
  | depth + 1, h =>
    simp only [lookup, enter] at h
    split at h
    · cases h
    · next g found => exact ⟨depth, g, found, h⟩

/-- A base is a circle if it is being resolved, or as it is resolved. -/
theorem lookup_base_eq_error {steps : ℕ}
    (h : (c.lookup (steps + 1) inside).base m = .error (.circularType n)) :
    isSchemaName m = false ∧ (m = n ∧ n ∈ inside ∨ ∃ v, c.IsBase m v ∧
      c.resolveComplex (c.lookup steps (m :: inside)) v = .error (.circularType n)) := by
  simp only [lookup, enter] at h
  split at h
  · cases h
  next hschema =>
  have hschema := Bool.eq_false_of_not_eq_true hschema
  refine ⟨hschema, ?_⟩
  split at h
  · next hinside =>
    cases h
    exact .inl ⟨rfl, by simpa using hinside⟩
  split at h
  · cases h
  · cases h
  · next v found => exact .inr ⟨v, ⟨hschema, found⟩, map_eq_error.1 h⟩

/-- **However far references are followed**, a circle is reported only where it is met. -/
theorem tracesCircles_lookup (steps : ℕ) :
    ∀ inside, (c.lookup steps inside).TracesCircles c inside n := by
  induction steps with
  | zero => exact fun _ => ⟨nofun, nofun⟩
  | succ steps ih =>
    refine fun inside => ⟨fun h => ?_, fun {t m derivation} derived h => ?_⟩
    · obtain ⟨depth, g, found, h⟩ := lookup_group_eq_error h
      obtain ⟨d, hd⟩ := meets_of_resolveParticle (ih inside) g h
      exact ⟨g, d, found, hd⟩
    · obtain ⟨hschema, ⟨rfl, hinside⟩ | ⟨v, base, h⟩⟩ := lookup_base_eq_error h
      · exact ⟨hschema, ⟨t, derivation, .refl, derived⟩, .inl hinside⟩
      · exact (meets_of_resolveComplex (ih _) v h).of_base derived base

/-- A circle that is met in a definition makes a type that is derived from itself. -/
theorem Meets.derivedFromItself (h : c.Meets inside n t)
    (hinside : n ∈ inside → (n, .complex t) ∈ c.types) : c.DerivedFromItself n := by
  obtain ⟨hschema, hneeds, hmember | ⟨v, found, hagain⟩⟩ := h
  · exact ⟨hschema, t, hinside hmember, hneeds⟩
  · exact ⟨hschema, v, Table.mem_of_find? found, hagain⟩

theorem derivedFromItself_of_resolveTypes {steps : ℕ} : ∀ types : Table TypeDefinition,
    types ⊆ c.types → c.resolveTypes (c.lookup steps) types = .error (.circularType n) →
      c.DerivedFromItself n
  | (m, .complex t) :: rest, hsub, h => by
    rw [List.cons_subset] at hsub
    obtain h | ⟨_, -, h⟩ := bind_eq_error.1 h
    · have hmeets := meets_of_resolveComplex (tracesCircles_lookup steps [m]) t
        (bind_pure_eq_error.1 h)
      exact hmeets.derivedFromItself fun hn => List.mem_singleton.1 hn ▸ hsub.1
    · exact derivedFromItself_of_resolveTypes rest hsub.2 (bind_pure_eq_error.1 h)
  | (m, .simple t) :: rest, hsub, h => by
    rw [List.cons_subset] at hsub
    exact derivedFromItself_of_resolveTypes rest hsub.2 (bind_pure_eq_error.1 h)

theorem derivedFromItself_of_resolveElements {steps : ℕ} : ∀ elements : Table ElementDecl,
    c.resolveElements (c.lookup steps) elements = .error (.circularType n) → c.DerivedFromItself n
  | (m, d) :: rest, h => by
    obtain h | ⟨_, -, h⟩ := bind_eq_error.1 h
    · obtain ⟨u, -, hu⟩ := meets_of_resolveElement (tracesCircles_lookup steps []) d h
      exact hu.derivedFromItself nofun
    · exact derivedFromItself_of_resolveElements rest (bind_pure_eq_error.1 h)

/-- **Only types that are derived from themselves are reported.** -/
theorem derivedFromItself_of_resolve (h : c.resolve = .error (.circularType n)) :
    c.DerivedFromItself n := by
  obtain h | ⟨types, -, h⟩ := bind_eq_error.1 h
  · exact derivedFromItself_of_resolveTypes c.types (List.Subset.refl _) h
  obtain h | ⟨elements, -, h⟩ := bind_eq_error.1 h
  · exact derivedFromItself_of_resolveElements c.elements h
  · exact nomatch Grammar.failsWith_checkReferences _ _ (bind_pure_eq_error.1 h)

/-! ## No circle is passed over -/

/-- A type is resolved while the type with a name is being resolved. -/
def ResolvedInside (c : Components) (n : ExpandedName) (t : ComplexType) : Prop :=
  ∃ steps inside t', n ∈ inside ∧ c.resolveComplex (c.lookup steps inside) t = .ok t'

/-- **What a type needs** is resolved while the same types are being resolved. -/
theorem ResolvedInside.needs (ht : c.ResolvedInside n t) (h : c.Needs t u) :
    c.ResolvedInside n u := by
  obtain ⟨steps, inside, t', hn, ht'⟩ := ht
  obtain ⟨base, own, hbase, hown, -⟩ := content_of_resolveComplex ht'
  cases h with
  | element encloses =>
    obtain ⟨d, declares, type⟩ := encloses
    obtain ⟨steps', d', -, hd'⟩ := exists_declares_of_resolveContent hown declares
    obtain ⟨u', -, hu'⟩ := exists_complex_of_resolveElement hd' type
    exact ⟨steps', inside, u', hn, hu'⟩
  | @base m derivation derived base =>
    rw [derived] at hbase
    obtain ⟨found, hfound, -⟩ := bind_eq_ok.1 hbase
    obtain ⟨-, hnone⟩ | ⟨steps', v, v', -, -, hv, -, hv'⟩ := lookup_base_eq_ok hfound
    · exact absurd base (hnone u)
    · cases base.2.symm.trans hv.2
      exact ⟨steps', m :: inside, v', List.mem_cons_of_mem m hn, hv'⟩

theorem ResolvedInside.needsAll (ht : c.ResolvedInside n t) (h : ReflTransGen c.Needs t u) :
    c.ResolvedInside n u := by
  induction h with
  | refl => exact ht
  | tail _ hstep ih => exact ih.needs hstep

/-- A type is not resolved while its base is being resolved. -/
theorem ResolvedInside.base_ne {derivation : Derivation} (ht : c.ResolvedInside n t)
    (hschema : isSchemaName n = false) : t.base ≠ some (n, derivation) := by
  intro derived
  obtain ⟨steps, inside, t', hn, ht'⟩ := ht
  obtain ⟨base, own, hbase, -, -⟩ := content_of_resolveComplex ht'
  rw [derived] at hbase
  obtain ⟨found, hfound, -⟩ := bind_eq_ok.1 hbase
  cases steps with
  | zero => cases hfound
  | succ steps => simp [lookup, enter, hschema, hn] at hfound

theorem resolvedInside_of_resolveTypes {steps : ℕ} : ∀ {types types' : Table TypeDefinition},
    c.resolveTypes (c.lookup steps) types = .ok types' → (n, .complex t) ∈ types →
      c.ResolvedInside n t
  | (m, d) :: rest, _, h, member => by
    obtain ⟨first, hd, h⟩ := bind_eq_ok.1 h
    obtain ⟨rest', hrest, -⟩ := bind_eq_ok.1 h
    obtain heq | member := List.mem_cons.1 member
    · cases heq
      obtain ⟨t', ht', -⟩ := bind_eq_ok.1 hd
      exact ⟨steps, [n], t', List.mem_singleton_self n, ht'⟩
    · exact resolvedInside_of_resolveTypes hrest member

/-- **There is no grammar with a type that is derived from itself.** -/
theorem DerivedFromItself.resolve_ne_ok (h : c.DerivedFromItself n) (g : Grammar) :
    c.resolve ≠ .ok g := by
  intro hg
  obtain ⟨hschema, t, member, u, derivation, hneeds, hbase⟩ := h
  obtain ⟨types, htypes, -⟩ := bind_eq_ok.1 hg
  have ht : c.ResolvedInside n t := resolvedInside_of_resolveTypes htypes member
  exact (ht.needsAll hneeds).base_ne hschema hbase

/-! ## Circles of bases -/

/-- Where the types without a name have no base, all that is needed of a definition and has a base
itself stands under a name that bases lead to. -/
theorem exists_baseOf_of_needs (hplain : ∀ v w, ReflTransGen c.Needs t v → c.Encloses v w →
    w.base = none) (member : (n, .complex t) ∈ c.types) (h : ReflTransGen c.Needs t u) :
    u.base = none ∨ ∃ m, ReflTransGen c.BaseOf n m ∧ (m, .complex u) ∈ c.types := by
  induction h with
  | refl => exact .inr ⟨n, .refl, member⟩
  | @tail v w hv hstep ih =>
    cases hstep with
    | element encloses => exact .inl (hplain v w hv encloses)
    | @base m' derivation derived base =>
      obtain hnone | ⟨m, hm, hmember⟩ := ih
      · cases hnone.symm.trans derived
      · exact .inr ⟨m', .tail hm ⟨v, derivation, hmember, derived⟩, Table.mem_of_find? base.2⟩

/-- **Circles.** A type is only reported as circular if it is derived from itself, and no type that
is derived from itself becomes one of a grammar. Of the elements on the way, only those count whose
types have no name, since the named types of elements are not needed to resolve a type. So where no
type without a name has a base, a reported type leads back to itself by bases alone. -/
theorem resolve_circularType (c : Components) :
    (∀ n, c.resolve = .error (.circularType n) → c.DerivedFromItself n) ∧
    (∀ n, c.DerivedFromItself n → ∀ g, c.resolve ≠ .ok g) ∧
    ((∀ n t v w, (n, .complex t) ∈ c.types → ReflTransGen c.Needs t v → c.Encloses v w →
        w.base = none) →
      ∀ n, c.resolve = .error (.circularType n) → TransGen c.BaseOf n n) := by
  refine ⟨fun n => derivedFromItself_of_resolve, fun n h => h.resolve_ne_ok,
    fun hplain n h => ?_⟩
  obtain ⟨-, t, member, u, derivation, hneeds, hbase⟩ := derivedFromItself_of_resolve h
  obtain hnone | ⟨m, hm, hmember⟩ :=
    exists_baseOf_of_needs (fun v w => hplain n t v w member) member hneeds
  · cases hnone.symm.trans hbase
  · exact .tail' hm ⟨u, derivation, hmember, hbase⟩

/-- A type that extends the one with a name, with an element `x` of some type. -/
def extensionOf (n : String) (type : ElementType) : ComplexType :=
  ⟨false, some (⟨none, n⟩, .extension),
    .elements (.element ⟨0, some 1⟩ ⟨⟨none, "x"⟩, type, false, false, none⟩), [], [], none⟩

/-- Two types that extend each other, each with an element that is of the first type. -/
def ring : Components where
  types := [(⟨none, "A"⟩, .complex (extensionOf "B" (.named ⟨none, "A"⟩))),
    (⟨none, "B"⟩, .complex (extensionOf "A" (.named ⟨none, "A"⟩)))]

theorem not_encloses_ring (member : (n, .complex t) ∈ ring.types) (u : ComplexType) :
    ¬ ring.Encloses t u := by
  rintro ⟨d, ⟨p, hp, declares⟩, type⟩
  obtain heq | heq := List.mem_pair.1 member <;> cases heq <;> cases hp <;> cases declares <;>
    cases type

/-- Only the two types are needed. -/
theorem exists_mem_ring (member : (n, .complex t) ∈ ring.types) (h : ReflTransGen ring.Needs t u) :
    ∃ m, (m, .complex u) ∈ ring.types := by
  induction h with
  | refl => exact ⟨n, member⟩
  | tail _ hstep ih =>
    cases hstep with
    | element encloses => exact absurd encloses (not_encloses_ring ih.choose_spec _)
    | base _ base => exact ⟨_, Table.mem_of_find? base.2⟩

/-- **Types that extend each other** are reported, and lead back to themselves by bases alone. -/
theorem resolve_ring : ring.resolve = .error (.circularType ⟨none, "A"⟩) ∧
    ring.DerivedFromItself ⟨none, "A"⟩ ∧ (∀ g, ring.resolve ≠ .ok g) ∧
    TransGen ring.BaseOf ⟨none, "A"⟩ ⟨none, "A"⟩ := by
  have hresolve : ring.resolve = .error (.circularType ⟨none, "A"⟩) := rfl
  obtain ⟨hderived, hrefused, hbases⟩ := resolve_circularType ring
  refine ⟨hresolve, hderived _ hresolve, hrefused _ (hderived _ hresolve), hbases ?_ _ hresolve⟩
  intro n t v w member hneeds hencloses
  obtain ⟨m, hv⟩ := exists_mem_ring member hneeds
  exact absurd hencloses (not_encloses_ring hv w)

/-- A type with an element whose type has no name and extends it. -/
def nest : Components where
  types := [(⟨none, "T"⟩, .complex ⟨false, none, .elements (.element ⟨0, some 1⟩
    ⟨⟨none, "x"⟩, .complex (extensionOf "T" .any), false, false, none⟩), [], [], none⟩)]

/-- **A type without a name may not extend the type that it stands in**, although no type has a base
under a name. -/
theorem resolve_nest : nest.resolve = .error (.circularType ⟨none, "T"⟩) ∧
    ∀ n m, ¬ nest.BaseOf n m := by
  refine ⟨rfl, ?_⟩
  rintro n m ⟨t, derivation, member, derived⟩
  cases List.mem_singleton.1 member
  cases derived

end Components

end XmlConformance.Schema
