import Mathlib.Order.Filter.AtTopBot.Basic
import XmlConformance.Proofs.Schema.Ordering
import XmlConformance.Proofs.Schema.Unfolding

/-!
# Proofs/Schema/Remembering — each type resolved once

`resolve` resolves a base anew for every type that is derived from it. A walk through the components
can remember what it resolved (`Progress`): it visits one type after the other, in the order of the
table, visits a base when a derived type needs it, and takes what is there if it comes by a second
time. What it finds inside a type then depends on what it saw before.

The walk **mirrors** resolving all the same (`Mirrors`). What is remembered is what resolving makes
of the type, whatever other types are being resolved, as long as none of them is remembered
(`Sound`): a base that is remembered can be resolved without coming by a type that is not. So no
order has a part in whether there is a grammar, or in which (`resolve_of_reordered`).
-/

namespace XmlConformance.Schema

open Xml Filter

/-! ## The walk -/

/-- What a walk through components has behind it, and what it is in the middle of. -/
structure Progress where
  /-- The types that are resolved. -/
  done : Table TypeDefinition
  /-- The types that are being resolved. -/
  inside : List ExpandedName

/-- The names of the types that are resolved. -/
def Progress.names (s : Progress) : List ExpandedName := s.done.map Prod.fst

/-- A computation that may fail, and remembers the types that it resolved. -/
abbrev Remembering := StateT Progress (Except Error)

/-- How references to other definitions are visited. -/
structure Visit where
  /-- What a group holds, if groups may be nested to a depth in it. -/
  group : ℕ → ExpandedName → Remembering Particle
  /-- The base of a type, if it is a complex type of the schema. -/
  base : ExpandedName → Remembering (Option ComplexType)

/-- The complex type, if it is one. -/
def TypeDefinition.complex? : TypeDefinition → Option ComplexType
  | .complex t => some t
  | .simple _ => none

namespace Components

/-- Visits the base of a type. -/
def visitBase (v : Visit) : Option (ExpandedName × Derivation) →
    Remembering (Option (ComplexType × Derivation))
  | none => return none
  | some (n, derivation) => do return (← v.base n).map fun b => (b, derivation)

mutual

/-- A particle without references to groups. -/
def visitParticle (c : Components) (v : Visit) (depth : ℕ) : Particle → Remembering Particle
  | .element o decl => do return .element o (← c.visitElement v decl)
  | .reference o n => return .reference o n
  | .sequence o items => do return .sequence o (← c.visitParticles v depth items)
  | .choice o items => do return .choice o (← c.visitParticles v depth items)
  | .all o items => do return .all o (← c.visitParticles v depth items)
  | .group o n => do return (← v.group depth n).withOccurs o
  | .any o w => return .any o w

/-- Particles without references to groups. -/
def visitParticles (c : Components) (v : Visit) (depth : ℕ) :
    List Particle → Remembering (List Particle)
  | [] => return []
  | p :: ps => do
    let first ← c.visitParticle v depth p
    let more ← c.visitParticles v depth ps
    return first :: more

/-- A declaration whose type is there. -/
def visitElement (c : Components) (v : Visit) : ElementDecl → Remembering ElementDecl
  | ⟨name, type, nillable, isAbstract, fixed⟩ => do
    return ⟨name, ← c.visitElementType v type, nillable, isAbstract, fixed⟩

/-- The type of an element, if it is there. -/
def visitElementType (c : Components) (v : Visit) : ElementType → Remembering ElementType
  | .any => return .any
  | .named n => c.resolveTypeName n
  | .complex t => do return .complex (← c.visitComplex v t)
  | .simple t => return .simple t

/-- A complex type without base and groups. -/
def visitComplex (c : Components) (v : Visit) : ComplexType → Remembering ComplexType
  | ⟨mixed, base, content, attributes, attributeGroups, wildcard⟩ => do
    let (uses, wildcard) ← c.attributesOf groupLimit ⟨attributes, attributeGroups, wildcard⟩
    let content ← c.visitContent v content
    let base ← visitBase v base
    return derive mixed content uses wildcard base

/-- Content without references to groups. -/
def visitContent (c : Components) (v : Visit) : Content → Remembering Content
  | .empty => return .empty
  | .elements p => do return .elements (← c.visitParticle v groupLimit p)
  | .simple t => return .simple t

end

/-- A definition of a type without base and groups. -/
def visitDefinition (c : Components) (v : Visit) : TypeDefinition → Remembering TypeDefinition
  | .complex t => do return .complex (← c.visitComplex v t)
  | .simple t => return .simple t

/-- Sees to it that a type is resolved. -/
def visitType (c : Components) (v : Visit) (n : ExpandedName) : Remembering Unit := fun s =>
  if (s.done.find? n).isSome then .ok ((), s)
  else if s.inside.contains n then .error (.circularType n)
  else
    match c.types.find? n with
    | none => .error (.unresolved n .type)
    | some d => do
      let (d', s') ← c.visitDefinition v d ⟨s.done, n :: s.inside⟩
      return ((), ⟨(n, d') :: s'.done, s'.inside.erase n⟩)

/-- Visits references; references in what they lead to are visited as given. -/
def enterVisit (c : Components) (v : Visit) : Visit where
  group depth n :=
    match depth with
    | 0 => throw (.circularGroup n)
    | depth + 1 =>
      match c.groups.find? n with
      | none => throw (.unresolved n .group)
      | some g => c.visitParticle v depth g
  base n :=
    if isSchemaName n then return none
    else do
      c.visitType v n
      return ((← get).done.find? n).bind TypeDefinition.complex?

/-- How references are visited, if definitions may be entered from within others `steps` times. -/
def visits (c : Components) : (steps : ℕ) → Visit
  | 0 => { group := fun _ _ => throw .endlessUnfolding, base := fun _ => throw .endlessUnfolding }
  | steps + 1 => c.enterVisit (c.visits steps)

/-- Visits all types, one after the other, and then the elements. -/
def visitAll (c : Components) (v : Visit) : Remembering Grammar := do
  c.types.forM fun e => c.visitType v e.1
  let elements ← c.elements.mapM fun e => do return (e.1, ← c.visitElement v e.2)
  return ⟨elements, c.attributes, (← get).done⟩

/-- **Makes a grammar of components by a walk** that remembers what it resolved. In what order the
tables of the grammar are looked through at its end is up to `arrange`. -/
def traverse (c : Components) (arrange : Grammar → Grammar) (steps : ℕ) : Except Error Grammar := do
  let (g, _) ← c.visitAll (c.visits steps) ⟨[], []⟩
  (arrange g).checkReferences
  return arrange g

/-! ## What is remembered -/

variable {c : Components} {s s' s'' : Progress} {α β : Type} {steps : ℕ} {n : ExpandedName}

/-- **A computation ends in a value wherever it is made**: whatever types are being resolved, if
none of them is among the names, and if references are followed far enough. -/
def Settles (c : Components) (names : List ExpandedName) (f : Lookup → Except Error α) (a : α) :
    Prop :=
  ∀ inside, names.Disjoint inside → ∀ᶠ steps in atTop, f (c.lookup steps inside) = .ok a

theorem Settles.mono {names names' : List ExpandedName} {f : Lookup → Except Error α} {a : α}
    (h : c.Settles names f a) (hnames : names ⊆ names') : c.Settles names' f a :=
  fun inside hinside => h inside (List.disjoint_of_subset_left hnames hinside)

/-- **Sound progress**: no type is remembered while it is being resolved, and what is remembered is
what resolving makes of it. -/
structure Sound (c : Components) (s : Progress) : Prop where
  keyed : s.done.Keyed
  disjoint : s.names.Disjoint s.inside
  settled : ∀ {n d}, s.done.find? n = some d → ∃ d₀, c.types.find? n = some d₀ ∧
    ∀ inside, s.names.Disjoint inside →
      ∀ᶠ steps in atTop, c.resolveDefinition (c.lookup steps (n :: inside)) d₀ = .ok d

theorem sound_nil (c : Components) (inside : List ExpandedName) : c.Sound ⟨[], inside⟩ :=
  ⟨List.nodup_nil, List.disjoint_nil_left inside, nofun⟩

/-- **A walk leads from one progress to another**: it remembers more, and is in the middle of the
same types as before. -/
structure Onwards (c : Components) (s s' : Progress) : Prop where
  sound : c.Sound s'
  inside : s'.inside = s.inside
  names : s.names ⊆ s'.names

theorem Onwards.refl (h : c.Sound s) : c.Onwards s s := ⟨h, rfl, List.Subset.refl _⟩

theorem Onwards.trans (h : c.Onwards s s') (h' : c.Onwards s' s'') : c.Onwards s s'' :=
  ⟨h'.sound, h'.inside.trans h.inside, List.Subset.trans h.names h'.names⟩

/-! ## Walks that mirror resolving -/

/-- What holds in the long run after one step more holds in the long run. -/
theorem eventually_of_succ {P : ℕ → Prop} (h : ∀ᶠ k in atTop, P (k + 1)) : ∀ᶠ k in atTop, P k := by
  obtain ⟨k₀, h⟩ := eventually_atTop.1 h
  refine eventually_atTop.2 ⟨k₀ + 1, fun k hk => ?_⟩
  obtain ⟨k, rfl⟩ := Nat.exists_eq_add_of_le' (Nat.le_of_add_left_le hk)
  exact h k (Nat.le_of_succ_le_succ hk)

/-- **A walk mirrors resolving**: from sound progress it leads to sound progress and to what
resolving comes to, and there is a way wherever resolving comes to something. -/
structure Mirrors (c : Components) (steps : ℕ) (x : Remembering α) (f : Lookup → Except Error α) :
    Prop where
  /-- A value stays when references are followed further. -/
  keeps : ∀ {inside a k}, steps ≤ k → f (c.lookup steps inside) = .ok a →
    f (c.lookup k inside) = .ok a
  /-- Where the walk leads. -/
  leads : ∀ {s s' a}, c.Sound s → x s = .ok (a, s') → c.Onwards s s' ∧ c.Settles s'.names f a
  /-- The walk gets through. -/
  passes : ∀ {s a}, c.Sound s → f (c.lookup steps s.inside) = .ok a → ∃ r, x s = .ok r

namespace Mirrors

variable {x : Remembering α} {y : α → Remembering β} {f : Lookup → Except Error α}
  {g : α → Lookup → Except Error β}

/-- The walk comes to what resolving comes to. -/
theorem eq (h : c.Mirrors steps x f) (hs : c.Sound s) {a a' : α} (hx : x s = .ok (a', s'))
    (hf : f (c.lookup steps s.inside) = .ok a) : a' = a := by
  obtain ⟨hon, hsettles⟩ := h.leads hs hx
  have hwalk := hsettles s.inside (hon.inside ▸ hon.sound.disjoint)
  obtain ⟨k, hk, hle⟩ := (hwalk.and (eventually_ge_atTop steps)).exists
  exact Except.ok.inj (hk.symm.trans (h.keeps hle hf))

theorem lift (x : Except Error α) : c.Mirrors steps (liftM x) fun _ => x where
  keeps _ h := h
  leads hs h := by
    obtain ⟨a, ha, h⟩ := bind_eq_ok.1 h
    cases h
    exact ⟨.refl hs, fun _ _ => .of_forall fun _ => ha⟩
  passes {s a} _ h := ⟨(a, s), bind_eq_ok.2 ⟨a, h, rfl⟩⟩

theorem pure (a : α) : c.Mirrors steps (pure a) fun _ => .ok a := lift (.ok a)

/-- **Walks one behind the other.** -/
theorem bind (hx : c.Mirrors steps x f) (hy : ∀ a, c.Mirrors steps (y a) (g a)) :
    c.Mirrors steps (x >>= y) fun l => f l >>= fun a => g a l where
  keeps hle h := by
    obtain ⟨a, ha, h⟩ := bind_eq_ok.1 h
    exact bind_eq_ok.2 ⟨a, hx.keeps hle ha, (hy a).keeps hle h⟩
  leads hs h := by
    obtain ⟨⟨a, s₁⟩, ha, h⟩ := bind_eq_ok.1 h
    obtain ⟨hon, hfirst⟩ := hx.leads hs ha
    obtain ⟨hon', hsecond⟩ := (hy a).leads hon.sound h
    refine ⟨hon.trans hon', fun inside hinside => ?_⟩
    filter_upwards [hfirst.mono hon'.names inside hinside, hsecond inside hinside] with k hk hk'
    exact bind_eq_ok.2 ⟨a, hk, hk'⟩
  passes hs h := by
    obtain ⟨a, ha, h⟩ := bind_eq_ok.1 h
    obtain ⟨⟨a', s₁⟩, hx'⟩ := hx.passes hs ha
    obtain rfl := hx.eq hs hx' ha
    have hon := (hx.leads hs hx').1
    obtain ⟨r, hr⟩ := (hy a').passes hon.sound (hon.inside ▸ h)
    exact ⟨r, bind_eq_ok.2 ⟨_, hx', hr⟩⟩

theorem mapM {γ δ : Type} {x : γ → Remembering δ} {f : γ → Lookup → Except Error δ}
    (h : ∀ a, c.Mirrors steps (x a) (f a)) :
    ∀ l : List γ, c.Mirrors steps (l.mapM x) fun lk => l.mapM fun a => f a lk
  | [] => pure []
  | a :: l => by
    simp only [List.mapM_cons]
    exact (h a).bind fun b => (mapM h l).bind fun bs => pure (b :: bs)

/-- **What enters a definition** mirrors what enters it from within another. -/
theorem enter {f' : Lookup → Except Error α}
    (hf : ∀ k inside, f' (c.lookup (k + 1) inside) = f (c.lookup k inside))
    (h : c.Mirrors steps x f) : c.Mirrors (steps + 1) x f' where
  keeps {inside a k} hle ha := by
    obtain ⟨k, rfl⟩ := Nat.exists_eq_add_of_le' (Nat.le_of_add_left_le hle)
    rw [hf] at ha ⊢
    exact h.keeps (Nat.le_of_succ_le_succ hle) ha
  leads hs hx := by
    obtain ⟨hon, hsettles⟩ := h.leads hs hx
    refine ⟨hon, fun inside hinside => eventually_of_succ ?_⟩
    filter_upwards [hsettles inside hinside] with k hk
    rw [hf, hk]
  passes hs ha := h.passes hs (by rwa [hf] at ha)

end Mirrors

/-! ## The walk mirrors resolving -/

/-- Every reference that is visited is resolved. -/
structure VisitMirrors (c : Components) (steps : ℕ) (v : Visit) : Prop where
  group : ∀ depth n, c.Mirrors steps (v.group depth n) fun l => l.group depth n
  base : ∀ n, c.Mirrors steps (v.base n) fun l => l.base n

section Visit

variable {v : Visit}

theorem mirrors_visitBase (hv : c.VisitMirrors steps v) :
    ∀ base, c.Mirrors steps (visitBase v base) fun l => resolveBase l base
  | none => .pure none
  | some (n, _) => (hv.base n).bind fun _ => .pure _

mutual

theorem mirrors_visitParticle (hv : c.VisitMirrors steps v) (depth : ℕ) :
    ∀ p, c.Mirrors steps (c.visitParticle v depth p) fun l => c.resolveParticle l depth p
  | .element _ decl => (mirrors_visitElement hv decl).bind fun _ => .pure _
  | .reference _ _ => .pure _
  | .sequence _ items => (mirrors_visitParticles hv depth items).bind fun _ => .pure _
  | .choice _ items => (mirrors_visitParticles hv depth items).bind fun _ => .pure _
  | .all _ items => (mirrors_visitParticles hv depth items).bind fun _ => .pure _
  | .group _ n => (hv.group depth n).bind fun _ => .pure _
  | .any _ _ => .pure _

theorem mirrors_visitParticles (hv : c.VisitMirrors steps v) (depth : ℕ) :
    ∀ ps, c.Mirrors steps (c.visitParticles v depth ps) fun l => c.resolveParticles l depth ps
  | [] => .pure []
  | p :: ps => (mirrors_visitParticle hv depth p).bind fun _ =>
      (mirrors_visitParticles hv depth ps).bind fun _ => .pure _

theorem mirrors_visitElement (hv : c.VisitMirrors steps v) :
    ∀ d, c.Mirrors steps (c.visitElement v d) fun l => c.resolveElement l d
  | ⟨_, type, _, _, _⟩ => (mirrors_visitElementType hv type).bind fun _ => .pure _

theorem mirrors_visitElementType (hv : c.VisitMirrors steps v) :
    ∀ type, c.Mirrors steps (c.visitElementType v type) fun l => c.resolveType l type
  | .any => .pure _
  | .named n => .lift (c.resolveTypeName n)
  | .complex t => (mirrors_visitComplex hv t).bind fun _ => .pure _
  | .simple _ => .pure _

theorem mirrors_visitComplex (hv : c.VisitMirrors steps v) :
    ∀ t, c.Mirrors steps (c.visitComplex v t) fun l => c.resolveComplex l t
  | ⟨_, base, content, _, _, _⟩ => (Mirrors.lift (c.attributesOf groupLimit _)).bind fun _ =>
      (mirrors_visitContent hv content).bind fun _ =>
        (mirrors_visitBase hv base).bind fun _ => .pure _

theorem mirrors_visitContent (hv : c.VisitMirrors steps v) :
    ∀ t, c.Mirrors steps (c.visitContent v t) fun l => c.resolveContent l t
  | .empty => .pure _
  | .elements p => (mirrors_visitParticle hv groupLimit p).bind fun _ => .pure _
  | .simple _ => .pure _

end

theorem mirrors_visitDefinition (hv : c.VisitMirrors steps v) :
    ∀ d, c.Mirrors steps (c.visitDefinition v d) fun l => c.resolveDefinition l d
  | .complex t => (mirrors_visitComplex hv t).bind fun _ => .pure _
  | .simple _ => .pure _

/-! ### Types -/

theorem exists_find?_of_mem_names (h : n ∈ s.names) : ∃ d, s.done.find? n = some d := by
  obtain ⟨⟨m, d⟩, hmem, rfl⟩ := List.mem_map.1 h
  exact Option.isSome_iff_exists.1 (List.lookup_isSome_iff.2 ⟨(m, d), hmem, BEq.rfl⟩)

theorem notMem_names (h : ¬ (s.done.find? n).isSome = true) : n ∉ s.names := fun hn =>
  h (Option.isSome_iff_exists.2 (exists_find?_of_mem_names hn))

/-- A type is being resolved that is not remembered. -/
theorem Sound.visiting (hs : c.Sound s) (hn : n ∉ s.names) : c.Sound ⟨s.done, n :: s.inside⟩ :=
  ⟨hs.keyed, List.disjoint_cons_right.2 ⟨hn, hs.disjoint⟩, hs.settled⟩

/-- **A type that has been resolved is remembered.** -/
theorem Sound.remember {done : Table TypeDefinition} {inside : List ExpandedName}
    {d₀ d : TypeDefinition} (hs : c.Sound ⟨done, n :: inside⟩) (hn : n ∉ inside)
    (found : c.types.find? n = some d₀)
    (h : c.Settles (done.map Prod.fst) (fun l => c.resolveDefinition l d₀) d) :
    c.Sound ⟨(n, d) :: done, inside⟩ := by
  obtain ⟨hnames, hdisjoint⟩ := List.disjoint_cons_right.1 hs.disjoint
  refine ⟨List.nodup_cons.2 ⟨hnames, hs.keyed⟩, List.disjoint_cons_left.2 ⟨hn, hdisjoint⟩, ?_⟩
  intro m e hm
  rw [Table.find?, List.lookup_cons] at hm
  by_cases hmn : m = n
  · -- Nothing that the type holds leads back to it, so it may be among those being resolved.
    subst hmn
    rw [beq_self_eq_true] at hm
    cases hm
    refine ⟨d₀, found, fun others hothers => h (m :: others) ?_⟩
    exact List.disjoint_cons_right.2 ⟨hnames, (List.disjoint_cons_left.1 hothers).2⟩
  · rw [beq_false_of_ne hmn] at hm
    obtain ⟨e₀, found, hsettles⟩ := hs.settled hm
    exact ⟨e₀, found, fun others hothers =>
      hsettles others (List.disjoint_cons_left.1 hothers).2⟩

/-- **After the visit to a type it is remembered.** -/
theorem leads_visitType (hv : c.VisitMirrors steps v) (hs : c.Sound s)
    (h : c.visitType v n s = .ok ((), s')) : c.Onwards s s' ∧ n ∈ s'.names := by
  unfold visitType at h
  split at h
  · next hdone =>
    cases h
    obtain ⟨d, hd⟩ := Option.isSome_iff_exists.1 hdone
    exact ⟨.refl hs, mem_keys_of_find? hd⟩
  next hdone =>
  split at h
  · cases h
  next hinside =>
  split at h
  · cases h
  next d₀ found =>
  obtain ⟨⟨d, s₁⟩, hd, h⟩ := bind_eq_ok.1 h
  cases h
  -- The visit to the definition starts with the type among those being resolved, and ends so.
  obtain ⟨hon, hsettles⟩ :=
    (mirrors_visitDefinition hv d₀).leads (hs.visiting (notMem_names hdone)) hd
  obtain ⟨done, inside⟩ := s₁
  obtain rfl : inside = n :: s.inside := hon.inside
  rw [List.erase_cons_head]
  refine ⟨⟨hon.sound.remember (by simpa using hinside) found hsettles, rfl, ?_⟩,
    List.mem_cons_self⟩
  exact List.subset_cons_of_subset n hon.names

/-- **The visit to a type gets through** if the type can be resolved. -/
theorem passes_visitType (hv : c.VisitMirrors steps v) (hs : c.Sound s) (hn : n ∉ s.inside)
    {d₀ d : TypeDefinition} (found : c.types.find? n = some d₀)
    (h : c.resolveDefinition (c.lookup steps (n :: s.inside)) d₀ = .ok d) :
    ∃ s', c.visitType v n s = .ok ((), s') := by
  by_cases hdone : (s.done.find? n).isSome
  · exact ⟨s, if_pos hdone⟩
  obtain ⟨⟨d', s'⟩, hd'⟩ :=
    (mirrors_visitDefinition hv d₀).passes (hs.visiting (notMem_names hdone)) h
  refine ⟨⟨(n, d') :: s'.done, s'.inside.erase n⟩, ?_⟩
  rw [visitType, if_neg hdone, if_neg (by simpa using hn), found]
  exact bind_eq_ok.2 ⟨_, hd', rfl⟩

/-! ### References -/

/-- What a base is found to be. -/
theorem lookup_base_succ (hschema : isSchemaName n = false) {inside : List ExpandedName}
    (hn : n ∉ inside) {d₀ : TypeDefinition} (found : c.types.find? n = some d₀) (k : ℕ) :
    (c.lookup (k + 1) inside).base n =
      (c.resolveDefinition (c.lookup k (n :: inside)) d₀).map TypeDefinition.complex? := by
  have hcontains : inside.contains n = false := by simpa using hn
  simp only [lookup, enter, hschema, hcontains, found, Bool.false_eq_true, if_false]
  cases d₀ with
  | simple t => rfl
  | complex t =>
    show (c.resolveComplex (c.lookup k (n :: inside)) t).map some = _
    rw [resolveDefinition]
    cases c.resolveComplex (c.lookup k (n :: inside)) t <;> rfl

/-- A base that is found is one that is not being resolved. -/
theorem exists_of_lookup_base (hschema : isSchemaName n = false) {inside : List ExpandedName}
    {b : Option ComplexType} (h : (c.lookup (steps + 1) inside).base n = .ok b) :
    n ∉ inside ∧ ∃ d₀, c.types.find? n = some d₀ := by
  simp only [lookup, enter, hschema, Bool.false_eq_true, if_false] at h
  split at h
  · cases h
  next hinside =>
  refine ⟨by simpa using hinside, ?_⟩
  split at h
  · cases h
  · next found => exact ⟨_, found⟩
  · next found => exact ⟨_, found⟩

theorem lookup_base_keeps {inside : List ExpandedName} {b : Option ComplexType} {k : ℕ}
    (hle : steps ≤ k) (h : (c.lookup steps inside).base n = .ok b) :
    (c.lookup k inside).base n = .ok b := by
  have hnot : ¬ (c.lookup steps).Silent (.base inside n) := fun hsilent =>
    nomatch h.symm.trans (Following.silent_base.1 hsilent)
  have hagrees : (c.lookup k inside).base n = (c.lookup steps inside).base n :=
    c.extends_lookup Set.univ hle (.base inside n) (Set.mem_univ _) hnot
  exact hagrees.trans h

theorem mirrors_enterVisit_group (hv : c.VisitMirrors steps v) (depth : ℕ) (n : ExpandedName) :
    c.Mirrors (steps + 1) ((c.enterVisit v).group depth n) fun l => l.group depth n := by
  match depth with
  | 0 => exact Mirrors.enter (fun _ _ => rfl) (.lift (.error (.circularGroup n)))
  | depth + 1 =>
    cases found : c.groups.find? n with
    | none =>
      simp only [enterVisit, found]
      refine Mirrors.enter (fun k inside => ?_) (.lift (.error (.unresolved n .group)))
      simp only [lookup, enter, found]
    | some g =>
      simp only [enterVisit, found]
      refine Mirrors.enter (fun k inside => ?_) (mirrors_visitParticle hv depth g)
      simp only [lookup, enter, found]

/-- **A base that is visited** is remembered, and is what resolving finds it to be. -/
theorem mirrors_enterVisit_base (hv : c.VisitMirrors steps v) (n : ExpandedName) :
    c.Mirrors (steps + 1) ((c.enterVisit v).base n) fun l => l.base n := by
  cases hschema : isSchemaName n with
  | true =>
    simp only [enterVisit, hschema, if_true]
    refine Mirrors.enter (fun k inside => ?_) (.pure none)
    simp only [lookup, enter, hschema, if_true]
  | false =>
    simp only [enterVisit, hschema, Bool.false_eq_true, if_false]
    refine ⟨lookup_base_keeps, fun {s s' b} hs h => ?_, fun {s b} hs h => ?_⟩
    · obtain ⟨⟨_, s₁⟩, hvisit, h⟩ := bind_eq_ok.1 h
      cases h
      obtain ⟨hon, hn⟩ := leads_visitType hv hs hvisit
      obtain ⟨d, hd⟩ := exists_find?_of_mem_names hn
      obtain ⟨d₀, found, hsettles⟩ := hon.sound.settled hd
      refine ⟨hon, fun inside hinside => eventually_of_succ ?_⟩
      filter_upwards [hsettles inside hinside] with k hk
      rw [lookup_base_succ hschema (hinside hn) found, hk, hd]
      rfl
    · obtain ⟨hn, d₀, found⟩ := exists_of_lookup_base hschema h
      rw [lookup_base_succ hschema hn found] at h
      obtain ⟨d, hd, -⟩ := map_eq_ok.1 h
      obtain ⟨s', hs'⟩ := passes_visitType hv hs hn found hd
      exact ⟨_, bind_eq_ok.2 ⟨_, hs', rfl⟩⟩

end Visit

/-- **However far references are followed**, visiting them mirrors resolving. -/
theorem mirrors_visits (c : Components) : ∀ steps, c.VisitMirrors steps (c.visits steps)
  | 0 => ⟨fun _ _ => ⟨nofun, nofun, nofun⟩, fun _ => ⟨nofun, nofun, nofun⟩⟩
  | steps + 1 => ⟨mirrors_enterVisit_group (mirrors_visits c steps),
      mirrors_enterVisit_base (mirrors_visits c steps)⟩

/-! ## All types and elements -/

section Visit

variable {v : Visit}

theorem leads_visitTypes (hv : c.VisitMirrors steps v) : ∀ (types : Table TypeDefinition)
    {s s' : Progress}, c.Sound s → (types.forM fun e => c.visitType v e.1) s = .ok ((), s') →
      c.Onwards s s' ∧ ∀ e ∈ types, e.1 ∈ s'.names
  | [], s, _, hs, h => by
    cases h
    exact ⟨.refl hs, nofun⟩
  | e :: types, s, s', hs, h => by
    obtain ⟨⟨_, s₁⟩, he, h⟩ := bind_eq_ok.1 h
    obtain ⟨hon, hmem⟩ := leads_visitType hv hs he
    obtain ⟨hon', hall⟩ := leads_visitTypes hv types hon.sound h
    exact ⟨hon.trans hon', List.forall_mem_cons.2 ⟨hon'.names hmem, hall⟩⟩

/-- **The visits to all types get through** if all types can be resolved. -/
theorem passes_visitTypes (hv : c.VisitMirrors steps v) : ∀ {types r : Table TypeDefinition}
    {s : Progress}, c.Sound s → s.inside = [] → (∀ e ∈ types, c.types.find? e.1 = some e.2) →
      c.resolveTypes (c.lookup steps) types = .ok r →
        ∃ s', (types.forM fun e => c.visitType v e.1) s = .ok ((), s')
  | [], _, s, _, _, _, _ => ⟨s, rfl⟩
  | (n, d) :: types, r, s, hs, hinside, hfound, h => by
    obtain ⟨hn, hrest⟩ := List.forall_mem_cons.1 hfound
    obtain ⟨d', hd, h⟩ := bind_eq_ok.1 h
    obtain ⟨r', hr, -⟩ := bind_eq_ok.1 h
    obtain ⟨s₁, hs₁⟩ := passes_visitType hv hs (by simp [hinside]) hn (hinside ▸ hd)
    have hon := (leads_visitType hv hs hs₁).1
    obtain ⟨s', hs'⟩ := passes_visitTypes hv hon.sound (hon.inside.trans hinside) hrest hr
    exact ⟨s', bind_eq_ok.2 ⟨_, hs₁, hs'⟩⟩

theorem mirrors_visitElements (hv : c.VisitMirrors steps v) (elements : Table ElementDecl) :
    c.Mirrors steps (elements.mapM fun e => do return (e.1, ← c.visitElement v e.2)) fun l =>
      elements.mapM fun e => (c.resolveElement l e.2).map fun d => (e.1, d) :=
  .mapM (fun e => (mirrors_visitElement hv e.2).bind fun d => .pure (e.1, d)) elements

end Visit

/-- A traversal whose steps come to values in the long run comes to these values. -/
theorem eventually_mapM {ε γ δ : Type} {f : ℕ → γ → Except ε δ} {g : γ → δ} : ∀ {l : List γ},
    (∀ a ∈ l, ∀ᶠ k in atTop, f k a = .ok (g a)) → ∀ᶠ k in atTop, l.mapM (f k) = .ok (l.map g)
  | [], _ => .of_forall fun _ => rfl
  | a :: l, h => by
    obtain ⟨ha, hl⟩ := List.forall_mem_cons.1 h
    filter_upwards [ha, eventually_mapM hl] with k hk hk'
    rw [List.mapM_cons, hk, ok_bind, hk']
    rfl

/-- **Once all types are remembered**, they are what resolving makes of the types, in some order. -/
theorem Sound.exists_types (hc : c.types.Keyed) (hs : c.Sound s)
    (hall : ∀ e ∈ c.types, e.1 ∈ s.names) : ∃ types : Table TypeDefinition, types.Perm s.done ∧
      ∀ᶠ k in atTop, c.resolveTypes (c.lookup k) c.types = .ok types := by
  let remembered (e : ExpandedName × TypeDefinition) : ExpandedName × TypeDefinition :=
    (e.1, (s.done.find? e.1).getD e.2)
  have hkeyed : Table.Keyed (c.types.map remembered) := by
    rwa [Table.Keyed, List.map_map]
  refine ⟨c.types.map remembered, ?_, ?_⟩
  · refine (List.perm_ext_iff_of_nodup (.of_map _ hkeyed) (.of_map _ hs.keyed)).2 fun e' => ?_
    obtain ⟨n, d⟩ := e'
    rw [← Table.find?_eq_some_iff hs.keyed, List.mem_map]
    constructor
    · rintro ⟨e, he, hd⟩
      obtain ⟨d', hd'⟩ := exists_find?_of_mem_names (hall e he)
      simp only [remembered, hd'] at hd
      cases hd
      exact hd'
    · intro hd
      obtain ⟨d₀, found, -⟩ := hs.settled hd
      exact ⟨(n, d₀), Table.mem_of_find? found, by simp only [remembered, hd, Option.getD_some]⟩
  · simp only [resolveTypes_eq_mapM]
    refine eventually_mapM fun e he => ?_
    obtain ⟨d, hd⟩ := exists_find?_of_mem_names (hall e he)
    obtain ⟨d₀, found, hsettles⟩ := hs.settled hd
    obtain rfl := Option.some.inj (((Table.find?_eq_some_iff hc).2 he).symm.trans found)
    filter_upwards [hsettles [] (List.disjoint_nil_right _)] with k hk
    rw [hk]
    simp only [remembered, hd]
    rfl

/-! ## Grammars -/

variable {g g' : Grammar} {arrange : Grammar → Grammar}

/-- **The walk through all types and elements** comes to what resolving makes of them, with the
types in some order. -/
theorem exists_of_visitAll (hc : c.Keyed) (h : c.visitAll (c.visits steps) ⟨[], []⟩ = .ok (g, s)) :
    ∃ g' : Grammar, g'.Reordered g ∧ g'.Keyed ∧ ∀ᶠ k in atTop, c.resolveWith (c.lookup k) =
      (do g'.checkReferences; return g') := by
  have hv := mirrors_visits c steps
  obtain ⟨⟨_, s₁⟩, htypes, h⟩ := bind_eq_ok.1 h
  obtain ⟨⟨elements, s₂⟩, helements, h⟩ := bind_eq_ok.1 h
  cases h
  obtain ⟨hon, hall⟩ := leads_visitTypes hv c.types (sound_nil c []) htypes
  obtain ⟨hon', hsettles⟩ := (mirrors_visitElements hv c.elements).leads hon.sound helements
  obtain ⟨types, hperm, hresolve⟩ :=
    hon'.sound.exists_types hc.types fun e he => hon'.names (hall e he)
  have hmade : ∀ᶠ k in atTop, c.resolveTypes (c.lookup k) c.types = .ok types ∧
      c.resolveElements (c.lookup k) c.elements = .ok elements := by
    filter_upwards [hresolve, hsettles [] (List.disjoint_nil_right _)] with k hk hk'
    exact ⟨hk, (resolveElements_eq_mapM _ _).trans hk'⟩
  obtain ⟨k, hk, hk'⟩ := hmade.exists
  refine ⟨⟨elements, c.attributes, types⟩, ⟨.refl _, .refl _, hperm⟩, hc.of_resolveWith hk hk', ?_⟩
  filter_upwards [hmade] with k hk
  rw [resolveWith, hk.1, ok_bind, hk.2, ok_bind]

/-- What resolving comes to in the long run is the grammar. -/
theorem resolve_of_eventually (h : ∀ᶠ k in atTop, c.resolveWith (c.lookup k) = .ok g) :
    c.resolve = .ok g := by
  obtain ⟨k, hk, hle⟩ := (h.and (eventually_ge_atTop c.stepLimit)).exists
  by_cases hend : c.resolve = .error .endlessUnfolding
  · exact nomatch hk.symm.trans ((unfoldsForever_of_resolve hend).resolveWith_eq k)
  · exact (c.steady_resolveWith.keeps (c.extends_lookup _ hle) hend).symm.trans hk

theorem eventually_of_resolve (h : c.resolve = .ok g) :
    ∀ᶠ k in atTop, c.resolveWith (c.lookup k) = .ok g := by
  have hend : c.resolveWith (c.lookup c.stepLimit) ≠ .error .endlessUnfolding := fun hend =>
    nomatch h.symm.trans hend
  filter_upwards [eventually_ge_atTop c.stepLimit] with k hle
  exact (c.steady_resolveWith.keeps (c.extends_lookup _ hle) hend).trans h

/-- **A grammar that a walk makes is the grammar**, up to the order of its tables. -/
theorem exists_resolve_of_traverse (hc : c.Keyed)
    (harrange : ∀ g : Grammar, g.Reordered (arrange g)) (h : c.traverse arrange steps = .ok g) :
    ∃ g', c.resolve = .ok g' ∧ g'.Reordered g := by
  obtain ⟨⟨g₀, s⟩, hvisit, h⟩ := bind_eq_ok.1 h
  obtain ⟨_, hcheck, h⟩ := bind_eq_ok.1 h
  cases h
  obtain ⟨g', hreordered, hkeyed, hresolve⟩ := exists_of_visitAll hc hvisit
  have hreordered := hreordered.trans (harrange g₀)
  refine ⟨g', resolve_of_eventually (hresolve.mono fun k hk => hk.trans ?_), hreordered⟩
  exact bind_eq_ok.2 ⟨(), (Grammar.checkReferences_iff hreordered hkeyed).2 hcheck, rfl⟩

/-- **Where there is a grammar, a walk makes one.** -/
theorem exists_traverse_of_resolve (hc : c.Keyed)
    (harrange : ∀ g : Grammar, g.Reordered (arrange g)) (h : c.resolve = .ok g) :
    ∃ g', c.traverse arrange c.stepLimit = .ok g' := by
  have hv := mirrors_visits c c.stepLimit
  obtain ⟨htypes, helements, -⟩ := resolveWith_eq_ok_iff.1 h
  obtain ⟨s₁, hs₁⟩ := passes_visitTypes hv (sound_nil c []) rfl
    (fun e he => (Table.find?_eq_some_iff hc.types).2 he) htypes
  have hon := (leads_visitTypes hv c.types (sound_nil c []) hs₁).1
  rw [resolveElements_eq_mapM, show ([] : List ExpandedName) = s₁.inside from hon.inside.symm]
    at helements
  obtain ⟨⟨elements, s₂⟩, hs₂⟩ := (mirrors_visitElements hv c.elements).passes hon.sound helements
  have hvisit : c.visitAll (c.visits c.stepLimit) ⟨[], []⟩ =
      .ok (⟨elements, c.attributes, s₂.done⟩, s₂) :=
    bind_eq_ok.2 ⟨_, hs₁, bind_eq_ok.2 ⟨_, hs₂, rfl⟩⟩
  obtain ⟨g', hreordered, hkeyed, hresolve⟩ := exists_of_visitAll hc hvisit
  obtain ⟨k, hk, hk'⟩ := (hresolve.and (eventually_of_resolve h)).exists
  obtain ⟨_, hcheck, -⟩ := bind_eq_ok.1 (hk.symm.trans hk')
  have hreordered := hreordered.trans (harrange _)
  refine ⟨_, bind_eq_ok.2 ⟨_, hvisit, bind_eq_ok.2 ⟨(), ?_, rfl⟩⟩⟩
  exact (Grammar.checkReferences_iff hreordered hkeyed).1 hcheck

/-- **No order has a part in the grammar.** With the tables of the components in another order,
there is a grammar just when there was one, and it is the same up to the order of its tables. That
also holds of a grammar that is made by a walk, in whatever order the components are visited, bases
are remembered and references are checked. -/
theorem resolve_of_reordered {c c' : Components} (hc : c.Keyed) (h : c.Reordered c') :
    ((∃ g, c.resolve = .ok g) ↔ ∃ g', c'.resolve = .ok g') ∧
    (∀ g g', c.resolve = .ok g → c'.resolve = .ok g' → g.Reordered g') ∧
    ∀ arrange : Grammar → Grammar, (∀ g : Grammar, g.Reordered (arrange g)) →
      ((∃ g, c.resolve = .ok g) ↔ ∃ steps g', c'.traverse arrange steps = .ok g') ∧
      ∀ steps g g', c.resolve = .ok g → c'.traverse arrange steps = .ok g' → g.Reordered g' := by
  have hc' := hc.reordered h
  have hsame : ∀ g g', c.resolve = .ok g → c'.resolve = .ok g' → g.Reordered g' := by
    intro g g' hg hg'
    obtain ⟨g'', hg'', hreordered⟩ := exists_resolve_of_reordered hc h hg
    obtain rfl := Except.ok.inj (hg''.symm.trans hg')
    exact hreordered
  have hiff : (∃ g, c.resolve = .ok g) ↔ ∃ g', c'.resolve = .ok g' := by
    constructor
    · rintro ⟨g, hg⟩
      obtain ⟨g', hg', -⟩ := exists_resolve_of_reordered hc h hg
      exact ⟨g', hg'⟩
    · rintro ⟨g', hg'⟩
      obtain ⟨g, hg, -⟩ := exists_resolve_of_reordered hc' h.symm hg'
      exact ⟨g, hg⟩
  refine ⟨hiff, hsame, fun arrange harrange => ⟨hiff.trans ⟨?_, ?_⟩, ?_⟩⟩
  · rintro ⟨g', hg'⟩
    obtain ⟨g'', hg''⟩ := exists_traverse_of_resolve hc' harrange hg'
    exact ⟨c'.stepLimit, g'', hg''⟩
  · rintro ⟨steps, g', hg'⟩
    obtain ⟨g'', hg'', -⟩ := exists_resolve_of_traverse hc' harrange hg'
    exact ⟨g'', hg''⟩
  · intro steps g g' hg hg'
    obtain ⟨g'', hg'', hreordered⟩ := exists_resolve_of_traverse hc' harrange hg'
    exact (hsame g g'' hg hg'').trans hreordered

/-- Letters and then notes: a letter comes before the type that it extends. -/
def lettersFirst : Components := { letters with types := letters.types.reverse }

/-- **Letters can come first**: notes are resolved on the way, and the grammar is the same. -/
theorem resolve_of_reordered_letters : ∃ g g' steps, letters.resolve = .ok g ∧
    lettersFirst.traverse id steps = .ok g' ∧ g.Reordered g' := by
  have hkeyed : letters.Keyed := by
    constructor <;> unfold Table.Keyed <;> decide
  have hreordered : letters.Reordered lettersFirst :=
    ⟨.refl _, .refl _, letters.types.reverse_perm.symm, .refl _, .refl _⟩
  obtain ⟨-, -, hwalk⟩ := resolve_of_reordered hkeyed hreordered
  obtain ⟨hiff, hsame⟩ := hwalk id fun _ => ⟨.refl _, .refl _, .refl _⟩
  obtain ⟨g', hg'⟩ : ∃ g, letters.resolve = .ok g := ⟨_, rfl⟩
  obtain ⟨steps, g, hg⟩ := hiff.1 ⟨g', hg'⟩
  exact ⟨g', g, steps, hg', hg, hsame steps g' g hg' hg⟩

end Components

end XmlConformance.Schema
