import Mathlib.Data.List.Perm.Basic
import XmlConformance.Proofs.Schema.Additions
import XmlConformance.Proofs.Schema.Holding
import XmlConformance.Proofs.Schema.References

/-!
# Proofs/Schema/Ordering — components in another order

The tables of components are maps: a name has one entry, as in every schema that is read
(`keyed_of_load`), and the order of the entries means nothing. Definitions are resolved by what is
found under names, so they are resolved to the same things in either order (`resolveDefinition_eq`,
`lookup_eq`), and whether all references stand for something is the same question
(`checkReferences_iff`). So components in another order make the same grammar, up to the order of
its tables (`exists_resolve_of_reordered`).
-/

namespace XmlConformance

universe u v

/-- **A traversal in another order** ends in the same results, in that order. -/
theorem exists_mapM_of_perm {ε : Type u} {α β : Type v} {f : α → Except ε β} {l l' : List α}
    (h : l.Perm l') : ∀ {r : List β}, l.mapM f = .ok r → ∃ r', l'.mapM f = .ok r' ∧ r.Perm r' := by
  induction h with
  | nil => exact fun {r} hr => ⟨r, hr, .refl r⟩
  | cons a _ ih =>
    intro r hr
    rw [List.mapM_cons] at hr
    obtain ⟨b, hb, hr⟩ := bind_eq_ok.1 hr
    obtain ⟨rest, hrest, hr⟩ := bind_eq_ok.1 hr
    cases hr
    obtain ⟨rest', hrest', hperm⟩ := ih hrest
    refine ⟨b :: rest', ?_, hperm.cons b⟩
    rw [List.mapM_cons, hb, ok_bind, hrest']
    rfl
  | swap a a' l =>
    intro r hr
    rw [List.mapM_cons] at hr
    obtain ⟨b', hb', hr⟩ := bind_eq_ok.1 hr
    obtain ⟨_, hrest, hr⟩ := bind_eq_ok.1 hr
    cases hr
    rw [List.mapM_cons] at hrest
    obtain ⟨b, hb, hrest⟩ := bind_eq_ok.1 hrest
    obtain ⟨rest, hl, hrest⟩ := bind_eq_ok.1 hrest
    cases hrest
    refine ⟨b :: b' :: rest, ?_, .swap b b' rest⟩
    rw [List.mapM_cons, List.mapM_cons, hb, hb', hl]
    rfl
  | trans _ _ ih ih' =>
    intro r hr
    obtain ⟨r₁, hr₁, hperm⟩ := ih hr
    obtain ⟨r₂, hr₂, hperm'⟩ := ih' hr₁
    exact ⟨r₂, hr₂, hperm.trans hperm'⟩

namespace Schema

open Xml

theorem forM_eq_ok_iff {ε α : Type} {f : α → Except ε Unit} {l : List α} :
    l.forM f = .ok () ↔ ∀ a ∈ l, f a = .ok () := by
  refine ⟨forM_eq_ok, fun h => ?_⟩
  induction l with
  | nil => rfl
  | cons a l ih =>
    obtain ⟨ha, hl⟩ := List.forall_mem_cons.1 h
    exact bind_eq_ok.2 ⟨(), ha, ih hl⟩

/-! ## Tables -/

namespace Table

variable {α : Type} {t t' : Table α} {n : ExpandedName} {a : α}

/-- Every name has one entry. -/
def Keyed (t : Table α) : Prop := (t.map Prod.fst).Nodup

theorem find?_eq_some_iff (ht : t.Keyed) : t.find? n = some a ↔ (n, a) ∈ t := by
  refine ⟨mem_of_find?, fun h => ?_⟩
  induction t with
  | nil => cases h
  | cons e t ih =>
    obtain ⟨m, b⟩ := e
    obtain ⟨hm, ht⟩ := List.nodup_cons.1 ht
    rw [find?, List.lookup_cons]
    obtain heq | hmem := List.mem_cons.1 h
    · cases heq
      rw [beq_self_eq_true]
    · have hne : n ≠ m := by
        rintro rfl
        exact hm (List.mem_map.2 ⟨(n, a), hmem, rfl⟩)
      rw [beq_false_of_ne hne]
      exact ih ht hmem

theorem Keyed.perm (ht : t.Keyed) (h : t.Perm t') : t'.Keyed :=
  (h.map Prod.fst).nodup_iff.1 ht

/-- **In another order** the same is found. -/
theorem find?_of_perm (ht : t.Keyed) (h : t.Perm t') (n : ExpandedName) : t.find? n = t'.find? n :=
  Option.ext fun a => by
    rw [find?_eq_some_iff ht, find?_eq_some_iff (ht.perm h), h.mem_iff]

/-- **A component that is added** takes the place of the one with its name. -/
theorem Keyed.insert (ht : t.Keyed) (n : ExpandedName) (a : α) : (t.insert n a).Keyed := by
  rw [Keyed, Table.insert, List.map_append]
  refine List.Nodup.append ?_ (List.nodup_singleton n) ?_
  · exact ht.sublist (List.filter_sublist.map Prod.fst)
  · rw [List.map_singleton, List.disjoint_singleton]
    rintro hmem
    obtain ⟨e, he, rfl⟩ := List.mem_map.1 hmem
    exact absurd rfl (bne_iff_ne.1 (List.mem_filter.1 he).2)

theorem Related.keyed {R : α → α → Prop} (h : Table.Related R t t') (ht : t.Keyed) : t'.Keyed := by
  have hkeys : t.map Prod.fst = t'.map Prod.fst := by
    induction h with
    | nil => rfl
    | cons he _ ih =>
      rw [List.map_cons, List.map_cons, he.1, ih (List.nodup_cons.1 ht).2]
  unfold Keyed at *
  rwa [← hkeys]

end Table

namespace Components

variable {c c' : Components}

/-- **Components in another order.** -/
structure Reordered (c c' : Components) : Prop where
  elements : c.elements.Perm c'.elements
  attributes : c.attributes.Perm c'.attributes
  types : c.types.Perm c'.types
  groups : c.groups.Perm c'.groups
  attributeGroups : c.attributeGroups.Perm c'.attributeGroups

/-- Every name has one entry in each table. -/
structure Keyed (c : Components) : Prop where
  elements : c.elements.Keyed
  attributes : c.attributes.Keyed
  types : c.types.Keyed
  groups : c.groups.Keyed
  attributeGroups : c.attributeGroups.Keyed

/-- The same is found under names. -/
structure FindsSame (c c' : Components) : Prop where
  attributes : ∀ n, c.attributes.find? n = c'.attributes.find? n
  types : ∀ n, c.types.find? n = c'.types.find? n
  groups : ∀ n, c.groups.find? n = c'.groups.find? n
  attributeGroups : ∀ n, c.attributeGroups.find? n = c'.attributeGroups.find? n

theorem Reordered.findsSame (h : c.Reordered c') (hc : c.Keyed) : c.FindsSame c' where
  attributes := Table.find?_of_perm hc.attributes h.attributes
  types := Table.find?_of_perm hc.types h.types
  groups := Table.find?_of_perm hc.groups h.groups
  attributeGroups := Table.find?_of_perm hc.attributeGroups h.attributeGroups

theorem Reordered.symm (h : c.Reordered c') : c'.Reordered c :=
  ⟨h.elements.symm, h.attributes.symm, h.types.symm, h.groups.symm, h.attributeGroups.symm⟩

theorem Keyed.reordered (hc : c.Keyed) (h : c.Reordered c') : c'.Keyed :=
  ⟨hc.elements.perm h.elements, hc.attributes.perm h.attributes, hc.types.perm h.types,
    hc.groups.perm h.groups, hc.attributeGroups.perm h.attributeGroups⟩

/-! ## Reading -/

theorem keyed_of_addition {s : Setting} {t : Tag} (h : Addition s t c c') (hc : c.Keyed) :
    c'.Keyed := by
  cases h with
  | elementDecl => exact { hc with elements := hc.elements.insert _ _ }
  | attributeDecl => exact { hc with attributes := hc.attributes.insert _ _ }
  | typeDefinition => exact { hc with types := hc.types.insert _ _ }
  | groupModel => exact { hc with groups := hc.groups.insert _ _ }
  | attributeGroup => exact { hc with attributeGroups := hc.attributeGroups.insert _ _ }
  | nothing => exact hc

/-- **A schema that is read** has one component under each name. -/
theorem keyed_of_load {library : Library} {resolver : Resolver} {root : Document}
    (h : (Components.load library resolver root).outcome = .ok c) : c.Keyed :=
  Components.preserved_of_load keyed_of_addition
    ⟨List.nodup_nil, List.nodup_nil, List.nodup_nil, List.nodup_nil, List.nodup_nil⟩ h

/-! ## Definitions -/

theorem resolveUse_eq (h : c.FindsSame c') : c.resolveUse = c'.resolveUse := by
  funext u
  rw [resolveUse, resolveUse, h.attributes]

theorem addGroups_eq (h : c.FindsSame c') : c.addGroups = c'.addGroups := by
  funext expand names found
  induction names generalizing found with
  | nil => rfl
  | cons n names ih =>
    obtain ⟨uses, wildcard⟩ := found
    simp only [addGroups, h.attributeGroups, ih]

theorem attributesOf_eq (h : c.FindsSame c') : c.attributesOf = c'.attributesOf := by
  funext depth
  induction depth with
  | zero => rfl
  | succ depth ih =>
    funext g
    rw [attributesOf, attributesOf, ih, resolveUse_eq h, addGroups_eq h]

theorem resolveTypeName_eq (h : c.FindsSame c') : c.resolveTypeName = c'.resolveTypeName := by
  funext n
  rw [resolveTypeName, resolveTypeName, h.types]

mutual

theorem resolveParticle_eq (h : c.FindsSame c') (l : Lookup) (depth : ℕ) :
    ∀ p, c.resolveParticle l depth p = c'.resolveParticle l depth p
  | .element o d => by rw [resolveParticle, resolveParticle, resolveElement_eq h]
  | .reference _ _ => rfl
  | .sequence _ items | .choice _ items | .all _ items => by
    rw [resolveParticle, resolveParticle, resolveParticles_eq h]
  | .group _ _ => rfl
  | .any _ _ => rfl

theorem resolveParticles_eq (h : c.FindsSame c') (l : Lookup) (depth : ℕ) :
    ∀ ps, c.resolveParticles l depth ps = c'.resolveParticles l depth ps
  | [] => rfl
  | p :: ps => by
    rw [resolveParticles, resolveParticles, resolveParticle_eq h, resolveParticles_eq h]

theorem resolveElement_eq (h : c.FindsSame c') (l : Lookup) :
    ∀ d, c.resolveElement l d = c'.resolveElement l d
  | ⟨_, type, _, _, _⟩ => by rw [resolveElement, resolveElement, resolveType_eq h]

theorem resolveType_eq (h : c.FindsSame c') (l : Lookup) :
    ∀ type, c.resolveType l type = c'.resolveType l type
  | .any => rfl
  | .named n => by rw [resolveType, resolveType, resolveTypeName_eq h]
  | .complex t => by rw [resolveType, resolveType, resolveComplex_eq h]
  | .simple _ => rfl

theorem resolveComplex_eq (h : c.FindsSame c') (l : Lookup) :
    ∀ t, c.resolveComplex l t = c'.resolveComplex l t
  | ⟨_, _, content, _, _, _⟩ => by
    rw [resolveComplex, resolveComplex, attributesOf_eq h, resolveContent_eq h]

theorem resolveContent_eq (h : c.FindsSame c') (l : Lookup) :
    ∀ t, c.resolveContent l t = c'.resolveContent l t
  | .empty => rfl
  | .elements p => by rw [resolveContent, resolveContent, resolveParticle_eq h]
  | .simple _ => rfl

end

theorem resolveDefinition_eq (h : c.FindsSame c') (l : Lookup) :
    ∀ d, c.resolveDefinition l d = c'.resolveDefinition l d
  | .complex t => by rw [resolveDefinition, resolveDefinition, resolveComplex_eq h]
  | .simple _ => rfl

/-- **References are followed to the same things.** -/
theorem lookup_eq (h : c.FindsSame c') (steps : ℕ) : c.lookup steps = c'.lookup steps := by
  induction steps with
  | zero => rfl
  | succ steps ih =>
    rw [lookup, lookup, ih]
    funext inside
    simp only [enter, h.groups, h.types, resolveParticle_eq h, resolveComplex_eq h]

theorem resolveTypes_eq_mapM (follow : Following) : ∀ types : Table TypeDefinition,
    c.resolveTypes follow types =
      types.mapM fun e => (c.resolveDefinition (follow [e.1]) e.2).map fun d => (e.1, d)
  | [] => rfl
  | (n, d) :: rest => by
    rw [resolveTypes, resolveTypes_eq_mapM follow rest, List.mapM_cons]
    cases c.resolveDefinition (follow [n]) d <;> rfl

theorem resolveElements_eq_mapM (follow : Following) : ∀ elements : Table ElementDecl,
    c.resolveElements follow elements =
      elements.mapM fun e => (c.resolveElement (follow []) e.2).map fun d => (e.1, d)
  | [] => rfl
  | (n, d) :: rest => by
    rw [resolveElements, resolveElements_eq_mapM follow rest, List.mapM_cons]
    cases c.resolveElement (follow []) d <;> rfl

end Components

/-! ## References -/

namespace Grammar

variable {g g' : Grammar}

/-- The same is found under names. -/
structure FindsSame (g g' : Grammar) : Prop where
  elements : ∀ n, g.elements.find? n = g'.elements.find? n
  types : ∀ n, g.types.find? n = g'.types.find? n

/-- **A grammar with its tables in another order.** -/
structure Reordered (g g' : Grammar) : Prop where
  elements : g.elements.Perm g'.elements
  attributes : g.attributes.Perm g'.attributes
  types : g.types.Perm g'.types

/-- Every name has one entry in each table. -/
structure Keyed (g : Grammar) : Prop where
  elements : g.elements.Keyed
  attributes : g.attributes.Keyed
  types : g.types.Keyed

theorem variety_eq (h : g.FindsSame g') (steps : ℕ) : g.variety steps = g'.variety steps := by
  induction steps with
  | zero => rfl
  | succ steps ih =>
    funext r
    cases r with
    | named n => simp only [variety, h.types, ih]
    | inline t => rw [variety, variety, ih]

mutual

theorem checkSimple_eq (h : g.FindsSame g') : ∀ t, g.checkSimple t = g'.checkSimple t
  | .restriction _ _ | .list _ => by rw [checkSimple, checkSimple, checkSimpleRef_eq h]
  | .union _ => by rw [checkSimple, checkSimple, checkSimpleRefs_eq h]

theorem checkSimpleRef_eq (h : g.FindsSame g') : ∀ r, g.checkSimpleRef r = g'.checkSimpleRef r
  | .named n => by rw [checkSimpleRef, checkSimpleRef, resolves, resolves, variety_eq h]
  | .inline t => by rw [checkSimpleRef, checkSimpleRef, checkSimple_eq h]

theorem checkSimpleRefs_eq (h : g.FindsSame g') : ∀ rs, g.checkSimpleRefs rs = g'.checkSimpleRefs rs
  | [] => rfl
  | r :: rs => by
    rw [checkSimpleRefs, checkSimpleRefs, checkSimpleRef_eq h, checkSimpleRefs_eq h]

end

theorem checkAttributeType_eq (h : g.FindsSame g') :
    ∀ type, g.checkAttributeType type = g'.checkAttributeType type
  | none => rfl
  | some r => checkSimpleRef_eq h r

mutual

theorem checkParticle_eq (h : g.FindsSame g') : ∀ p, g.checkParticle p = g'.checkParticle p
  | .element _ _ => by rw [checkParticle, checkParticle, checkElement_eq h]
  | .reference _ n => by rw [checkParticle, checkParticle, h.elements]
  | .sequence _ _ | .choice _ _ | .all _ _ => by
    rw [checkParticle, checkParticle, checkParticles_eq h]
  | .group _ _ => rfl
  | .any _ _ => rfl

theorem checkParticles_eq (h : g.FindsSame g') : ∀ ps, g.checkParticles ps = g'.checkParticles ps
  | [] => rfl
  | p :: ps => by rw [checkParticles, checkParticles, checkParticle_eq h, checkParticles_eq h]

theorem checkElement_eq (h : g.FindsSame g') : ∀ d, g.checkElement d = g'.checkElement d
  | ⟨_, _, _, _, _⟩ => by rw [checkElement, checkElement, checkElementType_eq h]

theorem checkElementType_eq (h : g.FindsSame g') :
    ∀ type, g.checkElementType type = g'.checkElementType type
  | .complex _ => by rw [checkElementType, checkElementType, checkComplex_eq h]
  | .simple _ => by rw [checkElementType, checkElementType, checkSimple_eq h]
  | .any => rfl
  | .named _ => rfl

theorem checkComplex_eq (h : g.FindsSame g') : ∀ t, g.checkComplex t = g'.checkComplex t
  | ⟨_, _, content, attributes, _, _⟩ => by
    have htype : g.checkAttributeType = g'.checkAttributeType := funext (checkAttributeType_eq h)
    rw [checkComplex, checkComplex, htype, checkContent_eq h]

theorem checkContent_eq (h : g.FindsSame g') : ∀ t, g.checkContent t = g'.checkContent t
  | .empty => rfl
  | .elements _ => by rw [checkContent, checkContent, checkParticle_eq h]
  | .simple _ => by rw [checkContent, checkContent, checkSimpleRef_eq h]

end

theorem checkDefinition_eq (h : g.FindsSame g') : ∀ d, g.checkDefinition d = g'.checkDefinition d
  | .complex t => checkComplex_eq h t
  | .simple t => checkSimple_eq h t

theorem Reordered.findsSame (h : g.Reordered g') (hg : g.Keyed) : g.FindsSame g' :=
  ⟨Table.find?_of_perm hg.elements h.elements, Table.find?_of_perm hg.types h.types⟩

theorem Reordered.trans {g'' : Grammar} (h : g.Reordered g') (h' : g'.Reordered g'') :
    g.Reordered g'' :=
  ⟨h.elements.trans h'.elements, h.attributes.trans h'.attributes, h.types.trans h'.types⟩

theorem checkReferences_eq_ok_iff : g.checkReferences = .ok () ↔
    (∀ e ∈ g.elements, g.checkElement e.2 = .ok ()) ∧
      (∀ e ∈ g.attributes, g.checkAttributeType e.2.type = .ok ()) ∧
      ∀ e ∈ g.types, g.checkDefinition e.2 = .ok () := by
  simp only [← forM_eq_ok_iff, checkReferences, bind_eq_ok]
  exact ⟨fun ⟨_, helements, _, hattributes, htypes⟩ => ⟨helements, hattributes, htypes⟩,
    fun ⟨helements, hattributes, htypes⟩ => ⟨(), helements, (), hattributes, htypes⟩⟩

/-- **All references stand for something**, in whatever order they are looked at. -/
theorem checkReferences_iff (h : g.Reordered g') (hg : g.Keyed) :
    g.checkReferences = .ok () ↔ g'.checkReferences = .ok () := by
  have hsame := h.findsSame hg
  simp only [checkReferences_eq_ok_iff, h.elements.mem_iff, h.attributes.mem_iff, h.types.mem_iff,
    checkElement_eq hsame, checkAttributeType_eq hsame, checkDefinition_eq hsame]

end Grammar

/-! ## Grammars -/

namespace Components

variable {c c' : Components} {g : Grammar}

/-- What resolving components comes to: every definition and declaration is resolved, and then all
references stand for something. -/
theorem resolveWith_eq_ok_iff {follow : Following} : c.resolveWith follow = .ok g ↔
    c.resolveTypes follow c.types = .ok g.types ∧
      c.resolveElements follow c.elements = .ok g.elements ∧
      g.attributes = c.attributes ∧ g.checkReferences = .ok () := by
  rw [resolveWith]
  simp only [bind_eq_ok]
  constructor
  · rintro ⟨types, htypes, elements, helements, _, hcheck, h⟩
    cases h
    exact ⟨htypes, helements, rfl, hcheck⟩
  · obtain ⟨elements, attributes, types⟩ := g
    rintro ⟨htypes, helements, rfl, hcheck⟩
    exact ⟨types, htypes, elements, helements, (), hcheck, rfl⟩

/-- What is resolved stands under the same names. -/
theorem Keyed.of_resolveWith {follow : Following} {types : Table TypeDefinition}
    {elements : Table ElementDecl} (hc : c.Keyed)
    (htypes : c.resolveTypes follow c.types = .ok types)
    (helements : c.resolveElements follow c.elements = .ok elements) :
    (Grammar.mk elements c.attributes types).Keyed where
  elements := (related_of_resolveElements helements).keyed hc.elements
  attributes := hc.attributes
  types := (related_of_resolveTypes htypes).keyed hc.types

/-- **Components in another order make the same grammar**, with its tables in another order. -/
theorem exists_resolve_of_reordered (hc : c.Keyed) (h : c.Reordered c') (hg : c.resolve = .ok g) :
    ∃ g', c'.resolve = .ok g' ∧ g.Reordered g' := by
  obtain ⟨elements, attributes, types⟩ := g
  obtain ⟨htypes, helements, rfl, hcheck⟩ := resolveWith_eq_ok_iff.1 hg
  have hkeyed := hc.of_resolveWith htypes helements
  have hsame := h.findsSame hc
  have hlimit : c.stepLimit = c'.stepLimit := by
    rw [stepLimit, stepLimit, h.types.length_eq, h.groups.length_eq]
  rw [hlimit, lookup_eq hsame] at htypes helements
  rw [resolveTypes_eq_mapM] at htypes
  rw [resolveElements_eq_mapM] at helements
  simp only [resolveDefinition_eq hsame] at htypes
  simp only [resolveElement_eq hsame] at helements
  obtain ⟨types', htypes', htypesPerm⟩ := exists_mapM_of_perm h.types htypes
  obtain ⟨elements', helements', helementsPerm⟩ := exists_mapM_of_perm h.elements helements
  have hreordered : Grammar.Reordered ⟨elements, c.attributes, types⟩
      ⟨elements', c'.attributes, types'⟩ := ⟨helementsPerm, h.attributes, htypesPerm⟩
  refine ⟨⟨elements', c'.attributes, types'⟩, resolveWith_eq_ok_iff.2 ⟨?_, ?_, rfl, ?_⟩, hreordered⟩
  · rw [resolveTypes_eq_mapM, htypes']
  · rw [resolveElements_eq_mapM, helements']
  · exact (Grammar.checkReferences_iff hreordered hkeyed).1 hcheck

end Components

end Schema

end XmlConformance
