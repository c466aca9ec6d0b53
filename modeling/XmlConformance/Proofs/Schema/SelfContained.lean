import XmlConformance.Proofs.Schema.Derivations
import XmlConformance.Proofs.Schema.Inheriting

/-!
# Proofs/Schema/SelfContained — nothing is missing in a grammar

In a grammar, derivations and groups are written out, at every depth of every type and element, also
where content comes from a base or a group. What is still referred to by name is there: the elements
that content models refer to, the types of elements, and the simple types of attributes
(`Grammar.SelfContained`).
-/

namespace XmlConformance.Schema

open Xml

/-- **A particle is part of another one**: it is that particle, or stands in it at some depth. -/
inductive Particle.Part (q : Particle) : Particle → Prop
  | self : Part q q
  | sequence {o : Occurs} {items : List Particle} {p : Particle} (member : p ∈ items)
      (part : Part q p) : Part q (.sequence o items)
  | choice {o : Occurs} {items : List Particle} {p : Particle} (member : p ∈ items)
      (part : Part q p) : Part q (.choice o items)
  | all {o : Occurs} {items : List Particle} {p : Particle} (member : p ∈ items)
      (part : Part q p) : Part q (.all o items)

namespace Grammar

/-- A name stands for the type of all content, for a built-in type or for a type of a grammar. -/
inductive HasType (g : Grammar) (n : ExpandedName) : Prop
  | any (schema : isSchemaName n = true) (any : n.localName = "anyType")
  | builtin {b : Builtin} (schema : isSchemaName n = true)
      (found : Builtin.ofName? n.localName = some b)
  | defined {d : TypeDefinition} (own : isSchemaName n = false) (found : g.types.find? n = some d)

/-- A simple type is that of an attribute: of one that is declared, or of one in a complex type. -/
inductive AttributeType (g : Grammar) (r : SimpleTypeRef) : Prop
  | declared {n : ExpandedName} {d : AttributeDecl} (found : g.attributes.find? n = some d)
      (type : d.type = some r)
  | used {t : ComplexType} {u : AttributeUse} (holds : g.components.Holds t)
      (member : u ∈ t.attributes) (type : u.type = some r)

/-- **Nothing is missing in a grammar.** -/
structure SelfContained (g : Grammar) : Prop where
  derivations : ∀ t, g.components.Holds t → t.base = none ∧ t.attributeGroups = []
  uses : ∀ t, g.components.Holds t → ∀ u ∈ t.attributes, u.use ≠ .prohibited
  groups : ∀ t (p q : Particle), g.components.Holds t → t.content = .elements p → q.Part p →
    ∀ o n, q ≠ .group o n
  references : ∀ t p o n, g.components.Holds t → t.content = .elements p →
    (Particle.reference o n).Part p → ∃ d, g.elements.find? n = some d
  elementTypes : ∀ d n, g.HasDecl d → d.type = .named n → g.HasType n
  attributeTypes : ∀ r, g.AttributeType r → (∃ steps v, g.variety steps r = .ok v) ∧
    ∀ n, r = .named n → g.resolves r = true
  declaredTypes : ∀ d, g.HasDecl d → ∃ type, g.declaredType d = .ok type

variable {g : Grammar} {p q : Particle} {r : SimpleTypeRef} {n : ExpandedName}

/-! ## Content -/

theorem checkParticle_of_part (part : q.Part p) (h : g.checkParticle p = .ok ()) :
    g.checkParticle q = .ok () := by
  induction part with
  | self => exact h
  | sequence member _ ih => exact ih (checkParticle_of_mem h _ member)
  | choice member _ ih => exact ih (checkParticle_of_mem h _ member)
  | all member _ ih => exact ih (checkParticle_of_mem h _ member)

/-- **Every part of a content model** has passed the check. -/
theorem Checked.part (hg : g.Checked) {t : ComplexType} (holds : g.components.Holds t)
    (content : t.content = .elements p) (part : q.Part p) : g.checkParticle q = .ok () := by
  have h := checkContent_of_checkComplex (hg.complex holds)
  rw [content] at h
  exact checkParticle_of_part part h

theorem exists_find?_of_checkParticle {o : Occurs}
    (h : g.checkParticle (.reference o n) = .ok ()) : ∃ d, g.elements.find? n = some d := by
  rw [checkParticle] at h
  split at h
  · next found => exact Option.isSome_iff_exists.1 found
  · cases h

/-! ## Simple types -/

theorem resolves_of_checkSimpleRef (h : g.checkSimpleRef (.named n) = .ok ()) :
    g.resolves (.named n) = true := by
  rw [checkSimpleRef] at h
  split at h
  · assumption
  · cases h

theorem exists_variety_of_resolves (h : g.resolves r = true) :
    ∃ v, g.variety derivationLimit r = .ok v := by
  unfold resolves at h
  cases hv : g.variety derivationLimit r with
  | ok v => exact ⟨v, rfl⟩
  | error e =>
    rw [hv] at h
    cases h

mutual

/-- **What has passed the check** leads to a simple type. -/
theorem exists_variety_of_checkSimpleRef : ∀ r, g.checkSimpleRef r = .ok () →
    ∃ steps v, g.variety steps r = .ok v
  | .named _, h => ⟨_, exists_variety_of_resolves (resolves_of_checkSimpleRef h)⟩
  | .inline t, h =>
    have ⟨steps, v, hv⟩ := exists_variety_of_checkSimple t h
    ⟨steps + 1, v, hv⟩

theorem exists_variety_of_checkSimple : ∀ t, g.checkSimple t = .ok () →
    ∃ steps v, varietyOfType (g.variety steps) t = .ok v
  | .restriction base _, h => exists_variety_of_checkSimpleRef base h
  | .list _, _ => ⟨0, .list, rfl⟩
  | .union _, _ => ⟨0, .union, rfl⟩

end

theorem Checked.attributeType (hg : g.Checked) (h : g.AttributeType r) :
    g.checkSimpleRef r = .ok () := by
  cases h with
  | declared found type =>
    have h := hg.attributes found
    rw [type] at h
    exact h
  | used holds member type =>
    have h := checkAttributeType_of_checkComplex (hg.complex holds) _ member
    rw [type] at h
    exact h

/-! ## Elements -/

theorem HasType.exists_typeNamed (h : g.HasType n) : ∃ type, g.typeNamed? n = some type := by
  unfold typeNamed?
  cases h with
  | any schema any => exact ⟨.any, by rw [if_pos schema, any, if_pos (beq_self_eq_true _)]⟩
  | builtin schema found =>
    rw [if_pos schema, found]
    split
    · exact ⟨_, rfl⟩
    · exact ⟨_, rfl⟩
  | defined own found =>
    rw [own, if_neg Bool.false_ne_true, found]
    exact ⟨_, rfl⟩

theorem exists_declaredType {d : ElementDecl} (h : ∀ n, d.type = .named n → g.HasType n) :
    ∃ type, g.declaredType d = .ok type := by
  unfold declaredType
  split
  · exact ⟨_, rfl⟩
  · exact ⟨_, rfl⟩
  · exact ⟨_, rfl⟩
  · next n hn =>
    obtain ⟨type, htype⟩ := (h n hn).exists_typeNamed
    rw [htype]
    exact ⟨type, rfl⟩

end Grammar

namespace Components

variable {c : Components} {g : Grammar}

/-- The declarations of a grammar are resolved. -/
theorem exists_resolvesDecl_of_hasDecl (h : c.resolve = .ok g) {d' : ElementDecl}
    (hd : g.HasDecl d') : ∃ d, c.ResolvesDecl d d' := by
  cases hd with
  | global found =>
    obtain ⟨d, -, hresolve⟩ := (related_of_resolve h).2.exists_left found
    exact ⟨d, _, _, hresolve⟩
  | inner holds' declares =>
    obtain ⟨t, holds, steps, inside, hresolve⟩ := exists_holds_of_holds h holds'
    obtain ⟨_, d, -, -, hd⟩ := holds_declares_of_resolveComplex steps hresolve holds declares
    exact ⟨d, hd⟩

theorem ResolvesDecl.resolveTypeName {d d' : ElementDecl} {n : ExpandedName}
    (h : c.ResolvesDecl d d') (type : d'.type = .named n) :
    c.resolveTypeName n = .ok (.named n) := by
  obtain ⟨steps, inside, h⟩ := h
  obtain ⟨name, dtype, nillable, isAbstract, fixed⟩ := d
  obtain ⟨dtype', htype, h⟩ := bind_eq_ok.1 h
  cases h
  obtain rfl : dtype' = .named n := type
  cases dtype with
  | any => cases htype
  | simple _ => cases htype
  | complex t => obtain ⟨_, -, h⟩ := bind_eq_ok.1 htype; cases h
  | named m =>
    cases eq_named_of_resolveTypeName htype
    exact htype

theorem hasType_of_resolveTypeName (h : c.resolve = .ok g) {n : ExpandedName}
    (hn : c.resolveTypeName n = .ok (.named n)) : g.HasType n := by
  unfold resolveTypeName at hn
  dsimp only at hn
  generalize hknown : (if isSchemaName n then _ else _ : Bool) = known at hn
  cases known with
  | false => cases hn
  | true =>
    split at hknown
    · next schema =>
      obtain hany | hbuiltin := Bool.or_eq_true_iff.1 hknown
      · exact .any schema (eq_of_beq hany)
      · obtain ⟨b, found⟩ := Option.isSome_iff_exists.1 hbuiltin
        exact .builtin schema found
    · next own =>
      obtain ⟨d, found⟩ := Option.isSome_iff_exists.1 hknown
      obtain ⟨d', found', -⟩ := (related_of_resolve h).1.exists_right found
      exact .defined (Bool.eq_false_of_not_eq_true own) found'

/-- The named types of elements are there. -/
theorem hasType_of_hasDecl (h : c.resolve = .ok g) {d : ElementDecl} {n : ExpandedName}
    (hd : g.HasDecl d) (type : d.type = .named n) : g.HasType n := by
  obtain ⟨d₀, hd₀⟩ := exists_resolvesDecl_of_hasDecl h hd
  exact hasType_of_resolveTypeName h (hd₀.resolveTypeName type)

/-- **Grammars are self-contained.** -/
theorem isSelfContained_of_resolve (h : c.resolve = .ok g) : g.SelfContained := by
  have hg := Grammar.checked_of_resolve h
  refine ⟨fun t' holds' => ?_, fun t' holds' => ?_, fun t p q holds content part o n hq => ?_,
    fun t p o n holds content part => ?_, fun d n hd type => hasType_of_hasDecl h hd type,
    fun r hr => ?_, fun d hd => Grammar.exists_declaredType fun n => hasType_of_hasDecl h hd⟩
  · obtain ⟨t, -, steps, inside, ht⟩ := exists_holds_of_holds h holds'
    obtain ⟨uses, wildcard, own, base, -, -, -, rfl⟩ := resolveComplex_eq_ok ht
    rcases base with _ | ⟨b, _ | _⟩ <;> exact ⟨rfl, rfl⟩
  · obtain ⟨t, -, steps, inside, ht⟩ := exists_holds_of_holds h holds'
    exact use_ne_prohibited_of_resolveComplex ht
  · cases hq
    cases hg.part holds content part
  · exact Grammar.exists_find?_of_checkParticle (hg.part holds content part)
  · have hr := hg.attributeType hr
    refine ⟨Grammar.exists_variety_of_checkSimpleRef r hr, ?_⟩
    rintro n rfl
    exact Grammar.resolves_of_checkSimpleRef hr

end Components

end XmlConformance.Schema
