import Mathlib.Data.List.Chain
import XmlConformance.Proofs.Schema.References
import XmlConformance.Schema.Validation

/-!
# Proofs/Schema/Derivations — values of the simple types of a grammar

To check a value, the derivation of its type is followed step by step (`Grammar.Leads`). In a
grammar all names that it comes to are those of simple types, so the check of a value can fail for
one reason only: the derivation was followed as far as it ever is (`check_settles`). The references
were checked when the grammar was made, but behind a list or a union they were not followed. So
there are grammars with derivations that do not end, as that of a list of itself
(`check_listOfItself`).
-/

namespace XmlConformance.Schema

open Xml

/-- The references that the definition of a simple type consists of: the base of a restriction, the
items of a list, the members of a union. -/
def SimpleType.parts : SimpleType → List SimpleTypeRef
  | .restriction base _ => [base]
  | .list item => [item]
  | .union members => members

namespace Grammar

/-- **One step in the derivation of a type**: to a part of its definition, or, if it is a complex
type with simple content, to the type of that. -/
inductive Leads (g : Grammar) : SimpleTypeRef → SimpleTypeRef → Prop
  | inline {t : SimpleType} {r : SimpleTypeRef} (part : r ∈ t.parts) : Leads g (.inline t) r
  | simple {n : ExpandedName} {t : SimpleType} {r : SimpleTypeRef} (own : isSchemaName n = false)
      (found : g.types.find? n = some (.simple t)) (part : r ∈ t.parts) : Leads g (.named n) r
  | content {n : ExpandedName} {t : ComplexType} {r : SimpleTypeRef} (own : isSchemaName n = false)
      (found : g.types.find? n = some (.complex t)) (content : t.content = .simple r) :
      Leads g (.named n) r

/-- **A grammar mentions a simple type**: as the type of an attribute, of an element or of simple
content, by the name of its definition, or as a step in the derivation of one that it mentions. -/
inductive Mentions (g : Grammar) : SimpleTypeRef → Prop
  | attributeDecl {n : ExpandedName} {d : AttributeDecl} {r : SimpleTypeRef}
      (found : g.attributes.find? n = some d) (type : d.type = some r) : Mentions g r
  | attributeUse {t : ComplexType} {u : AttributeUse} {r : SimpleTypeRef}
      (holds : g.components.Holds t)
      (member : u ∈ t.attributes) (type : u.type = some r) : Mentions g r
  | content {t : ComplexType} {r : SimpleTypeRef} (holds : g.components.Holds t)
      (content : t.content = .simple r) : Mentions g r
  | element {d : ElementDecl} {r : SimpleTypeRef} (decl : g.HasDecl d)
      (type : g.declaredType d = .ok (.simple r)) : Mentions g r
  | inlineElement {d : ElementDecl} {t : SimpleType} {r : SimpleTypeRef} (decl : g.HasDecl d)
      (type : d.type = .simple t) (part : r ∈ t.parts) : Mentions g r
  | defined {n : ExpandedName} {t : SimpleType} (own : isSchemaName n = false)
      (found : g.types.find? n = some (.simple t)) : Mentions g (.named n)
  | step {r s : SimpleTypeRef} (outer : Mentions g r) (leads : g.Leads r s) : Mentions g s

variable {g : Grammar} {r s : SimpleTypeRef}

/-! ## References that were checked -/

theorem checkSimpleRef_of_mem : ∀ {rs : List SimpleTypeRef}, g.checkSimpleRefs rs = .ok () →
    ∀ r ∈ rs, g.checkSimpleRef r = .ok ()
  | [], _ => nofun
  | r :: rs, h => by
    obtain ⟨_, hr, hrs⟩ := bind_eq_ok.1 h
    exact List.forall_mem_cons.2 ⟨hr, checkSimpleRef_of_mem hrs⟩

/-- The parts of a definition that has passed the check have passed it. -/
theorem checkSimpleRef_of_parts {t : SimpleType} (h : g.checkSimple t = .ok ()) :
    ∀ r ∈ t.parts, g.checkSimpleRef r = .ok () := by
  cases t with
  | restriction base facets => exact List.forall_mem_singleton.2 h
  | list item => exact List.forall_mem_singleton.2 h
  | union members => exact checkSimpleRef_of_mem h

/-- A reference is to a built-in type, to a definition of a simple type or of simple content, or is
a definition itself. -/
inductive Founded (g : Grammar) : SimpleTypeRef → Prop
  | builtin {n : ExpandedName} {b : Builtin} (schema : isSchemaName n = true)
      (found : Builtin.ofName? n.localName = some b) : Founded g (.named n)
  | simple {n : ExpandedName} {t : SimpleType} (own : isSchemaName n = false)
      (found : g.types.find? n = some (.simple t)) : Founded g (.named n)
  | content {n : ExpandedName} {t : ComplexType} {r : SimpleTypeRef} (own : isSchemaName n = false)
      (found : g.types.find? n = some (.complex t)) (content : t.content = .simple r) :
      Founded g (.named n)
  | inline {t : SimpleType} : Founded g (.inline t)

/-- A reference whose variety is known is one of these. -/
theorem founded_of_variety {steps : ℕ} {v : Variety} (h : g.variety steps r = .ok v) :
    g.Founded r := by
  cases steps with
  | zero => cases h
  | succ steps =>
    cases r with
    | inline t => exact .inline
    | named n =>
      rw [variety] at h
      split at h
      · case isTrue schema =>
        split at h
        · next b found => exact .builtin schema found
        · cases h
      · case isFalse own =>
        rw [Bool.not_eq_true] at own
        split at h
        · next t found => exact .simple own found
        · next found => exact .content own found rfl
        · cases h

/-- **A reference can be followed**: it stands for something, and all that it leads to has passed
the check. -/
structure Followed (g : Grammar) (r : SimpleTypeRef) : Prop where
  founded : g.Founded r
  checked : ∀ s, g.Leads r s → g.checkSimpleRef s = .ok ()

theorem Checked.checked_of_leads_named (hg : g.Checked) {n : ExpandedName}
    (leads : g.Leads (.named n) s) : g.checkSimpleRef s = .ok () := by
  cases leads with
  | simple _ found part => exact checkSimpleRef_of_parts (hg.types found) s part
  | content _ found content =>
    have h := checkContent_of_checkComplex (hg.types found)
    rw [content] at h
    exact h

/-- **What has passed the check can be followed.** -/
theorem Checked.followed (hg : g.Checked) (h : g.checkSimpleRef r = .ok ()) : g.Followed r := by
  cases r with
  | inline t =>
    refine ⟨.inline, fun s leads => ?_⟩
    cases leads with
    | inline part => exact checkSimpleRef_of_parts h s part
  | named n =>
    refine ⟨?_, fun s => hg.checked_of_leads_named⟩
    rw [checkSimpleRef] at h
    split at h
    · case isTrue hresolves =>
      cases hv : g.variety derivationLimit (.named n) with
      | ok v => exact founded_of_variety hv
      | error e =>
        rw [resolves, hv] at hresolves
        cases hresolves
    · cases h

/-- A simple type with a name can be followed. -/
theorem Checked.followed_of_standsFor (hg : g.Checked) {n : ExpandedName}
    (h : g.StandsFor n (.simple r)) : g.Followed r := by
  cases h with
  | builtin schema found => exact ⟨.builtin schema found, fun s => hg.checked_of_leads_named⟩
  | simple own found => exact ⟨.simple own found, fun s => hg.checked_of_leads_named⟩

/-- The type that a declaration gives by its name. -/
theorem Checked.followed_of_declaredType (hg : g.Checked) {d : ElementDecl}
    (type : g.declaredType d = .ok (.simple r)) : g.Followed r := by
  cases gives_of_declaredType type with
  | named _ named => exact hg.followed_of_standsFor named

theorem Checked.followed_of_type (hg : g.Checked) {type : Option SimpleTypeRef}
    (h : g.checkAttributeType type = .ok ()) (htype : type = some r) : g.Followed r := by
  rw [htype] at h
  exact hg.followed h

/-- **Every simple type that a grammar mentions** can be followed. -/
theorem Checked.followed_of_mentions (hg : g.Checked) (h : g.Mentions r) : g.Followed r := by
  induction h with
  | attributeDecl found type => exact hg.followed_of_type (hg.attributes found) type
  | attributeUse holds member type =>
    exact hg.followed_of_type (checkAttributeType_of_checkComplex (hg.complex holds) _ member) type
  | content holds content =>
    have h := checkContent_of_checkComplex (hg.complex holds)
    rw [content] at h
    exact hg.followed h
  | element _ type => exact hg.followed_of_declaredType type
  | inlineElement decl type part =>
    have h := checkSimple_of_checkElement (hg.element decl) type
    exact hg.followed (checkSimpleRef_of_parts h _ part)
  | defined own found => exact ⟨.simple own found, fun s => hg.checked_of_leads_named⟩
  | step _ leads ih => exact hg.followed (ih.checked _ leads)

/-! ## Following derivations -/

/-- **The derivation of a type goes on** for a number of steps. -/
def GoesOn (g : Grammar) (steps : ℕ) (r : SimpleTypeRef) : Prop :=
  ∃ way : List SimpleTypeRef, way.length = steps ∧ (r :: way).IsChain g.Leads

theorem goesOn_zero (g : Grammar) (r : SimpleTypeRef) : g.GoesOn 0 r := ⟨[], rfl, .singleton r⟩

theorem GoesOn.cons {steps : ℕ} (leads : g.Leads r s) (h : g.GoesOn steps s) :
    g.GoesOn (steps + 1) r := by
  obtain ⟨way, hlength, hway⟩ := h
  exact ⟨s :: way, congrArg Nat.succ hlength, .cons_cons leads hway⟩

section Steps

variable {n : ExpandedName} {steps : ℕ}

theorem variety_of_simple {t : SimpleType} (own : isSchemaName n = false)
    (found : g.types.find? n = some (.simple t)) :
    g.variety (steps + 1) (.named n) = varietyOfType (g.variety steps) t := by
  rw [variety, own, if_neg Bool.false_ne_true, found]

theorem variety_of_content {t : ComplexType} (own : isSchemaName n = false)
    (found : g.types.find? n = some (.complex t)) (content : t.content = .simple r) :
    g.variety (steps + 1) (.named n) = g.variety steps r := by
  obtain ⟨_, _, _, _, _, _⟩ := t
  obtain rfl := content
  rw [variety, own, if_neg Bool.false_ne_true, found]

theorem checkRef_of_simple {t : SimpleType} (own : isSchemaName n = false)
    (found : g.types.find? n = some (.simple t)) (raw : String) :
    g.checkRef (steps + 1) (.named n) raw =
      checkTypeWith (g.checkRef steps) (g.variety steps) n.localName t raw := by
  rw [checkRef, own, if_neg Bool.false_ne_true, found]

theorem checkRef_of_content {t : ComplexType} (own : isSchemaName n = false)
    (found : g.types.find? n = some (.complex t)) (content : t.content = .simple r)
    (raw : String) : g.checkRef (steps + 1) (.named n) raw = g.checkRef steps r raw := by
  obtain ⟨_, _, _, _, _, _⟩ := t
  obtain rfl := content
  rw [checkRef, own, if_neg Bool.false_ne_true, found]

end Steps

/-- If the variety of a base is unknown for one reason only, so is that of a type. -/
theorem varietyOfType_eq_error {variety : SimpleTypeRef → Except Error Variety} {t : SimpleType}
    {e : Error} (h : varietyOfType variety t = .error e) : ∃ r ∈ t.parts, variety r = .error e := by
  cases t with
  | restriction base facets => exact ⟨base, List.mem_cons_self, h⟩
  | list item => cases h
  | union members => cases h

/-- **The variety of a type** is unknown only where its derivation is too long. -/
theorem Checked.variety_eq_error (hg : g.Checked) : ∀ {steps : ℕ} {r : SimpleTypeRef} {e : Error},
    g.Followed r → g.variety steps r = .error e → e = .derivationTooDeep ∧ g.GoesOn steps r
  | 0, r, e, _, h => by
    cases h
    exact ⟨rfl, goesOn_zero g r⟩
  | steps + 1, r, e, hr, h => by
    have hstep {s : SimpleTypeRef} (leads : g.Leads r s) (hs : g.variety steps s = .error e) :
        e = .derivationTooDeep ∧ g.GoesOn (steps + 1) r := by
      obtain ⟨he, hgoes⟩ := hg.variety_eq_error (hg.followed (hr.checked s leads)) hs
      exact ⟨he, hgoes.cons leads⟩
    cases hr.founded with
    | builtin schema found =>
      rw [variety, schema, if_pos rfl, found] at h
      cases h
    | simple own found =>
      rw [variety_of_simple own found] at h
      obtain ⟨s, part, hs⟩ := varietyOfType_eq_error h
      exact hstep (.simple own found part) hs
    | content own found content =>
      rw [variety_of_content own found content] at h
      exact hstep (.content own found content) h
    | inline =>
      obtain ⟨s, part, hs⟩ := varietyOfType_eq_error h
      exact hstep (.inline part) hs

/-- A check finds a type unusable only because a derivation is too long, and only if `p` holds. -/
def BlamesDepth (p : Prop) (x : Except ValueError String) : Prop :=
  ∀ e, x = .error (.unusable e) → e = .derivationTooDeep ∧ p

section BlamesDepth

variable {p q : Prop} {check : SimpleTypeRef → String → Except ValueError String}
  {variety : SimpleTypeRef → Except Error Variety} {raw : String}

theorem BlamesDepth.mono {x : Except ValueError String} (h : BlamesDepth p x) (hpq : p → q) :
    BlamesDepth q x :=
  fun e he => (h e he).imp_right hpq

theorem checkWords_eq_unusable {word : String → Except ValueError String} {e : Error} :
    ∀ {ws : List String}, checkWords word ws = .error (.unusable e) →
      ∃ w ∈ ws, word w = .error (.unusable e)
  | [], h => by cases h
  | w :: ws, h => by
    rw [checkWords] at h
    cases hw : word w with
    | ok v =>
      rw [hw] at h
      obtain ⟨u, hu, hfails⟩ := checkWords_eq_unusable h
      exact ⟨u, List.mem_cons_of_mem w hu, hfails⟩
    | error e' =>
      rw [hw] at h
      cases h
      exact ⟨w, List.mem_cons_self, hw⟩

theorem checkMembers_eq_unusable {member : SimpleTypeRef → Except ValueError String}
    {fault : ValueFault} {e : Error} : ∀ {ms : List SimpleTypeRef},
      checkMembers member fault ms = .error (.unusable e) →
        ∃ m ∈ ms, member m = .error (.unusable e)
  | [], h => by cases h
  | m :: ms, h => by
    rw [checkMembers] at h
    split at h
    · obtain ⟨u, hu, hfails⟩ := checkMembers_eq_unusable h
      exact ⟨u, List.mem_cons_of_mem m hu, hfails⟩
    · exact ⟨m, List.mem_cons_self, h⟩

theorem checkFacets_eq_unusable {f : Facets} {typeName value : String} {v : Except Error Variety}
    {e : Error} (h : checkFacets f typeName v value = .error (.unusable e)) : v = .error e := by
  unfold checkFacets at h
  dsimp only at h
  split at h
  · cases h
    rfl
  · split at h <;> cases h

/-- **A type is unusable** only if one of its parts is. -/
theorem blamesDepth_checkTypeWith {t : SimpleType}
    (hcheck : ∀ r ∈ t.parts, ∀ text, BlamesDepth p (check r text))
    (hvariety : ∀ r ∈ t.parts, ∀ e, variety r = .error e → e = .derivationTooDeep ∧ p)
    (typeName : String) : BlamesDepth p (checkTypeWith check variety typeName t raw) := by
  intro e h
  cases t with
  | restriction base facets =>
    have hbase : base ∈ (SimpleType.restriction base facets).parts := List.mem_cons_self
    rw [checkTypeWith] at h
    cases hvalue : check base raw with
    | ok value =>
      rw [hvalue] at h
      exact hvariety base hbase e (checkFacets_eq_unusable h)
    | error e' =>
      rw [hvalue] at h
      cases h
      exact hcheck base hbase raw e hvalue
  | list item =>
    rw [checkTypeWith] at h
    cases hwords : checkWords (check item) (tokens (WhiteSpace.collapse.apply raw)) with
    | ok _ =>
      rw [hwords] at h
      cases h
    | error e' =>
      rw [hwords] at h
      cases h
      obtain ⟨w, -, hw⟩ := checkWords_eq_unusable hwords
      exact hcheck item List.mem_cons_self w e hw
  | union members =>
    obtain ⟨m, hm, hfails⟩ := checkMembers_eq_unusable h
    exact hcheck m hm raw e hfails

end BlamesDepth

/-- **The check of a value** finds the type unusable only where its derivation is too long. -/
theorem Checked.blamesDepth_checkRef (hg : g.Checked) : ∀ {steps : ℕ} {r : SimpleTypeRef},
    g.Followed r → ∀ raw, BlamesDepth (g.GoesOn steps r) (g.checkRef steps r raw)
  | 0, r, _, _ => by
    intro e h
    cases h
    exact ⟨rfl, goesOn_zero g r⟩
  | steps + 1, r, hr, raw => by
    have hcheck {s : SimpleTypeRef} (leads : g.Leads r s) (text : String) :
        BlamesDepth (g.GoesOn (steps + 1) r) (g.checkRef steps s text) :=
      (hg.blamesDepth_checkRef (hg.followed (hr.checked s leads)) text).mono (.cons leads)
    have hvariety {s : SimpleTypeRef} (leads : g.Leads r s) (e : Error)
        (h : g.variety steps s = .error e) : e = .derivationTooDeep ∧ g.GoesOn (steps + 1) r :=
      (hg.variety_eq_error (hg.followed (hr.checked s leads)) h).imp_right (.cons leads)
    cases hr.founded with
    | @builtin n b schema found =>
      intro e h
      rw [checkRef, schema, if_pos rfl, found] at h
      dsimp only [Builtin.check] at h
      split at h <;> cases h
    | simple own found =>
      rw [checkRef_of_simple own found]
      exact blamesDepth_checkTypeWith (fun s part => hcheck (.simple own found part))
        (fun s part => hvariety (.simple own found part)) _
    | content own found content =>
      rw [checkRef_of_content own found content]
      exact hcheck (.content own found content) raw
    | inline =>
      exact blamesDepth_checkTypeWith (fun s part => hcheck (.inline part))
        (fun s part => hvariety (.inline part)) _

/-- The same holds of a simple type that a declaration defines itself. -/
theorem Checked.blamesDepth_checkInline (hg : g.Checked) {d : ElementDecl} (hd : g.HasDecl d)
    {t : SimpleType} (type : d.type = .simple t) (raw : String) :
    BlamesDepth (∃ r ∈ t.parts, g.GoesOn derivationLimit r) (g.checkInline t raw) := by
  have hparts {r : SimpleTypeRef} (part : r ∈ t.parts) : g.Followed r :=
    hg.followed_of_mentions (.inlineElement hd type part)
  refine blamesDepth_checkTypeWith (fun r part text => ?_) (fun r part e he => ?_) _
  · exact (hg.blamesDepth_checkRef (hparts part) text).mono fun hgoes => ⟨r, part, hgoes⟩
  · exact (hg.variety_eq_error (hparts part) he).imp_right fun hgoes => ⟨r, part, hgoes⟩

/-- A check that blames nothing but the depth ends in a value, in a fault, or in that. -/
theorem BlamesDepth.cases {p : Prop} {x : Except ValueError String} (h : BlamesDepth p x) :
    (∃ v, x = .ok v) ∨ (∃ f, x = .error (.invalid f)) ∨
      x = .error (.unusable .derivationTooDeep) ∧ p := by
  match x with
  | .ok v => exact .inl ⟨v, rfl⟩
  | .error (.invalid f) => exact .inr (.inl ⟨f, rfl⟩)
  | .error (.unusable e) =>
    obtain ⟨rfl, hp⟩ := h e rfl
    exact .inr (.inr ⟨rfl, hp⟩)

end Grammar

namespace Components

open Grammar

/-- **Values of the simple types of a grammar.** Whatever simple type a grammar mentions, the check
of a text ends in a value or finds a fault of the text, unless the derivation of the type goes on
for as many steps as are ever followed; that is then the only complaint. The same holds of a simple
type that the declaration of an element defines itself, and the derivations of its parts. -/
theorem check_settles {c : Components} {g : Grammar} (h : c.resolve = .ok g) :
    (∀ r, g.Mentions r → ∀ raw, (∃ v, g.check (some r) raw = .ok v) ∨
      (∃ f, g.check (some r) raw = .error (.invalid f)) ∨
      g.check (some r) raw = .error (.unusable .derivationTooDeep) ∧ g.GoesOn derivationLimit r) ∧
    ∀ d t, g.HasDecl d → d.type = .simple t → ∀ raw, (∃ v, g.checkInline t raw = .ok v) ∨
      (∃ f, g.checkInline t raw = .error (.invalid f)) ∨
      g.checkInline t raw = .error (.unusable .derivationTooDeep) ∧
        ∃ r ∈ t.parts, g.GoesOn derivationLimit r := by
  have hg := checked_of_resolve h
  refine ⟨fun r hr raw => ?_, fun d t hd type raw => ?_⟩
  · exact (hg.blamesDepth_checkRef (hg.followed_of_mentions hr) raw).cases
  · exact (hg.blamesDepth_checkInline hd type raw).cases

/-- Lists of sizes; there are two sizes. -/
def sizes : Components where
  types :=
    [(⟨none, "Size"⟩, .simple (.restriction (.named (schemaName "string"))
      { enumeration := ["S", "M"] })),
     (⟨none, "Sizes"⟩, .simple (.list (.named ⟨none, "Size"⟩)))]

/-- Lists of sizes are derived from texts in two steps. -/
theorem not_goesOn_sizes : ¬ GoesOn ⟨[], [], sizes.types⟩ derivationLimit
    (.named ⟨none, "Sizes"⟩) := by
  rintro ⟨way, hlength, hway⟩
  match way, hlength, hway with
  | r :: s :: t :: rest, _, .cons_cons hr (.cons_cons hs (.cons_cons ht _)) =>
    obtain rfl : r = .named ⟨none, "Size"⟩ := by
      cases hr with
      | simple _ found part =>
        cases found
        exact List.mem_singleton.1 part
      | content _ found _ => cases found
    obtain rfl : s = .named (schemaName "string") := by
      cases hs with
      | simple _ found part =>
        cases found
        exact List.mem_singleton.1 part
      | content _ found _ => cases found
    cases ht with
    | simple own | content own => cases own

/-- **Every text is a list of sizes, or has a fault.** -/
theorem check_sizes : ∃ g, sizes.resolve = .ok g ∧ g.Mentions (.named ⟨none, "Sizes"⟩) ∧
    ∀ raw, (∃ v, g.check (some (.named ⟨none, "Sizes"⟩)) raw = .ok v) ∨
      ∃ f, g.check (some (.named ⟨none, "Sizes"⟩)) raw = .error (.invalid f) := by
  have hresolve : sizes.resolve = .ok ⟨[], [], sizes.types⟩ := rfl
  have hmentions : Mentions ⟨[], [], sizes.types⟩ (.named ⟨none, "Sizes"⟩) := .defined rfl rfl
  refine ⟨_, hresolve, hmentions, fun raw => ?_⟩
  obtain hvalue | hfault | ⟨-, hgoes⟩ := (check_settles hresolve).1 _ hmentions raw
  · exact .inl hvalue
  · exact .inr hfault
  · exact absurd hgoes not_goesOn_sizes

/-- A list of itself. -/
def listOfItself : Components where
  types := [(⟨none, "L"⟩, .simple (.list (.named ⟨none, "L"⟩)))]

/-- **A list of itself becomes a type of a grammar, but no text with a word in it can be checked
against it.** -/
theorem check_listOfItself : ∃ g, listOfItself.resolve = .ok g ∧
    g.Mentions (.named ⟨none, "L"⟩) ∧
    g.check (some (.named ⟨none, "L"⟩)) "a" = .error (.unusable .derivationTooDeep) := by
  have hresolve : listOfItself.resolve = .ok ⟨[], [], listOfItself.types⟩ := rfl
  refine ⟨_, hresolve, .defined rfl rfl, ?_⟩
  have hwords : tokens (WhiteSpace.collapse.apply "a") = ["a"] := by decide
  have hcheck : ∀ steps, checkRef ⟨[], [], listOfItself.types⟩ steps (.named ⟨none, "L"⟩) "a" =
      .error (.unusable .derivationTooDeep) := by
    intro steps
    induction steps with
    | zero => rfl
    | succ steps ih =>
      rw [checkRef_of_simple (t := .list (.named ⟨none, "L"⟩)) rfl rfl]
      rw [checkTypeWith, hwords, checkWords, ih]
      rfl
  exact hcheck derivationLimit

end Components

end XmlConformance.Schema
