import XmlConformance.Proofs.Schema.Applying
import XmlConformance.Proofs.Schema.Checking
import XmlConformance.Proofs.Schema.SelfContained

/-!
# Proofs/Schema/Objecting — when a grammar cannot be applied to a document

The check of a document goes from declaration to declaration, and each of them is one of the
grammar, as the leaves that admit children are those of a content model (`hasDecl_of_bind`). Nothing
is missing in a grammar, so the check ends in a fault of the document, or because the derivation of
a simple type is too long or a content model is refused (`Grammar.Objects`), but never because the
type of an element is not there.
-/

namespace XmlConformance.Schema

open Xml

/-! ## The leaves of content models -/

section Leaves

variable {α : Type*} {P : α → Prop} {l : Language α} {o : Occurs}

/-- What holds of all letters of the words of a language holds of those of its repetitions. -/
theorem forall_mem_of_mem_times (h : ∀ w ∈ l, ∀ a ∈ w, P a) : ∀ w ∈ o.times l, ∀ a ∈ w, P a := by
  rintro w ⟨k, -, hw⟩ a ha
  obtain ⟨ws, rfl, -, hws⟩ := Language.mem_pow.1 hw
  obtain ⟨v, hv, ha⟩ := List.mem_flatten.1 ha
  exact h v (hws v hv) a ha

theorem forall_mem_of_mem_prod : ∀ {ls : List (Language α)},
    (∀ l ∈ ls, ∀ w ∈ l, ∀ a ∈ w, P a) → ∀ w ∈ ls.prod, ∀ a ∈ w, P a
  | [], _, w, hw, a, ha => by
    rw [(Language.mem_one w).1 hw] at ha
    cases ha
  | l :: ls, h, w, hw, a, ha => by
    rw [List.prod_cons] at hw
    rw [List.forall_mem_cons] at h
    obtain ⟨u, hu, v, hv, rfl⟩ := Language.mem_mul.1 hw
    obtain ha | ha := List.mem_append.1 ha
    · exact h.1 u hu a ha
    · exact forall_mem_of_mem_prod h.2 v hv a ha

theorem forall_mem_of_mem_sum : ∀ {ls : List (Language α)},
    (∀ l ∈ ls, ∀ w ∈ l, ∀ a ∈ w, P a) → ∀ w ∈ ls.sum, ∀ a ∈ w, P a
  | [], _, _, hw => nomatch hw
  | l :: ls, h, w, hw => by
    rw [List.sum_cons] at hw
    rw [List.forall_mem_cons] at h
    obtain hw | hw := (Language.mem_add ..).1 hw
    · exact h.1 w hw
    · exact forall_mem_of_mem_sum h.2 w hw

end Leaves

/-- A leaf stands in a particle: if it is a declaration, it does, or is a global one. -/
def Particle.Supplies (elements : Table ElementDecl) (p : Particle) (l : Leaf) : Prop :=
  ∀ d, l = .element d → p.Declares [] d ∨ ∃ n, elements.find? n = some d

namespace Particle

variable {elements : Table ElementDecl} {o : Occurs} {items : List Particle} {l : Leaf}

theorem supplies_sequence (h : ∃ p ∈ items, p.Supplies elements l) :
    (sequence o items).Supplies elements l :=
  have ⟨_, hp, hl⟩ := h
  fun d hd => (hl d hd).imp_left (.sequence hp)

theorem supplies_choice (h : ∃ p ∈ items, p.Supplies elements l) :
    (choice o items).Supplies elements l :=
  have ⟨_, hp, hl⟩ := h
  fun d hd => (hl d hd).imp_left (.choice hp)

mutual

/-- **The leaves of an automaton** stand in its content model. -/
theorem supplies_of_mem_leafWords : ∀ p : Particle, ∀ w ∈ p.leafWords elements, ∀ l ∈ w,
    p.Supplies elements l
  | .element o d => forall_mem_of_mem_times fun w hw l hl e he => by
    obtain rfl : w = [.element d] := hw
    cases List.mem_singleton.1 hl
    cases he
    exact .inl .element
  | .reference o n => forall_mem_of_mem_times fun w hw l hl e he => by
    cases found : elements.find? n with
    | none =>
      rw [found] at hw
      cases hw
    | some d =>
      rw [found] at hw
      obtain rfl : w = [.element d] := hw
      cases List.mem_singleton.1 hl
      cases he
      exact .inr ⟨n, found⟩
  | .any o x => forall_mem_of_mem_times fun w hw l hl e he => by
    obtain rfl : w = [.wildcard x] := hw
    cases List.mem_singleton.1 hl
    cases he
  | .sequence o items => forall_mem_of_mem_times fun w hw l hl =>
    supplies_sequence (forall_mem_of_mem_prod (supplies_of_mem_denotesEach items) w hw l hl)
  | .choice o items => forall_mem_of_mem_times fun w hw l hl =>
    supplies_choice (forall_mem_of_mem_sum (supplies_of_mem_denotesEach items) w hw l hl)
  | .all _ _ => forall_mem_of_mem_times fun _ hw => nomatch hw
  | .group _ _ => forall_mem_of_mem_times fun _ hw => nomatch hw

theorem supplies_of_mem_denotesEach : ∀ ps : List Particle,
    ∀ m ∈ denotesEach elements (fun l => {[l]}) ps, ∀ w ∈ m, ∀ l ∈ w,
      ∃ p ∈ ps, p.Supplies elements l
  | [], _, hm => nomatch hm
  | p :: ps, m, hm => fun w hw l hl => by
    obtain rfl | hm := List.mem_cons.1 hm
    · exact ⟨p, List.mem_cons_self, supplies_of_mem_leafWords p w hw l hl⟩
    · obtain ⟨q, hq, hsupplies⟩ := supplies_of_mem_denotesEach ps m hm w hw l hl
      exact ⟨q, List.mem_cons_of_mem p hq, hsupplies⟩

end

end Particle

/-! ### Groups -/

theorem mem_places_of_assign : ∀ {names : List ExpandedName} {position : ℕ} {ms : List Member}
    {found : List (Option Leaf)}, Member.assign position ms names = .ok found →
      ∀ l, some l ∈ found → ∃ m ∈ Member.places ms, m.1 = l
  | [], position, ms, found, h, l, hl => by
    rw [Member.assign] at h
    split at h
    · cases h
      cases hl
    · cases h
  | name :: names, position, ms, found, h, l, hl => by
    rw [Member.assign] at h
    split at h
    · cases h
    · next l' ms' htake =>
      obtain ⟨rest, hrest, rfl⟩ := map_eq_ok.1 h
      obtain ⟨-, r, hperm⟩ := (Member.take_spec name ms).1 l' ms' htake
      obtain heq | hl := List.mem_cons.1 hl
      · cases heq
        exact ⟨(l, r), hperm.mem_iff.2 List.mem_cons_self, rfl⟩
      · obtain ⟨m, hm, heq⟩ := mem_places_of_assign hrest l hl
        exact ⟨m, hperm.mem_iff.2 (List.mem_cons_of_mem _ hm), heq⟩

theorem leaf?_of_place? {elements : Table ElementDecl} {p : Particle} {m : Place}
    (h : p.place? elements = some m) : p.leaf? elements = some m.1 := by
  unfold Particle.place? at h
  split at h
  · cases h
  · obtain ⟨l, hl, rfl⟩ := Option.map_eq_some_iff.1 h
    exact hl

/-- **The members of a group** stand in it. -/
theorem supplies_of_mem_allMembers {elements : Table ElementDecl} {o : Occurs}
    {items : List Particle} {m : Place} (h : m ∈ allMembers elements items) :
    (Particle.all o items).Supplies elements m.1 := by
  obtain ⟨p, hp, hplace⟩ := List.mem_filterMap.1 h
  have hleaf := leaf?_of_place? hplace
  rintro d hd
  rw [hd] at hleaf
  cases p with
  | element o' d' =>
    cases hleaf
    exact .inl (.all hp .element)
  | reference o' n =>
    obtain ⟨d', found, heq⟩ := Option.map_eq_some_iff.1 hleaf
    cases heq
    exact .inr ⟨n, found⟩
  | any | sequence | choice | all | group => cases hleaf

/-- **The leaves that are found for children** stand in the content model. -/
theorem supplies_of_runModel {elements : Table ElementDecl} {model : Particle}
    {names : List ExpandedName} {found : List (Option Leaf)}
    (h : runModel elements model names = .ok (.ok found)) {l : Leaf} (hl : some l ∈ found) :
    model.Supplies elements l := by
  by_cases hall : ∃ o items, model = .all o items
  · obtain ⟨o, items, rfl⟩ := hall
    obtain ⟨mss, hmss, h⟩ := bind_eq_ok.1 h
    have hrun : runAll o.least mss.flatten names = .ok found := Except.ok.inj h
    rw [runAll] at hrun
    split at hrun
    · cases hrun
      cases hl
    · obtain ⟨m, hm, rfl⟩ := mem_places_of_assign hrun l hl
      rw [places_of_mapM hmss] at hm
      exact supplies_of_mem_allMembers hm
  · rw [runModel_eq_build fun o items heq => hall ⟨o, items, heq⟩] at h
    obtain ⟨a, ha, h⟩ := bind_eq_ok.1 h
    have hyields := Automaton.run_yields ha names
    rw [Except.ok.inj h] at hyields
    obtain ⟨leaves, hleaves, rfl, -⟩ := hyields
    obtain ⟨l', hl', heq⟩ := List.mem_map.1 hl
    cases heq
    exact Particle.supplies_of_mem_leafWords model leaves hleaves l hl'

namespace Grammar

/-! ## Objections -/

/-- **What the check of a document may end in**: a fault of the document, a derivation that is too
long, or a content model that is refused. -/
inductive Objects (g : Grammar) : Violation → Prop
  | invalid {offset : ℕ} {fault : Fault} : Objects g (.invalid offset fault)
  | depth : Objects g (.unusable .derivationTooDeep)
  | model {t : ComplexType} {model : Particle} {e : Error} (holds : g.components.Holds t)
      (content : t.content = .elements model) (refused : model.Refused e) :
      Objects g (.unusable e)

/-- No objection is that a type is not there. -/
theorem Objects.ne_undefinedType {g : Grammar} {n m : ExpandedName} :
    ¬ g.Objects (.unusable (.undefinedType n m)) := by
  rintro (_ | _ | ⟨-, -, refused⟩)
  cases refused

variable {g : Grammar} {t : Tag} {cs : List Node} {decl : ElementDecl}

theorem failsWith_violates {α : Type} (t : Tag) (fault : Fault) :
    FailsWith g.Objects (violates t fault : Except Violation α) :=
  .error .invalid

theorem failsWith_located {x : Except ValueError String} {p : Prop} (h : BlamesDepth p x) :
    FailsWith g.Objects (located t x) := by
  match x with
  | .ok v => exact .ok v
  | .error (.invalid fault) => exact failsWith_violates t _
  | .error (.unusable e) =>
    obtain ⟨rfl, -⟩ := h e rfl
    exact .error .depth

/-! ### Values -/

theorem failsWith_check (hg : g.Checked) {type : Option SimpleTypeRef}
    (htype : ∀ r, type = some r → g.Mentions r) (raw : String) :
    FailsWith g.Objects (located t (g.check type raw)) := by
  cases type with
  | none => exact .ok raw
  | some r =>
    have hfollowed := hg.followed_of_mentions (htype r rfl)
    exact failsWith_located (hg.blamesDepth_checkRef hfollowed raw)

theorem mentions_of_attributeRule {c : ComplexType} (holds : g.components.Holds c)
    {n : ExpandedName} {type : Option SimpleTypeRef} {fixed : Option String}
    (h : g.attributeRule c n = some (some (type, fixed))) : ∀ r, type = some r → g.Mentions r := by
  rintro r rfl
  unfold attributeRule at h
  split at h
  · next u hu =>
    have htype := congrArg Prod.fst (Option.some.inj (Option.some.inj h))
    exact .attributeUse holds (List.mem_of_find?_eq_some hu) htype
  split at h
  · cases h
  split at h
  · cases h
  split at h
  · cases h
  · next d found _ =>
    have htype := congrArg Prod.fst (Option.some.inj (Option.some.inj h))
    exact .attributeDecl found htype
  · cases h
  · split at h <;> cases h

theorem failsWith_checkAttribute (hg : g.Checked) {c : ComplexType} (holds : g.components.Holds c)
    (a : Attribute) : FailsWith g.Objects (g.checkAttribute c t a) := by
  unfold checkAttribute
  dsimp only
  split
  · exact failsWith_violates t _
  · exact .ok ()
  · next type fixed hrule =>
    refine (failsWith_check hg (mentions_of_attributeRule holds hrule) _).bind fun value _ => ?_
    split
    · exact failsWith_violates t _
    · exact .ok ()

theorem failsWith_checkPresence (u : AttributeUse) : FailsWith g.Objects (checkPresence t u) := by
  unfold checkPresence
  split
  · exact failsWith_violates t _
  · exact .ok ()

theorem failsWith_checkAttributes (hg : g.Checked) {c : ComplexType}
    (holds : g.components.Holds c) : FailsWith g.Objects (g.checkAttributes c t) :=
  (FailsWith.forM (failsWith_checkAttribute hg holds) _).bind fun _ _ =>
    FailsWith.forM failsWith_checkPresence _

theorem failsWith_checkFixed (value : String) :
    FailsWith g.Objects (checkFixed t decl value) := by
  unfold checkFixed
  split
  · exact failsWith_violates t _
  · exact .ok ()

theorem failsWith_checkSimpleElement {check : String → Except ValueError String}
    (h : ∀ raw, FailsWith g.Objects (located t (check raw))) :
    FailsWith g.Objects (checkSimpleElement decl t cs check) := by
  unfold checkSimpleElement
  split
  · exact failsWith_violates t _
  split
  · exact failsWith_violates t _
  · exact (h _).bind fun value _ => failsWith_checkFixed value

/-! ### Content -/

/-- A content model that is not refused finds leaves or a fault. -/
theorem failsWith_bind (hg : g.Checked) {c : ComplexType} (holds : g.components.Holds c)
    {model : Particle} (content : c.content = .elements model) :
    FailsWith g.Objects (g.bind model t cs) := by
  have hgroups : ∀ o items, model = .all o items → ∀ p ∈ items, ∀ o n, p ≠ .group o n := by
    rintro o items rfl p hp o' n rfl
    cases hg.part holds content (.all hp .self)
  unfold bind
  dsimp only
  split
  · next e he =>
    obtain ⟨-, r, hr⟩ | ⟨e', refused, he'⟩ :=
      Particle.settles g.elements ((childTags cs).map (·.name)) hgroups
    · cases he.symm.trans hr
    · cases he.symm.trans he'
      exact .error (.model holds content refused)
  · exact .ok _
  · split <;> exact failsWith_violates _ _

/-- **The declarations that children are bound to** are those of the grammar. -/
theorem hasDecl_of_bind {c : ComplexType} (holds : g.components.Holds c) {model : Particle}
    (content : c.content = .elements model) {leaves : List (Option Leaf)}
    (h : g.bind model t cs = .ok leaves) {d : ElementDecl} (hd : some (.element d) ∈ leaves) :
    g.HasDecl d := by
  obtain declares | ⟨n, found⟩ := supplies_of_runModel (bind_eq_ok_iff.1 h) hd d rfl
  · exact .inner holds ⟨model, content, declares⟩
  · exact .global found

theorem failsWith_checkContentOf (hg : g.Checked) {c : ComplexType} (holds : g.components.Holds c)
    {children : List (Option Leaf) → Except Violation Unit}
    (hchildren : ∀ leaves, (∀ d, some (.element d) ∈ leaves → g.HasDecl d) →
      FailsWith g.Objects (children leaves)) :
    FailsWith g.Objects (g.checkContentOf c decl t cs children) := by
  unfold checkContentOf
  split
  · split
    · exact failsWith_violates t _
    · exact .ok ()
  · next type content =>
    split
    · exact failsWith_violates t _
    · refine (failsWith_check hg (fun r hr => ?_) _).bind fun value _ => failsWith_checkFixed value
      cases hr
      exact .content holds content
  · next model content =>
    split
    · exact failsWith_violates t _
    · exact (failsWith_bind hg holds content).bind fun leaves hleaves =>
        hchildren leaves fun d hd => hasDecl_of_bind holds content hleaves hd

/-! ### Elements -/

theorem HasDecl.holds {d : ElementDecl} (hd : g.HasDecl d) {c : ComplexType}
    (type : d.type = .complex c) : g.components.Holds c := by
  cases hd with
  | global found => exact .declared found type
  | inner holds declares => exact .inside holds declares type

/-- The type that governs an element has a name, or is the one that the declaration gives. -/
theorem gives_of_governing {type : Governing} (h : g.governing t decl = .ok type) :
    (∃ n, g.StandsFor n type) ∨ g.Gives decl type := by
  obtain ⟨-, -, htype⟩ | ⟨-, htype⟩ := governing_eq_ok h
  · exact .inl ⟨_, standsFor_of_typeNamed? htype⟩
  · exact .inr (gives_of_declaredType htype)

theorem holds_of_standsFor {n : ExpandedName} {c : ComplexType}
    (h : g.StandsFor n (.complex c)) : g.components.Holds c := by
  cases h with
  | complex _ found => exact .named found

/-- A complex type that governs an element is held by the grammar. -/
theorem holds_of_governing (hd : g.HasDecl decl) {c : ComplexType}
    (h : g.governing t decl = .ok (.complex c)) : g.components.Holds c := by
  obtain ⟨n, hn⟩ | hgives := gives_of_governing h
  · exact holds_of_standsFor hn
  · cases hgives with
    | complex type => exact hd.holds type
    | named _ named => exact holds_of_standsFor named

/-- A simple type that governs an element by its name can be followed. -/
theorem followed_of_governing (hg : g.Checked) {r : SimpleTypeRef}
    (h : g.governing t decl = .ok (.simple r)) : g.Followed r := by
  obtain ⟨-, -, htype⟩ | ⟨-, htype⟩ := governing_eq_ok h
  · exact hg.followed_of_standsFor (standsFor_of_typeNamed? htype)
  · exact hg.followed_of_declaredType htype

/-- Only a declaration gives a simple type without a name. -/
theorem type_of_governing {s : SimpleType} (h : g.governing t decl = .ok (.inline s)) :
    decl.type = .simple s := by
  obtain ⟨n, hn⟩ | hgives := gives_of_governing h
  · cases hn
  · cases hgives with
    | inline type => exact type
    | named _ named => cases named

theorem failsWith_governing (hself : g.SelfContained) (hd : g.HasDecl decl) :
    FailsWith g.Objects (g.governing t decl) := by
  obtain ⟨type, htype⟩ := hself.declaredTypes decl hd
  refine FailsWith.bind ?_ fun named _ => ?_
  · unfold instanceType
    split
    · exact .ok none
    · split
      · exact .ok _
      · exact failsWith_violates t _
  · cases named with
    | some type => exact .ok type
    | none =>
      show FailsWith g.Objects (g.declaredType decl)
      rw [htype]
      exact .ok type

theorem failsWith_checkNil : FailsWith g.Objects (checkNil decl t cs) := by
  unfold checkNil
  split
  · exact .ok false
  split
  · exact failsWith_violates t _
  split
  · split
    · exact failsWith_violates t _
    · exact .ok true
  · exact .ok false

theorem failsWith_checkElementWith (hg : g.Checked) (hself : g.SelfContained)
    (hd : g.HasDecl decl) {children : List (Option Leaf) → Except Violation Unit}
    {freely : Unit → Except Violation Unit}
    (hchildren : ∀ leaves, (∀ d, some (.element d) ∈ leaves → g.HasDecl d) →
      FailsWith g.Objects (children leaves))
    (hfreely : FailsWith g.Objects (freely ())) :
    FailsWith g.Objects (g.checkElementWith decl t cs children freely) := by
  unfold checkElementWith
  split
  · exact failsWith_violates t _
  refine (failsWith_governing hself hd).bind fun type htype => ?_
  refine failsWith_checkNil.bind fun isNil _ => ?_
  split
  · split
    · exact failsWith_checkAttributes hg (holds_of_governing hd htype)
    · exact .ok ()
  · split
    · exact hfreely
    · next r =>
      have hfollowed := followed_of_governing hg htype
      exact failsWith_checkSimpleElement fun raw =>
        failsWith_located (hg.blamesDepth_checkRef hfollowed raw)
    · next s =>
      exact failsWith_checkSimpleElement fun raw =>
        failsWith_located (hg.blamesDepth_checkInline hd (type_of_governing htype) raw)
    · next c =>
      have holds := holds_of_governing hd htype
      exact (failsWith_checkAttributes hg holds).bind fun _ _ =>
        failsWith_checkContentOf hg holds hchildren

/-! ### Documents -/

mutual

theorem failsWith_validateNode (hg : g.Checked) (hself : g.SelfContained) :
    ∀ (n : Node) {decl : ElementDecl}, g.HasDecl decl →
      FailsWith g.Objects (g.validateNode decl n)
  | .element t cs, decl, hd => by
    rw [validateNode]
    exact failsWith_checkElementWith hg hself hd
      (fun leaves hleaves => failsWith_validateChildren hg hself leaves cs hleaves)
      (failsWith_validateFreely hg hself cs)
  | .text _, _, _ | .comment _, _, _ | .instruction _ _, _, _ | .root _, _, _ => by
    rw [validateNode]
    · exact .ok ()
    all_goals exact nofun

theorem failsWith_validateChildren (hg : g.Checked) (hself : g.SelfContained) :
    ∀ (leaves : List (Option Leaf)) (cs : List Node),
      (∀ d, some (.element d) ∈ leaves → g.HasDecl d) →
      FailsWith g.Objects (g.validateChildren leaves cs)
  | leaves, [], _ => by
    rw [validateChildren]
    exact .ok ()
  | [], .element t cs :: rest, _ => by
    rw [validateChildren]
    exact .ok ()
  | l :: leaves, .element t cs :: rest, hleaves => by
    have hrest := failsWith_validateChildren hg hself leaves rest
      fun d hd => hleaves d (List.mem_cons_of_mem l hd)
    match l with
    | none =>
      rw [validateChildren]
      exact hrest
    | some (.element d) =>
      rw [validateChildren]
      have hd := hleaves d List.mem_cons_self
      exact (failsWith_validateNode hg hself (.element t cs) hd).bind fun _ _ => hrest
    | some (.wildcard w) =>
      rw [validateChildren]
      split
      · exact hrest
      · next d found _ =>
        exact (failsWith_validateNode hg hself (.element t cs) (.global found)).bind
          fun _ _ => hrest
      · exact (failsWith_validateFreely hg hself cs).bind fun _ _ => hrest
      · exact failsWith_violates t _
  | leaves, .text _ :: rest, hleaves | leaves, .comment _ :: rest, hleaves
  | leaves, .instruction _ _ :: rest, hleaves | leaves, .root _ :: rest, hleaves => by
    simpa only [validateChildren] using failsWith_validateChildren hg hself leaves rest hleaves

theorem failsWith_validateFreely (hg : g.Checked) (hself : g.SelfContained) :
    ∀ cs : List Node, FailsWith g.Objects (g.validateFreely cs)
  | [] => by
    rw [validateFreely]
    exact .ok ()
  | .element t cs :: rest => by
    have hrest := failsWith_validateFreely hg hself rest
    rw [validateFreely]
    split
    · next d found =>
      exact (failsWith_validateNode hg hself (.element t cs) (.global found)).bind fun _ _ => hrest
    · exact (failsWith_validateFreely hg hself cs).bind fun _ _ => hrest
  | .text _ :: rest | .comment _ :: rest | .instruction _ _ :: rest | .root _ :: rest => by
    simpa only [validateFreely] using failsWith_validateFreely hg hself rest

end

/-- **The check of a document** ends in no other way. -/
theorem failsWith_validate (hg : g.Checked) (hself : g.SelfContained) (root : Tag × List Node) :
    FailsWith g.Objects (g.validate root) := by
  unfold validate
  dsimp only
  split
  · next d found => exact failsWith_validateNode hg hself _ (.global found)
  · exact failsWith_violates _ _

end Grammar

/-- **Nothing is missing in a grammar**, at whatever depth of its types and elements: no derivation,
no attribute group, no group and no prohibited attribute is left in it, and all that it refers to by
name is there. So the type that a declaration gives is found, for every declaration of the grammar,
and the check of a document never ends because it is not. -/
theorem Components.selfContained_of_resolve {c : Components} {g : Grammar} (h : c.resolve = .ok g) :
    g.SelfContained ∧ ∀ root n m, g.validate root ≠ .error (.unusable (.undefinedType n m)) := by
  have hself := Components.isSelfContained_of_resolve h
  refine ⟨hself, fun root n m hend => ?_⟩
  exact Grammar.Objects.ne_undefinedType
    (Grammar.failsWith_validate (Grammar.checked_of_resolve h) hself root _ hend)

/-- **Letters**, whose type extends another one with a group in it, make such a grammar. -/
theorem Components.selfContained_letters : ∃ g, letters.resolve = .ok g ∧ g.SelfContained ∧
    ∀ root n m, g.validate root ≠ .error (.unusable (.undefinedType n m)) :=
  ⟨_, rfl, selfContained_of_resolve (c := letters) rfl⟩

end XmlConformance.Schema
