import XmlConformance.Proofs.Schema.Holding

/-!
# Proofs/Schema/References — what the check of references leaves in a grammar

A grammar is only made if all names in it stand for something. So what it holds at any depth has
passed the check: every complex type (`Checked.complex`) and every declaration (`Checked.element`).
-/

namespace XmlConformance.Schema

open Xml

/-- A step that fails nowhere was taken for each member. -/
theorem forM_eq_ok {ε α : Type} {f : α → Except ε Unit} : ∀ {l : List α},
    l.forM f = .ok () → ∀ a ∈ l, f a = .ok ()
  | [], _ => nofun
  | a :: l, h => by
    obtain ⟨_, ha, hl⟩ := bind_eq_ok.1 h
    exact List.forall_mem_cons.2 ⟨ha, forM_eq_ok hl⟩

/-- What is found in a table is one of its entries. -/
theorem Table.mem_of_find? {α : Type} {t : Table α} {n : ExpandedName} {a : α}
    (h : t.find? n = some a) : (n, a) ∈ t := by
  obtain ⟨l₁, l₂, rfl, -⟩ := List.lookup_eq_some_iff.1 h
  simp

namespace Grammar

variable {g : Grammar}

/-! ## Content -/

theorem checkParticle_of_mem : ∀ {ps : List Particle}, g.checkParticles ps = .ok () →
    ∀ p ∈ ps, g.checkParticle p = .ok ()
  | [], _ => nofun
  | p :: ps, h => by
    obtain ⟨_, hp, hps⟩ := bind_eq_ok.1 h
    exact List.forall_mem_cons.2 ⟨hp, checkParticle_of_mem hps⟩

/-- **Declarations in a particle** that has passed the check have passed it. -/
theorem checkElement_of_declares {p : Particle} {d : ElementDecl} (declares : p.Declares [] d)
    (h : g.checkParticle p = .ok ()) : g.checkElement d = .ok () := by
  induction declares with
  | element => exact h
  | sequence member _ ih => exact ih (checkParticle_of_mem h _ member)
  | choice member _ ih => exact ih (checkParticle_of_mem h _ member)
  | all member _ ih => exact ih (checkParticle_of_mem h _ member)
  | group found _ _ => cases found

theorem checkElement_of_content {t : Content} {d : ElementDecl} (declares : t.Declares [] d)
    (h : g.checkContent t = .ok ()) : g.checkElement d = .ok () := by
  obtain ⟨p, rfl, declares⟩ := declares
  exact checkElement_of_declares declares h

theorem checkContent_of_checkComplex {t : ComplexType} (h : g.checkComplex t = .ok ()) :
    g.checkContent t.content = .ok () := by
  obtain ⟨_, _, content, attributes, _, _⟩ := t
  obtain ⟨_, -, hcontent⟩ := bind_eq_ok.1 h
  exact hcontent

theorem checkAttributeType_of_checkComplex {t : ComplexType} (h : g.checkComplex t = .ok ()) :
    ∀ u ∈ t.attributes, g.checkAttributeType u.type = .ok () := by
  obtain ⟨_, _, content, attributes, _, _⟩ := t
  obtain ⟨_, hattributes, -⟩ := bind_eq_ok.1 h
  exact forM_eq_ok hattributes

theorem checkComplex_of_checkElement {d : ElementDecl} {t : ComplexType}
    (h : g.checkElement d = .ok ()) (type : d.type = .complex t) : g.checkComplex t = .ok () := by
  obtain ⟨name, dtype, nillable, isAbstract, fixed⟩ := d
  obtain rfl : dtype = .complex t := type
  exact h

theorem checkSimple_of_checkElement {d : ElementDecl} {t : SimpleType}
    (h : g.checkElement d = .ok ()) (type : d.type = .simple t) : g.checkSimple t = .ok () := by
  obtain ⟨name, dtype, nillable, isAbstract, fixed⟩ := d
  obtain rfl : dtype = .simple t := type
  exact h

/-! ## Grammars -/

/-- **All names in a grammar stand for something**: its tables have passed the check. -/
structure Checked (g : Grammar) : Prop where
  elements : ∀ ⦃n d⦄, g.elements.find? n = some d → g.checkElement d = .ok ()
  attributes : ∀ ⦃n d⦄, g.attributes.find? n = some d → g.checkAttributeType d.type = .ok ()
  types : ∀ ⦃n d⦄, g.types.find? n = some d → g.checkDefinition d = .ok ()

theorem checked_of_checkReferences (h : g.checkReferences = .ok ()) : g.Checked := by
  obtain ⟨_, helements, h⟩ := bind_eq_ok.1 h
  obtain ⟨_, hattributes, htypes⟩ := bind_eq_ok.1 h
  exact ⟨fun n d found => forM_eq_ok helements (n, d) (Table.mem_of_find? found),
    fun n d found => forM_eq_ok hattributes (n, d) (Table.mem_of_find? found),
    fun n d found => forM_eq_ok htypes (n, d) (Table.mem_of_find? found)⟩

/-- **Only what passes the check becomes a grammar.** -/
theorem checked_of_resolve {c : Components} (h : c.resolve = .ok g) : g.Checked := by
  obtain ⟨types, -, h⟩ := bind_eq_ok.1 h
  obtain ⟨decls, -, h⟩ := bind_eq_ok.1 h
  obtain ⟨_, hcheck, h⟩ := bind_eq_ok.1 h
  cases h
  exact checked_of_checkReferences hcheck

/-- **The complex types that a grammar holds** have passed the check, however deep inside. -/
theorem Checked.complex (hg : g.Checked) {t : ComplexType} (holds : g.components.Holds t) :
    g.checkComplex t = .ok () := by
  induction holds with
  | named found => exact hg.types found
  | declared found type => exact checkComplex_of_checkElement (hg.elements found) type
  | inside _ declares type ih =>
    have hd := checkElement_of_content declares (checkContent_of_checkComplex ih)
    exact checkComplex_of_checkElement hd type

/-- A declaration is one of a grammar: a global one, or one within the content of a type. -/
inductive HasDecl (g : Grammar) (d : ElementDecl) : Prop
  | global {n : ExpandedName} (found : g.elements.find? n = some d)
  | inner {t : ComplexType} (holds : g.components.Holds t) (declares : t.content.Declares [] d)

/-- **The declarations of a grammar** have passed the check. -/
theorem Checked.element (hg : g.Checked) {d : ElementDecl} (hd : g.HasDecl d) :
    g.checkElement d = .ok () := by
  cases hd with
  | global found => exact hg.elements found
  | inner holds declares =>
    exact checkElement_of_content declares (checkContent_of_checkComplex (hg.complex holds))

end Grammar

end XmlConformance.Schema
