import XmlConformance.Proofs.Schema.Validity

/-!
# Proofs/Schema/Checking — the check decides validity

A check **decides** a property (`Decides`) if it succeeds only where the property holds and finds a
fault only where it does not; where the schema cannot be applied, it says nothing. Checks that
decide something can be put behind each other (`Decides.bind`), so what is decided is read off the
check part by part, from values up to elements. For elements and their children it is one induction
on the document (`decides_validateNode`).
-/

namespace XmlConformance.Schema

open Xml

/-- **A check decides a property.** -/
def Decides {α : Type} (p : Prop) : Except Violation α → Prop
  | .ok _ => p
  | .error (.invalid _ _) => ¬ p
  | .error (.unusable _) => True

section Decides

variable {α β : Type} {p q : Prop} {x : Except Violation α} {t : Tag}

theorem decides_violates {fault : Fault} (h : ¬ p) : Decides p (violates t fault : Except _ α) := h

theorem Decides.of_iff (h : Decides p x) (hpq : p ↔ q) : Decides q x := propext hpq ▸ h

/-- **A check behind a check.** What the second one decides implies what the first one decides. -/
theorem Decides.bind {f : α → Except Violation β} (hx : Decides p x) (hqp : q → p)
    (hf : ∀ a, x = .ok a → p → Decides q (f a)) : Decides q (x >>= f) := by
  rcases x with (⟨_, _⟩ | e) | a
  · exact fun hq => hx (hqp hq)
  · exact trivial
  · exact hf a rfl hx

/-- Two checks, one behind the other, decide two properties. -/
theorem Decides.and {x : Except Violation Unit} {y : Except Violation β} (hx : Decides p x)
    (hy : Decides q y) : Decides (p ∧ q) (x >>= fun _ => y) :=
  hx.bind And.left fun _ _ hp => hy.of_iff ⟨fun hq => ⟨hp, hq⟩, And.right⟩

theorem Decides.ite {c : Prop} [Decidable c] {fault : Fault} (hc : p → ¬ c)
    (hx : ¬ c → Decides p x) : Decides p (if c then violates t fault else x) := by
  by_cases h : c
  · rw [if_pos h]
    exact fun hp => hc hp h
  · rw [if_neg h]
    exact hx h

theorem decides_forM {f : α → Except Violation Unit} {P : α → Prop} : ∀ {l : List α},
    (∀ a ∈ l, Decides (P a) (f a)) → Decides (∀ a ∈ l, P a) (l.forM f)
  | [], _ => fun _ => nofun
  | a :: _, h =>
    ((h a List.mem_cons_self).and
      (decides_forM fun b hb => h b (List.mem_cons_of_mem a hb))).of_iff
        List.forall_mem_cons.symm

end Decides

/-! ## Values -/

theorem filter_differs_eq_none_iff {fixed : Option String} {value : String} :
    fixed.filter (differs · value) = none ↔
      ∀ f, fixed = some f → Text.trim f = Text.trim value := by
  rw [Option.filter_eq_none_iff]
  refine forall₂_congr fun f _ => ?_
  rw [differs, bne_iff_ne, not_not]

/-- **A value behind a check for types**, which is compared with the one that is prescribed. -/
theorem decides_accepts {t : Tag} {check : String → Except ValueError String}
    {fixed : Option String} {text : String} {compare : String → Except Violation Unit}
    (h : ∀ value, Decides (∀ f, fixed = some f → Text.trim f = Text.trim value) (compare value)) :
    Decides (Accepts check fixed text) (located t (check text) >>= compare) := by
  rw [Accepts]
  cases hcheck : check text with
  | ok value =>
    exact (h value).of_iff ⟨fun hf => ⟨value, rfl, hf⟩, fun ⟨_, hv, hf⟩ => by cases hv; exact hf⟩
  | error e =>
    cases e with
    | invalid fault => exact fun ⟨_, hv, _⟩ => by cases hv
    | unusable e => exact trivial

/-! ## Attributes -/

namespace Grammar

variable {g : Grammar}

theorem decides_checkFixed (t : Tag) (decl : ElementDecl) (value : String) :
    Decides (∀ f, decl.fixed = some f → Text.trim f = Text.trim value)
      (checkFixed t decl value) := by
  rw [← filter_differs_eq_none_iff, checkFixed]
  split
  case h_1 f hf => exact decides_violates (by rw [hf]; exact nofun)
  case h_2 hf => exact hf

/-- What a wildcard makes of an attribute that the type does not declare. -/
theorem validAttribute_iff_wildcard {c : ComplexType} {a : Attribute} {w : Wildcard}
    (hnone : c.attributes.find? (·.name == a.name) = none) (hwildcard : c.wildcard = some w) :
    g.ValidAttribute c a ↔ w.allows a.name.uri = true ∧ (w.processing = .skip ∨
      w.processing ≠ .skip ∧ (∃ d, g.attributes.find? a.name = some d ∧
        Accepts (g.check d.type) d.fixed a.value) ∨
      g.attributes.find? a.name = none ∧
        (w.processing = .lax ∨ w.processing = .strict ∧ a.name.uri = some xmlUri)) := by
  constructor
  · rintro (huse | ⟨-, hw, hallows, hskip⟩ | ⟨-, hw, hallows, hskip, hdecl, hvalue⟩ |
      ⟨-, hw, hallows, hdecl, hlax⟩)
    · cases hnone.symm.trans huse
    · cases hwildcard.symm.trans hw
      exact ⟨hallows, .inl hskip⟩
    · cases hwildcard.symm.trans hw
      exact ⟨hallows, .inr (.inl ⟨hskip, _, hdecl, hvalue⟩)⟩
    · cases hwildcard.symm.trans hw
      exact ⟨hallows, .inr (.inr ⟨hdecl, hlax⟩)⟩
  · rintro ⟨hallows, hskip | ⟨hskip, d, hdecl, hvalue⟩ | ⟨hdecl, hlax⟩⟩
    · exact .skipped hnone hwildcard hallows hskip
    · exact .admitted hnone hwildcard hallows hskip hdecl hvalue
    · exact .undeclared hnone hwildcard hallows hdecl hlax

/-- What is known of an attribute that is admitted. -/
theorem attributeRule_spec (c : ComplexType) (a : Attribute) :
    match g.attributeRule c a.name with
    | none => ¬ g.ValidAttribute c a
    | some none => g.ValidAttribute c a
    | some (some (type, fixed)) =>
      g.ValidAttribute c a ↔ Accepts (g.check type) fixed a.value := by
  rw [attributeRule]
  cases hfind : c.attributes.find? (·.name == a.name) with
  | some u =>
    refine ⟨fun h => ?_, .declared hfind⟩
    cases h with
    | declared huse hvalue =>
      cases hfind.symm.trans huse
      exact hvalue
    | skipped hnone | admitted hnone | undeclared hnone => cases hfind.symm.trans hnone
  | none =>
    dsimp only
    cases hwildcard : c.wildcard with
    | none =>
      rintro (huse | ⟨_, hw⟩ | ⟨_, hw⟩ | ⟨_, hw⟩)
      · cases hfind.symm.trans huse
      · cases hwildcard.symm.trans hw
      · cases hwildcard.symm.trans hw
      · cases hwildcard.symm.trans hw
    | some w =>
      have hvalid := g.validAttribute_iff_wildcard hfind hwildcard
      cases hallows : w.allows a.name.uri with
      | false => simp [hvalid, hallows]
      | true =>
        cases hprocessing : w.processing with
        | skip => simp [hvalid, hallows, hprocessing]
        | lax =>
          cases hdecl : g.attributes.find? a.name <;> simp [hvalid, hallows, hprocessing, hdecl]
        | strict =>
          cases hdecl : g.attributes.find? a.name with
          | some d => simp [hvalid, hallows, hprocessing, hdecl]
          | none =>
            simp only [hvalid, hallows, hprocessing, hdecl]
            by_cases hxml : a.name.uri = some xmlUri <;> simp [hxml]

theorem decides_checkAttribute (c : ComplexType) (t : Tag) (a : Attribute) :
    Decides (g.ValidAttribute c a) (g.checkAttribute c t a) := by
  have hspec := g.attributeRule_spec c a
  rw [checkAttribute]
  split
  case h_1 h =>
    rw [h] at hspec
    exact decides_violates hspec
  case h_2 h =>
    rw [h] at hspec
    exact hspec
  case h_3 type fixed h =>
    rw [h] at hspec
    refine (decides_accepts fun value => ?_).of_iff hspec.symm
    rw [← filter_differs_eq_none_iff]
    split
    case h_1 f hf => exact decides_violates (by rw [hf]; exact nofun)
    case h_2 hf => exact hf

theorem decides_checkPresence (t : Tag) (u : AttributeUse) :
    Decides (u.use = .required → ∃ a ∈ t.attributes, a.name = u.name) (checkPresence t u) := by
  rw [checkPresence]
  have hany : t.attributes.any (·.name == u.name) = true ↔ ∃ a ∈ t.attributes, a.name = u.name := by
    simp only [List.any_eq_true, beq_iff_eq]
  refine Decides.ite (fun h hmissing => ?_) fun h huse => ?_
  · obtain ⟨huse, hnone⟩ := Bool.and_eq_true_iff.1 hmissing
    rw [hany.2 (h (eq_of_beq huse))] at hnone
    cases hnone
  · by_contra hnone
    refine h (Bool.and_eq_true_iff.2 ⟨beq_iff_eq.2 huse, ?_⟩)
    rw [Bool.not_eq_true', Bool.eq_false_iff]
    exact mt hany.1 hnone

theorem mem_ownAttributes {t : Tag} {a : Attribute} :
    a ∈ ownAttributes t ↔ a ∈ t.attributes ∧ a.name.uri ≠ some instanceUri := by
  rw [ownAttributes, List.mem_filter, bne_iff_ne]

/-- **The attributes of an element with a complex type.** -/
theorem decides_checkAttributes (c : ComplexType) (t : Tag) :
    Decides (g.ValidAttributes c t) (g.checkAttributes c t) := by
  have heach := decides_forM fun a (_ : a ∈ ownAttributes t) => g.decides_checkAttribute c t a
  have hrequired := decides_forM fun u (_ : u ∈ c.attributes) => decides_checkPresence t u
  refine (heach.and hrequired).of_iff ⟨fun ⟨h, h'⟩ => ⟨fun a ha hne => ?_, h'⟩, fun h => ⟨?_, ?_⟩⟩
  · exact h a (mem_ownAttributes.2 ⟨ha, hne⟩)
  · exact fun a ha => h.each a (mem_ownAttributes.1 ha).1 (mem_ownAttributes.1 ha).2
  · exact h.required

/-! ## Simple types -/

theorem decides_checkSimpleElement (decl : ElementDecl) (t : Tag) (cs : List Node)
    (check : String → Except ValueError String) :
    Decides (ValidSimple decl (t, cs) check) (checkSimpleElement decl t cs check) := by
  rw [checkSimpleElement]
  split
  case h_1 a ha =>
    obtain ⟨hmem, hne⟩ := mem_ownAttributes.1 (List.mem_of_mem_head? ha)
    exact decides_violates fun h => hne (h.attributes a hmem)
  case h_2 hnone =>
    have hattributes : ∀ a ∈ t.attributes, a.name.uri = some instanceUri := fun a ha => by
      by_contra hne
      rw [List.head?_eq_none_iff] at hnone
      exact List.not_mem_nil (hnone ▸ mem_ownAttributes.2 ⟨ha, hne⟩)
    refine Decides.ite (fun hvalid hany => any_isElement_iff.1 hany hvalid.children) fun hany => ?_
    have hchildren : childElements cs = [] := not_not.1 (mt any_isElement_iff.2 hany)
    exact (decides_accepts (decides_checkFixed t decl)).of_iff
      ⟨fun h => ⟨hattributes, hchildren, h⟩, fun h => h.value⟩

/-! ## Nil -/

/-- An element says that it is nil only where it may, and only without content. -/
def ValidNil (decl : ElementDecl) (e : Element) : Prop :=
  (instanceAttribute? e.1 "nil" ≠ none → decl.nillable = true) ∧
    (IsNilled e.1 → childElements e.2 = [] ∧ NoCharacters e.2)

theorem isNilled_iff {t : Tag} {value : String} (h : instanceAttribute? t "nil" = some value) :
    IsNilled t ↔ ["true", "1"].contains (Text.trim value) = true := by
  rw [IsNilled, h, List.contains_iff_mem]
  exact ⟨fun ⟨v, hv, hmem⟩ => by cases hv; exact hmem, fun hmem => ⟨value, rfl, hmem⟩⟩

theorem not_isNilled {t : Tag} (h : instanceAttribute? t "nil" = none) : ¬ IsNilled t :=
  fun ⟨_, hvalue, _⟩ => by cases h.symm.trans hvalue

theorem decides_checkNil (decl : ElementDecl) (t : Tag) (cs : List Node) :
    Decides (ValidNil decl (t, cs)) (checkNil decl t cs) := by
  rw [checkNil]
  split
  case h_1 hnone => exact ⟨fun h => absurd hnone h, fun h => absurd h (not_isNilled hnone)⟩
  case h_2 value hvalue =>
    refine Decides.ite (fun h hnot => ?_) fun hnillable => ?_
    · rw [h.1 (by rw [hvalue]; exact nofun)] at hnot
      cases hnot
    have hnillable : decl.nillable = true := by simpa using hnillable
    split
    case isTrue hnil =>
      refine Decides.ite (fun h hcontent => ?_) fun hcontent => ?_
      · obtain ⟨hchildren, hcharacters⟩ := h.2 ((isNilled_iff hvalue).2 hnil)
        rcases (Bool.or_eq_true_iff ..).1 hcontent with hany | hchars
        · exact any_isElement_iff.1 hany hchildren
        · exact absurd (hchars.symm.trans hcharacters) nofun
      · obtain ⟨hany, hchars⟩ := not_or.1 (mt (Bool.or_eq_true_iff ..).2 hcontent)
        exact ⟨fun _ => hnillable, fun _ => ⟨not_not.1 (mt any_isElement_iff.2 hany),
          Bool.eq_false_iff.2 hchars⟩⟩
    case isFalse hnil =>
      exact ⟨fun _ => hnillable, fun h => absurd ((isNilled_iff hvalue).1 h) hnil⟩

/-- **The check says whether the element is nil.** -/
theorem checkNil_eq_ok {decl : ElementDecl} {t : Tag} {cs : List Node} {isNil : Bool}
    (h : checkNil decl t cs = .ok isNil) : isNil = true ↔ IsNilled t := by
  rw [checkNil] at h
  split at h
  case h_1 hnone =>
    cases h
    exact ⟨nofun, fun h => absurd h (not_isNilled hnone)⟩
  case h_2 value hvalue =>
    rw [isNilled_iff hvalue]
    split at h
    · cases h
    split at h
    case isTrue hnil =>
      split at h
      · cases h
      · cases h
        exact ⟨fun _ => hnil, fun _ => rfl⟩
    case isFalse hnil =>
      cases h
      exact ⟨nofun, fun h => absurd h hnil⟩

/-! ## Types -/

theorem Governs.unique {t : Tag} {decl : ElementDecl} {type type' : Governing}
    (h : g.Governs t decl type) (h' : g.Governs t decl type') : type = type' := by
  rcases h with ⟨hvalue, hname, htype⟩ | ⟨hvalue, htype⟩ <;>
    rcases h' with ⟨hvalue', hname', htype'⟩ | ⟨hvalue', htype'⟩
  · cases hvalue.symm.trans hvalue'
    cases hname.symm.trans hname'
    cases htype.symm.trans htype'
    rfl
  · cases hvalue.symm.trans hvalue'
  · cases hvalue.symm.trans hvalue'
  · cases htype.symm.trans htype'
    rfl

theorem declaredType_ne_invalid (g : Grammar) (decl : ElementDecl) (offset : ℕ) (fault : Fault) :
    g.declaredType decl ≠ .error (.invalid offset fault) := by
  rw [declaredType]
  split
  · exact nofun
  · exact nofun
  · exact nofun
  · split <;> exact nofun

theorem governing_eq_ok {t : Tag} {decl : ElementDecl} {type : Governing}
    (h : g.governing t decl = .ok type) : g.Governs t decl type := by
  obtain ⟨named, hnamed, h⟩ := bind_eq_ok.1 h
  rw [instanceType] at hnamed
  split at hnamed
  case h_1 hvalue =>
    cases hnamed
    exact .declared hvalue h
  case h_2 value hvalue =>
    split at hnamed
    case h_1 type' htype =>
      cases hnamed
      cases h
      obtain ⟨n, hname, htype⟩ := Option.bind_eq_some_iff.1 htype
      exact .named hvalue hname htype
    case h_2 => cases hnamed

/-- **The check finds the type that governs an element.** -/
theorem decides_governing (g : Grammar) (t : Tag) (decl : ElementDecl) :
    Decides (∃ type, g.Governs t decl type) (g.governing t decl) := by
  cases h : g.governing t decl with
  | ok type => exact ⟨type, governing_eq_ok h⟩
  | error violation =>
    cases violation with
    | unusable e => exact trivial
    | invalid offset fault =>
      rintro ⟨type, ⟨hvalue, hname, htype⟩ | ⟨hvalue, htype⟩⟩
      · rw [governing, instanceType, hvalue] at h
        dsimp only at h
        rw [hname, Option.bind_some, htype] at h
        cases h
      · rw [governing, instanceType, hvalue] at h
        exact g.declaredType_ne_invalid decl offset fault h

theorem validElement_iff {decl : ElementDecl} {e : Element} {type : Governing}
    (htype : g.Governs e.1 decl type) : g.ValidElement decl e ↔ decl.isAbstract = false ∧
      ValidNil decl e ∧ (∀ c, type = .complex c → g.ValidAttributes c e.1) ∧
        (¬ IsNilled e.1 → g.ValidContent decl type e) := by
  constructor
  · rintro (⟨habstract, htype', hnil, hfilled, hattributes, hcontent⟩ |
      ⟨habstract, htype', hnil, hnilled, hchildren, hcharacters, hattributes⟩)
    · obtain rfl := htype'.unique htype
      exact ⟨habstract, ⟨hnil, fun h => absurd h hfilled⟩, hattributes, fun _ => hcontent⟩
    · obtain rfl := htype'.unique htype
      exact ⟨habstract, ⟨fun _ => hnil, fun _ => ⟨hchildren, hcharacters⟩⟩, hattributes,
        fun h => absurd hnilled h⟩
  · rintro ⟨habstract, ⟨hnil, hempty⟩, hattributes, hcontent⟩
    by_cases hnilled : IsNilled e.1
    · obtain ⟨hchildren, hcharacters⟩ := hempty hnilled
      have ⟨value, hvalue, _⟩ := hnilled
      exact .nilled habstract htype (hnil (by rw [hvalue]; exact nofun)) hnilled hchildren
        hcharacters hattributes
    · exact .filled habstract htype hnil hnilled hattributes (hcontent hnilled)

/-! ## Content -/

section Content

variable {c : ComplexType} {decl : ElementDecl} {t : Tag} {cs : List Node} {model : Particle}

theorem bind_yields (hmodel : model.Unambiguous g.elements) (t : Tag) (cs : List Node) :
    match g.bind model t cs with
    | .ok found => ∃ leaves ∈ model.words g.elements, found = leaves.map some ∧
        Admit leaves ((childElements cs).map (·.1.name))
    | .error (.invalid _ _) => ∀ leaves ∈ model.words g.elements,
        ¬ Admit leaves ((childElements cs).map (·.1.name))
    | .error (.unusable _) => True := by
  have hnames : (childTags cs).map (·.name) = (childElements cs).map (·.1.name) := by
    rw [childTags_eq, List.map_map]
    rfl
  rw [bind, hnames]
  cases hrun : runModel g.elements model ((childElements cs).map (·.1.name)) with
  | error e => exact trivial
  | ok result =>
    have hyields := runModel_yields hmodel hrun
    cases result with
    | ok found => exact hyields
    | error m =>
      dsimp only
      generalize (childTags cs)[m.position]? = child
      cases child <;> exact hyields

/-! ### What each kind of content holds -/

theorem mixed_or_noCharacters_iff {mixed : Bool} :
    mixed = true ∨ NoCharacters cs ↔ ¬ (!mixed && hasCharacters cs) = true := by
  rw [NoCharacters]
  cases mixed <;> cases hasCharacters cs <;> decide

variable {e : Element}

theorem validContent_any_iff :
    g.ValidContent decl .any e ↔ ∀ child ∈ childElements e.2, g.ValidFreely child := by
  refine ⟨?_, .any⟩
  rintro ⟨h⟩
  exact h

theorem validContent_simple_iff {r : SimpleTypeRef} :
    g.ValidContent decl (.simple r) e ↔ ValidSimple decl e (g.check (some r)) := by
  refine ⟨fun h => ?_, .simple⟩
  cases h with
  | simple h => exact h

theorem validContent_inline_iff {s : SimpleType} :
    g.ValidContent decl (.inline s) e ↔ ValidSimple decl e (g.checkInline s) := by
  refine ⟨fun h => ?_, .inline⟩
  cases h with
  | inline h => exact h

theorem validContent_iff_of_empty (hempty : c.content = .empty) :
    g.ValidContent decl (.complex c) e ↔
      childElements e.2 = [] ∧ (c.mixed = true ∨ NoCharacters e.2) := by
  refine ⟨fun hvalid => ?_, fun ⟨hnone, hchars⟩ => .empty hempty hnone hchars⟩
  cases hvalid with
  | empty _ hnone hchars => exact ⟨hnone, hchars⟩
  | value hcontent | elements hcontent => cases hempty.symm.trans hcontent

theorem validContent_iff_of_simple {r : SimpleTypeRef} (hsimple : c.content = .simple r) :
    g.ValidContent decl (.complex c) e ↔ childElements e.2 = [] ∧
      Accepts (g.check (some r)) decl.fixed (ownCharacters e.2) := by
  refine ⟨fun hvalid => ?_, fun ⟨hnone, hvalue⟩ => .value hsimple hnone hvalue⟩
  cases hvalid with
  | value hcontent hnone hvalue =>
    cases hsimple.symm.trans hcontent
    exact ⟨hnone, hvalue⟩
  | empty hcontent | elements hcontent => cases hsimple.symm.trans hcontent

theorem validContent_iff_of_elements (helements : c.content = .elements model) :
    g.ValidContent decl (.complex c) e ↔ (c.mixed = true ∨ NoCharacters e.2) ∧
      ∃ leaves ∈ model.words g.elements, Admit leaves ((childElements e.2).map (·.1.name)) ∧
        ∀ p ∈ leaves.zip (childElements e.2), g.ValidUnder p.1 p.2 := by
  constructor
  · intro hvalid
    cases hvalid with
    | elements hcontent hchars hleaves hadmits hvalid =>
      cases helements.symm.trans hcontent
      exact ⟨hchars, _, hleaves, hadmits, hvalid⟩
    | empty hcontent | value hcontent => cases helements.symm.trans hcontent
  · rintro ⟨hchars, leaves, hleaves, hadmits, hvalid⟩
    exact .elements helements hchars hleaves hadmits hvalid

/-! ### Checking it -/

/-- **The content of an element with a complex type**, if the children are checked against the
leaves that admit them. -/
theorem decides_checkContentOf {children : List (Option Leaf) → Except Violation Unit}
    (hmodel : ∀ model, c.content = .elements model → model.Unambiguous g.elements)
    (hchildren : ∀ model leaves, c.content = .elements model → leaves ∈ model.words g.elements →
      Admit leaves ((childElements cs).map (·.1.name)) →
      Decides (∀ p ∈ leaves.zip (childElements cs), g.ValidUnder p.1 p.2)
        (children (leaves.map some))) :
    Decides (g.ValidContent decl (.complex c) (t, cs))
      (g.checkContentOf c decl t cs children) := by
  rw [checkContentOf]
  split
  case h_1 hempty =>
    refine Decides.of_iff ?_ (validContent_iff_of_empty hempty).symm
    refine Decides.ite (fun ⟨hnone, hchars⟩ hfault => ?_) fun hfault => ?_
    · rcases (Bool.or_eq_true_iff ..).1 hfault with hany | hfault
      · exact any_isElement_iff.1 hany hnone
      · exact mixed_or_noCharacters_iff.1 hchars hfault
    · obtain ⟨hany, hchars⟩ := not_or.1 (mt (Bool.or_eq_true_iff ..).2 hfault)
      exact ⟨not_not.1 (mt any_isElement_iff.2 hany), mixed_or_noCharacters_iff.2 hchars⟩
  case h_2 type hsimple =>
    refine Decides.of_iff ?_ (validContent_iff_of_simple hsimple).symm
    refine Decides.ite (fun h hany => any_isElement_iff.1 hany h.1) fun hany => ?_
    exact (decides_accepts (decides_checkFixed t decl)).of_iff
      ⟨fun h => ⟨not_not.1 (mt any_isElement_iff.2 hany), h⟩, And.right⟩
  case h_3 model hcontent =>
    refine Decides.of_iff ?_ (validContent_iff_of_elements hcontent).symm
    refine Decides.ite (fun h => mixed_or_noCharacters_iff.1 h.1) fun hchars => ?_
    have hyields := g.bind_yields (hmodel model hcontent) t cs
    cases hbind : g.bind model t cs with
    | error violation =>
      rw [hbind] at hyields
      cases violation with
      | invalid _ _ => exact fun ⟨_, leaves, hleaves, hadmits, _⟩ => hyields leaves hleaves hadmits
      | unusable _ => exact trivial
    | ok found =>
      rw [hbind] at hyields
      obtain ⟨leaves, hleaves, rfl, hadmits⟩ := hyields
      refine (hchildren model leaves hcontent hleaves hadmits).of_iff ?_
      refine ⟨fun h => ⟨mixed_or_noCharacters_iff.2 hchars, leaves, hleaves, hadmits, h⟩, ?_⟩
      rintro ⟨-, leaves', hleaves', hadmits', h⟩
      rwa [(hmodel model hcontent).eq_of_admits hleaves hleaves' hadmits hadmits']

end Content

/-! ## Elements -/

section Elements

variable {decl : ElementDecl} {t : Tag} {cs : List Node}

theorem ValidElement.exists_governs {e : Element} (h : g.ValidElement decl e) :
    ∃ type, g.Governs e.1 decl type := by
  cases h with
  | filled _ htype | nilled _ htype => exact ⟨_, htype⟩

theorem ValidElement.notAbstract {e : Element} (h : g.ValidElement decl e) :
    decl.isAbstract = false := by
  cases h with
  | filled habstract | nilled habstract => exact habstract

/-- **An element**, if its children are checked against the leaves that admit them, or freely. -/
theorem decides_checkElementWith {children : List (Option Leaf) → Except Violation Unit}
    {freely : Unit → Except Violation Unit}
    (hmodel : ∀ c model, g.Governs t decl (.complex c) → c.content = .elements model →
      model.Unambiguous g.elements)
    (hchildren : ∀ c model leaves, g.Governs t decl (.complex c) → c.content = .elements model →
      leaves ∈ model.words g.elements → Admit leaves ((childElements cs).map (·.1.name)) →
      Decides (∀ p ∈ leaves.zip (childElements cs), g.ValidUnder p.1 p.2)
        (children (leaves.map some)))
    (hfreely : Decides (∀ child ∈ childElements cs, g.ValidFreely child) (freely ())) :
    Decides (g.ValidElement decl (t, cs)) (g.checkElementWith decl t cs children freely) := by
  rw [checkElementWith]
  refine Decides.ite (fun h => by rw [h.notAbstract]; exact nofun) fun habstract => ?_
  have habstract : decl.isAbstract = false := Bool.eq_false_iff.2 habstract
  refine (g.decides_governing t decl).bind (·.exists_governs) fun type hok _ => ?_
  have htype := governing_eq_ok hok
  refine Decides.of_iff ?_ (validElement_iff htype).symm
  refine (decides_checkNil decl t cs).bind (·.2.1) fun isNil hnil hvalidNil => ?_
  cases isNil with
  | true =>
    have hnilled : IsNilled t := (checkNil_eq_ok hnil).1 rfl
    rw [if_pos rfl]
    refine Decides.of_iff ?_ (show (∀ c, type = .complex c → g.ValidAttributes c t) ↔ _ from
      ⟨fun h => ⟨habstract, hvalidNil, h, fun hnot => absurd hnilled hnot⟩, fun h => h.2.2.1⟩)
    cases type with
    | complex c =>
      exact (g.decides_checkAttributes c t).of_iff
        ⟨fun h c' hc => by cases hc; exact h, fun h => h c rfl⟩
    | any | simple | inline => exact fun _ => nofun
  | false =>
    have hfilled : ¬ IsNilled t := fun h => absurd ((checkNil_eq_ok hnil).2 h) nofun
    rw [if_neg nofun]
    refine Decides.of_iff ?_ (show (∀ c, type = .complex c → g.ValidAttributes c t) ∧
        g.ValidContent decl type (t, cs) ↔ _ from
      ⟨fun h => ⟨habstract, hvalidNil, h.1, fun _ => h.2⟩, fun h => ⟨h.2.2.1, h.2.2.2 hfilled⟩⟩)
    cases type with
    | any =>
      rw [validContent_any_iff]
      exact hfreely.of_iff ⟨fun h => ⟨nofun, h⟩, And.right⟩
    | simple r =>
      rw [validContent_simple_iff]
      exact (decides_checkSimpleElement decl t cs _).of_iff ⟨fun h => ⟨nofun, h⟩, And.right⟩
    | inline s =>
      rw [validContent_inline_iff]
      exact (decides_checkSimpleElement decl t cs _).of_iff ⟨fun h => ⟨nofun, h⟩, And.right⟩
    | complex c =>
      refine ((g.decides_checkAttributes c t).and (decides_checkContentOf
        (fun model => hmodel c model htype)
        fun model leaves => hchildren c model leaves htype)).of_iff
        (and_congr_left' ⟨fun h c' hc => by cases hc; exact h, fun h => h c rfl⟩)

/-- A complex type that governs an element is one of the grammar. -/
theorem Governs.defines {c : ComplexType} (h : g.Governs t decl (.complex c))
    (hdecl : g.Declares decl) : g.Defines c := by
  rcases h with ⟨-, -, htype⟩ | ⟨-, htype⟩
  · cases standsFor_of_typeNamed? htype with
    | complex _ found => exact .named found
  · cases gives_of_declaredType htype with
    | complex type => exact .inline hdecl type
    | named _ named =>
      cases named with
      | complex _ found => exact .named found

end Elements

/-! ## Documents -/

section Wildcard

variable {w : Wildcard} {e : Element}

theorem validUnder_element_iff {decl : ElementDecl} :
    g.ValidUnder (.element decl) e ↔ g.ValidElement decl e := by
  refine ⟨?_, .element⟩
  rintro ⟨h⟩
  exact h

theorem validUnder_wildcard_iff_of_some {decl : ElementDecl} (hskip : w.processing ≠ .skip)
    (hdecl : g.elements.find? e.1.name = some decl) :
    g.ValidUnder (.wildcard w) e ↔ g.ValidElement decl e := by
  refine ⟨fun h => ?_, .declared hskip hdecl⟩
  cases h with
  | skipped h => exact absurd h hskip
  | declared _ hdecl' hvalid =>
    cases hdecl.symm.trans hdecl'
    exact hvalid
  | undeclared _ hdecl' => cases hdecl.symm.trans hdecl'

theorem validUnder_wildcard_iff_of_none (hdecl : g.elements.find? e.1.name = none) :
    g.ValidUnder (.wildcard w) e ↔ w.processing = .skip ∨
      w.processing = .lax ∧ ∀ child ∈ childElements e.2, g.ValidFreely child := by
  constructor
  · rintro (_ | hskip | ⟨-, hdecl'⟩ | ⟨hlax, -, hchildren⟩)
    · exact .inl hskip
    · cases hdecl.symm.trans hdecl'
    · exact .inr ⟨hlax, hchildren⟩
  · rintro (hskip | ⟨hlax, hchildren⟩)
    · exact .skipped hskip
    · exact .undeclared hlax hdecl hchildren

theorem validFreely_iff_of_some {decl : ElementDecl}
    (hdecl : g.elements.find? e.1.name = some decl) :
    g.ValidFreely e ↔ g.ValidElement decl e := by
  refine ⟨fun h => ?_, .declared hdecl⟩
  cases h with
  | declared hdecl' hvalid =>
    cases hdecl.symm.trans hdecl'
    exact hvalid
  | undeclared hdecl' => cases hdecl.symm.trans hdecl'

theorem validFreely_iff_of_none (hdecl : g.elements.find? e.1.name = none) :
    g.ValidFreely e ↔ ∀ child ∈ childElements e.2, g.ValidFreely child := by
  refine ⟨fun h => ?_, .undeclared hdecl⟩
  cases h with
  | declared hdecl' => cases hdecl.symm.trans hdecl'
  | undeclared _ hchildren => exact hchildren

end Wildcard

mutual

/-- **The check of an element decides whether it is valid**, by induction on the document: what is
below an element is decided for every word of leaves that admits it. -/
theorem decides_validateNode (hg : g.Unambiguous) : ∀ (n : Node) {decl : ElementDecl},
    g.Declares decl → ∀ e ∈ childElements [n],
      Decides (g.ValidElement decl e) (g.validateNode decl n)
  | .element t cs, decl, hdecl, e, he => by
    obtain rfl := List.mem_singleton.1 he
    rw [validateNode]
    refine decides_checkElementWith ?_ ?_ (decides_validateFreely hg cs)
    · exact fun c model htype => hg c model (htype.defines hdecl)
    · intro c model leaves htype hmodel hleaves hadmits
      refine decides_validateChildren hg leaves cs (fun d hd => ?_) ?_
      · exact .inner (htype.defines hdecl) hmodel hleaves hd
      · simpa using hadmits.length_eq

theorem decides_validateChildren (hg : g.Unambiguous) :
    ∀ (leaves : List Leaf) (cs : List Node), (∀ d, .element d ∈ leaves → g.Declares d) →
      leaves.length = (childElements cs).length →
      Decides (∀ p ∈ leaves.zip (childElements cs), g.ValidUnder p.1 p.2)
        (g.validateChildren (leaves.map some) cs)
  | leaves, [], _, _ => by
    rw [validateChildren, childElements_nil, List.zip_nil_right]
    exact fun _ => nofun
  | [], .element t cs :: rest, _, hlength => by cases hlength
  | l :: leaves, .element t cs :: rest, hdecl, hlength => by
    have hrest := decides_validateChildren hg leaves rest
      (fun d hd => hdecl d (List.mem_cons_of_mem l hd)) (Nat.succ.inj hlength)
    rw [childElements_cons_element, List.zip_cons_cons, List.map_cons]
    refine Decides.of_iff ?_ List.forall_mem_cons.symm
    cases l with
    | element decl =>
      have hchild := decides_validateNode hg (.element t cs) (hdecl decl List.mem_cons_self) (t, cs)
        List.mem_cons_self
      rw [validateChildren]
      exact (hchild.of_iff validUnder_element_iff.symm).and hrest
    | wildcard w =>
      have hfreely := decides_validateFreely hg cs
      rw [validateChildren]
      cases hfind : g.elements.find? t.name with
      | some decl =>
        have hchild := decides_validateNode hg (.element t cs) (.global hfind) (t, cs)
          List.mem_cons_self
        have hvalid (h : w.processing ≠ .skip) : Decides (g.ValidUnder (.wildcard w) (t, cs)) _ :=
          hchild.of_iff (validUnder_wildcard_iff_of_some h hfind).symm
        cases hprocessing : w.processing with
        | skip => exact hrest.of_iff ⟨fun h => ⟨.skipped hprocessing, h⟩, And.right⟩
        | lax => exact (hvalid (by rw [hprocessing]; exact nofun)).and hrest
        | strict => exact (hvalid (by rw [hprocessing]; exact nofun)).and hrest
      | none =>
        have hiff : g.ValidUnder (.wildcard w) (t, cs) ↔ _ := validUnder_wildcard_iff_of_none hfind
        cases hprocessing : w.processing with
        | skip => exact hrest.of_iff ⟨fun h => ⟨.skipped hprocessing, h⟩, And.right⟩
        | lax => exact (hfreely.of_iff (by simp [hiff, hprocessing])).and hrest
        | strict => exact decides_violates fun h => by simp [hiff, hprocessing] at h
  | leaves, .text _ :: rest, hdecl, hlength | leaves, .comment _ :: rest, hdecl, hlength
  | leaves, .instruction _ _ :: rest, hdecl, hlength | leaves, .root _ :: rest, hdecl, hlength => by
    have hrest := decides_validateChildren hg leaves rest hdecl hlength
    rw [childElements_cons_other rfl]
    simpa only [validateChildren] using hrest

/-- **Where any content is admitted**, the check goes through what is not declared. -/
theorem decides_validateFreely (hg : g.Unambiguous) : ∀ cs : List Node,
    Decides (∀ child ∈ childElements cs, g.ValidFreely child) (g.validateFreely cs)
  | [] => by
    rw [validateFreely]
    exact fun _ => nofun
  | .element t cs :: rest => by
    have hrest := decides_validateFreely hg rest
    rw [childElements_cons_element, validateFreely]
    refine Decides.of_iff ?_ List.forall_mem_cons.symm
    cases hfind : g.elements.find? t.name with
    | some decl =>
      have hchild := decides_validateNode hg (.element t cs) (.global hfind) (t, cs)
        List.mem_cons_self
      exact (hchild.of_iff (validFreely_iff_of_some hfind).symm).and hrest
    | none =>
      have hiff : g.ValidFreely (t, cs) ↔ _ := validFreely_iff_of_none hfind
      exact ((decides_validateFreely hg cs).of_iff hiff.symm).and hrest
  | .text _ :: rest | .comment _ :: rest | .instruction _ _ :: rest | .root _ :: rest => by
    have hrest := decides_validateFreely hg rest
    rw [childElements_cons_other rfl]
    simpa only [validateFreely] using hrest

end

/-- **A document is accepted exactly if it is valid**, if all content models are unambiguous and the
schema can be applied to the document. -/
theorem validate_eq_ok_iff (hg : g.Unambiguous) {root : Element}
    (hroot : ∀ e, g.validate root ≠ .error (.unusable e)) :
    g.validate root = .ok () ↔ g.ValidDocument root := by
  have hdecides : Decides (g.ValidDocument root) (g.validate root) := by
    obtain ⟨t, cs⟩ := root
    rw [validate, ValidDocument]
    dsimp only
    cases hfind : g.elements.find? t.name with
    | some decl =>
      refine (decides_validateNode hg (.element t cs) (.global hfind) (t, cs)
        List.mem_cons_self).of_iff ⟨fun h => ⟨decl, rfl, h⟩, ?_⟩
      rintro ⟨_, hdecl, h⟩
      cases hdecl
      exact h
    | none => exact decides_violates fun ⟨_, h, _⟩ => by cases h
  cases hresult : g.validate root with
  | ok _ =>
    rw [hresult] at hdecides
    exact ⟨fun _ => hdecides, fun _ => rfl⟩
  | error violation =>
    rw [hresult] at hdecides
    cases violation with
    | invalid _ _ => exact ⟨nofun, fun h => absurd h hdecides⟩
    | unusable e => exact absurd hresult (hroot e)

/-- A note has a receiver and may have a body, in any order; both hold what they like. -/
def noteType : ComplexType :=
  ⟨false, none, .elements (.all .once
    [.element ⟨1, some 1⟩ ⟨⟨none, "To"⟩, .any, false, false, none⟩,
      .element ⟨0, some 1⟩ ⟨⟨none, "Body"⟩, .any, false, false, none⟩]), [], [], none⟩

def notes : Grammar where
  elements := [(⟨none, "Note"⟩, ⟨⟨none, "Note"⟩, .complex noteType, false, false, none⟩)]
  attributes := []
  types := []

/-- A note whose body comes first. -/
def aNote : Element :=
  (⟨⟨none, "Note"⟩, [], [], 0⟩,
    [.element ⟨⟨none, "Body"⟩, [], [], 6⟩ [.text "Text"], .element ⟨⟨none, "To"⟩, [], [], 23⟩ []])

mutual

theorem type_of_declares_notes : ∀ {d : ElementDecl}, notes.Declares d →
    d.type = .complex noteType ∨ d.type = .any
  | d, .global h => by
    obtain ⟨_, _, hd, -⟩ := List.lookup_eq_some_iff.1 h
    have hmem : d ∈ notes.elements.map Prod.snd := by
      rw [hd]
      simp
    obtain rfl := List.mem_singleton.1 hmem
    exact .inl rfl
  | _, .inner hc hmodel hleaves hd => by
    obtain rfl := eq_of_defines_notes hc
    cases hmodel
    obtain ⟨m, hm, hleaf⟩ := exists_place_of_mem_allWords hleaves _ hd
    refine .inr ?_
    rcases List.mem_pair.1 hm with rfl | rfl
    · cases hleaf
      rfl
    · cases hleaf
      rfl

theorem eq_of_defines_notes : ∀ {c : ComplexType}, notes.Defines c → c = noteType
  | _, .named h => by cases h
  | c, .inline hd h => by
    rcases type_of_declares_notes hd with htype | htype
    · cases htype.symm.trans h
      rfl
    · cases htype.symm.trans h

end

theorem unambiguous_notes : notes.Unambiguous := by
  intro c model hc hmodel
  obtain rfl := eq_of_defines_notes hc
  cases hmodel
  refine List.pairwise_pair.2 fun name hboth => ?_
  exact absurd ((eq_of_beq hboth.1).trans (eq_of_beq hboth.2).symm) (by decide)

theorem validDocument_aNote : notes.Unambiguous ∧ notes.validate aNote = .ok () ∧
    notes.ValidDocument aNote := by
  have hok : notes.validate aNote = .ok () := rfl
  exact ⟨unambiguous_notes, hok, (validate_eq_ok_iff unambiguous_notes fun e => by
    rw [hok]; exact nofun).1 hok⟩

end Grammar

end XmlConformance.Schema
