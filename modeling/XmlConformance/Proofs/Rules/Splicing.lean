import Mathlib.Data.List.Forall2
import Mathlib.Logic.Relation
import XmlConformance.Proofs.Rules.Compiling
import XmlConformance.Proofs.Rules.Copying

/-!
# Proofs/Rules/Splicing — what stands in the places of extensions

An extension stands for the content of the abstract rule that it names, in which further extensions
stand for theirs. What comes out is told without counting how deep they are nested (`Spliced`), and
it is what is copied whenever anything is (`exists_spliced`). Nothing is copied that needs abstract
rules which extend each other in a circle: every extension has to be copied less deep than the one
around it (`not_copyable_of_circle`).
-/

namespace XmlConformance.Rules

open Xml

variable {schema : List Node} {ps : Parameters} {scope : Option Tag}

/-! ## Spliced nodes -/

/-- **Nodes in which every extension is replaced** by the content of the abstract rule that it
names, in its place, and again in that content. -/
inductive Spliced (schema : List Node) : List Node → List Node → Prop
  | nil : Spliced schema [] []
  | keep {n : Node} {ns more : List Node} : n.isRule "extends" = false → Spliced schema ns more →
      Spliced schema (n :: ns) (n :: more)
  | extend {t d : Tag} {name : String} {cs content first ns more : List Node} :
      t.isRule "extends" = true → t.plain? "rule" = some name →
      definition? "rule" schema name = some (d, content) → Spliced schema content first →
      Spliced schema ns more → Spliced schema (.element t cs :: ns) (first ++ more)

/-- **There is one way to replace extensions.** -/
theorem Spliced.unique {ns nodes : List Node} (h : Spliced schema ns nodes) :
    ∀ {others : List Node}, Spliced schema ns others → nodes = others := by
  induction h with
  | nil =>
    rintro _ ⟨⟩
    rfl
  | keep hn _ ih =>
    intro others h
    cases h with
    | keep _ hmore => rw [ih hmore]
    | extend ht => exact absurd (hn.symm.trans ht) (by decide)
  | extend ht hname hdefinition _ _ ihfirst ihmore =>
    intro others h
    cases h with
    | keep hn _ => exact absurd (hn.symm.trans ht) (by decide)
    | extend _ hname' hdefinition' hfirst hmore =>
      obtain rfl := Option.some.inj (hname.symm.trans hname')
      cases hdefinition.symm.trans hdefinition'
      rw [ihfirst hfirst, ihmore hmore]

/-! ## One step of copying -/

theorem isRule_eq_false {t : Tag} {localName other : String} (h : t.isRule localName = true)
    (hne : localName ≠ other) : t.isRule other = false := by
  simp only [Tag.isRule, beq_iff_eq, beq_eq_false_iff_ne] at h ⊢
  rw [h]
  exact fun heq => hne (Option.some.inj heq)

theorem not_extends_of_definition {t : Tag}
    (h : ((t.isRule "pattern" || t.isRule "rule") && isAbstract t) = true) :
    t.isRule "extends" = false :=
  (Bool.or_eq_true_iff.1 (Bool.and_eq_true_iff.1 h).1).elim
    (fun hpattern => isRule_eq_false hpattern (by decide))
    fun hrule => isRule_eq_false hrule (by decide)

section Step

variable {r : Copiers} {t : Tag} {cs : List Node} {copied : List Copy} {depth : ℕ}

/-- **What an element is copied as**: nothing, what it is an instance or an extension of, or
itself. -/
theorem copiesOf_element (h : copiesOf r ps scope (.element t cs) = .ok copied) :
    (((t.isRule "pattern" || t.isRule "rule") && isAbstract t) = true ∧ copied = []) ∨
    (((t.isRule "pattern" || t.isRule "rule") && isAbstract t) = false ∧
      (t.isRule "pattern" && (t.plain? "is-a").isSome) = true ∧
        r.instantiate scope t cs = .ok copied) ∨
    (t.isRule "extends" = true ∧ r.extend ps t = .ok copied) ∨
    (t.isRule "param" = true ∧ copied = []) ∨
    (((t.isRule "pattern" || t.isRule "rule") && isAbstract t) = false ∧
      (t.isRule "pattern" && (t.plain? "is-a").isSome) = false ∧ t.isRule "extends" = false ∧
        ∃ content, copiesOfAll r ps (some t) cs = .ok content ∧
          copied = [.element t scope (substitute ps) content]) := by
  rw [copiesOf] at h
  split at h
  · case isTrue hdefinition =>
    cases h
    exact .inl ⟨hdefinition, rfl⟩
  · case isFalse hdefinition =>
    rw [Bool.not_eq_true] at hdefinition
    split at h
    · case isTrue hinstance => exact .inr (.inl ⟨hdefinition, hinstance, h⟩)
    · case isFalse hinstance =>
      rw [Bool.not_eq_true] at hinstance
      split at h
      · case isTrue hextends => exact .inr (.inr (.inl ⟨hextends, h⟩))
      · case isFalse hextends =>
        rw [Bool.not_eq_true] at hextends
        split at h
        · case isTrue hparam =>
          cases h
          exact .inr (.inr (.inr (.inl ⟨(Bool.and_eq_true_iff.1 hparam).1, rfl⟩)))
        · obtain ⟨content, hcontent, h⟩ := bind_eq_ok.1 h
          cases h
          exact .inr (.inr (.inr (.inr ⟨hdefinition, hinstance, hextends, content, hcontent, rfl⟩)))

end Step

/-! ## Elements and their copies -/

/-- A copy of an element. -/
structure ElementCopy where
  tag : Tag
  scope : Option Tag
  values : String → String
  content : List Copy

/-- The elements among some copies. -/
def Copy.elements (cs : List Copy) : List ElementCopy :=
  cs.filterMap fun
    | .element t scope f content => some ⟨t, scope, f, content⟩
    | .text _ => none

@[simp] theorem Copy.elements_singleton (t : Tag) (f : String → String) (content : List Copy) :
    Copy.elements [.element t scope f content] = [⟨t, scope, f, content⟩] := rfl

theorem Copy.elements_append (cs ds : List Copy) :
    Copy.elements (cs ++ ds) = Copy.elements cs ++ Copy.elements ds := List.filterMap_append

/-- **What an element is copied from** if it is copied as itself: an instance of an abstract pattern
is copied with other parameters. -/
inductive CopiedFrom (schema : List Node) (ps : Parameters) : Tag × List Node → ElementCopy → Prop
  | plain {t : Tag} {scope : Option Tag} {cs : List Node} {depth : ℕ} {content : List Copy} :
      (t.isRule "pattern" && (t.plain? "is-a").isSome) = false →
      copiesOfAll (copiers schema depth) ps (some t) cs = .ok content →
      CopiedFrom schema ps (t, cs) ⟨t, scope, substitute ps, content⟩
  | instantiated {t d : Tag} {scope : Option Tag} {name : String} {cs content : List Node}
      {depth : ℕ} {own more : List Copy} : t.isRule "pattern" = true → t.plain? "is-a" = some name →
      definition? "pattern" schema name = some (d, content) →
      copiesOfAll (copiers schema depth) (parametersOf cs) (some t) (without "param" cs) =
        .ok own →
      copiesOfAll (copiers schema depth) (parametersOf cs) (some d) (without "title" content) =
        .ok more →
      CopiedFrom schema ps (t, cs) ⟨t, scope, id, own ++ more⟩

theorem CopiedFrom.tag_eq {e : Tag × List Node} {c : ElementCopy} (h : CopiedFrom schema ps e c) :
    c.tag = e.1 := by
  cases h <;> rfl

/-- A property that only elements have that are copied as themselves. -/
def Lasting (q : Tag → Bool) : Prop :=
  ∀ t, q t = true → t.isRule "extends" = false ∧ t.isRule "param" = false ∧
    ((t.isRule "pattern" || t.isRule "rule") && isAbstract t) = false

/-- **Nodes are copied one by one**, as far as they are copied as themselves. -/
def CopiedAll (schema : List Node) (ps : Parameters) (nodes : List Node) (copied : List Copy) :
    Prop :=
  ∀ q, Lasting q → List.Forall₂ (CopiedFrom schema ps)
    ((Node.elementsOf nodes).filter fun e => q e.1) ((Copy.elements copied).filter fun c => q c.tag)

namespace CopiedAll

variable {nodes more : List Node} {copied rest : List Copy}

theorem nil : CopiedAll schema ps [] [] := fun _ _ => .nil

theorem append (h : CopiedAll schema ps nodes copied) (hmore : CopiedAll schema ps more rest) :
    CopiedAll schema ps (nodes ++ more) (copied ++ rest) := by
  intro q hq
  rw [Node.elementsOf_append, Copy.elements_append, List.filter_append, List.filter_append]
  exact List.rel_append (h q hq) (hmore q hq)

/-- A node that is no element is not copied as one. -/
theorem other {n : Node} (hn : Node.elementsOf [n] = []) (hcopied : Copy.elements copied = []) :
    CopiedAll schema ps [n] copied := by
  intro q _
  rw [hn, hcopied]
  exact .nil

/-- An element that leaves no copy of itself does not last. -/
theorem dropped {t : Tag} {cs : List Node} (h : ∀ q, Lasting q → q t = false) :
    CopiedAll schema ps [.element t cs] [] := by
  intro q hq
  rw [Node.elementsOf_singleton, List.filter_cons_of_neg (by simp [h q hq])]
  exact .nil

theorem single {t : Tag} {cs : List Node} {f : String → String} {content : List Copy}
    (h : CopiedFrom schema ps (t, cs) ⟨t, scope, f, content⟩) :
    CopiedAll schema ps [.element t cs] [.element t scope f content] := by
  intro q _
  exact List.rel_filter (fun _ _ h => iff_of_eq (congrArg (q · = true) h.tag_eq.symm))
    (.cons h .nil)

end CopiedAll

/-- **What is copied of some nodes is copied of what they are spliced to**, one by one. -/
theorem exists_spliced (depth : ℕ) : ∀ (ns : List Node) {scope : Option Tag} {copied : List Copy},
    copiesOfAll (copiers schema depth) ps scope ns = .ok copied →
      ∃ nodes, Spliced schema ns nodes ∧ CopiedAll schema ps nodes copied := by
  induction depth using Nat.strong_induction_on with
  | _ depth ih =>
    intro ns scope
    induction ns with
    | nil =>
      rintro _ ⟨⟩
      exact ⟨[], .nil, .nil⟩
    | cons n ns ihns =>
      intro copied h
      obtain ⟨first, hfirst, h⟩ := bind_eq_ok.1 h
      obtain ⟨rest, hrest, h⟩ := bind_eq_ok.1 h
      cases h
      obtain ⟨more, hmore, hall⟩ := ihns hrest
      have hkept (hn : n.isRule "extends" = false) (hone : CopiedAll schema ps [n] first) :
          ∃ nodes, Spliced schema (n :: ns) nodes ∧ CopiedAll schema ps nodes (first ++ rest) :=
        ⟨n :: more, .keep hn hmore, hone.append hall⟩
      cases n with
      | root _ | comment _ | instruction _ _ | text _ =>
        cases hfirst
        exact hkept rfl (.other rfl rfl)
      | element t cs =>
        obtain ⟨hdefinition, rfl⟩ | ⟨hdefinition, hinstance, hcopies⟩ | ⟨hextends, hcopies⟩ |
          ⟨hparam, rfl⟩ | ⟨-, hinstance, hextends, content, hcontent, rfl⟩ := copiesOf_element hfirst
        · refine hkept (not_extends_of_definition hdefinition) (.dropped fun q hq => ?_)
          by_contra hne
          exact absurd ((hq t (by simpa using hne)).2.2) (by rw [hdefinition]; decide)
        · obtain ⟨hpattern, hisA⟩ := Bool.and_eq_true_iff.1 hinstance
          obtain ⟨name, hname⟩ := Option.isSome_iff_exists.1 hisA
          obtain ⟨depth', d, content, own, others, -, hd, hown, hothers, rfl⟩ :=
            instantiate_copiers hcopies
          rw [hname, Option.getD_some] at hd
          exact hkept (isRule_eq_false hpattern (by decide))
            (.single (.instantiated hpattern hname hd hown hothers))
        · obtain ⟨depth', name, d, content, rfl, hname, hd, hcontent⟩ := extend_copiers hcopies
          obtain ⟨spliced, hspliced, hcopied⟩ := ih depth' (Nat.lt_succ_self _) content hcontent
          exact ⟨spliced ++ more, .extend hextends hname hd hspliced hmore, hcopied.append hall⟩
        · refine hkept (isRule_eq_false hparam (by decide)) (.dropped fun q hq => ?_)
          by_contra hne
          exact absurd ((hq t (by simpa using hne)).2.1) (by rw [hparam]; decide)
        · exact hkept hextends (.single (.plain hinstance hcontent))

/-! ## Circles -/

/-- **What is written along with some nodes**: the content of an element among them that is copied
as itself, the two contents of an instance, and the content of the rule that an extension names. -/
inductive Enters (schema : List Node) : List Node → List Node → Prop
  | content {ns cs : List Node} {t : Tag} : .element t cs ∈ ns → t.isRule "extends" = false →
      t.isRule "param" = false → ((t.isRule "pattern" || t.isRule "rule") && isAbstract t) = false →
      (t.isRule "pattern" && (t.plain? "is-a").isSome) = false → Enters schema ns cs
  | own {ns cs : List Node} {t : Tag} : .element t cs ∈ ns →
      (t.isRule "pattern" && (t.plain? "is-a").isSome) = true → isAbstract t = false →
      Enters schema ns (without "param" cs)
  | pattern {ns cs content : List Node} {t d : Tag} {name : String} : .element t cs ∈ ns →
      t.isRule "pattern" = true → t.plain? "is-a" = some name → isAbstract t = false →
      definition? "pattern" schema name = some (d, content) →
      Enters schema ns (without "title" content)
  | rule {ns cs content : List Node} {t d : Tag} {name : String} : .element t cs ∈ ns →
      t.isRule "extends" = true → t.plain? "rule" = some name →
      definition? "rule" schema name = some (d, content) → Enters schema ns content

/-- An abstract rule is named by an extension that is written along with some nodes. -/
def Needs (schema ns : List Node) (name : String) : Prop :=
  ∃ ms t cs, Relation.ReflTransGen (Enters schema) ns ms ∧ .element t cs ∈ ms ∧
    t.isRule "extends" = true ∧ t.plain? "rule" = some name

/-- **An abstract rule extends another**. -/
def Extends (schema : List Node) (name other : String) : Prop :=
  ∃ d content, definition? "rule" schema name = some (d, content) ∧ Needs schema content other

/-- Some nodes can be copied if extensions may be nested so deep. -/
def Copyable (schema : List Node) (depth : ℕ) (ns : List Node) : Prop :=
  ∃ ps scope copied, copiesOfAll (copiers schema depth) ps scope ns = .ok copied

/-- An abstract rule whose content can be copied if extensions may be nested so deep. -/
def CopyableRule (schema : List Node) (depth : ℕ) (name : String) : Prop :=
  ∃ d content, definition? "rule" schema name = some (d, content) ∧ Copyable schema depth content

section Circles

variable {ns ms : List Node} {depth : ℕ} {name other : String}

theorem exists_copiesOf_of_mem {r : Copiers} {n : Node} : ∀ {ns : List Node} {copied : List Copy},
    copiesOfAll r ps scope ns = .ok copied → n ∈ ns → ∃ own, copiesOf r ps scope n = .ok own
  | m :: ns, _, h, hn => by
    obtain ⟨first, hfirst, h⟩ := bind_eq_ok.1 h
    obtain ⟨rest, hrest, -⟩ := bind_eq_ok.1 h
    obtain rfl | hn := List.mem_cons.1 hn
    · exact ⟨first, hfirst⟩
    · exact exists_copiesOf_of_mem hrest hn

/-- **An abstract rule is copied less deep** than the extensions that name it. -/
theorem Copyable.extends {t : Tag} {cs : List Node} (h : Copyable schema depth ns)
    (hmem : .element t cs ∈ ns) (ht : t.isRule "extends" = true)
    (hname : t.plain? "rule" = some name) : ∃ depth' < depth, CopyableRule schema depth' name := by
  obtain ⟨ps, scope, copied, h⟩ := h
  obtain ⟨own, hown⟩ := exists_copiesOf_of_mem h hmem
  have hnot (localName : String) (hne : "extends" ≠ localName) : t.isRule localName = false :=
    isRule_eq_false ht hne
  rw [copiesOf, hnot "pattern" (by decide), hnot "rule" (by decide), Bool.or_self, Bool.false_and,
    if_neg (by decide), Bool.false_and, if_neg (by decide), if_pos ht] at hown
  obtain ⟨depth', name', d, content, rfl, hname', hd, hcontent⟩ := extend_copiers hown
  obtain rfl := Option.some.inj (hname.symm.trans hname')
  exact ⟨depth', Nat.lt_succ_self _, d, content, hd, ps, some d, own, hcontent⟩

/-- The two contents of an instance are copied less deep than the instance. -/
theorem Copyable.instance {t : Tag} {cs : List Node} (h : Copyable schema depth ns)
    (hmem : .element t cs ∈ ns) (ht : (t.isRule "pattern" && (t.plain? "is-a").isSome) = true)
    (hdefinition : isAbstract t = false) :
    ∃ depth' d content, depth' ≤ depth ∧
      definition? "pattern" schema ((t.plain? "is-a").getD "") = some (d, content) ∧
      Copyable schema depth' (without "param" cs) ∧
        Copyable schema depth' (without "title" content) := by
  obtain ⟨ps, scope, copied, h⟩ := h
  obtain ⟨own, hown⟩ := exists_copiesOf_of_mem h hmem
  rw [copiesOf, hdefinition, Bool.and_false, if_neg (by decide), if_pos ht] at hown
  obtain ⟨depth', d, content, first, more, rfl, hd, hfirst, hmore, -⟩ := instantiate_copiers hown
  exact ⟨depth', d, content, Nat.le_succ _, hd, ⟨_, _, _, hfirst⟩, _, _, _, hmore⟩

/-- What is written along with nodes that are copied is copied, and not deeper. -/
theorem Copyable.enters (h : Copyable schema depth ns) (hms : Enters schema ns ms) :
    ∃ depth' ≤ depth, Copyable schema depth' ms := by
  cases hms with
  | content hmem hextends hparam hdefinition hinstance =>
    obtain ⟨ps, scope, copied, h⟩ := h
    obtain ⟨own, hown⟩ := exists_copiesOf_of_mem h hmem
    rw [copiesOf, hdefinition, hinstance, hextends, hparam] at hown
    simp only [Bool.false_and, Bool.false_eq_true, if_false] at hown
    obtain ⟨content, hcontent, -⟩ := bind_eq_ok.1 hown
    exact ⟨depth, Nat.le_refl _, _, _, _, hcontent⟩
  | own hmem hinstance hdefinition =>
    obtain ⟨depth', -, -, hle, -, hown, -⟩ := h.instance hmem hinstance hdefinition
    exact ⟨depth', hle, hown⟩
  | pattern hmem hpattern hname hdefinition hd =>
    obtain ⟨depth', d', content', hle, hd', -, hcontent⟩ :=
      h.instance hmem (by rw [hpattern, hname]; rfl) hdefinition
    rw [hname, Option.getD_some, hd] at hd'
    cases hd'
    exact ⟨depth', hle, hcontent⟩
  | rule hmem hextends hname hd =>
    obtain ⟨depth', hlt, d', content', hd', hcontent⟩ := h.extends hmem hextends hname
    cases hd.symm.trans hd'
    exact ⟨depth', hlt.le, hcontent⟩

theorem Copyable.reflTransGen (h : Copyable schema depth ns)
    (hms : Relation.ReflTransGen (Enters schema) ns ms) :
    ∃ depth' ≤ depth, Copyable schema depth' ms := by
  induction hms with
  | refl => exact ⟨depth, Nat.le_refl _, h⟩
  | tail _ hlast ih =>
    obtain ⟨between, hle, hbetween⟩ := ih
    obtain ⟨depth', hle', hms⟩ := hbetween.enters hlast
    exact ⟨depth', hle'.trans hle, hms⟩

/-- An abstract rule that is needed is copied, and less deep. -/
theorem Copyable.needs (h : Copyable schema depth ns) (hname : Needs schema ns name) :
    ∃ depth' < depth, CopyableRule schema depth' name := by
  obtain ⟨ms, t, cs, hms, hmem, hextends, hrule⟩ := hname
  obtain ⟨between, hle, hbetween⟩ := h.reflTransGen hms
  obtain ⟨depth', hlt, hcopyable⟩ := hbetween.extends hmem hextends hrule
  exact ⟨depth', hlt.trans_le hle, hcopyable⟩

/-- **An abstract rule that another one extends is copied less deep.** -/
theorem CopyableRule.transGen (h : CopyableRule schema depth name)
    (hother : Relation.TransGen (Extends schema) name other) :
    ∃ depth' < depth, CopyableRule schema depth' other := by
  have hstep {depth : ℕ} {name other : String} (h : CopyableRule schema depth name)
      (hextends : Extends schema name other) :
    ∃ depth' < depth, CopyableRule schema depth' other := by
    obtain ⟨d, content, hd, hneeds⟩ := hextends
    obtain ⟨d', content', hd', hcontent⟩ := h
    cases hd.symm.trans hd'
    exact hcontent.needs hneeds
  induction hother with
  | single hextends => exact hstep h hextends
  | tail _ hlast ih =>
    obtain ⟨between, hlt, hbetween⟩ := ih
    obtain ⟨depth', hlt', hcopyable⟩ := hstep hbetween hlast
    exact ⟨depth', hlt'.trans hlt, hcopyable⟩

/-- **A rule that extends itself** is copied at no depth. -/
theorem not_copyableRule_of_circle (hcircle : Relation.TransGen (Extends schema) name name) :
    ∀ depth, ¬CopyableRule schema depth name := by
  intro depth
  induction depth using Nat.strong_induction_on with
  | _ depth ih =>
    intro h
    obtain ⟨depth', hlt, h'⟩ := h.transGen hcircle
    exact ih depth' hlt h'

/-- **Nothing is copied of nodes that need a rule in a circle.** -/
theorem not_copyable_of_circle (hneeds : Needs schema ns name)
    (hother : Relation.ReflTransGen (Extends schema) name other)
    (hcircle : Relation.TransGen (Extends schema) other other) : ¬Copyable schema depth ns := by
  intro h
  obtain ⟨depth', -, hname⟩ := h.needs hneeds
  obtain rfl | hother := Relation.reflTransGen_iff_eq_or_transGen.1 hother
  · exact not_copyableRule_of_circle hcircle depth' hname
  · obtain ⟨depth'', -, hrule⟩ := hname.transGen hother
    exact not_copyableRule_of_circle hcircle depth'' hrule

end Circles

end XmlConformance.Rules
