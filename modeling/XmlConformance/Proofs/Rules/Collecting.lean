import XmlConformance.Proofs.Rules.Keeping
import XmlConformance.Proofs.Rules.Running
import XmlConformance.Proofs.Xml.Walking
import XmlConformance.Rules.Embedded

/-!
# Proofs/Rules/Collecting — the rules that are collected from a grammar

A declaration is embedded in a grammar if an annotation leads to it through nothing but rule schemas
(`Declares`). What is collected is every such declaration, but for loose checks outside of all named
element declarations; they come in the order of the annotations, and in the order in which they
stand in each of them (`collected`). Each comes to be a child of one rule schema, by itself or in
a pattern of its own (`Lodged`), and is what it was (`Retrieved`, `extract_settles`).

The name of the element declaration around a loose check comes to be the context of a rule. A tab or
a carriage return in it is lost (`not_extract_settles`).
-/

namespace XmlConformance.Rules

open Xml

open Node (contents found foundFrom)

/-! ## What is embedded -/

/-- Whether a node is an annotation for applications. -/
def isAppinfo (n : Node) : Bool :=
  n.tag?.any (·.name == Schema.schemaName "appinfo")

/-- Whether a node is an assertion or a report. -/
def isCheck (n : Node) : Bool :=
  n.isRule "assert" || n.isRule "report"

/-- Whether a node is a declaration: a key, or an element of the rule language other than a whole
schema. -/
def isDeclaration (n : Node) : Bool :=
  n.isKey || n.tag?.any fun t => t.ruleName?.any (· != "schema")

/-- The name that an element declaration has, or else the one that it refers to. -/
def declaredName? (t : Tag) : Option String :=
  if t.name == Schema.schemaName "element" then (t.plain? "name").or (t.plain? "ref") else none

/-- **The name of the nearest element declaration** around a position that has one. -/
def nearestName? (root : Node) (p : Position) : Option String :=
  (root.around p).reverse.findSome? declaredName?

/-- **An annotation leads to a declaration**: the declaration is inside, and what is in between are
rule schemas. Both are given by their positions. -/
structure Declares (root : Node) (a p : Position) : Prop where
  appinfo : ∃ m, root.at? a = some m ∧ isAppinfo m = true
  declaration : ∃ m, root.at? p = some m ∧ isDeclaration m = true
  inside : a <+: p
  below : p ≠ a
  between : ∀ q, a <+: q → q <+: p → q ≠ a → q ≠ p →
    ∀ m, root.at? q = some m → m.isRule "schema" = true

/-- **A check of no element**: no element declaration around it has a name. -/
def Ownerless (root : Node) (p : Position) : Prop :=
  (∃ m, root.at? p = some m ∧ isCheck m = true) ∧ nearestName? root p = none

/-- Whether a node is a declaration that is collected where the nearest element declaration has a
given name. -/
def isCollected (context : Option String) (n : Node) : Bool :=
  isDeclaration n && (context.isSome || !isCheck n)

/-- **No annotation stands in a declaration.** -/
def AnnotationsApart (root : Node) : Prop :=
  ∀ n ∈ root.subtree, isDeclaration n = true → ∀ m ∈ Node.subtrees n.children, isAppinfo m = false

instance (root : Node) : Decidable (AnnotationsApart root) :=
  inferInstanceAs (Decidable (∀ n ∈ root.subtree, isDeclaration n = true →
    ∀ m ∈ Node.subtrees n.children, isAppinfo m = false))

/-- The positions of what is collected from the annotation at a position, in the annotation. -/
def collectedIn (root : Node) (a : Position) : List Position :=
  (root.at? a).elim [] fun m =>
    foundFrom (·.isRule "schema") (isCollected (nearestName? root a)) 0 m.children

/-- **What is collected from a grammar**: the positions of declarations, each with that of the
annotation that leads to it. -/
def collected (root : Node) : List (Position × Position) :=
  (root.found (fun _ => true) isAppinfo).flatMap fun a =>
    (collectedIn root a).map fun q => (a, a ++ q)

section Collected

variable {root m n : Node} {a a' p p' : Position} {context : Option String}

theorem declaredName?_eq_none {t : Tag} (h : t.name ≠ Schema.schemaName "element") :
    declaredName? t = none := by
  rw [declaredName?, if_neg (by simpa using h)]

/-- An annotation is no declaration. -/
theorem isDeclaration_of_appinfo (h : isAppinfo n = true) : isDeclaration n = false := by
  obtain ⟨t, ht, hname⟩ := (Option.any_eq_true _ _).1 h
  rw [isDeclaration, Node.isKey, ht, Option.any_some, Option.any_some, Tag.isKey, Tag.ruleName?,
    beq_iff_eq.1 hname]
  decide

theorem isRule_of_appinfo (h : isAppinfo n = true) (localName : String) :
    n.isRule localName = false := by
  obtain ⟨t, ht, hname⟩ := (Option.any_eq_true _ _).1 h
  rw [Node.isRule, ht, Option.any_some, Tag.isRule, Tag.ruleName?, beq_iff_eq.1 hname]
  rfl

theorem isDeclaration_of_schema (h : n.isRule "schema" = true) : isDeclaration n = false := by
  obtain ⟨t, ht, hrule⟩ := (Option.any_eq_true _ _).1 h
  have huri := (isRule_iff.1 hrule).1
  have hkey : t.isKey = false := by
    refine Bool.eq_false_iff.2 fun hkey => ?_
    rw [beq_iff_eq.1 hkey] at huri
    exact absurd huri (by decide)
  rw [isDeclaration, Node.isKey, ht, Option.any_some, Option.any_some, hkey,
    beq_iff_eq.1 hrule]
  rfl

/-- What stands between a node and a position below it, when nothing but rule schemas does. -/
def OnlySchemas (m : Node) (q : Position) : Prop :=
  ∀ s, s <+: q → s ≠ [] → s ≠ q → ∀ k, m.at? s = some k → k.isRule "schema" = true

/-- What leads from an annotation to a declaration is no element declaration. -/
theorem nearestName?_append (hm : root.at? a = some m) (happinfo : isAppinfo m = true)
    {q : Position} (hway : OnlySchemas m q) : nearestName? root (a ++ q) = nearestName? root a := by
  have hnone : (m.around q).reverse.findSome? declaredName? = none := by
    refine List.findSome?_eq_none_iff.2 fun t ht => ?_
    obtain ⟨s, k, hs, hne, hk, htag⟩ := Node.exists_of_mem_around (List.mem_reverse.1 ht)
    refine declaredName?_eq_none fun hname => ?_
    by_cases hnil : s = []
    · subst hnil
      obtain rfl := Option.some.inj hk
      rw [isAppinfo, htag, Option.any_some, hname] at happinfo
      exact absurd happinfo (by decide)
    · have hrule := hway s hs hnil hne k hk
      rw [Node.isRule, htag, Option.any_some] at hrule
      have huri := (isRule_iff.1 hrule).1
      rw [hname] at huri
      exact absurd huri (by decide)
  rw [nearestName?, Node.around_append hm, List.reverse_append, List.findSome?_append, hnone,
    Option.none_or]
  rfl

/-- **What an annotation leads to**, by its position in the annotation. -/
theorem declares_append_iff (hm : root.at? a = some m) (happinfo : isAppinfo m = true)
    {q : Position} : Declares root a (a ++ q) ↔
      q ≠ [] ∧ (∃ k, m.at? q = some k ∧ isDeclaration k = true) ∧ OnlySchemas m q := by
  have hat (s : Position) : root.at? (a ++ s) = m.at? s := by
    rw [Node.at?_append, hm, Option.bind_some]
  constructor
  · intro h
    have hdeclaration := h.declaration
    rw [hat] at hdeclaration
    refine ⟨fun hnil => h.below (by rw [hnil, List.append_nil]), hdeclaration,
      fun s hs hnil hne k hk => ?_⟩
    exact h.between (a ++ s) (List.prefix_append _ _) ((List.prefix_append_right_inj a).2 hs)
      (by simpa using hnil) (by simpa using hne) k ((hat s).trans hk)
  · rintro ⟨hnil, ⟨k, hk, hdeclaration⟩, hway⟩
    refine ⟨⟨m, hm, happinfo⟩, ⟨k, (hat q).trans hk, hdeclaration⟩, List.prefix_append _ _,
      by simpa using hnil, ?_⟩
    rintro _ ⟨s, rfl⟩ hs hself hne k hk
    exact hway s ((List.prefix_append_right_inj a).1 hs) (by simpa using hself)
      (by simpa using hne) k ((hat s).symm.trans hk)

/-- What is collected from an annotation. -/
theorem mem_collectedIn (hm : root.at? a = some m) (happinfo : isAppinfo m = true) {q : Position} :
    q ∈ collectedIn root a ↔ Declares root a (a ++ q) ∧ ¬Ownerless root (a ++ q) := by
  rw [collectedIn, hm, Option.elim_some, Node.mem_foundFrom_children,
    declares_append_iff hm happinfo]
  have howner (hway : OnlySchemas m q) {k : Node} (hk : m.at? q = some k) :
      ¬Ownerless root (a ++ q) ↔ ((nearestName? root a).isSome || !isCheck k) = true := by
    rw [Ownerless, nearestName?_append hm happinfo hway, Node.at?_append, hm, Option.bind_some, hk]
    cases nearestName? root a <;> simp
  constructor
  · rintro ⟨hnil, ⟨k, hk, hcollected⟩, hway⟩
    obtain ⟨hdeclaration, hcontext⟩ := Bool.and_eq_true_iff.1 hcollected
    exact ⟨⟨hnil, ⟨k, hk, hdeclaration⟩, hway⟩, (howner hway hk).2 hcontext⟩
  · rintro ⟨⟨hnil, ⟨k, hk, hdeclaration⟩, hway⟩, hnot⟩
    exact ⟨hnil, ⟨k, hk, Bool.and_eq_true_iff.2 ⟨hdeclaration, (howner hway hk).1 hnot⟩⟩, hway⟩

/-- **What is collected** is what annotations lead to, without the checks of no element. -/
theorem mem_collected : (a, p) ∈ collected root ↔ Declares root a p ∧ ¬Ownerless root p := by
  rw [collected, List.mem_flatMap]
  simp only [List.mem_map, Prod.mk.injEq, Node.mem_found]
  constructor
  · rintro ⟨a, ⟨⟨m, hm, happinfo⟩, -⟩, q, hq, rfl, rfl⟩
    exact (mem_collectedIn hm happinfo).1 hq
  · rintro ⟨h, howner⟩
    obtain ⟨m, hm, happinfo⟩ := h.appinfo
    obtain ⟨q, rfl⟩ := h.inside
    exact ⟨a, ⟨⟨m, hm, happinfo⟩, fun _ _ _ _ _ => trivial⟩, q,
      (mem_collectedIn hm happinfo).2 ⟨h, howner⟩, rfl, rfl⟩

/-- **Things are collected in order**: annotation by annotation, and inside each one in document
order. -/
theorem pairwise_collected (root : Node) :
    (collected root).Pairwise fun x y => x.1 < y.1 ∨ x.1 = y.1 ∧ x.2 < y.2 := by
  rw [collected, List.pairwise_flatMap]
  constructor
  · intro a _
    rw [List.pairwise_map, collectedIn]
    cases root.at? a with
    | none => exact .nil
    | some m =>
      exact (Node.pairwise_foundFrom m.children 0).imp fun h => .inr ⟨rfl, List.append_left_lt h⟩
  · refine (Node.pairwise_found root).imp fun hlt x hx y hy => .inl ?_
    obtain ⟨q, -, rfl⟩ := List.mem_map.1 hx
    obtain ⟨r, -, rfl⟩ := List.mem_map.1 hy
    exact hlt

/-- Nothing but rule schemas leads from an annotation to a declaration. -/
theorem Declares.eq_of_between (h : Declares root a p) {q : Position} (hm : root.at? q = some m)
    (ha : a <+: q) (hp : q <+: p) (hrule : m.isRule "schema" = false) : q = a ∨ q = p := by
  by_contra hne
  rw [not_or] at hne
  rw [h.between q ha hp hne.1 hne.2 m hm] at hrule
  cases hrule

/-- **No declaration stands in another** if no annotation does. -/
theorem Declares.eq_of_prefix (hapart : AnnotationsApart root) (h : Declares root a p)
    (h' : Declares root a' p') (hbefore : p <+: p') : (a, p) = (a', p') := by
  obtain ⟨m, hm, happinfo⟩ := h.appinfo
  obtain ⟨m', hm', happinfo'⟩ := h'.appinfo
  obtain ⟨n, hn, hdeclaration⟩ := h.declaration
  have hnot : ¬p <+: a' := by
    rintro ⟨q, rfl⟩
    rw [Node.at?_append, hn, Option.bind_some] at hm'
    cases q with
    | nil =>
      obtain rfl := Option.some.inj hm'
      rw [isDeclaration_of_appinfo happinfo'] at hdeclaration
      cases hdeclaration
    | cons i q =>
      have hinside := Node.mem_subtrees_children_of_at? hm'
      rw [hapart n (Node.mem_subtree_of_at? hn) hdeclaration m' hinside] at happinfo'
      cases happinfo'
  -- so the second annotation stands above the first declaration; neither this declaration nor an
  -- annotation is a rule schema, so that none of them stands between others
  have ha' : a' <+: p := (List.prefix_or_prefix_of_prefix hbefore h'.inside).resolve_left hnot
  have hrule : n.isRule "schema" = false := by
    refine Bool.eq_false_iff.2 fun hrule => ?_
    rw [isDeclaration_of_schema hrule] at hdeclaration
    cases hdeclaration
  obtain rfl | rfl := h'.eq_of_between hn ha' hbefore hrule
  · exact absurd (List.prefix_refl p) hnot
  obtain haa | haa := List.prefix_or_prefix_of_prefix h.inside ha'
  · obtain rfl | rfl := h.eq_of_between hm' haa ha' (isRule_of_appinfo happinfo' _)
    · rfl
    · exact absurd rfl h'.below
  · obtain rfl | rfl := h'.eq_of_between hm haa h.inside (isRule_of_appinfo happinfo _)
    · rfl
    · exact absurd rfl h.below

end Collected

/-! ## What is written -/

/-- An annotation that stands at a position in a node, as it is collected where the nearest element
declaration around the node has a given name. -/
structure Annotates (outer : Option String) (n : Node) (a : Position) (an : Annotation) : Prop where
  node : ∃ m, n.at? a = some m ∧ isAppinfo m = true ∧ m.children = an.content
  context : an.context = ((n.around a).reverse.findSome? declaredName?).or outer

theorem contextInside_eq (t : Tag) (outer : Option String) :
    contextInside t outer = (declaredName? t).or outer := by
  unfold contextInside declaredName?
  split
  · rw [Option.or_assoc]
  · rfl

theorem Annotates.of_below {outer : Option String} {n : Node} {a : Position} {an : Annotation}
    (h : Node.Below 0 n.children (Annotates ((n.tag?.bind declaredName?).or outer)) a an) :
    Annotates outer n a an := by
  obtain ⟨j, c, q, hc, h, rfl⟩ := h
  rw [Nat.zero_add]
  obtain ⟨m, hm, hcontent⟩ := h.node
  refine ⟨⟨m, (Node.at?_cons hc q).trans hm, hcontent⟩, ?_⟩
  rw [h.context, Node.around_cons hc, List.reverse_append, List.findSome?_append, Option.or_assoc]
  cases n.tag? with
  | none => rfl
  | some t =>
    rw [Option.toList_some, List.reverse_singleton, List.findSome?_singleton]
    rfl

mutual

theorem forall₂_annotations : ∀ (n : Node) (outer : Option String),
    List.Forall₂ (Annotates outer n) (n.found (fun _ => true) isAppinfo) (annotations outer n)
  | .root cs, outer => by
    rw [found, annotations]
    exact (forall₂_annotationsOf cs 0 outer).imp fun _ _ h => .of_below h
  | .element t cs, outer => by
    rw [found, annotations, contextInside_eq]
    refine List.rel_append ?_ ((forall₂_annotationsOf cs 0 _).imp fun _ _ h => .of_below h)
    change List.Forall₂ _ (if t.name == Schema.schemaName "appinfo" then [[]] else []) _
    split
    · case isTrue happinfo => exact .cons ⟨⟨_, rfl, happinfo, rfl⟩, rfl⟩ .nil
    · exact .nil
  | .text _, _ | .comment _, _ | .instruction .., _ => by
    simp [found, annotations, isAppinfo, Node.tag?]

/-- **The annotations of a grammar**, one by one. -/
theorem forall₂_annotationsOf : ∀ (cs : List Node) (i : ℕ) (outer : Option String),
    List.Forall₂ (Node.Below i cs (Annotates outer)) (foundFrom (fun _ => true) isAppinfo i cs)
      (annotationsOf outer cs)
  | [], _, _ => .nil
  | c :: cs, i, outer =>
    Node.forall₂_below_cons (forall₂_annotations c outer) (forall₂_annotationsOf cs (i + 1) outer)

end

/-- The tag of an element of the rule language as it is written around declarations. -/
def ruleTag (localName : String) (attributes : List Attribute) : Tag where
  name := ⟨some ruleUri, localName⟩
  attributes := attributes
  scope := [⟨some "sch", ruleUri⟩]
  start := 0

/-- A declaration with what is put around it: a pattern around a loose rule, and a pattern and a
rule around a loose check. -/
def lodging (context : Option String) (n : Node) : Node :=
  if n.isRule "rule" then .element (ruleTag "pattern" []) [n]
  else if isCheck n then
    .element (ruleTag "pattern" [])
      [.element (ruleTag "rule" (context.toList.map fun c => ⟨⟨none, "context"⟩, c⟩)) [n]]
  else n

section Written

variable {context : Option String} {localName : String} {attributes : List Attribute} {s t : Tag}
  {n : Node} {cs : List Node} {content fs : List Fragment}

theorem ruleName?_ruleTag : (ruleTag localName attributes).ruleName? = some localName :=
  ruleName?_eq_some.2 ⟨show isRuleUri ruleUri = true by decide, rfl⟩

/-- What is put around declarations is written without declarations of namespaces. -/
theorem copyOf_ruleTag : copyOf (ruleTag localName attributes) (some s) id content =
    .element ("sch:" ++ localName) ((ruleTag localName attributes).writtenAttributes id)
      content := by
  have hnil : ((ruleTag localName attributes).newDeclarations (some s)).filter
      (fun d => !isRuleDeclaration d) = [] := by
    refine List.filter_eq_nil_iff.2 fun d hd => ?_
    rw [List.mem_singleton.1 (newDeclarations_subset _ _ hd)]
    decide
  rw [copyOf, copiedName, copiedAttributes, ruleName?_ruleTag]
  dsimp only
  rw [hnil]
  rfl

theorem writes_ruleTag {fragment : Fragment}
    (hn : Writes (some (ruleTag localName attributes)) [n] content)
    (hfragment : fragment =
      .element ("sch:" ++ localName) ((ruleTag localName attributes).writtenAttributes id)
        content) :
    Writes (some s) [.element (ruleTag localName attributes) [n]] [fragment] := by
  rw [hfragment, ← copyOf_ruleTag (s := s)]
  exact .element (.inr rfl) hn .nil

end Written

/-- A node stands at a position in another. -/
def StandsAt (n : Node) (p : Position) (m : Node) : Prop :=
  n.at? p = some m

section Embeds

variable {context : Option String} {s t : Tag} {n : Node} {cs : List Node} {fs : List Fragment}

theorem StandsAt.of_below {m : Node} {p : Position} (h : Node.Below 0 n.children StandsAt p m) :
    StandsAt n p m := by
  obtain ⟨j, c, q, hc, h, rfl⟩ := h
  rw [Nat.zero_add]
  exact (Node.at?_cons hc q).trans h

/-- **What a rule schema gets** for the declarations at some positions. -/
def Embeds (context : Option String) (s : Tag) (R : Position → Node → Prop) (ps : List Position)
    (fs : List Fragment) : Prop :=
  ∃ ms, List.Forall₂ R ps ms ∧ Writes (some s) (ms.map (lodging context)) fs

theorem found_of_not_schema (h : n.isRule "schema" = false) :
    n.found (·.isRule "schema") (isCollected context) =
      if isCollected context n then [[]] else [] := by
  rw [Node.found_eq, h, if_neg Bool.false_ne_true, List.append_nil]

theorem embeds_of_collected (hschema : n.isRule "schema" = false)
    (hcollected : isCollected context n = true) (h : Writes (some s) [lodging context n] fs) :
    Embeds context s (StandsAt n) (n.found (·.isRule "schema") (isCollected context)) fs := by
  rw [found_of_not_schema hschema, if_pos hcollected]
  exact ⟨[n], .cons rfl .nil, h⟩

theorem embeds_of_not_collected (hschema : n.isRule "schema" = false)
    (hcollected : isCollected context n = false) :
    Embeds context s (StandsAt n) (n.found (·.isRule "schema") (isCollected context)) [] := by
  rw [found_of_not_schema hschema, hcollected, if_neg Bool.false_ne_true]
  exact ⟨[], .nil, .nil⟩

/-- A key is embedded as it is. -/
theorem embeds_key (hkey : t.isKey = true) :
    Embeds context s (StandsAt (.element t cs))
      ((Node.element t cs).found (·.isRule "schema") (isCollected context))
      (copyRules none (.element t cs)) := by
  have hnone : t.ruleName? = none := by
    rw [Tag.ruleName?, beq_iff_eq.1 hkey]
    rfl
  have hrule (localName : String) : (Node.element t cs).isRule localName = false := by
    rw [isRule_element, Tag.isRule, hnone]
    rfl
  refine embeds_of_collected (hrule _) ?_ ?_
  · simp [isCollected, isDeclaration, isCheck, Node.isKey, Node.tag?, hkey, hrule]
  · rw [lodging, hrule, if_neg Bool.false_ne_true, isCheck, hrule, hrule, Bool.or_false,
      if_neg Bool.false_ne_true]
    exact (writes_copyRules none _).within

/-- **An element of the rule language is embedded** with what is put around it, or is dropped. -/
theorem embeds_rule {localName : String} (hrule : t.ruleName? = some localName)
    (hschema : localName ≠ "schema") (hkey : t.isKey = false) :
    Embeds context s (StandsAt (.element t cs))
      ((Node.element t cs).found (·.isRule "schema") (isCollected context))
      (embeddedNode context (.element t cs)) := by
  have hisRule (name : String) : (Node.element t cs).isRule name = (localName == name) := by
    rw [isRule_element, Tag.isRule, hrule]
    rfl
  have hdeclaration : isDeclaration (.element t cs) = true := by
    simp [isDeclaration, Node.isKey, Node.tag?, hkey, hrule, hschema]
  have hcopy := writes_copyRules none (.element t cs)
  have hcheck : isCheck (.element t cs) = (localName == "assert" || localName == "report") := by
    rw [isCheck, hisRule, hisRule]
  unfold embeddedNode
  rw [hkey, if_neg Bool.false_ne_true, hrule]
  have hnot : (Node.element t cs).isRule "schema" = false := by
    rw [hisRule]
    simpa using hschema
  split
  · case h_1 hnone => cases hnone
  · case h_2 heq => exact absurd (Option.some.inj heq) hschema
  · case h_3 heq =>
    obtain rfl := Option.some.inj heq
    refine embeds_of_collected hnot ?_ ?_
    · simp [isCollected, hdeclaration, hcheck]
    · rw [lodging, hisRule, if_pos (beq_self_eq_true _)]
      exact writes_ruleTag hcopy.within rfl
  · case h_4 name _ hname heq =>
    obtain rfl := Option.some.inj heq
    have hne : ¬(localName == "rule") = true := fun heq => hname (beq_iff_eq.1 heq)
    split
    · case isTrue hcheck' =>
      rw [hcheck'] at hcheck
      cases context with
      | some c =>
        refine embeds_of_collected hnot (by simp [isCollected, hdeclaration]) ?_
        rw [lodging, hisRule, if_neg hne, hcheck, if_pos rfl]
        exact writes_ruleTag (writes_ruleTag hcopy.within rfl) rfl
      | none => exact embeds_of_not_collected hnot (by simp [isCollected, hcheck])
    · case isFalse hcheck' =>
      rw [Bool.eq_false_iff.2 hcheck'] at hcheck
      refine embeds_of_collected hnot (by simp [isCollected, hdeclaration, hcheck]) ?_
      rw [lodging, hisRule, if_neg hne, hcheck, if_neg Bool.false_ne_true]
      exact hcopy.within

mutual

theorem embeds_embeddedNode (s : Tag) : ∀ n : Node, Embeds context s (StandsAt n)
    (n.found (·.isRule "schema") (isCollected context)) (embeddedNode context n)
  | .element t cs => by
    cases hkey : t.isKey with
    | true =>
      unfold embeddedNode
      rw [hkey, if_pos rfl]
      exact embeds_key hkey
    | false =>
      cases hrule : t.ruleName? with
      | none =>
        unfold embeddedNode
        rw [hkey, if_neg Bool.false_ne_true, hrule]
        have hnone : (Node.element t cs).isRule "schema" = false := by
          rw [isRule_element, Tag.isRule, hrule]
          rfl
        refine embeds_of_not_collected hnone ?_
        simp [isCollected, isDeclaration, Node.isKey, Node.tag?, hkey, hrule]
      | some localName =>
        by_cases hschema : localName = "schema"
        · subst hschema
          unfold embeddedNode
          rw [hkey, if_neg Bool.false_ne_true, hrule]
          have hisRule : (Node.element t cs).isRule "schema" = true := by
            rw [isRule_element, Tag.isRule, hrule]
            rfl
          have hnot : isCollected context (.element t cs) = false := by
            rw [isCollected, isDeclaration_of_schema hisRule, Bool.false_and]
          rw [Node.found_eq, hnot, if_neg Bool.false_ne_true, hisRule, if_pos rfl, List.nil_append]
          obtain ⟨ms, hms, hwrites⟩ := embeds_embeddedNodes s cs 0
          exact ⟨ms, hms.imp fun _ _ h => .of_below h, hwrites⟩
        · exact embeds_rule hrule hschema hkey
  | .root _ => embeds_of_not_collected rfl rfl
  | .text _ | .comment _ | .instruction .. => ⟨[], .nil, .nil⟩

/-- **The declarations among some nodes are embedded** one by one. -/
theorem embeds_embeddedNodes (s : Tag) : ∀ (cs : List Node) (i : ℕ),
    Embeds context s (Node.Below i cs StandsAt)
      (foundFrom (·.isRule "schema") (isCollected context) i cs) (embeddedNodes context cs)
  | [], _ => ⟨[], .nil, .nil⟩
  | c :: cs, i => by
    obtain ⟨ms, hms, hwrites⟩ := embeds_embeddedNode s c
    obtain ⟨more, hmore, hwritesMore⟩ := embeds_embeddedNodes s cs (i + 1)
    refine ⟨ms ++ more, Node.forall₂_below_cons hms hmore, ?_⟩
    rw [List.map_append]
    exact hwrites.append hwritesMore

end

end Embeds

/-! ## The whole schema -/

/-- The attributes that the schema gets from the first one that is embedded. -/
def collectedAttributes (as : List Annotation) : List Attribute :=
  ((as.flatMap fun a => rulesNamed "schema" a.content).head?).elim [] fun e =>
    e.1.attributes.filter (·.name.uri.isNone)

theorem embeddedAttributes_eq (as : List Annotation) : embeddedAttributes as =
    (ruleTag "schema" (collectedAttributes as)).writtenAttributes id := by
  unfold embeddedAttributes collectedAttributes
  cases (as.flatMap fun a => rulesNamed "schema" a.content).head? with
  | none => rfl
  | some e =>
    refine List.map_congr_left fun a ha => ?_
    have huri : a.name.uri = none := by simpa using (List.mem_filter.1 ha).2
    rw [Tag.attributeName, Tag.attributeLabel, huri]
    rfl

theorem embeddedSchema_eq (grammar : Node) : embeddedSchema grammar =
    copyOf (ruleTag "schema" (collectedAttributes (annotations none grammar))) none id
      ((annotations none grammar).flatMap fun a => embeddedNodes a.context a.content) := by
  rw [embeddedSchema, embeddedAttributes_eq]
  rfl

/-- A declaration at a position with what is put around it. -/
def Lodges (root : Node) (x : Position × Position) (m : Node) : Prop :=
  ∃ n, root.at? x.2 = some n ∧ m = lodging (nearestName? root x.2) n

/-- **The content of the schema** is written for what is collected. -/
theorem exists_lodges {root : Node} {s : Tag} {ps : List Position} {as : List Annotation}
    (h : List.Forall₂ (Annotates none root) ps as) : ∃ ms,
      List.Forall₂ (Lodges root) (ps.flatMap fun a => (collectedIn root a).map fun q => (a, a ++ q))
        ms ∧ Writes (some s) ms (as.flatMap fun a => embeddedNodes a.context a.content) := by
  induction h with
  | nil => exact ⟨[], .nil, .nil⟩
  | @cons a an ps as han _ ih =>
    obtain ⟨more, hmore, hwritesMore⟩ := ih
    obtain ⟨m, hm, happinfo, hcontent⟩ := han.node
    have hcontext : an.context = nearestName? root a := han.context.trans (Option.or_none ..)
    have hembeds : Embeds (nearestName? root a) s _ _ _ := embeds_embeddedNodes s m.children 0
    obtain ⟨ms, hms, hwrites⟩ := hembeds
    refine ⟨ms.map (lodging (nearestName? root a)) ++ more, ?_, ?_⟩
    · rw [List.flatMap_cons]
      refine List.rel_append ?_ hmore
      rw [collectedIn, hm, Option.elim_some, List.forall₂_map_left_iff, List.forall₂_map_right_iff]
      refine ((List.forall₂_and_left _ _).2 ⟨fun q hq => hq, hms⟩).imp ?_
      rintro q n ⟨hq, hn⟩
      have hn : m.at? q = some n := StandsAt.of_below hn
      refine ⟨n, ?_, ?_⟩
      · rw [Node.at?_append, hm]
        exact hn
      · rw [nearestName?_append hm happinfo (Node.mem_foundFrom_children.1 hq).2.2]
    · rw [List.flatMap_cons, hcontext, ← hcontent]
      exact hwrites.append hwritesMore

/-! ## What is read -/

/-- What is declared around a declaration in the schema that is collected. -/
structure Surrounds (inherited : List Declaration) : Prop where
  rules : BindsRules inherited
  default : bound? inherited none = none

/-- A declaration and what its copy in the schema is read as. -/
def Copied (n m : Node) : Prop :=
  ∃ inherited localName attributes, Surrounds inherited ∧ (ruleTag localName attributes).Proper ∧
    Reread inherited (some (ruleTag localName attributes)) n m

/-- **How a declaration is lodged** in the schema that is collected: by itself, or in a pattern of
its own if it is a loose rule, or in a pattern and a rule of its own if it is a loose check. The
rule is for the element that the check is about. -/
inductive Lodged (P : Node → Node → Prop) (context : Option String) (n : Node) : Node → Prop
  | itself {m : Node} : n.isRule "rule" = false → isCheck n = false → P n m → Lodged P context n m
  | rule {o : Tag} {m : Node} : n.isRule "rule" = true → o.isRule "pattern" = true →
      o.attributes = [] → P n m → Lodged P context n (.element o [m])
  | check {o r : Tag} {m : Node} {c : String} : isCheck n = true → context = some c →
      o.isRule "pattern" = true → o.attributes = [] → r.isRule "rule" = true →
      r.attributes = [⟨⟨none, "context"⟩, valueBack c⟩] → P n m →
      Lodged P context n (.element o [.element r [m]])

theorem Lodged.imp {P Q : Node → Node → Prop} {context : Option String} {n m : Node}
    (h : Lodged P context n m) (himp : ∀ m, P n m → Q n m) : Lodged Q context n m := by
  cases h with
  | itself hrule hcheck h => exact .itself hrule hcheck (himp _ h)
  | rule hrule hpattern hnil h => exact .rule hrule hpattern hnil (himp _ h)
  | check hcheck hcontext hpattern hnil hrule hattributes h =>
    exact .check hcheck hcontext hpattern hnil hrule hattributes (himp _ h)

section Reading

variable {localName : String} {attributes : List Attribute} {inherited : List Declaration}
  {scope : Option Tag} {start : ℕ} {name : RawName} {o : Tag}

/-- Attributes of no namespace that can be written. -/
def PlainAttributes (attributes : List Attribute) : Prop :=
  ∀ a ∈ attributes, a.name.uri = none ∧ IsName a.name.localName ∧ a.name.localName ≠ "xmlns"

theorem proper_ruleTag (hname : IsName localName) (hattributes : PlainAttributes attributes) :
    (ruleTag localName attributes).Proper where
  localName := hname
  attributes a ha := (hattributes a ha).2
  labels a ha uri huri := by
    rw [(hattributes a ha).1] at huri
    cases huri
  scope := by
    refine ⟨fun d hd l hl => ?_, fun d hd => ?_, List.pairwise_singleton _ _⟩
    · rw [List.mem_singleton.1 hd] at hl
      obtain rfl := Option.some.inj hl
      decide +kernel
    · rw [List.mem_singleton.1 hd]
      decide

theorem regular_ruleTag : (ruleTag localName attributes).Regular where
  xmlns := rfl
  default _ hd _ he _ _ := (List.mem_singleton.1 hd).trans (List.mem_singleton.1 he).symm

/-- **What is put around declarations is read** as what it was written for. -/
theorem read_ruleTag (hname : IsName localName) (hattributes : PlainAttributes attributes)
    (h : tagBack inherited start (copiedName (ruleTag localName attributes))
      (copiedAttributes (ruleTag localName attributes) scope id) = some (name, o))
    (hrules : scope = none ∨ BindsRules inherited) (hdefault : bound? inherited none = none) :
    o.isRule localName = true ∧ List.Forall₂ (AttributeOf id) attributes o.attributes ∧
      Surrounds o.scope := by
  have ht := proper_ruleTag hname hattributes
  have hrule : (ruleTag localName attributes).ruleName?.isSome := by
    rw [ruleName?_ruleTag]
    rfl
  have hbinds := bindsRules_of_rule ht regular_ruleTag h hrule hrules
  -- no default namespace is declared, so the one around it stays, which is none
  refine ⟨?_, forall₂_attributeOf ht rfl h, hbinds,
    (bound?_none_of_tagBack ht regular_ruleTag h rfl).trans hdefault⟩
  rw [Tag.isRule, ruleName?_of_bindsRules ht hrule h hbinds, ruleName?_ruleTag, beq_self_eq_true]

theorem attributes_eq_singleton {v : String} {os : List Attribute}
    (h : List.Forall₂ (AttributeOf id) [⟨⟨none, localName⟩, v⟩] os) :
    os = [⟨⟨none, localName⟩, valueBack v⟩] := by
  obtain ⟨b, os, hb, hnil, rfl⟩ := List.forall₂_cons_left_iff.1 h
  obtain rfl := List.forall₂_nil_left_iff.1 hnil
  obtain ⟨name, value⟩ := b
  have hname : name = ⟨none, localName⟩ := eq_mk_iff.2 ⟨hb.uri.2 rfl, hb.localName⟩
  have hvalue : value = valueBack v := hb.value
  rw [hname, hvalue]

/-- What is put around one node is read as an element with one node in it. -/
theorem exists_of_reread_ruleTag {outer : List Attribute} {outerName : String} {n m : Node}
    (hn : n.isElement = true) (hname : IsName localName) (hattributes : PlainAttributes attributes)
    (hsurrounds : Surrounds inherited)
    (h : Reread inherited (some (ruleTag outerName outer))
      (.element (ruleTag localName attributes) [n]) m) :
    ∃ o m', m = .element o [m'] ∧ o.isRule localName = true ∧
      List.Forall₂ (AttributeOf id) attributes o.attributes ∧ Surrounds o.scope ∧
        Reread o.scope (some (ruleTag localName attributes)) n m' := by
  cases h with
  | element hscope htag hos =>
    obtain ⟨hrule, hread, hinside⟩ :=
      read_ruleTag hname hattributes htag (.inr hsurrounds.rules) hsurrounds.default
    rw [Node.contents_eq_self (List.forall_mem_singleton.2 hn)] at hos
    cases hos with
    | cons hm hnil =>
      cases hnil
      exact ⟨_, _, rfl, hrule, hread, hinside, hm⟩

/-- **A declaration is lodged** in what is put around it. -/
theorem lodged_of_reread {context : Option String} {n m : Node}
    (hn : isCollected context n = true) (houter : (ruleTag localName attributes).Proper)
    (hsurrounds : Surrounds inherited)
    (h : Reread inherited (some (ruleTag localName attributes)) (lodging context n) m) :
    Lodged Copied context n m := by
  rw [isCollected, Bool.and_eq_true, Bool.or_eq_true, Bool.not_eq_true'] at hn
  obtain ⟨hdeclaration, hcontext⟩ := hn
  have helement : n.isElement = true := by
    cases n with
    | element => rfl
    | root | text | comment | instruction => cases hdeclaration
  have hpattern : IsName "pattern" := by decide +kernel
  have hruleName : IsName "rule" := by decide +kernel
  have hnil : PlainAttributes [] := List.forall_mem_nil _
  unfold lodging at h
  split at h
  · case isTrue hrule =>
    obtain ⟨o, m', rfl, ho, hread, hinside, hm⟩ :=
      exists_of_reread_ruleTag helement hpattern hnil hsurrounds h
    exact .rule hrule ho (List.forall₂_nil_left_iff.1 hread)
      ⟨_, _, _, hinside, proper_ruleTag hpattern hnil, hm⟩
  · case isFalse hrule =>
    split at h
    · case isTrue hcheck =>
      obtain ⟨c, rfl⟩ := Option.isSome_iff_exists.1 (hcontext.resolve_right (by simp [hcheck]))
      obtain ⟨o, m', rfl, ho, hread, hinside, hm⟩ :=
        exists_of_reread_ruleTag rfl hpattern hnil hsurrounds h
      have hplain : PlainAttributes [⟨⟨none, "context"⟩, c⟩] := by
        refine List.forall_mem_singleton.2 ⟨rfl, ?_⟩
        exact show IsName "context" ∧ "context" ≠ "xmlns" by decide +kernel
      obtain ⟨r, m', rfl, hr, hreadContext, hinside, hm⟩ :=
        exists_of_reread_ruleTag helement hruleName hplain hinside hm
      exact .check hcheck rfl ho (List.forall₂_nil_left_iff.1 hread) hr
        (attributes_eq_singleton hreadContext)
        ⟨_, _, _, hinside, proper_ruleTag hruleName hplain, hm⟩
    · case isFalse hcheck =>
      exact .itself (Bool.eq_false_iff.2 hrule) (Bool.eq_false_iff.2 hcheck)
        ⟨_, _, _, hsurrounds, houter, h⟩

end Reading

/-! ## What is kept of a declaration -/

/-- **An element is like another**: it has the local name of the other, and its attributes come back
in order under their local names and with their values. -/
structure Alike (t o : Tag) : Prop where
  localName : o.name.localName = t.name.localName
  attributes : List.Forall₂ (AttributeOf id) t.attributes o.attributes

/-- **A declaration is retrieved**: it is the same key or the same element of the rule language, all
in it is alike, and keeps its namespaces if the label `sch` is set apart in it. -/
structure Retrieved (n m : Node) : Prop where
  rule : ∀ localName, m.isRule localName = n.isRule localName
  key : m.isKey = n.isKey
  alike : CarriedWith Alike n m
  kept : SetApart n → CarriedWith Kept n m

mutual

theorem alike_of_reread : ∀ {inherited : List Declaration} {outer : Option Tag} {n m : Node},
    Reread inherited outer n m → (∀ t ∈ n.tags, Writable t) → CarriedWith Alike n m
  | _, _, _, _, .text, _ => .text _
  | _, _, _, _, @Reread.element _ _ _ _ _ _ _ cs _ _ htag hos, hn => by
    rw [Node.tags_element, List.forall_mem_cons] at hn
    have hname := name_of_tagBack hn.1.1 htag
    refine .element ⟨by rw [hname], forall₂_attributeOf hn.1.1 hn.1.2 htag⟩ ?_
    exact allAlike_of_reread hos fun t ht => hn.2 t (Node.tagsOf_contents cs ht)

/-- **All that is read is alike** what it was copied from. -/
theorem allAlike_of_reread : ∀ {inherited : List Declaration} {outer : Option Tag}
    {ns ms : List Node}, AllReread inherited outer ns ms → (∀ t ∈ Node.tagsOf ns, Writable t) →
      List.Forall₂ (CarriedWith Alike) ns ms
  | _, _, _, _, .nil, _ => .nil
  | _, _, _, _, .cons hn hns, h => by
    rw [Node.tagsOf_cons, List.forall_mem_append] at h
    exact .cons (alike_of_reread hn h.1) (allAlike_of_reread hns h.2)

end

section Retrieved

variable {t o : Tag} {scope : Option Tag} {inherited : List Declaration} {start : ℕ}
  {name : RawName} {localName : String} {attributes : List Attribute} {n m : Node}

theorem ruleName?_of_isKey (h : t.isKey = true) : t.ruleName? = none := by
  rw [Tag.ruleName?, beq_iff_eq.1 h]
  rfl

/-- **A key stays a key**, by whatever label it is called. -/
theorem isKey_of_tagBack (ht : t.Resolved) (hregular : t.Regular) (hkey : t.isKey = true)
    (hscope : scope = none ∨ scope = some (ruleTag localName attributes))
    (h : tagBack inherited start (copiedName t) (copiedAttributes t scope id) = some (name, o)) :
    o.isKey = true := by
  have hother := ruleName?_of_isKey hkey
  have hname : t.name = ⟨some keyUri, "key"⟩ := beq_iff_eq.1 hkey
  have huri : t.name.uri = some keyUri := by rw [hname]
  have hlookup := lookup?_of_tagBack ht.toProper hregular.xmlns
    (fun d hd e he hdl hel => hregular.unique ht.toProper hd he (hdl.trans hel.symm)) h
    (.inl hother) (lookup?_copiedLabel? ht hregular hother huri) fun s hs d hd _ hu => by
      -- what is put around declarations declares nothing but the rule language
      obtain rfl | rfl := hscope
      · cases hs
      · obtain rfl := Option.some.inj hs
        rw [List.mem_singleton.1 hd] at hu
        exact absurd hu (by decide)
  rw [Tag.isKey, beq_iff_eq, name_of_tagBack ht.toProper h, hlookup, hname,
    show valueBack keyUri = keyUri from valueBack_eq_self (by decide)]

/-- Nothing stands in the way of a declaration in the schema that is collected. -/
theorem suits_of_surrounds (h : Surrounds inherited) (ts : List Tag) :
    Suits inherited (some (ruleTag localName attributes)) ts := by
  refine ⟨fun s hs d hd hlabel => ?_, .inl h.rules, .inl h.default⟩
  obtain rfl := Option.some.inj hs
  rw [List.mem_singleton.1 hd] at hlabel
  exact absurd rfl hlabel

/-- **What is copied into the schema is retrieved.** -/
theorem retrieved_of_copied (hdeclaration : isDeclaration n = true)
    (hresolved : ∀ t ∈ n.tags, t.Resolved) (hregular : ∀ t ∈ n.tags, t.Regular)
    (hdefaults : OwnDefaults n) (h : Copied n m) : Retrieved n m := by
  obtain ⟨inherited, localName, attributes, hsurrounds, -, h⟩ := h
  have hkept (hapart : SetApart n) : CarriedWith Kept n m :=
    carried_of_reread h ⟨hresolved, hregular, hapart, hdefaults⟩ (suits_of_surrounds hsurrounds _)
  have halike := alike_of_reread h fun t ht => ⟨(hresolved t ht).toProper, (hregular t ht).xmlns⟩
  suffices hkind : (∀ localName, m.isRule localName = n.isRule localName) ∧ m.isKey = n.isKey from
    ⟨hkind.1, hkind.2, halike, hkept⟩
  cases h with
  | text => cases hdeclaration
  | @element _ _ scope t o _ _ cs _ hscope htag _ =>
    have hmem := Node.mem_tags (Node.mem_subtree_self (.element t cs))
    have ht := hresolved t hmem
    cases hrule : t.ruleName? with
    | some name =>
      have hisSome : t.ruleName?.isSome := by rw [hrule]; rfl
      have hbinds := bindsRules_of_rule ht.toProper (hregular t hmem) htag hisSome
        (.inr hsurrounds.rules)
      have ho := ruleName?_of_bindsRules ht.toProper hisSome htag hbinds
      have hnotKey {s : Tag} (hs : s.ruleName? = t.ruleName?) : s.isKey = false := by
        refine Bool.eq_false_iff.2 fun hkey => ?_
        rw [ruleName?_of_isKey hkey, hrule] at hs
        cases hs
      refine ⟨fun localName => ?_, (hnotKey ho).trans (hnotKey rfl).symm⟩
      rw [isRule_element, isRule_element, Tag.isRule, Tag.isRule, ho]
    | none =>
      have hkey : t.isKey = true := by
        simpa [isDeclaration, Node.isKey, Node.tag?, hrule] using hdeclaration
      have ho := isKey_of_tagBack ht (hregular t hmem) hkey hscope htag
      refine ⟨fun localName => ?_, ho.trans hkey.symm⟩
      rw [isRule_element, isRule_element, Tag.isRule, Tag.isRule, hrule, ruleName?_of_isKey ho]

end Retrieved

/-! ## Whole grammars -/

theorem forall_tags_lodging {P : Tag → Prop} {context : Option String} {n : Node}
    (hn : ∀ t ∈ n.tags, P t) (hpattern : P (ruleTag "pattern" []))
    (hrule : ∀ attributes, PlainAttributes attributes → P (ruleTag "rule" attributes)) :
    ∀ t ∈ (lodging context n).tags, P t := by
  unfold lodging
  split
  · rw [Node.tags_element, Node.tagsOf_cons, Node.tagsOf_nil, List.append_nil]
    exact List.forall_mem_cons.2 ⟨hpattern, hn⟩
  · split
    · rw [Node.tags_element, Node.tagsOf_cons, Node.tagsOf_nil, List.append_nil, Node.tags_element,
        Node.tagsOf_cons, Node.tagsOf_nil, List.append_nil]
      refine List.forall_mem_cons.2 ⟨hpattern, List.forall_mem_cons.2 ⟨hrule _ ?_, hn⟩⟩
      refine List.forall_mem_map.2 fun c _ => ⟨rfl, ?_⟩
      exact show IsName "context" ∧ "context" ≠ "xmlns" by decide +kernel
    · exact hn

theorem isElement_lodging {context : Option String} {n : Node} (h : isDeclaration n = true) :
    (lodging context n).isElement = true := by
  unfold lodging
  split
  · rfl
  · split
    · rfl
    · cases n with
      | element => rfl
      | root | text | comment | instruction => cases h

section Grammars

variable {d d' : Document}

/-- What a schema in an annotation has for attributes can be written. -/
theorem plainAttributes_collectedAttributes {root : Node} (hroot : ∀ t ∈ root.tags, t.Proper) :
    PlainAttributes (collectedAttributes (annotations none root)) := by
  unfold collectedAttributes
  cases hhead : ((annotations none root).flatMap fun a => rulesNamed "schema" a.content).head? with
  | none => exact List.forall_mem_nil _
  | some e =>
    obtain ⟨an, han, he⟩ := List.mem_flatMap.1 (List.mem_of_head? hhead)
    obtain ⟨a, -, hannotates⟩ := exists_of_mem_forall₂ (forall₂_annotations root none) han
    obtain ⟨m, hm, -, hcontent⟩ := hannotates.node
    have hmem : .element e.1 e.2 ∈ m.children := hcontent ▸ mem_rulesNamed he
    have ht := hroot e.1 (Node.mem_tags (Node.children_subset (Node.mem_subtree_of_at? hm) hmem))
    intro b hb
    obtain ⟨hb, huri⟩ := List.mem_filter.1 hb
    exact ⟨by simpa using huri, ht.attributes b hb⟩

/-- What is put around something that is collected. -/
theorem Lodges.exists_node {root m : Node} {x : Position × Position} (h : Lodges root x m)
    (hx : x ∈ collected root) : ∃ n, root.at? x.2 = some n ∧ isDeclaration n = true ∧
      isCollected (nearestName? root x.2) n = true ∧ m = lodging (nearestName? root x.2) n := by
  obtain ⟨hdeclares, howner⟩ := mem_collected.1 hx
  obtain ⟨n, hn, rfl⟩ := h
  obtain ⟨n', hn', hdeclaration⟩ := hdeclares.declaration
  obtain rfl := Option.some.inj (hn.symm.trans hn')
  refine ⟨n, hn, hdeclaration, ?_, rfl⟩
  rw [isCollected, hdeclaration, Bool.true_and, Bool.or_eq_true, Bool.not_eq_true']
  refine or_iff_not_imp_left.2 fun hnone => Bool.eq_false_iff.2 fun hcheck => ?_
  exact howner ⟨⟨n, hn, hcheck⟩, by simpa using hnone⟩

/-- It is an element, and can be written. -/
theorem Lodges.writable {m : Node} {x : Position × Position}
    (hxmlns : ∀ t ∈ d.root.tags, t.lookup? (some "xmlns") = none) (h : Lodges d.root x m)
    (hx : x ∈ collected d.root) : m.isElement = true ∧ ∀ t ∈ m.tags, Writable t := by
  obtain ⟨n, hn, hdeclaration, -, rfl⟩ := h.exists_node hx
  refine ⟨isElement_lodging hdeclaration, forall_tags_lodging (fun t ht => ?_) ⟨?_, rfl⟩ ?_⟩
  · have ht : t ∈ d.root.tags :=
      List.filterMap_subset _ (Node.subtree_subset (Node.mem_subtree_of_at? hn)) ht
    exact ⟨Node.proper_ofText d.wellFormed t ht, hxmlns t ht⟩
  · exact proper_ruleTag (by decide +kernel) (List.forall_mem_nil _)
  · exact fun attributes hattributes => ⟨proper_ruleTag (by decide +kernel) hattributes, rfl⟩

/-- **What is collected is lodged** in one schema, in order and with nothing else. -/
theorem forall₂_lodged_of_extract (hxmlns : ∀ t ∈ d.root.tags, t.lookup? (some "xmlns") = none)
    (h : extract d = .ok d') : ∃ o os, d'.root = .root [.element o os] ∧
      o.isRule "schema" = true ∧ List.Forall₂ (fun x m => ∃ n, d.root.at? x.2 = some n ∧
        isDeclaration n = true ∧ Lodged Copied (nearestName? d.root x.2) n m)
          (collected d.root) os := by
  have hplain := plainAttributes_collectedAttributes (Node.proper_ofText d.wellFormed)
  have hschema : IsName "schema" := by decide +kernel
  obtain ⟨ms, hms, hwrites⟩ := exists_lodges (forall₂_annotations d.root none)
  have hlodges := (List.forall₂_and_left _ _).2 ⟨fun x hx => hx, hms⟩
  have hwritable {m : Node} (hm : m ∈ ms) : m.isElement = true ∧ ∀ t ∈ m.tags, Writable t := by
    obtain ⟨x, -, hx, hm⟩ := exists_of_mem_forall₂ hlodges hm
    exact hm.writable hxmlns hx
  unfold extract at h
  rw [embeddedSchema_eq] at h
  obtain ⟨o, os, hroot, hread⟩ := reread_of_written hwrites
    (List.forall_mem_cons.2 ⟨⟨proper_ruleTag hschema hplain, rfl⟩,
      Node.forall_mem_tagsOf.2 fun m hm => (hwritable hm).2⟩) h
  cases hread with
  | @element _ _ scope _ _ _ _ _ _ hscope htag hos =>
    obtain rfl : scope = none := hscope.elim id id
    obtain ⟨hrule, -, hsurrounds⟩ := read_ruleTag hschema hplain htag (.inl rfl) rfl
    rw [Node.contents_eq_self fun m hm => (hwritable hm).1] at hos
    refine ⟨o, os, hroot, hrule, forall₂_comp ?_ hlodges hos.forall₂⟩
    rintro x m m' ⟨hx, hm⟩ hread
    obtain ⟨n, hn, hdeclaration, hcollected, rfl⟩ := hm.exists_node hx
    exact ⟨n, hn, hdeclaration,
      lodged_of_reread hcollected (proper_ruleTag hschema hplain) hsurrounds hread⟩

/-- **What is collected from a grammar.** Whatever is written is one rule schema, and its content is
one by one what annotations lead to, but for checks of no element; it comes in the order of the
annotations and then of the document. Each declaration is lodged by itself, or in a pattern or a
pattern and a rule of its own, where the context of the rule is the name of the element as it is
read, and it is what it was. If no annotation stands in a declaration, then none of the declarations
stands in another, so that each is written once. -/
theorem extract_settles (hregular : ∀ t ∈ d.root.tags, t.Regular) (h : extract d = .ok d') :
    ∃ o os placed, d'.root = .root [.element o os] ∧ o.isRule "schema" = true ∧
      (∀ a p, (a, p) ∈ placed ↔ Declares d.root a p ∧ ¬Ownerless d.root p) ∧
      (placed.Pairwise fun x y => x.1 < y.1 ∨ x.1 = y.1 ∧ x.2 < y.2) ∧
      (AnnotationsApart d.root → placed.Pairwise fun x y => ¬x.2 <+: y.2 ∧ ¬y.2 <+: x.2) ∧
      List.Forall₂ (fun x m => ∃ n, d.root.at? x.2 = some n ∧
        Lodged Retrieved (nearestName? d.root x.2) n m) placed os := by
  obtain ⟨o, os, hroot, hschema, hlodged⟩ :=
    forall₂_lodged_of_extract (fun t ht => (hregular t ht).xmlns) h
  refine ⟨o, os, collected d.root, hroot, hschema, fun a p => mem_collected,
    pairwise_collected d.root, fun hapart => ?_, hlodged.imp ?_⟩
  · refine (pairwise_collected d.root).imp_of_mem fun {x y} hx hy hlt => ?_
    have hx := (mem_collected.1 hx).1
    have hy := (mem_collected.1 hy).1
    have hne : x ≠ y := by
      rintro rfl
      obtain hlt | ⟨-, hlt⟩ := hlt <;> exact lt_irrefl _ hlt
    exact ⟨fun hbefore => hne (hx.eq_of_prefix hapart hy hbefore),
      fun hbefore => hne (hy.eq_of_prefix hapart hx hbefore).symm⟩
  · rintro x m ⟨n, hn, hdeclaration, hm⟩
    have hmem := Node.mem_subtree_of_at? hn
    have htags : n.tags ⊆ d.root.tags := List.filterMap_subset _ (Node.subtree_subset hmem)
    obtain ⟨around, hinherits⟩ :=
      inherits_of_mem_subtree (Node.inherits_ofText d.wellFormed) hmem
    exact ⟨n, hn, hm.imp fun m hcopied => retrieved_of_copied hdeclaration hinherits.resolved
      (fun t ht => hregular t (htags ht)) (ownDefaults_of_inherits hinherits) hcopied⟩

end Grammars

/-- A grammar with a loose check of an element. -/
def grammarOfCheck : Document :=
  documentOf ("<x:element xmlns:x=\"http://www.w3.org/2001/XMLSchema\" name=\"e\"><x:appinfo>" ++
    "<assert xmlns=\"http://purl.oclc.org/dsdl/schematron\"/></x:appinfo></x:element>")
    (by decide +kernel)

theorem extract_settles_grammarOfCheck : ∃ d' o os placed, extract grammarOfCheck = .ok d' ∧
    (∀ t ∈ grammarOfCheck.root.tags, t.Regular) ∧ AnnotationsApart grammarOfCheck.root ∧
    d'.root = .root [.element o os] ∧ os.length = 1 ∧ o.isRule "schema" = true ∧
    (∀ a p, (a, p) ∈ placed ↔
      Declares grammarOfCheck.root a p ∧ ¬Ownerless grammarOfCheck.root p) ∧
    (placed.Pairwise fun x y => ¬x.2 <+: y.2 ∧ ¬y.2 <+: x.2) ∧
    List.Forall₂ (fun x m => ∃ n, grammarOfCheck.root.at? x.2 = some n ∧
      Lodged Retrieved (nearestName? grammarOfCheck.root x.2) n m) placed os := by
  have hchecks : ((extract grammarOfCheck).toOption.any fun (d' : Document) =>
      decide ((∀ t ∈ grammarOfCheck.root.tags, t.Regular) ∧
        AnnotationsApart grammarOfCheck.root ∧ d'.rootElement.2.length = 1)) = true := by
    decide +kernel
  obtain ⟨d', hextract, hchecks⟩ := exists_of_any_toOption hchecks
  obtain ⟨hregular, hapart, hlength⟩ := of_decide_eq_true hchecks
  obtain ⟨o, os, placed, hroot, hschema, hplaced, -, hdistinct, hlodged⟩ :=
    extract_settles hregular hextract
  rw [Document.rootElement_eq hroot] at hlength
  exact ⟨d', o, os, placed, hextract, hregular, hapart, hroot, hlength, hschema, hplaced,
    hdistinct hapart, hlodged⟩

/-- A grammar with a check of an element whose name holds a tab. -/
def grammarOfTab : Document :=
  documentOf ("<x:element xmlns:x=\"http://www.w3.org/2001/XMLSchema\" name=\"a&#9;b\">" ++
    "<x:appinfo><assert xmlns=\"http://purl.oclc.org/dsdl/schematron\"/></x:appinfo>" ++
    "</x:element>") (by decide +kernel)

/-- **The name of an element can be lost** when a check of it is collected. -/
theorem not_extract_settles : ∃ d' a p, extract grammarOfTab = .ok d' ∧
    Declares grammarOfTab.root a p ∧ nearestName? grammarOfTab.root p = some "a\tb" ∧
      ∀ o ∈ d'.root.tags, o.plain? "context" ≠ some "a\tb" := by
  have hchecks : ((extract grammarOfTab).toOption.any fun (d' : Document) =>
      decide (∃ x ∈ collected grammarOfTab.root, nearestName? grammarOfTab.root x.2 = some "a\tb" ∧
        ∀ o ∈ d'.root.tags, o.plain? "context" ≠ some "a\tb")) = true := by
    decide +kernel
  obtain ⟨d', hextract, hchecks⟩ := exists_of_any_toOption hchecks
  obtain ⟨⟨a, p⟩, hx, hname, hlost⟩ := of_decide_eq_true hchecks
  exact ⟨d', a, p, hextract, (mem_collected.1 hx).1, hname, hlost⟩

end XmlConformance.Rules
