import Mathlib.Logic.Relation
import XmlConformance.Proofs.Schema.Checking
import XmlConformance.Proofs.Schema.Children

/-!
# Proofs/Schema/Descending — the elements that the check of a document comes to

From an element the check goes down to its children (`Grammar.Descends`): to those that the leaves
of its content model admit, and to all of them where any content is admitted. An element is accepted
if and only if it passes itself (`Grammar.Passes`) and all that the check goes down to are accepted
(`Grammar.checkUnder_eq_ok_iff`), so a document is accepted if and only if each element that the
check comes to passes (`Grammar.validate_eq_ok_iff_passes`).

So what is asked of elements with a simple type holds at every depth. They have no attributes but
those for instances, unless they say that they are nil: then attributes are not looked at.
-/

namespace XmlConformance.Schema

open Xml

/-- Whether a type is simple, be it by name or as it is defined. -/
def Governing.isSimple : Governing → Bool
  | .simple _ | .inline _ => true
  | .any | .complex _ => false

namespace Grammar

variable {g : Grammar} {decl : ElementDecl} {t : Tag} {cs : List Node} {type : Governing}

/-! ## One element -/

theorem governing_eq_ok_iff : g.governing t decl = .ok type ↔ g.Governs t decl type := by
  refine ⟨governing_eq_ok, fun h => ?_⟩
  cases h with
  | named hvalue hname htype =>
    rw [governing, instanceType, hvalue]
    simp only [hname, Option.bind_some, htype]
    rfl
  | declared hvalue htype =>
    rw [governing, instanceType, hvalue]
    exact htype

theorem checkNil_eq_ok_iff {isNil : Bool} :
    checkNil decl t cs = .ok isNil ↔ ValidNil decl (t, cs) ∧ (isNil = true ↔ IsNilled t) := by
  have hdecides := decides_checkNil decl t cs
  cases hcheck : checkNil decl t cs with
  | ok isNil' =>
    rw [hcheck] at hdecides
    have hisNil := checkNil_eq_ok hcheck
    rw [Except.ok.injEq, and_iff_right (show ValidNil decl (t, cs) from hdecides), ← hisNil]
    cases isNil <;> cases isNil' <;> decide
  | error violation =>
    refine iff_of_false (fun h => by cases h) fun h => ?_
    cases violation with
    | invalid _ _ =>
      rw [hcheck] at hdecides
      exact hdecides h.1
    | unusable _ =>
      rw [checkNil] at hcheck
      repeat' split at hcheck
      all_goals cases hcheck

/-- The check of an element that is not nil, given the type that governs it. -/
def checkFilled (g : Grammar) (decl : ElementDecl) (type : Governing) (t : Tag) (cs : List Node)
    (children : List (Option Leaf) → Except Violation Unit)
    (freely : Unit → Except Violation Unit) :
    Except Violation Unit :=
  match type with
  | .any => freely ()
  | .simple ref => checkSimpleElement decl t cs (g.check (some ref))
  | .inline s => checkSimpleElement decl t cs (g.checkInline s)
  | .complex c => g.checkAttributes c t >>= fun _ => g.checkContentOf c decl t cs children

/-- **An element is accepted** by its declaration if it is by the type that governs it; if it is
nil, the type only looks at its attributes, and only if it is complex. -/
theorem checkElementWith_eq_ok_iff {children : List (Option Leaf) → Except Violation Unit}
    {freely : Unit → Except Violation Unit} :
    g.checkElementWith decl t cs children freely = .ok () ↔
      decl.isAbstract = false ∧ ValidNil decl (t, cs) ∧ ∃ type, g.Governs t decl type ∧
        (IsNilled t → ∀ c, type = .complex c → g.checkAttributes c t = .ok ()) ∧
        (¬ IsNilled t → g.checkFilled decl type t cs children freely = .ok ()) := by
  rw [checkElementWith]
  split
  case isTrue habstract =>
    exact iff_of_false (fun h => by cases h) fun h => Bool.noConfusion (h.1.symm.trans habstract)
  case isFalse habstract =>
    rw [and_iff_right (Bool.eq_false_iff.2 habstract)]
    constructor
    · intro h
      obtain ⟨type, htype, h⟩ := bind_eq_ok.1 h
      obtain ⟨isNil, hnil, h⟩ := bind_eq_ok.1 h
      obtain ⟨hvalid, hisNil⟩ := checkNil_eq_ok_iff.1 hnil
      refine ⟨hvalid, type, governing_eq_ok htype, fun hnilled c hc => ?_, fun hfilled => ?_⟩
      · rw [hisNil.2 hnilled, if_pos rfl, hc] at h
        exact h
      · rw [if_neg (mt hisNil.1 hfilled)] at h
        cases type <;> exact h
    · rintro ⟨hvalid, type, htype, hnilled, hfilled⟩
      refine bind_eq_ok.2 ⟨type, governing_eq_ok_iff.2 htype, ?_⟩
      by_cases hnil : IsNilled t
      · refine bind_eq_ok.2 ⟨true, checkNil_eq_ok_iff.2 ⟨hvalid, iff_of_true rfl hnil⟩, ?_⟩
        cases type with
        | complex c => exact hnilled hnil c rfl
        | any | simple | inline => rfl
      · refine bind_eq_ok.2 ⟨false, checkNil_eq_ok_iff.2 ⟨hvalid, iff_of_false
          Bool.false_ne_true hnil⟩, ?_⟩
        have hfilled := hfilled hnil
        cases type <;> exact hfilled

/-! ## The children of an element -/

/-- The leaf that admits any element, and leaves those alone that are not declared. -/
def anything : Leaf := .wildcard ⟨.any, .lax⟩

/-- **The declaration that an element has under a leaf**: the one that the leaf holds, or the one
with its name. -/
inductive Declared (g : Grammar) : Leaf → Element → ElementDecl → Prop
  | element {decl : ElementDecl} {e : Element} : Declared g (.element decl) e decl
  | wildcard {w : Wildcard} {e : Element} {decl : ElementDecl} (hskip : w.processing ≠ .skip)
      (hfind : g.elements.find? e.1.name = some decl) : Declared g (.wildcard w) e decl

/-- **The check goes down** from an element under a leaf to a child under a leaf. -/
inductive Descends (g : Grammar) : Leaf × Element → Leaf × Element → Prop
  /-- To a child that a leaf of the content model admits. -/
  | content {l l' : Leaf} {e e' : Element} {decl : ElementDecl} {c : ComplexType} {model : Particle}
      {found : List (Option Leaf)} (hdecl : g.Declared l e decl)
      (htype : g.Governs e.1 decl (.complex c)) (hfilled : ¬ IsNilled e.1)
      (hcontent : c.content = .elements model) (hfound : g.bind model e.1 e.2 = .ok found)
      (hchild : (some l', e') ∈ found.zip (childElements e.2)) : Descends g (l, e) (l', e')
  /-- To any child, where the type admits any content. -/
  | any {l : Leaf} {e e' : Element} {decl : ElementDecl} (hdecl : g.Declared l e decl)
      (htype : g.Governs e.1 decl .any) (hfilled : ¬ IsNilled e.1)
      (hchild : e' ∈ childElements e.2) : Descends g (l, e) (anything, e')
  /-- To any child, where the element is not declared. -/
  | undeclared {w : Wildcard} {e e' : Element} (hlax : w.processing = .lax)
      (hfind : g.elements.find? e.1.name = none) (hchild : e' ∈ childElements e.2) :
      Descends g (.wildcard w, e) (anything, e')

/-- **An element passes under a leaf**, whatever there is to say about its children: it is accepted
by its declaration, or need not have one. -/
inductive Passes (g : Grammar) : Leaf → Element → Prop
  | declared {l : Leaf} {e : Element} {decl : ElementDecl} (hdecl : g.Declared l e decl)
      (hcheck : g.checkElementWith decl e.1 e.2 (fun _ => .ok ()) (fun _ => .ok ()) = .ok ()) :
      Passes g l e
  | skipped {w : Wildcard} {e : Element} (hskip : w.processing = .skip) : Passes g (.wildcard w) e
  | undeclared {w : Wildcard} {e : Element} (hlax : w.processing = .lax)
      (hfind : g.elements.find? e.1.name = none) : Passes g (.wildcard w) e

variable {l : Leaf} {e e' : Element} {w : Wildcard}

theorem Declared.unique {decl' : ElementDecl} (h : g.Declared l e decl)
    (h' : g.Declared l e decl') : decl = decl' := by
  cases h with
  | element =>
    cases h'
    rfl
  | wildcard _ hfind =>
    cases h' with
    | wildcard _ hfind' => exact Option.some.inj (hfind.symm.trans hfind')

theorem Declared.checkUnder_eq (h : g.Declared l e decl) :
    g.checkUnder l e = g.validateNode decl (.element e.1 e.2) := by
  cases h with
  | element => rfl
  | wildcard hskip hfind =>
    rename_i w
    rw [checkUnder]
    cases hprocessing : w.processing with
    | skip => exact absurd hprocessing hskip
    | lax | strict => simp only [hfind]

theorem checkUnder_undeclared (hlax : w.processing = .lax)
    (hfind : g.elements.find? e.1.name = none) :
    g.checkUnder (.wildcard w) e = g.validateFreely e.2 := by
  simp only [checkUnder, hlax, hfind]

theorem validateFreely_cons_element (t : Tag) (cs rest : List Node) :
    g.validateFreely (.element t cs :: rest) =
      (g.checkUnder anything (t, cs) >>= fun _ => g.validateFreely rest) := by
  rw [validateFreely, anything, checkUnder]
  cases g.elements.find? t.name <;> rfl

/-- **Where any content is admitted**, each child is checked as far as it is declared. -/
theorem validateFreely_eq_ok_iff : ∀ cs : List Node,
    g.validateFreely cs = .ok () ↔ ∀ e ∈ childElements cs, g.checkUnder anything e = .ok ()
  | [] => by
    rw [validateFreely]
    exact iff_of_true rfl (List.forall_mem_nil _)
  | .element t cs :: rest => by
    rw [validateFreely_cons_element, bind_eq_ok, childElements_cons_element, List.forall_mem_cons,
      ← validateFreely_eq_ok_iff rest]
    constructor
    · rintro ⟨_, h, hrest⟩
      exact ⟨h, hrest⟩
    · rintro ⟨h, hrest⟩
      exact ⟨(), h, hrest⟩
  | .root _ :: rest | .text _ :: rest | .comment _ :: rest | .instruction _ _ :: rest => by
    rw [childElements_cons_other rfl, ← validateFreely_eq_ok_iff rest, validateFreely]
    all_goals simp

/-- **Children with leaves** are checked under them; those without one are passed over. -/
theorem validateChildren_eq_ok_iff_zip : ∀ (found : List (Option Leaf)) (cs : List Node),
    g.validateChildren found cs = .ok () ↔
      ∀ l e, (some l, e) ∈ found.zip (childElements cs) → g.checkUnder l e = .ok ()
  | found, [] => by
    rw [validateChildren, childElements_nil, List.zip_nil_right]
    exact iff_of_true rfl fun _ _ h => absurd h List.not_mem_nil
  | [], .element t cs :: rest => by
    rw [validateChildren, List.zip_nil_left]
    exact iff_of_true rfl fun _ _ h => absurd h List.not_mem_nil
  | none :: found, .element t cs :: rest => by
    rw [validateChildren, validateChildren_eq_ok_iff_zip found rest, childElements_cons_element,
      List.zip_cons_cons]
    simp
  | some l :: found, .element t cs :: rest => by
    rw [validateChildren_cons, bind_eq_ok, validateChildren_eq_ok_iff_zip found rest,
      childElements_cons_element, List.zip_cons_cons]
    simp only [List.mem_cons, Prod.mk.injEq, Option.some.injEq]
    constructor
    · rintro ⟨_, h, hrest⟩ l' e' (⟨rfl, rfl⟩ | hmem)
      · exact h
      · exact hrest l' e' hmem
    · intro h
      exact ⟨(), h l (t, cs) (.inl ⟨rfl, rfl⟩), fun l' e' hmem => h l' e' (.inr hmem)⟩
  | found, .text _ :: rest | found, .comment _ :: rest | found, .instruction _ _ :: rest
  | found, .root _ :: rest => by
    rw [childElements_cons_other rfl, ← validateChildren_eq_ok_iff_zip found rest, validateChildren]
    all_goals simp

/-! ## Down the document -/

/-- **Content is accepted** if it is whatever the children are like, and the children are. -/
theorem checkContentOf_eq_ok_iff {c : ComplexType}
    {children : List (Option Leaf) → Except Violation Unit} :
    g.checkContentOf c decl t cs children = .ok () ↔
      g.checkContentOf c decl t cs (fun _ => .ok ()) = .ok () ∧
      ∀ model found, c.content = .elements model → g.bind model t cs = .ok found →
        children found = .ok () := by
  cases hcontent : c.content with
  | empty | simple =>
    simp only [checkContentOf, hcontent, reduceCtorEq, false_implies, implies_true, and_true]
  | elements model =>
    simp only [checkContentOf, hcontent, Content.elements.injEq]
    split
    · exact iff_of_false (fun h => by cases h) fun h => by cases h.1
    · rw [bind_eq_ok, bind_eq_ok]
      constructor
      · rintro ⟨found, hfound, h⟩
        refine ⟨⟨found, hfound, rfl⟩, ?_⟩
        rintro _ found' rfl hfound'
        cases hfound.symm.trans hfound'
        exact h
      · rintro ⟨⟨found, hfound, -⟩, h⟩
        exact ⟨found, hfound, h model found rfl hfound⟩

theorem checkFilled_eq_ok_iff {children : List (Option Leaf) → Except Violation Unit}
    {freely : Unit → Except Violation Unit} :
    g.checkFilled decl type t cs children freely = .ok () ↔
      g.checkFilled decl type t cs (fun _ => .ok ()) (fun _ => .ok ()) = .ok () ∧
      (type = .any → freely () = .ok ()) ∧
      ∀ c model found, type = .complex c → c.content = .elements model →
        g.bind model t cs = .ok found → children found = .ok () := by
  cases type with
  | any => simp [checkFilled]
  | simple | inline => simp [checkFilled]
  | complex c =>
    rw [checkFilled, checkFilled, bind_eq_ok, bind_eq_ok]
    constructor
    · rintro ⟨_, hattributes, h⟩
      obtain ⟨hown, hchildren⟩ := checkContentOf_eq_ok_iff.1 h
      refine ⟨⟨(), hattributes, hown⟩, fun h => (by cases h), ?_⟩
      rintro _ model found ⟨⟩
      exact hchildren model found
    · rintro ⟨⟨_, hattributes, hown⟩, -, hchildren⟩
      exact ⟨(), hattributes, checkContentOf_eq_ok_iff.2
        ⟨hown, fun model found => hchildren c model found rfl⟩⟩

/-- An element is accepted by its declaration if it is whatever its children are like, and the
children that the check goes down to are accepted. -/
theorem validateNode_eq_ok_iff (hdecl : g.Declared l e decl) :
    g.validateNode decl (.element e.1 e.2) = .ok () ↔
      g.checkElementWith decl e.1 e.2 (fun _ => .ok ()) (fun _ => .ok ()) = .ok () ∧
      ∀ l' e', g.Descends (l, e) (l', e') → g.checkUnder l' e' = .ok () := by
  rw [validateNode, checkElementWith_eq_ok_iff, checkElementWith_eq_ok_iff]
  constructor
  · rintro ⟨habstract, hvalid, type, htype, hnilled, hfilled⟩
    refine ⟨⟨habstract, hvalid, type, htype, hnilled,
      fun hnil => (checkFilled_eq_ok_iff.1 (hfilled hnil)).1⟩, fun l' e' hdescends => ?_⟩
    cases hdescends with
    | content hdecl' htype' hnil hcontent hfound hchild =>
      cases hdecl.unique hdecl'
      cases htype.unique htype'
      have hchildren := (checkFilled_eq_ok_iff.1 (hfilled hnil)).2.2 _ _ _ rfl hcontent hfound
      exact (validateChildren_eq_ok_iff_zip _ _).1 hchildren l' e' hchild
    | any hdecl' htype' hnil hchild =>
      cases hdecl.unique hdecl'
      cases htype.unique htype'
      have hfreely := (checkFilled_eq_ok_iff.1 (hfilled hnil)).2.1 rfl
      exact (validateFreely_eq_ok_iff _).1 hfreely e' hchild
    | undeclared hlax hfind =>
      cases hdecl with
      | wildcard _ hfind' => cases hfind.symm.trans hfind'
  · rintro ⟨⟨habstract, hvalid, type, htype, hnilled, hfilled⟩, hbelow⟩
    refine ⟨habstract, hvalid, type, htype, hnilled, fun hnil => checkFilled_eq_ok_iff.2
      ⟨hfilled hnil, ?_, ?_⟩⟩
    · rintro rfl
      exact (validateFreely_eq_ok_iff _).2 fun e' hchild =>
        hbelow _ e' (.any hdecl htype hnil hchild)
    · rintro c model found rfl hcontent hfound
      exact (validateChildren_eq_ok_iff_zip _ _).2 fun l' e' hchild =>
        hbelow l' e' (.content hdecl htype hnil hcontent hfound hchild)

theorem passes_iff_of_declared (hdecl : g.Declared l e decl) : g.Passes l e ↔
    g.checkElementWith decl e.1 e.2 (fun _ => .ok ()) (fun _ => .ok ()) = .ok () := by
  refine ⟨fun h => ?_, .declared hdecl⟩
  cases h with
  | declared hdecl' hcheck => exact hdecl.unique hdecl' ▸ hcheck
  | skipped hskip =>
    cases hdecl with
    | wildcard hskip' => exact absurd hskip hskip'
  | undeclared _ hfind =>
    cases hdecl with
    | wildcard _ hfind' => cases hfind.symm.trans hfind'

/-- **One step down.** An element is accepted under a leaf if and only if it passes and all that the
check goes down to are accepted. -/
theorem checkUnder_eq_ok_iff : g.checkUnder l e = .ok () ↔
    g.Passes l e ∧ ∀ l' e', g.Descends (l, e) (l', e') → g.checkUnder l' e' = .ok () := by
  by_cases hdeclared : ∃ decl, g.Declared l e decl
  · obtain ⟨decl, hdecl⟩ := hdeclared
    rw [hdecl.checkUnder_eq, validateNode_eq_ok_iff hdecl, passes_iff_of_declared hdecl]
  cases l with
  | element decl => exact absurd ⟨decl, .element⟩ hdeclared
  | wildcard w =>
    by_cases hskip : w.processing = .skip
    · refine iff_of_true (by simp only [checkUnder, hskip]) ⟨.skipped hskip, fun l' e' h => ?_⟩
      cases h with
      | content hdecl | any hdecl => exact absurd ⟨_, hdecl⟩ hdeclared
      | undeclared hlax => cases hskip.symm.trans hlax
    have hfind : g.elements.find? e.1.name = none :=
      Option.eq_none_iff_forall_ne_some.2 fun decl h => hdeclared ⟨decl, .wildcard hskip h⟩
    cases hprocessing : w.processing with
    | skip => exact absurd hprocessing hskip
    | lax =>
      rw [checkUnder_undeclared hprocessing hfind, validateFreely_eq_ok_iff,
        and_iff_right (.undeclared hprocessing hfind)]
      constructor
      · intro h l' e' hdescends
        cases hdescends with
        | content hdecl | any hdecl => exact absurd ⟨_, hdecl⟩ hdeclared
        | undeclared _ _ hchild => exact h e' hchild
      · exact fun h e' hchild => h anything e' (.undeclared hprocessing hfind hchild)
    | strict =>
      refine iff_of_false (fun h => ?_) fun h => ?_
      · simp only [checkUnder, hprocessing, hfind] at h
        cases h
      · cases h.1 with
        | declared hdecl => exact hdeclared ⟨_, hdecl⟩
        | skipped hskip' => exact hskip hskip'
        | undeclared hlax => cases hprocessing.symm.trans hlax

theorem sizeOf_lt_of_mem_childElements : ∀ {cs : List Node} {e : Element}, e ∈ childElements cs →
    sizeOf e.2 < sizeOf cs
  | [], _, h => by cases h
  | .element t cs :: rest, e, h => by
    rw [childElements_cons_element] at h
    rw [List.cons.sizeOf_spec, Node.element.sizeOf_spec]
    rcases List.mem_cons.1 h with rfl | h
    · dsimp only
      omega
    · have := sizeOf_lt_of_mem_childElements h
      omega
  | .text _ :: rest, e, h | .comment _ :: rest, e, h | .instruction _ _ :: rest, e, h
  | .root _ :: rest, e, h => by
    rw [childElements_cons_other rfl] at h
    have := sizeOf_lt_of_mem_childElements h
    rw [List.cons.sizeOf_spec]
    omega

theorem mem_of_descends {l' : Leaf} (h : g.Descends (l, e) (l', e')) : e' ∈ childElements e.2 := by
  cases h with
  | content _ _ _ _ _ hchild => exact (List.of_mem_zip hchild).2
  | any _ _ _ hchild | undeclared _ _ hchild => exact hchild

/-- **All the way down.** An element is accepted under a leaf if and only if all that the check
comes to from there pass. -/
theorem checkUnder_eq_ok_iff_passes (l : Leaf) (e : Element) : g.checkUnder l e = .ok () ↔
    ∀ l' e', Relation.ReflTransGen g.Descends (l, e) (l', e') → g.Passes l' e' := by
  constructor
  · intro h l' e' hdown
    have hall : ∀ p, Relation.ReflTransGen g.Descends (l, e) p → g.checkUnder p.1 p.2 = .ok () := by
      intro p hp
      induction hp with
      | refl => exact h
      | tail _ hstep ih => exact (checkUnder_eq_ok_iff.1 ih).2 _ _ hstep
    exact (checkUnder_eq_ok_iff.1 (hall (l', e') hdown)).1
  · intro h
    refine checkUnder_eq_ok_iff.2 ⟨h l e .refl, fun l' e' hstep => ?_⟩
    have := sizeOf_lt_of_mem_childElements (mem_of_descends hstep)
    exact (checkUnder_eq_ok_iff_passes l' e').2 fun l'' e'' hdown => h l'' e'' (.head hstep hdown)
termination_by sizeOf e.2

/-- **The check of a document comes to an element** under a leaf: from the root, whose declaration
is the one with its name. -/
def Reaches (g : Grammar) (root : Element) (l : Leaf) (e : Element) : Prop :=
  ∃ decl, g.elements.find? root.1.name = some decl ∧
    Relation.ReflTransGen g.Descends (.element decl, root) (l, e)

/-- **A document is accepted** if and only if its root is declared and each element that the check
comes to passes. -/
theorem validate_eq_ok_iff_passes {root : Element} : g.validate root = .ok () ↔
    (g.elements.find? root.1.name).isSome = true ∧ ∀ l e, g.Reaches root l e → g.Passes l e := by
  obtain ⟨t, cs⟩ := root
  cases hfind : g.elements.find? t.name with
  | none =>
    refine iff_of_false (fun h => ?_) fun h => Bool.false_ne_true h.1
    simp only [validate, hfind] at h
    cases h
  | some decl =>
    have hroot : g.validate (t, cs) = g.checkUnder (.element decl) (t, cs) := by
      simp only [validate, hfind, checkUnder]
    rw [hroot, checkUnder_eq_ok_iff_passes, Option.isSome_some, eq_self_iff_true, true_and]
    refine forall₂_congr fun l e => ⟨fun h hreaches => ?_, fun h hdown => h ⟨decl, hfind, hdown⟩⟩
    obtain ⟨decl', hfind', hdown⟩ := hreaches
    cases hfind.symm.trans hfind'
    exact h hdown

/-! ## Simple types -/

theorem attributes_of_checkFilled {children : List (Option Leaf) → Except Violation Unit}
    {freely : Unit → Except Violation Unit} (hsimple : type.isSimple = true)
    (h : g.checkFilled decl type t cs children freely = .ok ()) :
    ∀ a ∈ t.attributes, a.name.uri = some instanceUri := by
  have hvalid {check : String → Except ValueError String}
      (hcheck : checkSimpleElement decl t cs check = .ok ()) : ValidSimple decl (t, cs) check := by
    have hdecides := decides_checkSimpleElement decl t cs check
    rw [hcheck] at hdecides
    exact hdecides
  cases type with
  | simple r => exact (hvalid h).attributes
  | inline s => exact (hvalid h).attributes
  | any | complex => cases hsimple

/-- A tag with more attributes. -/
def withAttributes (t : Tag) (as : List Attribute) : Tag :=
  { t with attributes := t.attributes ++ as }

section More

variable {as : List Attribute} (has : ∀ a ∈ as, a.name.uri ≠ some instanceUri)
include has

theorem instanceAttribute?_withAttributes (t : Tag) (localName : String) :
    instanceAttribute? (withAttributes t as) localName = instanceAttribute? t localName := by
  have hnone : as.find? (·.name == ⟨some instanceUri, localName⟩) = none :=
    List.find?_eq_none.2 fun a ha hname => has a ha (congrArg (·.uri) (eq_of_beq hname))
  rw [instanceAttribute?, instanceAttribute?, Tag.attribute?, Tag.attribute?, withAttributes,
    List.find?_append, hnone, Option.or_none]

theorem isNilled_withAttributes : IsNilled (withAttributes t as) ↔ IsNilled t := by
  rw [IsNilled, IsNilled, instanceAttribute?_withAttributes has]

theorem Governs.withAttributes (h : g.Governs t decl type) :
    g.Governs (withAttributes t as) decl type := by
  cases h with
  | named hvalue hname htype =>
    exact .named ((instanceAttribute?_withAttributes has t _).trans hvalue) hname htype
  | declared hvalue htype =>
    exact .declared ((instanceAttribute?_withAttributes has t _).trans hvalue) htype

end More

/-- **Elements with a simple type have no attributes but those for instances**, at every depth of an
accepted document, unless they say that they are nil. Those are without content, where it is allowed
to be nil, and are accepted with any other attributes as well. -/
theorem attributes_of_simple {root : Element} (hok : g.validate root = .ok ())
    (hreaches : g.Reaches root l e) (hdecl : g.Declared l e decl)
    (htype : g.Governs e.1 decl type) (hsimple : type.isSimple = true) :
    (¬ IsNilled e.1 → ∀ a ∈ e.1.attributes, a.name.uri = some instanceUri) ∧
    (IsNilled e.1 → decl.nillable = true ∧ childElements e.2 = [] ∧ NoCharacters e.2 ∧
      ∀ as : List Attribute, (∀ a ∈ as, a.name.uri ≠ some instanceUri) →
        g.validateNode decl (.element (withAttributes e.1 as) e.2) = .ok ()) := by
  have hpasses :=
    (passes_iff_of_declared hdecl).1 ((validate_eq_ok_iff_passes.1 hok).2 l e hreaches)
  obtain ⟨habstract, hvalid, type', htype', -, hfilled⟩ := checkElementWith_eq_ok_iff.1 hpasses
  cases htype.unique htype'
  refine ⟨fun hnil => attributes_of_checkFilled hsimple (hfilled hnil), fun hnil => ?_⟩
  obtain ⟨hchildren, hcharacters⟩ := hvalid.2 hnil
  have hsome : instanceAttribute? e.1 "nil" ≠ none := by
    obtain ⟨value, hvalue, -⟩ := hnil
    rw [hvalue]
    exact Option.some_ne_none value
  refine ⟨hvalid.1 hsome, hchildren, hcharacters, fun as has => ?_⟩
  have hnil' := (isNilled_withAttributes has).2 hnil
  rw [validateNode, checkElementWith_eq_ok_iff]
  refine ⟨habstract, ⟨fun _ => hvalid.1 hsome, fun _ => hvalid.2 hnil⟩, type,
    htype.withAttributes has, fun _ c hc => ?_, fun hfilled => absurd hnil' hfilled⟩
  subst hc
  cases hsimple

/-- An element with a word, which may also be nil. -/
def wordDecl : ElementDecl :=
  ⟨⟨none, "word"⟩, .named (schemaName "string"), true, false, none⟩

def words : Grammar where
  elements := [(⟨none, "word"⟩, wordDecl)]
  attributes := []
  types := []

/-- A word that is there. -/
def aWord : Element := (⟨⟨none, "word"⟩, [], [], 0⟩, [.text "yes"])

/-- A word that is nil, with an attribute. -/
def noWord : Element :=
  (⟨⟨none, "word"⟩, [⟨⟨some instanceUri, "nil"⟩, "true"⟩, ⟨⟨none, "a"⟩, "1"⟩], [], 0⟩, [])

theorem governs_word {e : Element} (h : instanceAttribute? e.1 "type" = none) :
    words.Governs e.1 wordDecl (.simple (.named (schemaName "string"))) := .declared h rfl

theorem attributes_of_aWord : words.validate aWord = .ok () ∧ ¬ IsNilled aWord.1 ∧
    ∀ a ∈ aWord.1.attributes, a.name.uri = some instanceUri := by
  have hok : words.validate aWord = .ok () := rfl
  have hnil : ¬ IsNilled aWord.1 := not_isNilled rfl
  exact ⟨hok, hnil, (attributes_of_simple hok ⟨wordDecl, rfl, .refl⟩ .element
    (governs_word rfl) rfl).1 hnil⟩

/-- **An element that is nil** is accepted with an attribute, although its type is simple. -/
theorem validate_noWord : words.validate noWord = .ok () ∧
    words.Reaches noWord (.element wordDecl) noWord ∧
    words.Governs noWord.1 wordDecl (.simple (.named (schemaName "string"))) ∧
    ∃ a ∈ noWord.1.attributes, a.name.uri ≠ some instanceUri :=
  ⟨rfl, ⟨wordDecl, rfl, .refl⟩, governs_word rfl, ⟨⟨none, "a"⟩, "1"⟩, by decide, nofun⟩

end Grammar

end XmlConformance.Schema
