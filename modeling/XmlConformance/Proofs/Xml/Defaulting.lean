import Mathlib.Data.List.Forall2
import XmlConformance.Proofs.Xml.Subtrees
import XmlConformance.Proofs.Xml.Unlabelled

/-!
# Proofs/Xml/Defaulting — declaring a default namespace

The root element of a document that declares no default namespace anywhere is made to declare one.
Then every element without a label belongs to that namespace, and at every element the lack of a
label stands for it; nothing else changes, but for the places in the text (`Below`). That this is so
is shown for documents that are written (`Fragment.ofText_render_takesDefault`): a start tag that is
read with one declaration more in scope gives an element like the one before
(`ScopeTakes.exists_resolveTag`), and so does all that is below it (`Fragment.below_of_back`).
-/

namespace XmlConformance.Xml

/-- **An element where a default namespace is declared** that was not: what has no label belongs to
the namespace, and what has one means what it did. -/
structure TakesDefault (T : String) (t t' : Tag) : Prop where
  undeclared : t.lookup? none = none
  name : t'.name = ⟨some (t.name.uri.getD T), t.name.localName⟩
  declared : t'.lookup? none = some T
  labelled : ∀ l, t'.lookup? (some l) = t.lookup? (some l)

/-- **A node below the declaration of a default namespace**: nothing else changes in it. -/
inductive Below (T : String) : Node → Node → Prop
  | element {t t' : Tag} {cs cs' : List Node} : TakesDefault T t t' → t'.attributes = t.attributes →
      List.Forall₂ (Below T) cs cs' → Below T (.element t cs) (.element t' cs')
  | text (s : String) : Below T (.text s) (.text s)
  | comment (s : String) : Below T (.comment s) (.comment s)
  | instruction (target value : String) :
      Below T (.instruction target value) (.instruction target value)

/-! ## Scopes -/

/-- **Scopes that differ in the default namespace**, which only the second one has. -/
structure ScopeTakes (T : String) (scope scope' : List Declaration) : Prop where
  undeclared : bound? scope none = none
  declared : bound? scope' none = some T
  labelled : ∀ l, bound? scope' (some l) = bound? scope (some l)

variable {T : String} {scope scope' inherited inherited' own : List Declaration}

theorem TakesDefault.localName {t t' : Tag} (h : TakesDefault T t t') :
    t'.name.localName = t.name.localName := by
  rw [h.name]

theorem TakesDefault.scopeTakes {t t' : Tag} (h : TakesDefault T t t') :
    ScopeTakes T t.scope t'.scope :=
  ⟨h.undeclared, h.declared, h.labelled⟩

/-- Names are resolved one behind the other. -/
theorem resolveAttributes_append (more : List (RawName × String)) :
    ∀ (others : List (RawName × String)) (done : List Attribute),
      resolveAttributes scope done (others ++ more) =
        (resolveAttributes scope done others).bind fun done => resolveAttributes scope done more
  | [], _ => rfl
  | (n, value) :: others, done => by
    rw [List.cons_append, resolveAttributes, resolveAttributes]
    cases attributeUri scope n.label with
    | none => rfl
    | some uri =>
      dsimp only
      split
      · rfl
      · exact resolveAttributes_append more others _

namespace ScopeTakes

theorem attributeUri (h : ScopeTakes T scope scope') (label : String) :
    Xml.attributeUri scope' label = Xml.attributeUri scope label := by
  rw [attributeUri_eq, attributeUri_eq, h.labelled]

/-- **Attributes mean what they did**: without a label they belong to no namespace. -/
theorem attributes (h : ScopeTakes T scope scope') :
    ∀ (others : List (RawName × String)) (done : List Attribute),
      resolveAttributes scope' done others = resolveAttributes scope done others
  | [], _ => rfl
  | (n, value) :: others, done => by
    rw [resolveAttributes, resolveAttributes, h.attributeUri]
    cases Xml.attributeUri scope n.label with
    | none => rfl
    | some uri =>
      dsimp only
      rw [h.attributes others]

/-- **An element without a label belongs to the default namespace.** -/
theorem elementUri_getD (h : ScopeTakes T scope scope') {label : String} {uri : Option String}
    (huri : elementUri scope label = some uri) :
    elementUri scope' label = some (some (uri.getD T)) := by
  rw [elementUri_eq] at huri ⊢
  split at huri
  · case isTrue hlabel =>
    rw [h.undeclared] at huri
    obtain rfl := Option.some.inj huri
    rw [if_pos hlabel, h.declared]
    rfl
  · case isFalse hlabel =>
    obtain ⟨u, hu, rfl⟩ := Option.map_eq_some_iff.1 huri
    rw [if_neg hlabel, h.labelled, hu]
    rfl

/-- What is declared besides, with labels, is in both scopes. -/
theorem within (h : ScopeTakes T inherited inherited') (hown : bound? own none = none) :
    ScopeTakes T (scopeWithin inherited own) (scopeWithin inherited' own) where
  undeclared := by rw [bound?_scopeWithin, hown, Option.none_or, h.undeclared]
  declared := by rw [bound?_scopeWithin, hown, Option.none_or, h.declared]
  labelled l := by rw [bound?_scopeWithin, bound?_scopeWithin, h.labelled]

end ScopeTakes

/-! ## Tags -/

section Tags

variable {own' : List Declaration} {n : RawName} {others others' : List (RawName × String)}
  {start : ℕ} {t : Tag}

/-- **A start tag stands for an element like the one before** where one declaration more is in
scope. -/
theorem ScopeTakes.exists_resolveTag
    (h : ScopeTakes T (scopeWithin inherited own) (scopeWithin inherited' own'))
    (ht : resolveTag inherited own n others start = some t) {attributes : List Attribute}
    (hattributes : resolveAttributes (scopeWithin inherited own) [] others' = some attributes)
    (start' : ℕ) :
    ∃ t', resolveTag inherited' own' n others' start' = some t' ∧ TakesDefault T t t' ∧
      t'.attributes = attributes := by
  obtain ⟨hlabel, hlocal, huri, -, hscope, -⟩ := resolveTag_eq_some_iff.1 ht
  rw [← hscope] at h hattributes
  rw [resolveTag, hlabel]
  simp only [h.attributes, hattributes, h.elementUri_getD huri, Bool.false_eq_true, if_false]
  exact ⟨_, rfl, ⟨h.undeclared, by rw [hlocal], h.declared, h.labelled⟩, rfl⟩

variable {name : String} {attributes : List (String × String)}

/-- Nothing is declared at an element by default if nothing is in scope there by default. -/
theorem bound?_none_of_scope (h : bound? (scopeWithin inherited own) none = none) :
    bound? own none = none :=
  (Option.or_eq_none_iff.1 ((bound?_scopeWithin inherited own none).symm.trans h)).1

theorem tagBack_takesDefault (h : ScopeTakes T inherited inherited')
    (ht : tagBack inherited start name attributes = some (n, t)) (hdefault : t.lookup? none = none)
    (start' : ℕ) :
    ∃ t', tagBack inherited' start' name attributes = some (n, t') ∧ TakesDefault T t t' ∧
      t'.attributes = t.attributes := by
  obtain ⟨hn, named, hnamed, own, others, hbind, htag⟩ := tagBack_eq_some_iff.1 ht
  obtain ⟨-, -, -, hattributes, hscope, -⟩ := resolveTag_eq_some_iff.1 htag
  rw [Tag.lookup?, hscope] at hdefault
  rw [hscope] at hattributes
  obtain ⟨t', htag', htake, hsame⟩ :=
    (h.within (bound?_none_of_scope hdefault)).exists_resolveTag htag hattributes start'
  exact ⟨t', tagBack_eq_some_iff.2 ⟨hn, named, hnamed, own, others, hbind, htag'⟩, htake, hsame⟩

/-! ### The root -/

theorem bindAttributes_append (more : List (RawName × String)) :
    ∀ (as : List (RawName × String)) (own : List Declaration) (others : List (RawName × String)),
      bindAttributes (as ++ more) own others =
        (bindAttributes as own others).bind fun bound => bindAttributes more bound.1 bound.2
  | [], _, _ => rfl
  | a :: as, own, others => by
    rw [List.cons_append, bindAttributes, bindAttributes]
    cases bindingOf own a.1 a.2 with
    | declares d => exact bindAttributes_append more as _ _
    | repeatsXml => exact bindAttributes_append more as _ _
    | forbidden => rfl
    | plain => exact bindAttributes_append more as _ _

theorem named?_plain {a : String} (ha : IsName a) (v uri : String) :
    Reader.named? [(a, v), ("xmlns", uri)] = some [(⟨"", a⟩, v), (⟨"", "xmlns"⟩, uri)] := by
  rw [IsName] at ha
  simp only [Reader.named?, List.mapM_cons, List.mapM_nil, ha, show Reader.rawName? "xmlns" = _ from
    isName_xmlns]
  rfl

theorem bindAttributes_plain {a : String} (hne : a ≠ "xmlns") (hT : MayBeDefault T) (v : String)
    (own : List Declaration) (others : List (RawName × String)) :
    bindAttributes [(⟨"", a⟩, v), (⟨"", "xmlns"⟩, T)] own others =
      some (own ++ [⟨none, T⟩], others ++ [(⟨"", a⟩, v)]) := by
  have hplain : bindingOf own ⟨"", a⟩ v = .plain := bindingOf_of_plain own hne v
  have hdeclares : bindingOf own ⟨"", "xmlns"⟩ T = .declares ⟨none, T⟩ :=
    ((bindingOf_default own T).resolve_right fun h => h.1 hT).2
  simp only [bindAttributes, hplain, hdeclares]

theorem ScopeTakes.declare (h : bound? own none = none) :
    ScopeTakes T own (own ++ [⟨none, T⟩]) where
  undeclared := h
  declared := by
    rw [bound?, Option.map_eq_none_iff] at h
    rw [bound?, List.find?_append, h]
    rfl
  labelled l := by
    rw [bound?, bound?, List.find?_append]
    simp

/-- An attribute without a label is read behind others if there is none of its name among them. -/
theorem resolveAttributes_plain {a : String} {done : List Attribute}
    (hnew : done.find? (·.name == ⟨none, a⟩) = none) (v : String) :
    resolveAttributes scope done [(⟨"", a⟩, v)] = some (done ++ [⟨⟨none, a⟩, v⟩]) := by
  have hany : done.any (·.name == ⟨none, a⟩) = false := by
    rw [List.any_eq_false]
    exact List.find?_eq_none.1 hnew
  have huri : attributeUri scope "" = some none := rfl
  simp only [resolveAttributes, huri, hany]
  rfl

/-- **A root that declares a default namespace as well**, and has one attribute more, is like the
one before but for the attribute. -/
theorem exists_tagBack_declaring {a : String} (ha : IsName a) (hne : a ≠ "xmlns")
    (hT : MayBeDefault T) (hback : valueBack T = T)
    (ht : tagBack [] start name attributes = some (n, t)) (hdefault : t.lookup? none = none)
    (hnew : t.plain? a = none) (start' : ℕ) :
    ∃ t', tagBack [] start' name (attributes ++ [(a, T), ("xmlns", T)]) = some (n, t') ∧
      TakesDefault T t t' ∧ t'.attributes = t.attributes ++ [⟨⟨none, a⟩, T⟩] := by
  obtain ⟨hn, named, hnamed, own, others, hbind, htag⟩ := tagBack_eq_some_iff.1 ht
  obtain ⟨-, -, -, hattributes, hscope, -⟩ := resolveTag_eq_some_iff.1 htag
  have hbind' : bindAttributes ((named ++ [((⟨"", a⟩ : RawName), T), (⟨"", "xmlns"⟩, T)]).map
      fun a => (a.1, valueBack a.2)) [] [] =
        some (own ++ [⟨none, T⟩], others ++ [(⟨"", a⟩, T)]) := by
    rw [List.map_append, bindAttributes_append, hbind, Option.bind_some, List.map_cons,
      List.map_cons, List.map_nil, hback, bindAttributes_plain hne hT]
  have hown : ScopeTakes T (scopeWithin [] own) (scopeWithin [] (own ++ [⟨none, T⟩])) := by
    rw [scopeWithin_nil, scopeWithin_nil]
    rw [Tag.lookup?, hscope, scopeWithin_nil] at hdefault
    exact .declare hdefault
  have hmore : resolveAttributes (scopeWithin [] own) [] (others ++ [(⟨"", a⟩, T)]) =
      some (t.attributes ++ [⟨⟨none, a⟩, T⟩]) := by
    rw [Tag.plain?, Tag.attribute?, Option.map_eq_none_iff] at hnew
    rw [← hscope, resolveAttributes_append, hattributes, Option.bind_some,
      resolveAttributes_plain hnew]
  obtain ⟨t', htag', htake, hsame⟩ := hown.exists_resolveTag htag hmore start'
  exact ⟨t', tagBack_eq_some_iff.2 ⟨hn, _, named?_append hnamed (named?_plain ha T T), _, _, hbind',
    htag'⟩, htake, hsame⟩

end Tags

/-! ## Fragments -/

namespace Fragment

mutual

/-- **What is written is read as nodes like those before** where one declaration more is in scope,
as long as none of them had a default namespace. -/
theorem below_of_back {start : ℕ} : ∀ (f : Fragment) {inherited inherited' : List Declaration}
    {nodes : List Node}, ScopeTakes T inherited inherited' →
      f.back inherited start = some nodes → (∀ t ∈ Node.tagsOf nodes, t.lookup? none = none) →
        ∀ start', ∃ nodes', f.back inherited' start' = some nodes' ∧
          List.Forall₂ (Below T) nodes nodes'
  | .text s, _, _, _, _, h, _, _ => by
    rw [back, Option.some.injEq] at h
    refine ⟨_, rfl, ?_⟩
    rw [← h]
    split
    · exact .nil
    · exact .cons (.text _) .nil
  | .element name attributes content, _, _, nodes, hscope, h, hdefault, start' => by
    obtain ⟨n, t, children, ht, hchildren, rfl⟩ := back_element_eq_some_iff.1 h
    rw [Node.tagsOf_cons, Node.tags_element, Node.tagsOf_nil, List.append_nil,
      List.forall_mem_cons] at hdefault
    obtain ⟨t', ht', htake, hsame⟩ := tagBack_takesDefault hscope ht hdefault.1 start'
    obtain ⟨children', hchildren', hbelow⟩ := belowAll_of_backAll content htake.scopeTakes hchildren
      hdefault.2 (start' + (tagChars name attributes).length + 1)
    exact ⟨_, back_element_eq_some_iff.2 ⟨n, t', children', ht', hchildren', rfl⟩,
      .cons (.element htake hsame hbelow) .nil⟩

theorem belowAll_of_backAll {start : ℕ} : ∀ (fs : List Fragment)
    {inherited inherited' : List Declaration} {nodes : List Node},
      ScopeTakes T inherited inherited' → backAll inherited start fs = some nodes →
        (∀ t ∈ Node.tagsOf nodes, t.lookup? none = none) →
          ∀ start', ∃ nodes', backAll inherited' start' fs = some nodes' ∧
            List.Forall₂ (Below T) nodes nodes'
  | [], _, _, _, _, h, _, _ => by
    obtain rfl := Option.some.inj h
    exact ⟨[], rfl, .nil⟩
  | f :: fs, _, _, nodes, hscope, h, hdefault, start' => by
    obtain ⟨first, more, hfirst, hmore, rfl⟩ := backAll_cons_eq_some_iff.1 h
    rw [Node.tagsOf_append, List.forall_mem_append] at hdefault
    obtain ⟨first', hfirst', hbelow⟩ := below_of_back f hscope hfirst hdefault.1 start'
    obtain ⟨more', hmore', hbelows⟩ := belowAll_of_backAll fs hscope hmore hdefault.2
      (start' + f.chars.length)
    exact ⟨_, backAll_cons_eq_some_iff.2 ⟨first', more', hfirst', hmore', rfl⟩,
      List.rel_append hbelow hbelows⟩

end

variable {name : String} {attributes : List (String × String)} {content : List Fragment}

/-- **What is written with a default namespace is read like what is written without**, if nothing in
it has one: the root with one attribute more, and all below it with nothing more. -/
theorem ofText_render_takesDefault {a : String} (ha : IsName a) (hne : a ≠ "xmlns")
    (hT : XmlText T) (hmay : MayBeDefault T) (hback : valueBack T = T)
    (hnamed : (element name attributes content).Named) {root : Node}
    (h : Node.ofText (element name attributes content).render = some root)
    (hdefault : ∀ t ∈ root.tags, t.lookup? none = none)
    (hnew : ∀ e ∈ root.elements.head?, e.1.plain? a = none) :
    ∃ t cs t' cs', root = .root [.element t cs] ∧
      Node.ofText (element name (attributes ++ [(a, T), ("xmlns", T)]) content).render =
        some (.root [.element t' cs']) ∧
      TakesDefault T t t' ∧ t'.attributes = t.attributes ++ [⟨⟨none, a⟩, T⟩] ∧
      List.Forall₂ (Below T) cs cs' := by
  have hjoined := joined_joined (element name attributes content)
  have hnamed := hnamed.joined
  rw [joined] at hjoined hnamed
  rw [← render_joinedAll] at h
  obtain ⟨hclean, n, hn, rfl⟩ := back_of_ofText_render_of_joined hjoined hnamed h
  obtain ⟨m, t, cs, ht, hcs, hnode⟩ := back_element_eq_some_iff.1 hn
  obtain rfl := List.singleton_inj.1 hnode
  rw [Node.tags_root, Node.tagsOf_cons, Node.tags_element, Node.tagsOf_nil, List.append_nil,
    List.forall_mem_cons] at hdefault
  obtain ⟨t', ht', htake, hattributes⟩ :=
    exists_tagBack_declaring ha hne hmay hback ht hdefault.1 (hnew _ rfl) 0
  obtain ⟨cs', hcs', hbelow⟩ := belowAll_of_backAll _ htake.scopeTakes hcs hdefault.2
    (0 + (tagChars name (attributes ++ [(a, T), ("xmlns", T)])).length + 1)
  have hclean' : (element name (attributes ++ [(a, T), ("xmlns", T)]) (joinedAll content)).Clean :=
    ⟨List.forall_mem_append.2 ⟨hclean.1, by simpa using hT⟩, hclean.2⟩
  refine ⟨t, cs, t', cs', rfl, ?_, htake, hattributes, hbelow⟩
  rw [← render_joinedAll]
  exact ofText_render hclean' (back_element_eq_some_iff.2 ⟨m, t', cs', ht', hcs', rfl⟩)

end Fragment

end XmlConformance.Xml
