import Mathlib.Data.List.Forall2
import XmlConformance.Proofs.Xml.ReadingBack

/-!
# Proofs/Xml/RoundTrip — which data come back unchanged

A fragment that is written and read gives a tree of the same shape (`Fragment.ReadsAs`): elements
for its elements, texts for its texts, and attributes for those of its attributes that declare
nothing. The data in it need not be the same. Of the white space in an attribute value a writer
escapes the line feed alone, so a value comes back if and only if it has neither a tab nor a
carriage return. In text it escapes none, so a carriage return comes back as a line feed; two places
apart, where a reference stands next to it (`ReturnsStay`).
-/

namespace XmlConformance.Xml

/-! ## Values -/

/-- **A value comes back** if it has neither a tab nor a carriage return, and only then. -/
theorem valueBack_eq_iff {value : String} :
    valueBack value = value ↔ '\t' ∉ value.toList ∧ '\r' ∉ value.toList := by
  have hback : valueBack value = value ↔
      value.toList.map (fun c => if c == '\t' || c == '\r' then ' ' else c) =
        value.toList.map id := by
    rw [← String.toList_inj, valueBack, String.toList_map, List.map_id]
  rw [hback, List.map_inj_left]
  constructor
  · refine fun h => ⟨fun hc => absurd (h _ hc) (by decide), fun hc => absurd (h _ hc) (by decide)⟩
  · rintro ⟨htab, hreturn⟩ c hc
    have hne : ¬(c == '\t' || c == '\r') = true := by
      simp only [Bool.or_eq_true, beq_iff_eq]
      rintro (rfl | rfl)
      · exact htab hc
      · exact hreturn hc
    rw [if_neg hne]
    rfl

/-! ## Texts -/

/-- Whether a character of a text is written as a reference. -/
def isEscaped (c : Char) : Bool :=
  c == '&' || c == '<' || c == '>'

/-- Every carriage return stands directly in front of a character that is written as a reference, or
at the end, directly behind one. -/
def ReturnsStay (cs : List Char) : Prop :=
  ∀ before after, cs = before ++ '\r' :: after →
    (∃ d ∈ after.head?, isEscaped d) ∨ (after = [] ∧ ∃ d ∈ before.getLast?, isEscaped d)

/-- `ReturnsStay` for the rest of a text, by recursion on it; `behind` says that the rest stands
directly behind a character that is written as a reference. -/
def returnsStay (behind : Bool) : List Char → Prop
  | [] => True
  | c :: rest =>
    (c = '\r' → (∃ d ∈ rest.head?, isEscaped d) ∨ (rest = [] ∧ behind = true)) ∧
      returnsStay (isEscaped c) rest

theorem returnsStay_iff {cs : List Char} {behind : Bool} : returnsStay behind cs ↔
    ∀ before after, cs = before ++ '\r' :: after →
      (∃ d ∈ after.head?, isEscaped d) ∨
        (after = [] ∧ before.getLast?.elim behind isEscaped = true) := by
  induction cs generalizing behind with
  | nil => simp [returnsStay]
  | cons c cs ih =>
    rw [returnsStay, ih]
    constructor
    · rintro ⟨hc, hcs⟩ before after heq
      cases before with
      | nil =>
        obtain ⟨rfl, rfl⟩ := List.cons.inj heq
        exact hc rfl
      | cons b before =>
        obtain ⟨rfl, rfl⟩ := List.cons.inj heq
        refine (hcs before after rfl).imp id fun ⟨hafter, hbefore⟩ => ⟨hafter, ?_⟩
        cases before with
        | nil => exact hbefore
        | cons d before => rwa [List.getLast?_cons_cons]
    · refine fun h => ⟨fun hc => h [] cs (by rw [hc]; rfl), fun before after heq => ?_⟩
      refine (h (c :: before) after (by rw [heq]; rfl)).imp id fun ⟨hafter, hbefore⟩ =>
        ⟨hafter, ?_⟩
      cases before with
      | nil => exact hbefore
      | cons d before => rwa [List.getLast?_cons_cons] at hbefore

theorem returnsStay_false_iff {cs : List Char} : returnsStay false cs ↔ ReturnsStay cs := by
  rw [returnsStay_iff, ReturnsStay]
  refine forall₃_congr fun before after _ => or_congr_right (and_congr_right fun _ => ?_)
  cases before.getLast? <;> simp

namespace LineEnd

/-- A character that is read behind a carriage return turns it into a line feed. -/
theorem count_push_lt_of_head {reversed : List Char} (h : reversed.head? = some '\r') (c : Char)
    (atEnd : Bool) : (push reversed c atEnd).count '\r' < (c :: reversed).count '\r' := by
  obtain ⟨before, rfl⟩ : ∃ before, reversed = '\r' :: before := by
    cases reversed with
    | nil => cases h
    | cons d before => exact ⟨before, congrArg (· :: before) (Option.some.inj h)⟩
  rw [push]
  split
  · case isTrue hlast =>
    have hc : c = '\r' := by simpa using (Bool.and_eq_true_iff.1 hlast).2
    rw [hc, List.count_cons_self, List.count_cons_self]
    simp only [List.count_cons, show ('\n' == '\r') = false by decide, Bool.false_eq_true, if_false]
    omega
  · split
    · case isTrue hc => simp [beq_iff_eq.1 hc]
    · simp [List.count_cons]

theorem push_of_head_ne {reversed : List Char} (h : reversed.head? ≠ some '\r') (c : Char)
    (atEnd : Bool) :
    push reversed c atEnd = if atEnd && c == '\r' then '\n' :: reversed else c :: reversed := by
  rw [push]
  rintro before rfl
  exact h rfl

theorem count_push_le (reversed : List Char) (c : Char) (atEnd : Bool) :
    (push reversed c atEnd).count '\r' ≤ (c :: reversed).count '\r' := by
  by_cases h : reversed.head? = some '\r'
  · exact Nat.le_of_lt (count_push_lt_of_head h c atEnd)
  · rw [push_of_head_ne h]
    split
    · simp [List.count_cons]
    · exact Nat.le_refl _

end LineEnd

theorem isEscaped_iff {c : Char} : isEscaped c = true ↔ c = '&' ∨ c = '<' ∨ c = '>' := by
  simp [isEscaped, or_assoc]

/-- No carriage return is made when a text is read. -/
theorem count_textBackFrom_le : ∀ (cs reversed : List Char) (verbatim : Bool),
    (textBackFrom reversed verbatim cs).count '\r' ≤ (cs.reverse ++ reversed).count '\r'
  | [], _, _ => Nat.le_refl _
  | c :: cs, reversed, verbatim => by
    have hkept (verbatim : Bool) := count_textBackFrom_le cs (c :: reversed) verbatim
    have hpushed := count_textBackFrom_le cs (LineEnd.push reversed c cs.isEmpty) false
    have hpush := LineEnd.count_push_le reversed c cs.isEmpty
    simp only [List.count_append, List.count_reverse, List.count_cons] at hkept hpushed hpush ⊢
    rw [textBackFrom]
    split
    · have := hkept true
      omega
    · split
      · have := hkept false
        omega
      · omega

/-- What is lost once is missing at the end. -/
theorem textBackFrom_ne_of_count_lt {cs before reversed : List Char} {verbatim : Bool}
    (h : reversed.count '\r' < before.count '\r') :
    textBackFrom reversed verbatim cs ≠ cs.reverse ++ before := by
  intro heq
  have hle := count_textBackFrom_le cs reversed verbatim
  rw [heq, List.count_append, List.count_append] at hle
  omega

/-- **The rest of a text comes back** if no carriage return is changed in it, nor the one in front
of it, and only then. -/
theorem textBackFrom_eq_iff : ∀ (cs reversed : List Char) (verbatim : Bool),
    textBackFrom reversed verbatim cs = cs.reverse ++ reversed ↔
      returnsStay verbatim cs ∧
        (reversed.head? = some '\r' → verbatim = false → ∀ d ∈ cs.head?, isEscaped d)
  | [], reversed, verbatim => by simp [textBackFrom, returnsStay]
  | c :: cs, reversed, verbatim => by
    have hih (verbatim : Bool) := textBackFrom_eq_iff cs (c :: reversed) verbatim
    rw [textBackFrom, List.reverse_cons, List.append_assoc, List.singleton_append, returnsStay]
    split
    · case isTrue hc =>
      have hesc : isEscaped c = true := isEscaped_iff.2 hc
      have hne : c ≠ '\r' := by
        rintro rfl
        exact absurd hc (by decide)
      rw [hih true]
      simp [hesc, hne]
    · case isFalse hc =>
      have hesc : isEscaped c = false := Bool.eq_false_iff.2 fun h => hc (isEscaped_iff.1 h)
      split
      · case isTrue hverbatim =>
        rw [hih false, hesc]
        cases cs <;> simp [hverbatim, returnsStay, and_comm]
      · case isFalse hverbatim =>
        rw [Bool.not_eq_true] at hverbatim
        by_cases hhead : reversed.head? = some '\r'
        · refine iff_of_false
            (textBackFrom_ne_of_count_lt (LineEnd.count_push_lt_of_head hhead c _)) ?_
          simp [hhead, hverbatim, hesc]
        · rw [LineEnd.push_of_head_ne hhead]
          split
          · case isTrue hlast =>
            obtain ⟨rfl, rfl⟩ : cs = [] ∧ c = '\r' := by simpa using hlast
            simp [textBackFrom, hverbatim]
          · case isFalse hlast =>
            rw [hih false, hesc]
            cases cs with
            | nil =>
              have hne : c ≠ '\r' := by simpa using hlast
              simp [returnsStay, hne, hhead]
            | cons d cs => simp [hhead, and_comm]

/-- **A text comes back** if every carriage return in it stays, and only then. -/
theorem textBack_eq_iff {text : String} : textBack text = text ↔ ReturnsStay text.toList := by
  rw [← returnsStay_false_iff, ← String.toList_inj, textBack, String.toList_ofList,
    List.reverse_eq_iff]
  have h := textBackFrom_eq_iff text.toList [] false
  rw [List.append_nil] at h
  rw [h]
  simp

/-! ## Tags -/

/-- The namespace that a label stands for among declarations. -/
def bound? (scope : List Declaration) (label : Option String) : Option String :=
  (scope.find? (·.label == label)).map (·.uri)

/-- **What an element declares comes first**, and then what is declared around it. -/
theorem bound?_scopeWithin (inherited own : List Declaration) (label : Option String) :
    bound? (scopeWithin inherited own) label = (bound? own label).or (bound? inherited label) := by
  have hfold : ∀ (ds scope : List Declaration), (ds.foldl
      (fun scope d => if scope.any (·.label == d.label) then scope else scope ++ [d]) scope).find?
        (·.label == label) = (scope.find? (·.label == label)).or (ds.find? (·.label == label)) := by
    intro ds
    induction ds with
    | nil => simp
    | cons d ds ih =>
      intro scope
      rw [List.foldl_cons, ih]
      split
      · case isTrue hany =>
        by_cases hd : d.label = label
        · have hsome : (scope.find? (·.label == label)).isSome := by
            rw [List.find?_isSome, ← hd]
            exact List.any_eq_true.1 hany
          rw [Option.or_of_isSome hsome, Option.or_of_isSome hsome]
        · rw [List.find?_cons_of_neg (by simpa using hd)]
      · rw [List.find?_append, Option.or_assoc, ← List.find?_append, List.singleton_append]
  unfold scopeWithin
  split
  · case isTrue hnil =>
    rw [List.isEmpty_iff.1 hnil]
    rfl
  · rw [bound?, hfold, bound?, bound?]
    cases own.find? (·.label == label) <;> rfl

theorem scopeWithin_nil (own : List Declaration) : scopeWithin [] own = own := by
  cases own <;> rfl

theorem attributeUri_eq (scope : List Declaration) (label : String) : attributeUri scope label =
    if label == "xml" then some (some xmlUri)
    else if label.isEmpty then some none else (bound? scope (some label)).map some := by
  rw [attributeUri, bound?, Option.map_map]
  rfl

theorem elementUri_eq (scope : List Declaration) (label : String) : elementUri scope label =
    if label.isEmpty then some (bound? scope none) else (bound? scope (some label)).map some := by
  unfold elementUri bound?
  cases label.isEmpty with
  | true =>
    simp only [if_true]
    cases scope.find? (·.label == none) <;> rfl
  | false =>
    simp only [if_neg Bool.false_ne_true]
    cases scope.find? (·.label == some label) <;> rfl

/-- Whether an attribute with a given name declares a namespace. -/
def RawName.declares (n : RawName) : Bool :=
  n.label == "xmlns" || n.localName == "xmlns"

/-- What an attribute with a given value declares, the fixed declaration of `xml` apart. -/
def declaration? (a : RawName × String) : Option Declaration :=
  if a.1.label == "xmlns" then if a.2 == xmlUri then none else some ⟨some a.1.localName, a.2⟩
  else if a.1.localName == "xmlns" then some ⟨none, a.2⟩
  else none

section Declared

variable {own : List Declaration} {a : RawName × String}

theorem declaration?_of_declares {d : Declaration} (h : bindingOf own a.1 a.2 = .declares d) :
    declaration? a = some d ∧ a.1.declares = true := by
  cases binds_of_bindingOf h with
  | label label _ _ uri => simp [declaration?, RawName.declares, label, uri]
  | default label localName => simp [declaration?, RawName.declares, label, localName]

theorem declaration?_of_repeatsXml (h : bindingOf own a.1 a.2 = .repeatsXml) :
    declaration? a = none ∧ a.1.declares = true := by
  cases binds_of_bindingOf h with
  | repeatsXml label uri => simp [declaration?, RawName.declares, label, uri]

theorem declaration?_of_plain (h : bindingOf own a.1 a.2 = .plain) :
    declaration? a = none ∧ a.1.declares = false := by
  cases binds_of_bindingOf h with
  | plain label localName => simp [declaration?, RawName.declares, label, localName]

end Declared

/-- **Attributes are taken apart** into what is declared and the others, each in order. -/
theorem bindAttributes_eq_some :
    ∀ {as : List (RawName × String)} {own own' : List Declaration}
      {others others' : List (RawName × String)},
      bindAttributes as own others = some (own', others') →
        own' = own ++ as.filterMap declaration? ∧
          others' = others ++ as.filter fun a => !a.1.declares
  | [], own, own', others, others', h => by
    obtain ⟨rfl, rfl⟩ := Prod.mk.inj (Option.some.inj h)
    simp
  | a :: as, own, own', others, others', h => by
    rw [bindAttributes] at h
    split at h
    · case h_1 d hbinding =>
      obtain ⟨hdeclared, hdeclares⟩ := declaration?_of_declares hbinding
      obtain ⟨rfl, rfl⟩ := bindAttributes_eq_some h
      simp [hdeclared, hdeclares]
    · case h_2 hbinding =>
      obtain ⟨hdeclared, hdeclares⟩ := declaration?_of_repeatsXml hbinding
      obtain ⟨rfl, rfl⟩ := bindAttributes_eq_some h
      simp [hdeclared, hdeclares]
    · cases h
    · case h_4 hbinding =>
      obtain ⟨hdeclared, hdeclares⟩ := declaration?_of_plain hbinding
      obtain ⟨rfl, rfl⟩ := bindAttributes_eq_some h
      simp [hdeclared, hdeclares]

theorem forall₂_comp {α β γ : Type} {R : α → β → Prop} {S : β → γ → Prop} {T : α → γ → Prop}
    (h : ∀ a b c, R a b → S b c → T a c) :
    ∀ {as : List α} {bs : List β} {cs : List γ}, List.Forall₂ R as bs → List.Forall₂ S bs cs →
      List.Forall₂ T as cs
  | _, _, _, .nil, .nil => .nil
  | _, _, _, .cons hab has, .cons hbc hbs => .cons (h _ _ _ hab hbc) (forall₂_comp h has hbs)

/-- **An attribute that comes back**: it has the local name that was written, and the value that was
written if and only if there is neither a tab nor a carriage return in it. -/
structure AttributeBack (written : String × String) (read : Attribute) : Prop where
  localName : (Reader.rawName? written.1).map (·.localName) = some read.name.localName
  value : read.value = written.2 ↔ '\t' ∉ written.2.toList ∧ '\r' ∉ written.2.toList

/-- The attributes of a start tag that declare nothing. -/
def plainAttributes (attributes : List (String × String)) : List (String × String) :=
  attributes.filter fun a => !(Reader.rawName? a.1).any RawName.declares

theorem named?_append {as bs : List (String × String)} {ns ms : List (RawName × String)}
    (has : Reader.named? as = some ns) (hbs : Reader.named? bs = some ms) :
    Reader.named? (as ++ bs) = some (ns ++ ms) := by
  unfold Reader.named? at *
  rw [List.mapM_append, has, hbs]
  rfl

theorem forall₂_named? : ∀ {attributes : List (String × String)}
    {named : List (RawName × String)}, Reader.named? attributes = some named →
      List.Forall₂ (fun a b => Reader.rawName? a.1 = some b.1 ∧ b.2 = a.2) attributes named
  | [], named, h => by
    obtain rfl : [] = named := by simpa [Reader.named?] using h
    exact .nil
  | a :: attributes, named, h => by
    rw [Reader.named?, List.mapM_cons] at h
    simp only [Option.bind_eq_bind, Option.bind_eq_some_iff, Option.map_eq_some_iff] at h
    obtain ⟨-, ⟨n, hn, rfl⟩, more, hmore, hnamed⟩ := h
    obtain rfl := Option.some.inj hnamed
    exact .cons ⟨hn, rfl⟩ (forall₂_named? hmore)

theorem forall₂_plainAttributes {attributes : List (String × String)}
    {named : List (RawName × String)}
    (h : List.Forall₂ (fun a b => Reader.rawName? a.1 = some b.1 ∧ b.2 = a.2) attributes named) :
    List.Forall₂ (fun a b => Reader.rawName? a.1 = some b.1 ∧ b.2 = valueBack a.2)
      (plainAttributes attributes)
      ((named.map fun a => (a.1, valueBack a.2)).filter fun a => !a.1.declares) := by
  induction h with
  | nil => exact .nil
  | @cons a b attributes named hab _ ih =>
    rw [plainAttributes, List.map_cons]
    by_cases hb : b.1.declares = true
    · rw [List.filter_cons_of_neg (by simp [hab.1, hb]), List.filter_cons_of_neg (by simp [hb])]
      exact ih
    · rw [List.filter_cons_of_pos (by simp [hab.1, hb]), List.filter_cons_of_pos (by simp [hb])]
      exact .cons ⟨hab.1, by rw [hab.2]⟩ ih

/-- **The attributes of a start tag come back** in order, but for those that declare a namespace. -/
theorem forall₂_attributes_of_tagBack {inherited : List Declaration} {start : ℕ} {name : String}
    {attributes : List (String × String)} {n : RawName} {tag : Tag}
    (h : tagBack inherited start name attributes = some (n, tag)) :
    List.Forall₂ AttributeBack (plainAttributes attributes) tag.attributes := by
  obtain ⟨-, named, hnamed, own, others, hbind, htag⟩ := tagBack_eq_some_iff.1 h
  obtain ⟨-, hothers⟩ := bindAttributes_eq_some hbind
  obtain ⟨more, hmore, hresolved⟩ :=
    forall₂_resolveAttributes (resolveTag_eq_some_iff.1 htag).attributes
  rw [List.nil_append] at hothers hmore
  rw [hothers] at hresolved
  rw [hmore]
  refine forall₂_comp ?_ (forall₂_plainAttributes (forall₂_named? hnamed)) hresolved
  rintro a b c ⟨hname, hvalue⟩ ⟨-, hlocal, hread⟩
  exact ⟨by rw [hname, hlocal]; rfl, by rw [hread, hvalue, valueBack_eq_iff]⟩

/-! ## Fragments -/

namespace Fragment

mutual

/-- **A fragment is read as nodes**: an element as an element of the same shape, with attributes
that come back as `AttributeBack` says, and a text, if it is not empty, as a text, which is the one
written if and only if every carriage return in it stays. -/
def ReadsAs : Fragment → List Node → Prop
  | .text s, nodes =>
    if s = "" then nodes = []
    else ∃ t, nodes = [.text t] ∧ (t = s ↔ ReturnsStay s.toList)
  | .element _ attributes content, nodes =>
    ∃ tag children, nodes = [.element tag children] ∧
      List.Forall₂ AttributeBack (plainAttributes attributes) tag.attributes ∧
      AllReadAs content children

/-- Fragments are read as nodes, each as some of them. -/
def AllReadAs : List Fragment → List Node → Prop
  | [], nodes => nodes = []
  | f :: fs, nodes => ∃ first more, nodes = first ++ more ∧ f.ReadsAs first ∧ AllReadAs fs more

end

mutual

theorem readsAs_of_back {inherited : List Declaration} {start : ℕ} {nodes : List Node} :
    ∀ f : Fragment, f.back inherited start = some nodes → f.ReadsAs nodes
  | .text s, h => by
    rw [back, Option.some.injEq] at h
    rw [ReadsAs]
    by_cases hs : s = ""
    · rw [if_pos hs] at h ⊢
      exact h.symm
    · rw [if_neg hs] at h ⊢
      exact ⟨textBack s, h.symm, textBack_eq_iff⟩
  | .element name attributes content, h => by
    obtain ⟨n, tag, children, htag, hchildren, hnodes⟩ := back_element_eq_some_iff.1 h
    rw [ReadsAs]
    exact ⟨tag, children, hnodes, forall₂_attributes_of_tagBack htag,
      allReadAs_of_backAll content hchildren⟩

theorem allReadAs_of_backAll {inherited : List Declaration} {start : ℕ} {nodes : List Node} :
    ∀ fs : List Fragment, backAll inherited start fs = some nodes → AllReadAs fs nodes
  | [], h => (Option.some.inj h).symm
  | f :: fs, h => by
    obtain ⟨first, more, hfirst, hmore, hnodes⟩ := backAll_cons_eq_some_iff.1 h
    rw [AllReadAs]
    exact ⟨first, more, hnodes, readsAs_of_back f hfirst,
      allReadAs_of_backAll fs hmore⟩

end

variable {name : String} {attributes : List (String × String)} {content : List Fragment}

/-- **What is written is read again, and so are the data in it**, as far as their white space
allows: in every element of a fragment, a value that was written comes back if and only if it has
neither a tab nor a carriage return, and a text if and only if every carriage return in it stays.
The names of the fragment have to be names, with labels that are declared. -/
theorem exists_readsAs (hclean : (element name attributes content).Clean)
    (hnames : ((element name attributes content).back [] 0).isSome) :
    ∃ n, Node.ofText (element name attributes content).render = some (.root [n]) ∧
      (element name attributes content).ReadsAs [n] := by
  obtain ⟨nodes, hback⟩ := Option.isSome_iff_exists.1 hnames
  obtain ⟨tag, children, rfl⟩ := eq_singleton_of_back rfl hback
  exact ⟨.element tag children, ofText_render hclean hback, readsAs_of_back _ hback⟩

/-- An element with a tab in a value and a carriage return in its text. -/
def spaced : Fragment :=
  .element "p:a" [("xmlns:p", "u"), ("p:b", "1\t2"), ("c", "\n")] [.text "x\r& y\r"]

theorem exists_readsAs_spaced : spaced.Clean ∧ (spaced.back [] 0).isSome ∧
    ∃ n, Node.ofText spaced.render = some (.root [n]) ∧ spaced.ReadsAs [n] :=
  have hclean : spaced.Clean := ⟨by decide, by rw [Clean]; decide, by simp, trivial⟩
  ⟨hclean, by decide +kernel, exists_readsAs hclean (by decide +kernel)⟩

/-- **Not every value and not every text comes back.** -/
theorem not_comesBack :
    (¬∀ v, XmlText v → ∃ t cs, Node.ofText (element "a" [("b", v)] []).render =
      some (.root [.element t cs]) ∧ t.plain? "b" = some v) ∧
    ¬∀ v, XmlText v → ∃ t cs, Node.ofText (element "a" [] [.text v]).render =
      some (.root [.element t cs]) ∧ (Node.element t cs).stringValue = v := by
  constructor
  · intro h
    obtain ⟨t, cs, hread, hvalue⟩ := h "\t" (by decide)
    have hback : ((Node.ofText (element "a" [("b", "\t")] []).render).bind fun n =>
        n.elements.head?.bind fun e => e.1.plain? "b") = some " " := by decide +kernel
    rw [hread] at hback
    exact absurd (hvalue.symm.trans hback) (by decide)
  · intro h
    obtain ⟨t, cs, hread, hvalue⟩ := h "\r" (by decide)
    have hback : ((Node.ofText (element "a" [] [.text "\r"]).render).map fun n =>
        n.stringValue) = some "\n" := by decide +kernel
    rw [hread, Option.map_some] at hback
    have hroot : (Node.root [.element t cs]).stringValue = (Node.element t cs).stringValue := by
      simp [Node.stringValue, Node.charactersOf, Node.characters]
    rw [hroot, hvalue] at hback
    exact absurd hback (by decide)

end Fragment

end XmlConformance.Xml
