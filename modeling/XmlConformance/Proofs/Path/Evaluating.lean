import XmlConformance.Proofs.Outcome
import XmlConformance.Proofs.Path.Congruence
import XmlConformance.Proofs.Path.DocumentOrder
import XmlConformance.Proofs.Path.Literals
import XmlConformance.Proofs.Path.Texts
import XmlConformance.Proofs.Text.Casing
import XmlConformance.Path.Eval

/-!
# Proofs/Path/Evaluating — what expressions give can be written and found

An item is sound in a document if it is a node or attribute of the document, a number, a truth value
or a text that documents may hold. If the document, the variables and the literals of an expression
are of this kind, so is every item that the expression gives (`Expression.gives_evaluate`). The
indexes of keys that an evaluation builds are part of the invariant: what they hold was evaluated,
too (`SoundIndexes`).
-/

namespace XmlConformance.Path

open Xml

variable {root : Node} {α β : Type} {ε : Type}

/-! ## Sound items -/

/-- An item that can be written and found in a document. -/
def Item.Sound (root : Node) : Item → Prop
  | .node p => (Item.node p).isIn root = true
  | .attribute p i => (Item.attribute p i).isIn root = true
  | .string s => XmlText s
  | .number _ | .boolean _ => True

/-- A sequence of items that can be written and found in a document. -/
def AllSound (root : Node) (items : Sequence) : Prop :=
  ∀ item ∈ items, item.Sound root

theorem Item.Sound.isIn {item : Item} (h : item.Sound root) (hnode : item.isNode = true) :
    item.isIn root = true := by
  cases item <;> first | exact h | cases hnode

theorem Item.sound_of_isIn {item : Item} (h : item.isIn root = true) : item.Sound root := by
  cases item <;> first | exact h | cases h

theorem Item.sound_root (root : Node) : (Item.node []).Sound root := rfl

theorem Item.attribute?_eq_some {p : Position} {i : ℕ} {a : Attribute}
    (h : Item.attribute? root p i = some a) :
    ∃ t cs, root.at? p = some (.element t cs) ∧ a ∈ t.attributes := by
  obtain ⟨t, ht, ha⟩ := Option.bind_eq_some_iff.1 h
  obtain ⟨n, hn, ht⟩ := Option.bind_eq_some_iff.1 ht
  cases n with
  | element t' cs =>
    obtain rfl : t' = t := Option.some.inj ht
    exact ⟨t', cs, hn, List.mem_of_getElem? ha⟩
  | _ => cases ht

theorem Item.ownerTag?_eq_some {p : Position} {t : Tag} (h : Item.ownerTag? root p = some t) :
    ∃ cs, root.at? p = some (.element t cs) := by
  obtain ⟨n, hn, ht⟩ := Option.bind_eq_some_iff.1 h
  cases n with
  | element t' cs =>
    obtain rfl : t' = t := Option.some.inj ht
    exact ⟨cs, hn⟩
  | _ => cases ht

/-- **The string value of a sound item can be written.** -/
theorem Item.Sound.stringValue (hroot : root.Clean) {item : Item} (h : item.Sound root) :
    XmlText (item.stringValue root) := by
  match item, h with
  | .node p, _ =>
    change XmlText (((root.at? p).map Node.stringValue).getD "")
    cases hn : root.at? p with
    | none => exact .empty
    | some n => exact (hroot.at? hn).stringValue
  | .attribute p i, _ =>
    change XmlText (((Item.attribute? root p i).map (·.value)).getD "")
    cases ha : Item.attribute? root p i with
    | none => exact .empty
    | some a =>
      obtain ⟨t, cs, ht, ha⟩ := Item.attribute?_eq_some ha
      exact ((hroot.at? ht).1.attributes a ha).value
  | .string s, h => exact h
  | .number x, _ => exact xmlText_formatNumber x
  | .boolean b, _ =>
    have hall : ∀ b : Bool, XmlText (if b then "true" else "false") := by decide
    exact hall b

theorem AllSound.firstString (hroot : root.Clean) {items : Sequence} (h : AllSound root items) :
    XmlText (Library.firstString root items) := by
  unfold Library.firstString
  cases items with
  | nil => exact .empty
  | cons item items => exact (h item (by simp)).stringValue hroot

theorem AllSound.append {a b : Sequence} (ha : AllSound root a) (hb : AllSound root b) :
    AllSound root (a ++ b) :=
  List.forall_mem_append.2 ⟨ha, hb⟩

theorem AllSound.of_subset {a b : Sequence} (h : AllSound root a) (hsub : b ⊆ a) :
    AllSound root b :=
  fun item hitem => h item (hsub hitem)

/-- Nodes and attributes of a document stay such in document order. -/
theorem AllSound.inDocumentOrder {items : Sequence} (h : AllSound root items) :
    AllSound root (inDocumentOrder items) :=
  h.of_subset (inDocumentOrder_subset items)

/-- What a step leads to is in the document. -/
theorem allSound_candidates {axis : Axis} {test : NodeTest} {item : Item} {items : Sequence}
    (h : candidates root axis test item = some items) : AllSound root items := by
  have hadmits : ∀ i, test.admits axis root i = true → i.Sound root := by
    intro i hi
    refine Item.sound_of_isIn ?_
    match i, hi with
    | .node p, hi =>
      change ((root.at? p).map test.admitsNode).getD false = true at hi
      change (root.at? p).isSome = true
      cases hn : root.at? p with
      | none => simp [hn] at hi
      | some n => rfl
    | .attribute p j, hi =>
      change ((Item.attribute? root p j).map
        fun a => test.admitsAttribute axis a.name).getD false = true at hi
      change (Item.attribute? root p j).isSome = true
      cases ha : Item.attribute? root p j with
      | none => simp [ha] at hi
      | some a => rfl
  unfold candidates at h
  split at h
  · cases h
    exact fun i hi => hadmits i (List.mem_filter.1 hi).2
  · cases h
    exact fun i hi => hadmits i (List.mem_filter.1 hi).2
  · cases h

/-! ## Names -/

theorem xmlText_getD {o : Option String} (h : ∀ s ∈ o, XmlText s) : XmlText (o.getD "") := by
  cases o with
  | none => exact .empty
  | some s => exact h s rfl

/-- An attribute at a place, together with the tag that holds it. -/
theorem Item.attributeName_clean (hroot : root.Clean) {p : Position} {i : ℕ} {t : Tag}
    {a : Attribute} (ht : Item.ownerTag? root p = some t)
    (ha : Item.attribute? root p i = some a) : NameText (t.attributeName a.name) := by
  obtain ⟨t', cs, h, hmem⟩ := Item.attribute?_eq_some ha
  obtain ⟨cs', h'⟩ := Item.ownerTag?_eq_some ht
  rw [h] at h'
  cases h'
  exact (hroot.at? h).1.attributeName hmem

/-- **The name of an item is a name**, if it has one. -/
theorem Item.nameText_name (hroot : root.Clean) (item : Item) : NameText (item.name root) := by
  unfold Item.name
  split
  · split
    · case h_1 t cs h => exact (hroot.at? h).1.qualifiedName
    · exact .empty
  · split
    · case h_1 t a ht ha => exact Item.attributeName_clean hroot ht ha
    · exact .empty
  · exact .empty

/-- **The location of an item** consists of names and numbers. -/
theorem Item.pathText_location (hroot : root.Clean) (item : Item) :
    PathText (item.location root) := by
  unfold Item.location
  split
  · exact hroot.location _
  · have hat : PathText "/@" := by decide
    exact ((hroot.location _).append hat).append (Item.nameText_name hroot _).pathText
  · exact .empty

theorem Library.xmlText_name (hroot : root.Clean) (item : Item) :
    XmlText (Library.name root item) := by
  unfold Library.name
  split
  · split
    · case h_1 t cs h => exact (hroot.at? h).1.qualifiedName.xmlText
    · case h_2 target value h => exact (hroot.at? h).1
    · exact .empty
  · split
    · case h_1 t a ht ha => exact (Item.attributeName_clean hroot ht ha).xmlText
    · exact .empty
  · exact .empty

theorem Library.xmlText_localName (hroot : root.Clean) (item : Item) :
    XmlText (Library.localName root item) := by
  unfold Library.localName
  split
  · split
    · case h_1 t cs h => exact (hroot.at? h).1.name.localName.xmlText
    · case h_2 target value h => exact (hroot.at? h).1
    · exact .empty
  · refine xmlText_getD fun s hs => ?_
    obtain ⟨a, ha, rfl⟩ := Option.map_eq_some_iff.1 hs
    obtain ⟨t, cs, h, hmem⟩ := Item.attribute?_eq_some ha
    exact ((hroot.at? h).1.attributes a hmem).name.localName.xmlText
  · exact .empty

theorem Library.xmlText_namespaceUri (hroot : root.Clean) (item : Item) :
    XmlText (Library.namespaceUri root item) := by
  unfold Library.namespaceUri
  split
  · refine xmlText_getD fun s hs => ?_
    obtain ⟨t, ht, hs⟩ := Option.bind_eq_some_iff.1 hs
    obtain ⟨cs, h⟩ := Item.ownerTag?_eq_some ht
    exact (hroot.at? h).1.name.uri s hs
  · refine xmlText_getD fun s hs => ?_
    obtain ⟨a, ha, hs⟩ := Option.bind_eq_some_iff.1 hs
    obtain ⟨t, cs, h, hmem⟩ := Item.attribute?_eq_some ha
    exact ((hroot.at? h).1.attributes a hmem).name.uri s hs
  · exact .empty

/-! ## Evaluations -/

/-- Indexes whose items are sound. -/
def SoundIndexes (root : Node) (indexes : Indexes) : Prop :=
  ∀ named ∈ indexes, AllSound root (named.2.map (·.2))

/-- **What an evaluation gives has a property**, provided that it starts with sound indexes, which
it then leaves behind as well. -/
def Gives (root : Node) (P : α → Prop) (x : Indexes → Except ε (α × Indexes)) : Prop :=
  ∀ indexes, SoundIndexes root indexes → ∀ a rest, x indexes = .ok (a, rest) →
    P a ∧ SoundIndexes root rest

namespace Gives

variable {P : α → Prop} {Q : β → Prop}

theorem pure {a : α} (h : P a) : Gives root P (Eval.pure a) := by
  intro indexes hindexes b rest hb
  cases hb
  exact ⟨h, hindexes⟩

theorem bind {x : Eval α} {f : α → Eval β} (hx : Gives root P x)
    (hf : ∀ a, P a → Gives root Q (f a)) : Gives root Q (x >>= f) := by
  intro indexes hindexes b rest hb
  obtain ⟨a, between, ha, hb⟩ := Eval.bind_eq_ok.1 hb
  obtain ⟨ha, hbetween⟩ := hx indexes hindexes a between ha
  exact hf a ha between hbetween b rest hb

theorem lift {x : Except EvalError α} (h : ∀ a, x = .ok a → P a) :
    Gives root P (Eval.lift x) := by
  intro indexes hindexes b rest hb
  unfold Eval.lift at hb
  split at hb
  · cases hb
    exact ⟨h b rfl, hindexes⟩
  · cases hb

theorem lifted (x : Except EvalError α) : Gives root (fun _ => True) (Eval.lift x) :=
  .lift fun _ _ => trivial

theorem fail (e : EvalError) : Gives root P (Eval.fail e) :=
  fun _ _ _ _ h => nomatch h

/-- A run passes its indexes on from part to part. -/
theorem next {x : Indexes → Except ε (α × Indexes)} {f : α × Indexes → Except ε (β × Indexes)}
    (hx : Gives root P x) (hf : ∀ a, P a → Gives root Q fun indexes => f (a, indexes)) :
    Gives root Q fun indexes => x indexes >>= f := by
  intro indexes hindexes b rest hb
  obtain ⟨⟨a, between⟩, ha, hb⟩ := bind_eq_ok.1 hb
  obtain ⟨ha, hbetween⟩ := hx indexes hindexes a between ha
  exact hf a ha between hbetween b rest hb

theorem ended {a : α} (h : P a) :
    Gives root P fun indexes => (.ok (a, indexes) : Except ε (α × Indexes)) := by
  intro indexes hindexes b rest hb
  cases hb
  exact ⟨h, hindexes⟩

theorem throw (e : ε) : Gives root P fun _ => (.error e : Except ε (α × Indexes)) :=
  fun _ _ _ _ h => nomatch h

end Gives

/-- A setting whose document, variables and keys are sound. -/
structure Setting.Sound (s : Setting) : Prop where
  root : s.root.Clean
  vars : ∀ named ∈ s.vars, AllSound s.root named.2
  index : ∀ name, Gives s.root (fun index => AllSound s.root (index.map (·.2))) (s.index name)

/-- A focus on sound items. -/
structure Focus.Sound (root : Node) (focus : Focus) : Prop where
  item : focus.item.Sound root
  current : focus.current.Sound root

theorem Focus.Sound.on {item : Item} (h : item.Sound root) : (Focus.on item).Sound root :=
  ⟨h, h⟩

theorem Focus.Sound.moved {focus : Focus} (h : focus.Sound root) {item : Item}
    (hitem : item.Sound root) (i n : ℕ) :
    Focus.Sound root { focus with item := item, position := i, size := n } :=
  ⟨hitem, h.current⟩

theorem AllSound.nil : AllSound root [] := nofun

theorem AllSound.one {item : Item} (h : item.Sound root) : AllSound root [item] :=
  List.forall_mem_singleton.2 h

theorem AllSound.map_snd {index : Index} {item : Item} {t : String}
    (h : AllSound root (index.map (·.2))) (hmem : (t, item) ∈ index) : item.Sound root :=
  h item (List.mem_map_of_mem hmem)

theorem AllSound.ite {b : Bool} {x y : Sequence} (hx : AllSound root x) (hy : AllSound root y) :
    AllSound root (if b then x else y) := by
  cases b
  · exact hy
  · exact hx

theorem gives_joined {f : Item → ℕ → Eval Sequence}
    (hf : ∀ item i, item.Sound root → Gives root (AllSound root) (f item i)) :
    ∀ (items : Sequence) (i : ℕ), AllSound root items →
      Gives root (AllSound root) (Eval.joined f items i)
  | [], _, _ => .pure .nil
  | item :: rest, i, h => by
    rw [AllSound, List.forall_mem_cons] at h
    exact (hf item i h.1).bind fun first hfirst =>
      (gives_joined hf rest (i + 1) h.2).bind fun more hmore => .pure (hfirst.append hmore)

namespace Setting

variable {s : Setting} {focus : Focus}

/-- What a predicate is evaluated by gives sound items at every focus. -/
abbrev GivesSound (root : Node) (x : Focus → Eval Sequence) : Prop :=
  ∀ focus, focus.Sound root → Gives root (AllSound root) (x focus)

theorem gives_keep {holds : Focus → Eval Sequence} (hholds : GivesSound root holds)
    (hfocus : focus.Sound root) (size : ℕ) : ∀ (items : Sequence) (i : ℕ), AllSound root items →
      Gives root (AllSound root) (keep holds focus size items i)
  | [], _, _ => .pure .nil
  | item :: rest, i, h => by
    rw [AllSound, List.forall_mem_cons] at h
    unfold keep
    refine (hholds _ (hfocus.moved h.1 i size)).bind fun result _ => ?_
    have htail : ∀ kept : Bool, Gives root (AllSound root) (do
        let more ← keep holds focus size rest (i + 1)
        return if kept then item :: more else more : Eval Sequence) := fun kept =>
      (gives_keep hholds hfocus size rest (i + 1) h.2).bind fun more hmore =>
        .pure (.ite (List.forall_mem_cons.2 ⟨h.1, hmore⟩) hmore)
    dsimp only
    split
    · exact Gives.bind (.pure trivial) fun kept (_ : True) => htail kept
    · exact (Gives.lifted _).bind fun kept _ => htail kept

theorem gives_keepAll (hfocus : focus.Sound root) :
    ∀ (ps : List (Focus → Eval Sequence)) (items : Sequence), (∀ p ∈ ps, GivesSound root p) →
      AllSound root items → Gives root (AllSound root) (keepAll focus ps items)
  | [], _, _, h => .pure h
  | p :: ps, items, hps, h => by
    rw [List.forall_mem_cons] at hps
    exact (gives_keep hps.1 hfocus _ items 1 h).bind fun kept hkept =>
      gives_keepAll hfocus ps kept hps.2 hkept

theorem gives_stringOr (hs : s.Sound) (hfocus : focus.Sound s.root) {arg : Option (Eval Sequence)}
    (harg : ∀ x ∈ arg, Gives s.root (AllSound s.root) x) :
    Gives s.root XmlText (s.stringOr focus arg) := by
  cases arg with
  | none => exact .pure (hfocus.item.stringValue hs.root)
  | some x => exact (harg x rfl).bind fun items h => .pure (h.firstString hs.root)

theorem gives_concatAll (hs : s.Sound) : ∀ {args : List (Eval Sequence)},
    (∀ x ∈ args, Gives s.root (AllSound s.root) x) → Gives s.root XmlText (s.concatAll args)
  | [], _ => .pure .empty
  | x :: rest, h => by
    rw [List.forall_mem_cons] at h
    exact h.1.bind fun items hitems => (gives_concatAll hs h.2).bind fun more hmore =>
      .pure ((hitems.firstString hs.root).append hmore)

theorem gives_itemOr (x : Option (Eval Sequence))
    (h : ∀ y ∈ x, Gives root (AllSound root) y) : Gives root (fun _ => True) (itemOr focus x) := by
  cases x with
  | none => exact .pure trivial
  | some y => exact (h y rfl).bind fun _ _ => .pure trivial

theorem allSound_keyed {index : Index} (h : AllSound s.root (index.map (·.2))) (values : Sequence)
    (top : Option Item) : AllSound s.root (s.keyed index values top) := by
  have hlookup : AllSound s.root (lookup s.root index values) := by
    intro item hitem
    obtain ⟨v, -, hitem⟩ := List.mem_flatMap.1 hitem
    obtain ⟨⟨t, _⟩, hpair, rfl⟩ := List.mem_map.1 hitem
    exact h.map_snd (List.mem_filter.1 hpair).1
  unfold keyed
  refine AllSound.inDocumentOrder ?_
  cases top with
  | none => exact hlookup
  | some top => exact hlookup.of_subset (List.filter_subset_self _)

theorem allSound_distinct (hroot : root.Clean) : ∀ {items : Sequence} (seen : List String),
    AllSound root items → AllSound root (Library.distinct root seen items)
  | [], _, _ => .nil
  | item :: rest, seen, h => by
    rw [AllSound, List.forall_mem_cons] at h
    unfold Library.distinct
    dsimp only
    split
    · exact allSound_distinct hroot seen h.2
    · refine List.forall_mem_cons.2 ⟨?_, allSound_distinct hroot _ h.2⟩
      split
      · trivial
      · trivial
      · exact h.1.stringValue hroot

theorem allSound_text {t : String} (h : XmlText t) : AllSound root (text t) := .one h

/-- The arguments of a call are evaluated to sound items, whichever of them are there. -/
theorem gives_argument {args : List (Eval Sequence)}
    (hargs : ∀ x ∈ args, Gives root (AllSound root) x) (i : ℕ) :
    Gives root (AllSound root) (argument args i) := by
  unfold argument
  split
  · case h_1 x hx => exact hargs x (List.mem_of_getElem? hx)
  · exact .fail _

/-- **A call gives sound items.** -/
theorem gives_call (hs : s.Sound) (hfocus : focus.Sound s.root) (f : CoreFunction)
    {args : List (Eval Sequence)} (hargs : ∀ x ∈ args, Gives s.root (AllSound s.root) x) :
    Gives s.root (AllSound s.root) (s.call focus f args) := by
  have hgiven : ∀ i, ∀ x ∈ args[i]?, Gives s.root (AllSound s.root) x :=
    fun i x hx => hargs x (List.mem_of_getElem? hx)
  have hstr : ∀ i, Gives s.root XmlText (s.stringOr focus args[i]?) :=
    fun i => gives_stringOr hs hfocus (hgiven i)
  have hname : ∀ name : Item → String, (∀ item, XmlText (name item)) → ∀ item? : Option Item,
      AllSound s.root (text ((item?.map name).getD "")) := by
    intro name h item?
    refine allSound_text (xmlText_getD fun t ht => ?_)
    obtain ⟨item, -, rfl⟩ := Option.map_eq_some_iff.1 ht
    exact h item
  unfold call
  cases f
  case count | empty | «exists» =>
    exact (gives_argument hargs 0).bind fun _ _ => .pure (.one trivial)
  case not | boolean =>
    exact (gives_argument hargs 0).bind fun _ _ => (Gives.lifted _).bind fun _ _ =>
      .pure (.one trivial)
  case true | false => exact .pure (.one trivial)
  case string => exact (hstr 0).bind fun _ h => .pure (.one h)
  case stringLength => exact (hstr 0).bind fun _ _ => .pure (.one trivial)
  case normalizeSpace => exact (hstr 0).bind fun _ h => .pure (.one (Text.xmlText_normalizeSpace h))
  case concat => exact (gives_concatAll hs hargs).bind fun _ h => .pure (.one h)
  case contains | startsWith | endsWith =>
    exact (hstr 0).bind fun _ _ => (hstr 1).bind fun _ _ => .pure (.one trivial)
  case substringBefore =>
    exact (hstr 0).bind fun _ h => (hstr 1).bind fun _ _ =>
      .pure (.one (Library.xmlText_substringBefore h _))
  case substringAfter =>
    exact (hstr 0).bind fun _ h => (hstr 1).bind fun _ _ =>
      .pure (.one (Library.xmlText_substringAfter h _))
  case substring =>
    refine (hstr 0).bind fun _ h => (gives_argument hargs 1).bind fun _ _ => ?_
    dsimp only
    split
    · case h_1 x hx =>
      exact (hgiven 2 x hx).bind fun _ _ => .pure (.one (Library.xmlText_substring h _ _))
    · exact .pure (.one (Library.xmlText_substring h _ _))
  case translate =>
    exact (hstr 0).bind fun _ h => (hstr 1).bind fun _ _ => (hstr 2).bind fun _ htarget =>
      .pure (.one (Library.xmlText_translate h htarget))
  case number =>
    dsimp only
    split
    · case h_1 x hx => exact (hgiven 0 x hx).bind fun _ _ => .pure (.one trivial)
    · exact .pure (.one trivial)
  case sum => exact (gives_argument hargs 0).bind fun _ _ => .pure (.one trivial)
  case name =>
    exact (gives_itemOr _ (hgiven 0)).bind fun item? _ =>
      .pure (hname _ (Library.xmlText_name hs.root) item?)
  case localName =>
    exact (gives_itemOr _ (hgiven 0)).bind fun item? _ =>
      .pure (hname _ (Library.xmlText_localName hs.root) item?)
  case namespaceUri =>
    exact (gives_itemOr _ (hgiven 0)).bind fun item? _ =>
      .pure (hname _ (Library.xmlText_namespaceUri hs.root) item?)
  case «matches» =>
    refine (hstr 0).bind fun _ _ => (hstr 1).bind fun _ _ => ?_
    dsimp only
    split
    · case h_1 x hx =>
      exact (hgiven 2 x hx).bind fun _ _ => Gives.bind (.pure trivial) fun _ (_ : True) =>
        (Gives.lifted _).bind fun _ _ => .pure (.one trivial)
    · exact Gives.bind (.pure trivial) fun _ (_ : True) =>
        (Gives.lifted _).bind fun _ _ => .pure (.one trivial)
  case lowerCase => exact (hstr 0).bind fun _ h => .pure (.one (Text.xmlText_toLower h))
  case upperCase => exact (hstr 0).bind fun _ h => .pure (.one (Text.xmlText_toUpper h))
  case stringJoin =>
    have htail : ∀ separator, XmlText separator → Gives s.root (AllSound s.root) (do
        let items ← argument args 0
        return text (separator.intercalate (items.map (·.stringValue s.root))) : Eval Sequence) :=
      fun separator hseparator => (gives_argument hargs 0).bind fun items hitems =>
        .pure (.one (hseparator.intercalate (List.forall_mem_map.2 fun item hitem =>
          (hitems item hitem).stringValue hs.root)))
    dsimp only
    split
    · case h_1 x hx =>
      exact (hgiven 1 x hx).bind fun items hitems =>
        Gives.bind (.pure (hitems.firstString hs.root)) htail
    · exact Gives.bind (.pure .empty) htail
  case distinctValues =>
    exact (gives_argument hargs 0).bind fun _ h => .pure (allSound_distinct hs.root _ h)
  case position | last => exact .pure (.one trivial)
  case current => exact .pure (.one hfocus.current)
  case key =>
    refine (hstr 0).bind fun name _ => (hs.index name).bind fun index hindex => ?_
    dsimp only
    split
    · exact (gives_argument hargs 1).bind fun _ _ => .pure (allSound_keyed hindex _ _)
    · case h_2 x hx =>
      refine (hgiven 2 x hx).bind fun tops _ => ?_
      split
      · exact .pure .nil
      · split
        · exact (gives_argument hargs 1).bind fun _ _ => .pure (allSound_keyed hindex _ _)
        · exact .fail _

theorem mem_of_lookup_eq_some {named : List (String × α)} {name : String} {a : α}
    (h : named.lookup name = some a) : (name, a) ∈ named := by
  obtain ⟨before, behind, rfl, -⟩ := List.lookup_eq_some_iff.1 h
  simp

theorem gives_rootFrom (item : Item) : Gives root (AllSound root) (rootFrom item) := by
  unfold rootFrom
  split
  · exact .pure (.one (Item.sound_root root))
  · exact .pure (.one (Item.sound_root root))
  · exact .fail _

/-- Conditions are evaluated to a truth value, which is a sound item. -/
theorem gives_condition {x : Eval Sequence} {y : Bool → Eval Sequence}
    (hx : Gives root (AllSound root) x) (hy : ∀ b, Gives root (AllSound root) (y b)) :
    Gives root (AllSound root) (x >>= fun items => Eval.lift (effectiveBoolean items) >>= y) :=
  hx.bind fun _ _ => (Gives.lifted _).bind fun b _ => hy b

/-- Operands are single items, or missing. -/
theorem gives_operand {x : Eval Sequence} {y : Option Item → Eval Sequence}
    (hx : Gives root (AllSound root) x) (hy : ∀ i, Gives root (AllSound root) (y i)) :
    Gives root (AllSound root) (x >>= fun items => Eval.lift (atMostOne items) >>= y) :=
  hx.bind fun _ _ => (Gives.lifted _).bind fun i _ => hy i

mutual

/-- **An expression gives sound items** in a sound setting. -/
theorem gives_eval (hs : s.Sound) : ∀ (e : Expr) (focus : Focus), e.Clean →
    focus.Sound s.root → Gives s.root (AllSound s.root) (s.eval focus e)
  | .literal t, focus, he, _ => by
    unfold eval
    unfold Expr.Clean at he
    exact .pure (.one he)
  | .number x, focus, _, _ => by
    unfold eval
    exact .pure (.one trivial)
  | .var name, focus, _, _ => by
    unfold eval
    split
    · case h_1 items h =>
      exact .pure (hs.vars _ (mem_of_lookup_eq_some h))
    · exact .fail _
  | .root, focus, _, _ => by
    unfold eval
    exact gives_rootFrom _
  | .step axis test predicates, focus, he, hfocus => by
    unfold eval
    unfold Expr.Clean at he
    split
    · exact .fail _
    · case h_2 items h =>
      refine (gives_keepAll hfocus _ items (gives_predicatesOf hs predicates he)
        (allSound_candidates h)).bind fun kept hkept => .pure ?_
      exact .ite (hkept.of_subset (List.reverse_subset.2 (List.Subset.refl _))) hkept
  | .slash base step, focus, he, hfocus => by
    unfold eval
    unfold Expr.Clean at he
    refine (gives_eval hs base focus he.1 hfocus).bind fun items hitems => ?_
    refine (gives_joined (fun item i hitem => ?_) items 1 hitems).bind fun result hresult =>
      .pure (.ite hresult.inDocumentOrder hresult)
    split
    · exact gives_eval hs step _ he.2 (hfocus.moved hitem _ _)
    · exact .fail _
  | .filter primary predicates, focus, he, hfocus => by
    unfold eval
    unfold Expr.Clean at he
    exact (gives_eval hs primary focus he.1 hfocus).bind fun items hitems =>
      gives_keepAll hfocus _ items (gives_predicatesOf hs predicates he.2) hitems
  | .sequence parts, focus, he, hfocus => by
    unfold eval
    unfold Expr.Clean at he
    refine (gives_evalAll hs parts focus he hfocus).bind fun results hresults => .pure ?_
    exact fun item hitem => by
      obtain ⟨items, hitems, hitem⟩ := List.mem_flatten.1 hitem
      exact hresults items hitems item hitem
  | .union left right, focus, he, hfocus => by
    unfold eval
    unfold Expr.Clean at he
    refine (gives_eval hs left focus he.1 hfocus).bind fun a ha =>
      (gives_eval hs right focus he.2 hfocus).bind fun b hb => ?_
    split
    · exact .pure (ha.append hb).inDocumentOrder
    · exact .fail _
  | .or left right, focus, he, hfocus => by
    unfold eval
    unfold Expr.Clean at he
    refine gives_condition (gives_eval hs left focus he.1 hfocus) fun b => ?_
    split
    · exact .pure (.one trivial)
    · exact gives_condition (gives_eval hs right focus he.2 hfocus) fun _ => .pure (.one trivial)
  | .and left right, focus, he, hfocus => by
    unfold eval
    unfold Expr.Clean at he
    refine gives_condition (gives_eval hs left focus he.1 hfocus) fun b => ?_
    split
    · exact gives_condition (gives_eval hs right focus he.2 hfocus) fun _ => .pure (.one trivial)
    · exact .pure (.one trivial)
  | .general relation left right, focus, he, hfocus => by
    unfold eval
    unfold Expr.Clean at he
    exact (gives_eval hs left focus he.1 hfocus).bind fun _ _ =>
      (gives_eval hs right focus he.2 hfocus).bind fun _ _ =>
        (Gives.lifted _).bind fun _ _ => .pure (.one trivial)
  | .value relation left right, focus, he, hfocus => by
    unfold eval
    unfold Expr.Clean at he
    refine gives_operand (gives_eval hs left focus he.1 hfocus) fun a =>
      gives_operand (gives_eval hs right focus he.2 hfocus) fun b => ?_
    split
    · exact .pure (.one trivial)
    · exact .pure .nil
  | .arithmetic operator left right, focus, he, hfocus => by
    unfold eval
    unfold Expr.Clean at he
    refine gives_operand (gives_eval hs left focus he.1 hfocus) fun a =>
      gives_operand (gives_eval hs right focus he.2 hfocus) fun b => ?_
    split
    · exact .pure (.one trivial)
    · exact .pure .nil
  | .negate operand, focus, he, hfocus => by
    unfold eval
    unfold Expr.Clean at he
    refine gives_operand (gives_eval hs operand focus he hfocus) fun a => ?_
    split
    · exact .pure (.one trivial)
    · exact .pure .nil
  | .call f arguments, focus, he, hfocus => by
    unfold eval
    unfold Expr.Clean at he
    exact gives_call hs hfocus f (gives_argumentsOf hs arguments focus he hfocus)

theorem gives_predicatesOf (hs : s.Sound) : ∀ es : List Expr, Expr.AllClean es →
    ∀ p ∈ predicatesOf s es, GivesSound s.root p
  | [], _ => nofun
  | e :: es, h => by
    unfold predicatesOf
    unfold Expr.AllClean at h
    exact List.forall_mem_cons.2
      ⟨fun focus hfocus => gives_eval hs e focus h.1 hfocus, gives_predicatesOf hs es h.2⟩

theorem gives_argumentsOf (hs : s.Sound) : ∀ (es : List Expr) (focus : Focus),
    Expr.AllClean es → focus.Sound s.root →
    ∀ x ∈ argumentsOf s focus es, Gives s.root (AllSound s.root) x
  | [], _, _, _ => nofun
  | e :: es, focus, h, hfocus => by
    unfold argumentsOf
    unfold Expr.AllClean at h
    exact List.forall_mem_cons.2
      ⟨gives_eval hs e focus h.1 hfocus, gives_argumentsOf hs es focus h.2 hfocus⟩

theorem gives_evalAll (hs : s.Sound) : ∀ (es : List Expr) (focus : Focus),
    Expr.AllClean es → focus.Sound s.root →
    Gives s.root (fun results => ∀ items ∈ results, AllSound s.root items) (evalAll s focus es)
  | [], _, _, _ => by
    unfold evalAll
    exact .pure nofun
  | e :: es, focus, h, hfocus => by
    unfold evalAll
    unfold Expr.AllClean at h
    exact (gives_eval hs e focus h.1 hfocus).bind fun first hfirst =>
      (gives_evalAll hs es focus h.2 hfocus).bind fun more hmore =>
        .pure (List.forall_mem_cons.2 ⟨hfirst, hmore⟩)

end

end Setting

/-! ## Keys -/

/-- Keys whose expressions have literals that can be written. -/
def Keys.Clean (keys : Keys) : Prop :=
  ∀ named ∈ keys, named.2.pattern.Clean ∧ named.2.value.Clean

theorem sound_keyless {vars : Variables} (hroot : root.Clean)
    (hvars : ∀ named ∈ vars, AllSound root named.2) : (keyless root vars).Sound :=
  ⟨hroot, hvars, fun _ => .fail _⟩

theorem gives_indexItems {s : Setting} (hs : s.Sound) {value : Expr} (hvalue : value.Clean) :
    ∀ items : Sequence, AllSound s.root items →
      Gives s.root (fun index => AllSound s.root (index.map (·.2))) (indexItems s value items)
  | [], _ => .pure .nil
  | item :: rest, h => by
    rw [AllSound, List.forall_mem_cons] at h
    refine (s.gives_eval hs value _ hvalue (.on h.1)).bind fun values _ =>
      (gives_indexItems hs hvalue rest h.2).bind fun more hmore => .pure ?_
    rw [List.map_append, List.map_map]
    exact .append (List.forall_mem_map.2 fun _ _ => h.1) hmore

theorem gives_buildIndex {s : Setting} (hs : s.Sound) : ∀ definitions : List KeyDefinition,
    (∀ d ∈ definitions, d.pattern.Clean ∧ d.value.Clean) →
      Gives s.root (fun index => AllSound s.root (index.map (·.2))) (buildIndex s definitions)
  | [], _ => .pure .nil
  | d :: rest, h => by
    rw [List.forall_mem_cons] at h
    refine (s.gives_eval hs _ _ h.1.1.body (.on (Item.sound_root _))).bind fun items hitems =>
      (gives_indexItems hs h.1.2.body items hitems).bind fun first hfirst =>
        (gives_buildIndex hs rest h.2).bind fun more hmore => .pure ?_
    rw [List.map_append]
    exact hfirst.append hmore

/-- An index that is found was built from sound items, and so is one that is built now. -/
theorem gives_indexOf {vars : Variables} {keys : Keys} (hroot : root.Clean)
    (hvars : ∀ named ∈ vars, AllSound root named.2) (hkeys : keys.Clean) (name : String) :
    Gives root (fun index => AllSound root (index.map (·.2))) (indexOf root vars keys name) := by
  intro indexes hindexes index rest h
  unfold indexOf at h
  split at h
  · case h_1 found hfound =>
    cases h
    exact ⟨hindexes _ (Setting.mem_of_lookup_eq_some hfound), hindexes⟩
  · split at h
    · cases h
    · split at h
      · case h_1 built _ hbuilt =>
        cases h
        have hdefinitions : ∀ d ∈ keys.named name, d.pattern.Clean ∧ d.value.Clean := by
          intro d hd
          obtain ⟨named, hnamed, rfl⟩ := List.mem_map.1 hd
          exact hkeys named (List.mem_filter.1 hnamed).1
        obtain ⟨hindex, -⟩ := gives_buildIndex (sound_keyless hroot hvars) _ hdefinitions [] nofun
          _ _ hbuilt
        exact ⟨hindex, List.forall_mem_cons.2 ⟨hindex, hindexes⟩⟩
      · cases h

theorem sound_setting {vars : Variables} {keys : Keys} (hroot : root.Clean)
    (hvars : ∀ named ∈ vars, AllSound root named.2) (hkeys : keys.Clean) :
    (setting root keys vars).Sound :=
  ⟨hroot, hvars, gives_indexOf hroot hvars hkeys⟩

/-! ## Expressions with their text -/

namespace Expression

variable {e : Expression} {keys : Keys} {vars : Variables} {item : Item}

/-- **What an expression gives can be written and found.** -/
theorem gives_evaluate (he : e.Clean) (hroot : root.Clean) (hkeys : keys.Clean)
    (hvars : ∀ named ∈ vars, AllSound root named.2) (hitem : item.Sound root) :
    Gives root (AllSound root) (e.evaluate root keys vars item) := by
  intro indexes hindexes items rest h
  have hgives := (setting root keys vars).gives_eval (sound_setting hroot hvars hkeys) e.body
    (.on item) he.body (.on hitem)
  change ((setting root keys vars).eval (.on item) e.body indexes).mapError _ = _ at h
  cases hx : (setting root keys vars).eval (.on item) e.body indexes with
  | ok result =>
    rw [hx] at h
    cases h
    exact hgives indexes hindexes items rest hx
  | error cause =>
    rw [hx] at h
    cases h

theorem gives_evaluateBoolean (he : e.Clean) (hroot : root.Clean) (hkeys : keys.Clean)
    (hvars : ∀ named ∈ vars, AllSound root named.2) (hitem : item.Sound root) :
    Gives root (fun _ => True) (e.evaluateBoolean root keys vars item) := by
  refine (gives_evaluate he hroot hkeys hvars hitem).next fun items _ => ?_
  dsimp only
  split
  · exact .ended trivial
  · exact .throw _

theorem gives_evaluateString (he : e.Clean) (hroot : root.Clean) (hkeys : keys.Clean)
    (hvars : ∀ named ∈ vars, AllSound root named.2) (hitem : item.Sound root) :
    Gives root XmlText (e.evaluateString root keys vars item) := by
  refine (gives_evaluate he hroot hkeys hvars hitem).next fun items hitems => .ended ?_
  have hspace : XmlText " " := by decide
  exact hspace.intercalate (List.forall_mem_map.2 fun i hi => (hitems i hi).stringValue hroot)

end Expression

end XmlConformance.Path
