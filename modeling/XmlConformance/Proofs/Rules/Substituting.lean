import Mathlib.Data.List.Infix
import Mathlib.Data.List.Perm.Basic
import Mathlib.Data.List.TakeWhile
import XmlConformance.Proofs.Xml.Reading
import XmlConformance.Rules.Abstraction

/-!
# Proofs/Rules/Substituting — parameters replaced one by one, and all at once

A reference is a dollar sign with the longest name that follows it. Replacing parameters at once
replaces every reference to one of them and leaves everything else alone (`replacedAtOnce`). An
instance replaces them one by one, longer names first, wherever a dollar sign stands in front of the
name (`substitute`). Both give the same, in whatever order the parameters are declared, if no value
holds a dollar sign with a parameter's name behind it, no reference to something else begins with a
parameter's name, and no value continues the name in front of it (`substitute_longestFirst`). Each
of the three is needed (`substitute_ne_replacedAtOnce`).
-/

namespace XmlConformance.Rules

open Xml

/-! ## References and parameters -/

/-- The value of the parameter with a given name. -/
def valueOf? (ps : Parameters) (name : List Char) : Option String :=
  ps.lookup (String.ofList name)

/-- Replaces the references to parameters; the next `skip` characters belong to one already. -/
def replacedFrom (ps : Parameters) : (skip : ℕ) → List Char → List Char
  | _, [] => []
  | skip + 1, _ :: cs => replacedFrom ps skip cs
  | 0, c :: cs =>
    match if c = '$' then valueOf? ps (cs.takeWhile isNameChar) else none with
    | some v => v.toList ++ replacedFrom ps (cs.takeWhile isNameChar).length cs
    | none => c :: replacedFrom ps 0 cs

/-- **A text with all references to parameters replaced at once.** -/
def replacedAtOnce (ps : Parameters) (text : String) : String :=
  String.ofList (replacedFrom ps 0 text.toList)

/-- Parameters in the order in which they are replaced one by one. -/
def longestFirst (ps : Parameters) : Parameters :=
  ps.mergeSort fun a b => a.1.utf8ByteSize ≥ b.1.utf8ByteSize

/-- The values that an instance gives to parameters, in the order in which it declares them. -/
def givenParameters (content : List Node) : Parameters :=
  (rulesNamed "param" content).filterMap fun (t, _) =>
    match t.plain? "name", t.plain? "value" with
    | some name, some value => some (name, value)
    | _, _ => none

/-- **The parameters of an instance** are those that it is given, in the order in which they are
replaced. -/
theorem parametersOf_eq (content : List Node) :
    parametersOf content = longestFirst (givenParameters content) := rfl

/-- Whether what follows a name ends it. -/
def EndsName (cs : List Char) : Prop := ∀ c ∈ cs.head?, isNameChar c = false

/-- **A text in which parameters can be replaced one by one.** -/
structure Settled (ps : Parameters) (text : List Char) : Prop where
  /-- A value is not scanned again. -/
  values : ∀ p ∈ ps, ∀ q ∈ ps, ¬ '$' :: p.1.toList <:+: q.2.toList
  /-- A reference to something else is not taken for one to a parameter with a shorter name. -/
  others : ∀ after, '$' :: after <:+ text → valueOf? ps (after.takeWhile isNameChar) = none →
    ∀ p ∈ ps, ¬ p.1.toList <+: after.takeWhile isNameChar
  /-- The value of a reference that directly follows another one does not continue its name. -/
  apart : ∀ after more, '$' :: after <:+ text → after.dropWhile isNameChar = '$' :: more →
    ∀ v ∈ valueOf? ps (more.takeWhile isNameChar), v ≠ "" ∧ EndsName v.toList

/-! ## All parameters at once -/

section AtOnce

variable {ps qs : Parameters} {cs : List Char}

theorem replacedFrom_length (ps : Parameters) : ∀ cs rest : List Char,
    replacedFrom ps cs.length (cs ++ rest) = replacedFrom ps 0 rest
  | [], _ => rfl
  | _ :: cs, rest => replacedFrom_length ps cs rest

theorem replacedFrom_cons {c : Char} (h : c ≠ '$') (cs : List Char) :
    replacedFrom ps 0 (c :: cs) = c :: replacedFrom ps 0 cs := by
  rw [replacedFrom, if_neg h]

theorem replacedFrom_append (h : '$' ∉ cs) (rest : List Char) :
    replacedFrom ps 0 (cs ++ rest) = cs ++ replacedFrom ps 0 rest := by
  induction cs with
  | nil => rfl
  | cons c cs ih =>
    rw [List.mem_cons, not_or] at h
    rw [List.cons_append, replacedFrom_cons (Ne.symm h.1), ih h.2, List.cons_append]

theorem notMem_takeWhile_isNameChar (cs : List Char) : '$' ∉ cs.takeWhile isNameChar :=
  fun h => absurd (List.mem_takeWhile_imp h) (by decide)

/-- **A reference to a parameter is replaced by its value.** -/
theorem replacedFrom_of_some {v : String} (h : valueOf? ps (cs.takeWhile isNameChar) = some v) :
    replacedFrom ps 0 ('$' :: cs) = v.toList ++ replacedFrom ps 0 (cs.dropWhile isNameChar) := by
  have hsplit : cs.takeWhile isNameChar ++ cs.dropWhile isNameChar = cs :=
    List.takeWhile_append_dropWhile
  have hrest := replacedFrom_length ps (cs.takeWhile isNameChar) (cs.dropWhile isNameChar)
  rw [hsplit] at hrest
  rw [replacedFrom, if_pos rfl, h, ← hrest]

/-- **A reference to something else stays.** -/
theorem replacedFrom_of_none (h : valueOf? ps (cs.takeWhile isNameChar) = none) :
    replacedFrom ps 0 ('$' :: cs) =
      '$' :: cs.takeWhile isNameChar ++ replacedFrom ps 0 (cs.dropWhile isNameChar) := by
  have hrest := @replacedFrom_append ps _ (notMem_takeWhile_isNameChar cs)
    (cs.dropWhile isNameChar)
  rw [List.takeWhile_append_dropWhile] at hrest
  rw [replacedFrom, if_pos rfl, h, hrest, List.cons_append]

theorem replacedFrom_nil : ∀ cs : List Char, replacedFrom [] 0 cs = cs
  | [] => rfl
  | c :: cs => by
    have hnone : (if c = '$' then valueOf? [] (cs.takeWhile isNameChar) else none) = none := by
      split <;> rfl
    rw [replacedFrom, hnone, replacedFrom_nil cs]

theorem replacedFrom_congr (h : ∀ name, valueOf? ps name = valueOf? qs name) :
    ∀ (skip : ℕ) (cs : List Char), replacedFrom ps skip cs = replacedFrom qs skip cs
  | _, [] => rfl
  | skip + 1, _ :: cs => replacedFrom_congr h skip cs
  | 0, c :: cs => by
    simp only [replacedFrom, h, replacedFrom_congr h _ cs]

theorem mem_of_valueOf? {name : List Char} {v : String} (h : valueOf? ps name = some v) :
    ∃ p ∈ ps, p.1.toList = name ∧ p.2 = v := by
  obtain ⟨before, after, rfl, -⟩ := List.lookup_eq_some_iff.1 h
  exact ⟨(String.ofList name, v), by simp, String.toList_ofList, rfl⟩

theorem valueOf?_concat (qs : Parameters) (p : String × String) (name : List Char) :
    valueOf? (qs ++ [p]) name =
      (valueOf? qs name).or (if name = p.1.toList then some p.2 else none) := by
  have hname : (String.ofList name == p.1) = decide (name = p.1.toList) := by
    rw [Bool.eq_iff_iff, beq_iff_eq, decide_eq_true_iff, ← String.toList_inj, String.toList_ofList]
  rw [valueOf?, valueOf?, List.lookup_append, List.lookup_singleton, hname]
  simp only [decide_eq_true_eq]

/-- The order of parameters does not matter as long as their names differ. -/
theorem valueOf?_perm (h : ps.Perm qs) (hnodup : (ps.map Prod.fst).Nodup) (name : List Char) :
    valueOf? ps name = valueOf? qs name := by
  unfold valueOf?
  induction h with
  | nil => rfl
  | cons p _ ih =>
    rw [List.lookup_cons, List.lookup_cons, ih (List.nodup_cons.1 hnodup).2]
  | swap p q rest =>
    obtain ⟨a, v⟩ := p
    obtain ⟨b, w⟩ := q
    have hne : b ≠ a := fun h => (List.nodup_cons.1 hnodup).1 (by simp [h])
    simp only [List.lookup_cons]
    by_cases ha : String.ofList name = a
    · rw [ha, beq_self_eq_true, beq_false_of_ne (Ne.symm hne)]
    · rw [beq_false_of_ne ha]
  | trans h₁ _ ih₁ ih₂ =>
    exact (ih₁ hnodup).trans (ih₂ ((h₁.map Prod.fst).nodup_iff.1 hnodup))

end AtOnce

/-! ## One parameter -/

section One

variable {name value cs rest : List Char}

theorem replaceFrom_length (target value : List Char) : ∀ cs rest : List Char,
    replaceFrom target value cs.length (cs ++ rest) = replaceFrom target value 0 rest
  | [], rest => by cases rest <;> rfl
  | _ :: cs, rest => replaceFrom_length target value cs rest

/-- A name at the front of a text does not reach beyond the end of a name. -/
theorem prefix_append_iff_of_endsName (hname : ∀ c ∈ name, isNameChar c = true)
    (hrest : EndsName rest) : name <+: cs ++ rest ↔ name <+: cs := by
  refine ⟨fun h => ?_, List.prefix_append_of_prefix⟩
  rcases List.prefix_or_prefix_of_prefix h (List.prefix_append cs rest) with hcs | ⟨more, rfl⟩
  · exact hcs
  · cases more with
    | nil => rw [List.append_nil]
    | cons c more =>
      obtain ⟨_, rfl⟩ := (List.prefix_append_right_inj cs).1 h
      have hc := hname c (by simp)
      rw [hrest c rfl] at hc
      cases hc

/-- **What holds no dollar sign with the name behind it stays**, whatever follows it. -/
theorem replaceFrom_append (hname : ∀ c ∈ name, isNameChar c = true) (hrest : EndsName rest)
    (h : ¬ '$' :: name <:+: cs) : replaceFrom ('$' :: name) value 0 (cs ++ rest) =
      cs ++ replaceFrom ('$' :: name) value 0 rest := by
  induction cs with
  | nil => rfl
  | cons c cs ih =>
    rw [List.infix_cons_iff, not_or] at h
    have hfront : ('$' :: name).isPrefixOf (c :: cs ++ rest) = false := by
      rw [Bool.eq_false_iff, ne_eq, List.isPrefixOf_iff_prefix, List.cons_append,
        List.cons_prefix_cons, prefix_append_iff_of_endsName hname hrest]
      exact fun h' => h.1 (List.cons_prefix_cons.2 h')
    rw [List.cons_append] at hfront
    rw [List.cons_append, replaceFrom, hfront, if_neg Bool.false_ne_true, ih h.2, List.cons_append]

/-- **A dollar sign with the name behind it is replaced.** -/
theorem replaceFrom_target (name value rest : List Char) :
    replaceFrom ('$' :: name) value 0 ('$' :: name ++ rest) =
      value ++ replaceFrom ('$' :: name) value 0 rest := by
  have hfront : ('$' :: name).isPrefixOf ('$' :: (name ++ rest)) = true :=
    List.isPrefixOf_iff_prefix.2 (List.prefix_append ('$' :: name) rest)
  rw [List.cons_append, replaceFrom, if_pos hfront, List.length_cons, Nat.add_sub_cancel,
    replaceFrom_length]

/-- **What holds no dollar sign stays.** -/
theorem replaceFrom_of_notMem : ∀ {cs : List Char}, '$' ∉ cs →
    replaceFrom ('$' :: name) value 0 cs = cs
  | [], _ => rfl
  | c :: cs, h => by
    rw [List.mem_cons, not_or] at h
    have hfront : ('$' :: name).isPrefixOf (c :: cs) = false := by
      rw [List.isPrefixOf_cons_cons, beq_false_of_ne h.1, Bool.false_and]
    rw [replaceFrom, hfront, if_neg Bool.false_ne_true, replaceFrom_of_notMem h.2]

end One

/-! ## One parameter after the other -/

/-- **A text without a dollar sign stays** as it is. -/
theorem substitute_eq_self {text : String} (h : '$' ∉ text.toList) :
    ∀ ps : Parameters, substitute ps text = text
  | [] => rfl
  | p :: ps => by
    rw [substitute, List.foldl_cons, substituteOne, replaceFrom_of_notMem h, String.ofList_toList]
    exact substitute_eq_self h ps

section OneByOne

variable {ps qs : Parameters} {p : String × String} {cs : List Char}

namespace Settled

theorem of_suffix {cs ds : List Char} (h : Settled ps cs) (hds : ds <:+ cs) : Settled ps ds where
  values := h.values
  others after hafter := h.others after (hafter.trans hds)
  apart after more hafter := h.apart after more (hafter.trans hds)

theorem perm (h : Settled ps cs) (hqs : qs.Perm ps)
    (hvalue : ∀ name, valueOf? qs name = valueOf? ps name) : Settled qs cs where
  values p hp q hq := h.values p (hqs.subset hp) q (hqs.subset hq)
  others after hafter hnone p hp := h.others after hafter (hvalue _ ▸ hnone) p (hqs.subset hp)
  apart after more hafter hmore v hv := h.apart after more hafter hmore v (hvalue _ ▸ hv)

/-- What follows a name in a settled text still ends it when some parameters are replaced. -/
theorem endsName (h : Settled ps ('$' :: cs)) (hqs : qs <+: ps) :
    EndsName (replacedFrom qs 0 (cs.dropWhile isNameChar)) := by
  cases hdrop : cs.dropWhile isNameChar with
  | nil => exact nofun
  | cons c more =>
    have hc : isNameChar c = false := by
      simpa [hdrop] using List.head?_dropWhile_not isNameChar cs
    by_cases hdollar : c = '$'
    · subst hdollar
      cases hv : valueOf? qs (more.takeWhile isNameChar) with
      | none =>
        rw [replacedFrom_of_none hv]
        rintro d ⟨⟩
        exact hc
      | some v =>
        obtain ⟨hne, hends⟩ :=
          h.apart cs more (List.suffix_refl _) hdrop v (hqs.lookup_eq_some hv)
        rw [replacedFrom_of_some hv]
        intro d hd
        rw [List.head?_append_of_ne_nil _ (by simpa using hne)] at hd
        exact hends d hd
    · rw [replacedFrom_cons hdollar]
      rintro d ⟨⟩
      exact hc

/-- A reference does not hold another parameter if that is not in front of a longer one. -/
theorem not_infix (h : Settled ps ('$' :: cs)) (hp : p ∈ ps)
    (hlonger : (valueOf? ps (cs.takeWhile isNameChar)).isSome →
      ¬ p.1.toList <+: cs.takeWhile isNameChar) :
    ¬ '$' :: p.1.toList <:+: '$' :: cs.takeWhile isNameChar := by
  rw [List.infix_cons_iff, List.cons_prefix_cons]
  rintro (⟨-, hfront⟩ | hwithin)
  · cases hsome : valueOf? ps (cs.takeWhile isNameChar) with
    | some v => exact hlonger (by rw [hsome]; rfl) hfront
    | none => exact h.others cs (List.suffix_refl _) hsome p hp hfront
  · exact notMem_takeWhile_isNameChar cs (hwithin.subset (List.mem_cons_self ..))

end Settled

/-- **One more parameter**: replacing it where others are replaced already gives the text in which
it is replaced together with them. -/
theorem replaceFrom_replacedFrom (hqs : qs ++ [p] <+: ps)
    (hname : ∀ c ∈ p.1.toList, isNameChar c = true)
    (hlonger : ∀ name, (valueOf? ps name).isSome → valueOf? qs name = none →
      p.1.toList <+: name → name = p.1.toList) :
    ∀ cs : List Char, Settled ps cs →
      replaceFrom ('$' :: p.1.toList) p.2.toList 0 (replacedFrom qs 0 cs) =
        replacedFrom (qs ++ [p]) 0 cs
  | [], _ => rfl
  | c :: cs, h => by
    have hp : p ∈ ps := hqs.subset (by simp)
    by_cases hc : c = '$'
    · subst hc
      have hqs' := (List.prefix_append qs [p]).trans hqs
      have hrest := h.endsName hqs'
      have ih := replaceFrom_replacedFrom hqs hname hlonger (cs.dropWhile isNameChar)
        (h.of_suffix ((List.dropWhile_suffix _).trans (List.suffix_cons _ cs)))
      have hvalue := valueOf?_concat qs p (cs.takeWhile isNameChar)
      cases hv : valueOf? qs (cs.takeWhile isNameChar) with
      | some v =>
        obtain ⟨q, hq, -, rfl⟩ := mem_of_valueOf? (hqs'.lookup_eq_some hv)
        rw [replacedFrom_of_some hv, replaceFrom_append hname hrest (h.values p hp q hq), ih,
          replacedFrom_of_some (by rw [hvalue, hv, Option.some_or])]
      | none =>
        rw [hv, Option.none_or] at hvalue
        rw [replacedFrom_of_none hv]
        by_cases heq : cs.takeWhile isNameChar = p.1.toList
        · rw [if_pos heq] at hvalue
          rw [replacedFrom_of_some hvalue, heq, replaceFrom_target, ih]
        · rw [if_neg heq] at hvalue
          have hkept := h.not_infix hp fun hsome hfront => heq (hlonger _ hsome hv hfront)
          rw [replacedFrom_of_none hvalue, replaceFrom_append hname hrest hkept, ih]
    · have ih := replaceFrom_replacedFrom hqs hname hlonger cs (h.of_suffix (List.suffix_cons _ cs))
      have hfront : ('$' :: p.1.toList).isPrefixOf (c :: replacedFrom qs 0 cs) = false := by
        rw [List.isPrefixOf_cons_cons, beq_false_of_ne (Ne.symm hc), Bool.false_and]
      rw [replacedFrom_cons hc, replacedFrom_cons hc, replaceFrom, hfront,
        if_neg Bool.false_ne_true, ih]
termination_by cs => cs.length
decreasing_by
  · have := (List.dropWhile_suffix isNameChar (l := cs)).length_le
    simp only [List.length_cons]
    omega
  · simp

/-- A name that begins another one is shorter. -/
theorem eq_of_prefix_of_utf8ByteSize_le {a b : String} (h : a.toList <+: b.toList)
    (hle : b.utf8ByteSize ≤ a.utf8ByteSize) : a = b := by
  obtain ⟨more, hmore⟩ := h
  obtain rfl : a ++ String.ofList more = b := by
    rw [← String.toList_inj, String.toList_append, String.toList_ofList, hmore]
  have hzero : (String.ofList more).utf8ByteSize = 0 := by
    rw [String.utf8ByteSize_append] at hle
    omega
  rw [String.utf8ByteSize_eq_zero_iff.1 hzero, String.append_empty]

/-- **One parameter after the other** gives what all at once give, if they come in an order in which
no name comes in front of one that it begins. -/
theorem foldl_substituteOne (hnames : ∀ p ∈ ps, ∀ c ∈ p.1.toList, isNameChar c = true)
    (hsorted : ps.Pairwise fun p q => p.1.utf8ByteSize ≥ q.1.utf8ByteSize)
    (h : Settled ps cs) : ∀ {qs rest : Parameters}, qs ++ rest = ps →
      (rest.foldl substituteOne (String.ofList (replacedFrom qs 0 cs))).toList =
        replacedFrom ps 0 cs
  | qs, [], hps => by
    rw [List.append_nil] at hps
    rw [hps, List.foldl_nil, String.toList_ofList]
  | qs, p :: rest, hps => by
    have hps' : (qs ++ [p]) ++ rest = ps := by rw [List.append_assoc, List.singleton_append, hps]
    have hlonger : ∀ name, (valueOf? ps name).isSome → valueOf? qs name = none →
        p.1.toList <+: name → name = p.1.toList := by
      intro name hsome hnone hfront
      obtain ⟨v, hv⟩ := Option.isSome_iff_exists.1 hsome
      obtain ⟨q, hq, rfl, -⟩ := mem_of_valueOf? hv
      have hnot : q ∉ qs := fun hmem => by
        have := List.lookup_eq_none_iff.1 hnone q hmem
        simp at this
      rw [← hps, List.mem_append, List.mem_cons] at hq
      rw [← hps] at hsorted
      rcases hq.resolve_left hnot with rfl | hq
      · rfl
      · have hle := List.rel_of_pairwise_cons (List.pairwise_append.1 hsorted).2.1 hq
        rw [eq_of_prefix_of_utf8ByteSize_le hfront hle]
    have hstep := replaceFrom_replacedFrom (hps' ▸ List.prefix_append _ rest)
      (hnames p (by simp [← hps])) hlonger cs h
    rw [List.foldl_cons, substituteOne, String.toList_ofList, hstep]
    exact foldl_substituteOne hnames hsorted h hps'

/-- **Parameters can be replaced one by one** in a settled text: whatever the order in which they
are declared, every reference to one of them is replaced, and nothing else. -/
theorem substitute_longestFirst {ps : Parameters} {text : String}
    (hnodup : (ps.map Prod.fst).Nodup) (hnames : ∀ p ∈ ps, ∀ c ∈ p.1.toList, isNameChar c = true)
    (h : Settled ps text.toList) {declared : Parameters} (hdeclared : declared.Perm ps) :
    substitute (longestFirst declared) text = replacedAtOnce ps text := by
  have hperm : (longestFirst declared).Perm ps := (List.mergeSort_perm _ _).trans hdeclared
  have hvalue := valueOf?_perm hperm ((hperm.map Prod.fst).nodup_iff.2 hnodup)
  have hsorted : (longestFirst declared).Pairwise
      fun p q => p.1.utf8ByteSize ≥ q.1.utf8ByteSize := by
    refine (List.pairwise_mergeSort ?_ ?_ declared).imp of_decide_eq_true
    · exact fun a b c hab hbc => decide_eq_true
        (Nat.le_trans (of_decide_eq_true hbc) (of_decide_eq_true hab))
    · exact fun a b => by simpa using Nat.le_total b.1.utf8ByteSize a.1.utf8ByteSize
  have hfold := foldl_substituteOne (fun p hp => hnames p (hperm.subset hp)) hsorted
    (h.perm hperm hvalue) (List.nil_append _)
  rw [replacedFrom_nil, String.ofList_toList] at hfold
  rw [← String.toList_inj, substitute, hfold, replacedAtOnce, String.toList_ofList]
  exact replacedFrom_congr hvalue 0 text.toList

end OneByOne

instance (ps : Parameters) (text : List Char) : Decidable (Settled ps text) :=
  decidable_of_iff
    ((∀ p ∈ ps, ∀ q ∈ ps, ¬ '$' :: p.1.toList <:+: q.2.toList) ∧
      ∀ t ∈ text.tails, t.head? = some '$' →
        (valueOf? ps (t.tail.takeWhile isNameChar) = none →
          ∀ p ∈ ps, ¬ p.1.toList <+: t.tail.takeWhile isNameChar) ∧
        ((t.tail.dropWhile isNameChar).head? = some '$' →
          ∀ v ∈ valueOf? ps ((t.tail.dropWhile isNameChar).tail.takeWhile isNameChar),
            v ≠ "" ∧ v.toList.head?.all (fun c => !isNameChar c) = true)) <| by
    simp only [Option.all_eq_true, Bool.not_eq_true']
    refine ⟨fun h => ⟨h.1, fun after hafter => ?_, fun after more hafter hmore => ?_⟩,
      fun h => ⟨h.values, fun t ht hhead => ?_⟩⟩
    · exact (h.2 _ ((List.mem_tails _ _).2 hafter) rfl).1
    · have := (h.2 _ ((List.mem_tails _ _).2 hafter) rfl).2
      rw [List.tail_cons, hmore] at this
      exact this rfl
    · obtain ⟨after, rfl⟩ := List.head?_eq_some_iff.1 hhead
      refine ⟨h.others after ((List.mem_tails _ _).1 ht), fun hdrop => ?_⟩
      obtain ⟨more, hmore⟩ := List.head?_eq_some_iff.1 hdrop
      rw [hmore]
      exact h.apart after more ((List.mem_tails _ _).1 ht) hmore

theorem longestFirst_of_pairwise {ps : Parameters}
    (h : ps.Pairwise fun p q => p.1.utf8ByteSize ≥ q.1.utf8ByteSize) : longestFirst ps = ps :=
  List.mergeSort_of_pairwise (h.imp decide_eq_true)

/-- The parameters of an abstract pattern about an element and one of its attributes. -/
def elementParameters : Parameters := [("el", "Part"), ("element", "Component"), ("at", "$x/@id")]

theorem substitute_elementParameters :
    (elementParameters.map Prod.fst).Nodup ∧
      (∀ p ∈ elementParameters, ∀ c ∈ p.1.toList, isNameChar c = true) ∧
      Settled elementParameters "$element/$el[$at = $value]$at".toList ∧
      elementParameters.reverse.Perm elementParameters ∧
      substitute (longestFirst elementParameters.reverse) "$element/$el[$at = $value]$at" =
        replacedAtOnce elementParameters "$element/$el[$at = $value]$at" ∧
      replacedAtOnce elementParameters "$element/$el[$at = $value]$at" =
        "Component/Part[$x/@id = $value]$x/@id" := by
  have hnodup : (elementParameters.map Prod.fst).Nodup := by decide
  have hnames : ∀ p ∈ elementParameters, ∀ c ∈ p.1.toList, isNameChar c = true := by
    have hall : elementParameters.all (fun p => p.1.toList.all isNameChar) = true := by
      decide +kernel
    simpa only [List.all_eq_true] using hall
  have hsettled : Settled elementParameters "$element/$el[$at = $value]$at".toList := by
    decide +kernel
  have hperm := List.reverse_perm elementParameters
  exact ⟨hnodup, hnames, hsettled, hperm, substitute_longestFirst hnodup hnames hsettled hperm,
    by decide +kernel⟩

/-- **Replacing one by one is not replacing at once**: a value is scanned again, which also makes
the order of declarations matter; a name is found at the front of a longer one; and a value may
continue the name in front of it. -/
theorem substitute_ne_replacedAtOnce :
    substitute (longestFirst [("a", "$b"), ("b", "c")]) "$a" = "c" ∧
      substitute (longestFirst [("b", "c"), ("a", "$b")]) "$a" = "$b" ∧
      replacedAtOnce [("a", "$b"), ("b", "c")] "$a" = "$b" ∧
    substitute (longestFirst [("max", "3")]) "$maximum" = "3imum" ∧
      replacedAtOnce [("max", "3")] "$maximum" = "$maximum" ∧
    substitute (longestFirst [("bb", "c"), ("ac", "d"), ("a", "e")]) "$a$bb" = "d" ∧
      replacedAtOnce [("bb", "c"), ("ac", "d"), ("a", "e")] "$a$bb" = "ec" := by
  rw [longestFirst_of_pairwise (by decide), longestFirst_of_pairwise (by decide),
    longestFirst_of_pairwise (by decide), longestFirst_of_pairwise (by decide)]
  decide +kernel

end XmlConformance.Rules
