import XmlConformance.Proofs.Xml.Names
import XmlConformance.Proofs.Xml.Precedence

/-!
# Proofs/Xml/Locating — nodes with the same location

A step of a location names a node and gives its number among its siblings. The names of elements are
written with the labels in scope, but elements are counted by what they are called; comments and
processing instructions are both written `node()`, and counted apart. So two siblings may get the
same step (`Confused`), and then they have the same location. It is the only way for two nodes to
have the same location: the text of a location gives its steps (`intercalate_inj`), a step gives the
name and the number (`step_inj`), and a number tells nodes of one kind apart (`eq_of_countP_eq`).
-/

namespace XmlConformance.Xml

namespace Node

variable {siblings : List Node} {n m root : Node} {i j : ℕ} {p q : Position}

/-! ## Kinds -/

theorem sameKind_self (n : Node) : n.sameKind n = true := by
  cases n <;> simp [sameKind]

/-- Nodes of one kind are counted together. -/
theorem sameKind_congr (h : n.sameKind m = true) : n.sameKind = m.sameKind := by
  funext k
  cases n <;> cases m <;> cases k <;> simp_all [sameKind]

/-- A later node of a kind has a greater number. -/
theorem countP_take_lt (hij : i < j) (hj : siblings[j]? = some m) :
    (siblings.take (i + 1)).countP m.sameKind < (siblings.take (j + 1)).countP m.sameKind := by
  have hle : (siblings.take (i + 1)).countP m.sameKind ≤ (siblings.take j).countP m.sameKind :=
    (List.take_prefix_take_left (by omega)).sublist.countP_le
  rw [List.take_add_one (i := j), List.countP_append, hj]
  simpa [sameKind_self] using Nat.lt_succ_of_le hle

/-- **A number tells nodes of one kind apart.** -/
theorem eq_of_countP_eq (hi : siblings[i]? = some n) (hj : siblings[j]? = some m)
    (hkind : n.sameKind m = true)
    (h : (siblings.take (i + 1)).countP n.sameKind = (siblings.take (j + 1)).countP m.sameKind) :
    i = j := by
  rw [sameKind_congr hkind] at h
  obtain hij | rfl | hij := lt_trichotomy i j
  · exact absurd h (countP_take_lt hij hj).ne
  · rfl
  · have hlt := countP_take_lt hij hi
    rw [sameKind_congr hkind] at hlt
    exact absurd h hlt.ne'

/-- **Two siblings that a location confuses**: they are named alike but of different kinds, and each
has the same number among those of its kind. -/
def Confused (siblings : List Node) (i j : ℕ) : Prop :=
  ∃ n m, siblings[i]? = some n ∧ siblings[j]? = some m ∧ n.stepName = m.stepName ∧
    n.sameKind m = false ∧
      (siblings.take (i + 1)).countP n.sameKind = (siblings.take (j + 1)).countP m.sameKind

theorem Confused.ne (h : Confused siblings i j) : i ≠ j := by
  obtain ⟨n, m, hi, hj, -, hkind, -⟩ := h
  rintro rfl
  obtain rfl := Option.some.inj (hi.symm.trans hj)
  rw [sameKind_self] at hkind
  cases hkind

/-! ## Steps -/

theorem Proper.of_mem_children (h : n.Proper) (hm : m ∈ n.children) : m.Proper := fun t ht =>
  h t (List.filterMap_subset _ (subtree_subset (children_subset (mem_subtree_self n) hm)) ht)

/-- The characters of the name in a step. -/
def isStepNameChar (c : Char) : Bool :=
  isNameChar c || ['(', ')'].contains c

/-- The characters of a step. -/
def isStepChar (c : Char) : Bool :=
  isStepNameChar c || ['[', ']'].contains c

theorem isStepChar_of_isStepNameChar {c : Char} (h : isStepNameChar c = true) :
    isStepChar c = true := by
  rw [isStepChar, h, Bool.true_or]

theorem isStepNameChar_of_isNameChar {c : Char} (h : isNameChar c = true) :
    isStepNameChar c = true := by
  rw [isStepNameChar, h, Bool.true_or]

/-- No bracket, slash or `@` is in the name of a step. -/
theorem Proper.stepName (h : n.Proper) : AllChars isStepNameChar n.stepName := by
  cases n with
  | element t cs =>
    exact (h t (by simp)).nameText_qualifiedName.mono fun _ => isStepNameChar_of_isNameChar
  | text =>
    have hname : AllChars isStepNameChar "text()" := by decide
    exact hname
  | comment | instruction | root =>
    have hname : AllChars isStepNameChar "node()" := by decide
    exact hname

theorem locationStep_eq (hi : siblings[i]? = some n) : locationStep siblings i =
    n.stepName ++ "[" ++ toString ((siblings.take (i + 1)).countP n.sameKind) ++ "]" := by
  rw [locationStep, hi]

theorem toList_step (s : String) (k : ℕ) :
    (s ++ "[" ++ toString k ++ "]").toList = s.toList ++ '[' :: (Nat.toDigits 10 k ++ [']']) := by
  simp [Nat.toString_eq_repr, Nat.toList_repr]

theorem notMem_number (k : ℕ) : '[' ∉ Nat.toDigits 10 k ++ [']'] := by
  rw [List.mem_append, List.mem_singleton, or_iff_left (by decide)]
  exact fun hmem => absurd (Nat.isDigit_of_mem_toDigits (by decide) (by decide) hmem) (by decide)

/-- **A step gives the name and the number.** -/
theorem step_inj {s t : String} {k l : ℕ} (hs : '[' ∉ s.toList) :
    s ++ "[" ++ toString k ++ "]" = t ++ "[" ++ toString l ++ "]" ↔ s = t ∧ k = l := by
  refine ⟨fun h => ?_, fun ⟨hst, hkl⟩ => by rw [hst, hkl]⟩
  have h := congrArg String.toList h
  rw [toList_step, toList_step, List.append_cons_inj_of_notMem hs (notMem_number k)] at h
  obtain ⟨hname, -, hnumber⟩ := h
  refine ⟨String.toList_inj.1 hname, ?_⟩
  rw [← Nat.ofDigitChars_toDigits (b := 10) (n := k) (by decide) (by decide),
    List.append_cancel_right hnumber, Nat.ofDigitChars_toDigits (by decide) (by decide)]

/-- **Two siblings have the same step** only if they are confused. -/
theorem locationStep_inj (hsiblings : ∀ n ∈ siblings, n.Proper) (hi : siblings[i]? = some n)
    (hj : siblings[j]? = some m) :
    locationStep siblings i = locationStep siblings j ↔ i = j ∨ Confused siblings i j := by
  have hn : '[' ∉ n.stepName.toList :=
    (hsiblings n (List.mem_of_getElem? hi)).stepName.notMem (by decide)
  rw [locationStep_eq hi, locationStep_eq hj, step_inj hn]
  constructor
  · rintro ⟨hname, hnumber⟩
    cases hkind : n.sameKind m with
    | true => exact .inl (eq_of_countP_eq hi hj hkind hnumber)
    | false => exact .inr ⟨n, m, hi, hj, hname, hkind, hnumber⟩
  · rintro (rfl | ⟨n', m', hi', hj', hname, -, hnumber⟩)
    · obtain rfl := Option.some.inj (hi.symm.trans hj)
      exact ⟨rfl, rfl⟩
    · obtain rfl := Option.some.inj (hi.symm.trans hi')
      obtain rfl := Option.some.inj (hj.symm.trans hj')
      exact ⟨hname, hnumber⟩

/-- No slash and no `@` is in a step, and no step is empty. -/
theorem allChars_locationStep (hsiblings : ∀ n ∈ siblings, n.Proper) (hi : siblings[i]? = some n) :
    locationStep siblings i ≠ "" ∧ AllChars isStepChar (locationStep siblings i) := by
  have hname : AllChars isStepChar n.stepName :=
    (hsiblings n (List.mem_of_getElem? hi)).stepName.mono fun _ => isStepChar_of_isStepNameChar
  rw [locationStep_eq hi]
  constructor
  · rw [← String.toList_inj.ne, toList_step]
    simp
  · refine ((hname.append (by decide)).append (.repr (fun _ hc => ?_) _)).append (by decide)
    exact isStepChar_of_isStepNameChar (isStepNameChar_of_isNameChar (isNameChar_of_isDigit hc))

/-- **Two nodes that are mistaken for each other**: elements of different names that are written
alike where they stand, or nodes that are neither elements nor texts. -/
def Mistaken (n m : Node) : Prop :=
  (∃ t cs u ds, n = .element t cs ∧ m = .element u ds ∧ t.name ≠ u.name ∧
    t.qualifiedName = u.qualifiedName) ∨
  (n.isElement || n.isText) = false ∧ (m.isElement || m.isText) = false

/-- No element is called like a node of another kind. -/
theorem Proper.qualifiedName_ne {t : Tag} {cs : List Node} (h : (element t cs).Proper) {s : String}
    (hs : '(' ∈ s.toList) : t.qualifiedName ≠ s := fun heq =>
  (h t (by simp)).nameText_qualifiedName.notMem (by decide) (heq ▸ hs)

/-- **Only such nodes** are named alike and counted apart. -/
theorem Proper.mistaken (hn : n.Proper) (hm : m.Proper) (hname : n.stepName = m.stepName)
    (hkind : n.sameKind m = false) : Mistaken n m := by
  cases n with
  | element t cs =>
    cases m with
    | element u ds => exact .inl ⟨t, cs, u, ds, rfl, rfl, by simpa [sameKind] using hkind, hname⟩
    | text => exact absurd hname (hn.qualifiedName_ne (s := "text()") (by decide))
    | comment | instruction | root =>
      exact absurd hname (hn.qualifiedName_ne (s := "node()") (by decide))
  | text =>
    cases m with
    | element u ds =>
      exact absurd hname.symm (hm.qualifiedName_ne (s := "text()") (by decide))
    | text => cases hkind
    | comment | instruction | root => exact absurd hname (show "text()" ≠ "node()" by decide)
  | comment | instruction | root =>
    cases m with
    | element u ds =>
      exact absurd hname.symm (hm.qualifiedName_ne (s := "node()") (by decide))
    | text => exact absurd hname (show "node()" ≠ "text()" by decide)
    | comment | instruction | root => exact .inr ⟨rfl, rfl⟩

/-! ## Ways -/

/-- The step to a child, then the steps from the child on. -/
theorem locationSteps_cons (hi : n.children[i]? = some m) (p : Position) :
    n.locationSteps (i :: p) = locationStep n.children i :: m.locationSteps p := by
  rw [locationSteps, hi]

theorem Proper.allChars_locationSteps (h : n.Proper) (hp : (n.at? p).isSome = true) :
    ∀ s ∈ n.locationSteps p, s ≠ "" ∧ AllChars isStepChar s := by
  induction p generalizing n with
  | nil => exact List.forall_mem_nil _
  | cons i p ih =>
    obtain ⟨m, hp⟩ := Option.isSome_iff_exists.1 hp
    obtain ⟨c, hi, hp⟩ := at?_cons_eq_some.1 hp
    rw [locationSteps_cons hi]
    exact List.forall_mem_cons.2 ⟨allChars_locationStep (fun _ => h.of_mem_children) hi,
      ih (h.of_mem_children (List.mem_of_getElem? hi)) (Option.isSome_of_eq_some hp)⟩

/-- **Two ways that part at confused siblings.** -/
def PartConfused (root : Node) (p q : Position) : Prop :=
  ∃ r n i j, root.at? r = some n ∧ Confused n.children i j ∧ r.child i <+: p ∧ r.child j <+: q

theorem PartConfused.cons (hi : root.children[i]? = some n) (h : n.PartConfused p q) :
    root.PartConfused (i :: p) (i :: q) := by
  obtain ⟨r, m, k, l, hr, hconfused, hp, hq⟩ := h
  exact ⟨i :: r, m, k, l, at?_cons_eq_some.2 ⟨n, hi, hr⟩, hconfused,
    List.cons_prefix_cons.2 ⟨rfl, hp⟩, List.cons_prefix_cons.2 ⟨rfl, hq⟩⟩

/-- **Different ways with the same steps** part at confused siblings. -/
theorem Proper.eq_or_partConfused : ∀ {p q : Position} {n : Node}, n.Proper →
    (n.at? p).isSome = true → (n.at? q).isSome = true → n.locationSteps p = n.locationSteps q →
      p = q ∨ n.PartConfused p q
  | [], [], _, _, _, _, _ => .inl rfl
  | [], j :: q, n, _, _, _, h => by
    rw [locationSteps, locationSteps] at h
    cases h
  | i :: p, [], n, _, _, _, h => by
    rw [locationSteps, locationSteps] at h
    cases h
  | i :: p, j :: q, n, hn, hp, hq, h => by
    obtain ⟨m, hp⟩ := Option.isSome_iff_exists.1 hp
    obtain ⟨c, hi, hp⟩ := at?_cons_eq_some.1 hp
    obtain ⟨m', hq⟩ := Option.isSome_iff_exists.1 hq
    obtain ⟨d, hj, hq⟩ := at?_cons_eq_some.1 hq
    rw [locationSteps_cons hi, locationSteps_cons hj, List.cons.injEq,
      locationStep_inj (fun _ => hn.of_mem_children) hi hj] at h
    obtain ⟨rfl | hconfused, hsteps⟩ := h
    · obtain rfl := Option.some.inj (hi.symm.trans hj)
      have hc := hn.of_mem_children (List.mem_of_getElem? hi)
      exact (hc.eq_or_partConfused (Option.isSome_of_eq_some hp) (Option.isSome_of_eq_some hq)
        hsteps).imp (congrArg _) (.cons hi)
    · exact .inr ⟨[], n, i, j, rfl, hconfused, by simp [Position.child],
        by simp [Position.child]⟩

theorem locationSteps_append {r : Position} : ∀ {p : Position} {n : Node}, n.at? p = some m →
    n.locationSteps (p ++ r) = n.locationSteps p ++ m.locationSteps r
  | [], n, h => by
    obtain rfl := Option.some.inj h
    rw [locationSteps, List.nil_append, List.nil_append]
  | i :: p, n, h => by
    obtain ⟨c, hi, h⟩ := at?_cons_eq_some.1 h
    rw [List.cons_append, locationSteps_cons hi, locationSteps_cons hi, locationSteps_append h,
      List.cons_append]

theorem Proper.at? (h : root.Proper) (hp : root.at? p = some n) : n.Proper := fun t ht =>
  h t (List.filterMap_subset _ (subtree_subset (mem_subtree_of_at? hp)) ht)

/-- **Confused siblings have the same location.** -/
theorem Proper.location_eq_of_confused (h : root.Proper) {r : Position} (hr : root.at? r = some n)
    (hconfused : Confused n.children i j) :
    root.location (r.child i) = root.location (r.child j) := by
  obtain ⟨c, d, hi, hj, -⟩ := id hconfused
  have hstep : locationStep n.children i = locationStep n.children j :=
    (locationStep_inj (fun _ => (h.at? hr).of_mem_children) hi hj).2 (.inr hconfused)
  rw [location, location, Position.child, Position.child, locationSteps_append hr,
    locationSteps_append hr, locationSteps_cons hi, locationSteps_cons hj, hstep, locationSteps,
    locationSteps]

/-- Confused siblings are mistaken for each other. -/
theorem Proper.mistaken_of_confused (h : n.Proper) (hconfused : Confused n.children i j) :
    ∃ c d, n.children[i]? = some c ∧ n.children[j]? = some d ∧ Mistaken c d := by
  obtain ⟨c, d, hi, hj, hname, hkind, -⟩ := hconfused
  exact ⟨c, d, hi, hj, (h.of_mem_children (List.mem_of_getElem? hi)).mistaken
    (h.of_mem_children (List.mem_of_getElem? hj)) hname hkind⟩

/-! ## The text of a location -/

/-- **Texts without slashes** that are joined by slashes can be told from the text. -/
theorem intercalate_inj {ss ts : List String} (hs : ∀ s ∈ ss, s ≠ "" ∧ '/' ∉ s.toList)
    (ht : ∀ t ∈ ts, t ≠ "" ∧ '/' ∉ t.toList) :
    "/".intercalate ss = "/".intercalate ts ↔ ss = ts := by
  refine ⟨fun h => ?_, fun h => by rw [h]⟩
  have hsplit {ss : List String} (hs : ∀ s ∈ ss, s ≠ "" ∧ '/' ∉ s.toList) (hne : ss ≠ []) :
      ("/".intercalate ss).toList.splitOn '/' = ss.map String.toList := by
    rw [String.toList_intercalate]
    refine List.splitOn_intercalate '/' ?_ (by simpa using hne)
    rintro _ hmem
    obtain ⟨s, hs', rfl⟩ := List.mem_map.1 hmem
    exact (hs s hs').2
  have hnil {ss : List String} (hs : ∀ s ∈ ss, s ≠ "" ∧ '/' ∉ s.toList)
      (h : "/".intercalate ss = "") : ss = [] := by
    by_contra hne
    have hempty : [[]] = ss.map String.toList := by
      rw [← hsplit hs hne, h]
      rfl
    obtain ⟨s, hmem, hs'⟩ := List.mem_map.1 (hempty ▸ List.mem_singleton_self ([] : List Char))
    exact (hs s hmem).1 (String.toList_eq_nil_iff.1 hs')
  by_cases hss : ss = []
  · rw [hss, String.intercalate_nil] at h
    rw [hss, hnil ht h.symm]
  by_cases hts : ts = []
  · rw [hts, String.intercalate_nil] at h
    rw [hts, hnil hs h]
  · have hmaps : ss.map String.toList = ts.map String.toList := by
      rw [← hsplit hs hss, ← hsplit ht hts, h]
    exact List.map_injective_iff.2 (fun _ _ => String.toList_inj.1) hmaps

end Node

end XmlConformance.Xml
