import XmlConformance.Proofs.Schema.Derivations
import XmlConformance.Proofs.Schema.Normalizing

/-!
# Proofs/Schema/Literals — literals of a schema as values

The members of an enumeration and the values that declarations prescribe stay in a grammar as they
were written, while the values that they are compared with have normalized white space
(`exists_apply_of_checkRef`). So a member of an enumeration is a value of its own type if some
member is the same as its normalized text, or the same number (`checkRef_enumeration`), and a value
that is prescribed is the same as itself if normalization changes it at its ends only.
-/

namespace XmlConformance.Schema

open Text Xml

/-- A number that is one is the same as itself. -/
theorem beq_self_of_not_isNaN {x : Float} (h : x.isNaN = false) : (x == x) = true := by
  change x.toModel.unpack.isNaN = false at h
  change (x.toModel.unpack.compare x.toModel.unpack == some .eq) = true
  cases hx : x.toModel.unpack with
  | notANumber => rw [hx] at h; cases h
  | infinity s => cases s <;> rfl
  | zero s => rfl
  | finite s n e hn =>
    have hsame : (compare e e).then (compare n n) = .eq := by
      rw [Std.compare_self, Std.compare_self]
      rfl
    cases s with
    | negative =>
      show (some ((compare e e).then (compare n n)).swap == some .eq) = true
      rw [hsame]
      rfl
    | positive =>
      show (some ((compare e e).then (compare n n)) == some .eq) = true
      rw [hsame]
      rfl

namespace WhiteSpace

/-- Where white space is normalized, there is nothing left to normalize. -/
theorem apply_eq_self {x : String} (h : normalizeSpace x = x) (w : WhiteSpace) : w.apply x = x := by
  have hle : w ≤ .collapse := by cases w <;> decide
  have hstays := (apply_of_le hle x).2
  rwa [show WhiteSpace.collapse.apply x = x from h] at hstays

theorem trim_replace (x : String) :
    trim (WhiteSpace.replace.apply x) = WhiteSpace.replace.apply (trim x) := by
  rw [trim, apply, apply, trim, String.toList_ofList, String.toList_ofList,
    trimBy_map isBlank_toSpace]

/-- **A text that normalization changes at its ends only** is the same apart from these. -/
theorem trim_apply {x : String} (h : normalizeSpace x = trim x) (w : WhiteSpace) :
    trim (w.apply x) = trim x := by
  cases w with
  | preserve => rfl
  | replace => rw [trim_replace, ← h, replace_normalizeSpace]
  | collapse => rw [apply, trim_normalizeSpace, h]

end WhiteSpace

/-! ## Values -/

namespace Grammar

variable {g : Grammar} {check : SimpleTypeRef → String → Except ValueError String}
  {variety : SimpleTypeRef → Except Error Variety} {r : SimpleTypeRef} {raw v : String} {steps : ℕ}

theorem exists_of_checkMembers {member : SimpleTypeRef → Except ValueError String}
    {fault : ValueFault} : ∀ {ms : List SimpleTypeRef},
      checkMembers member fault ms = .ok v → ∃ m ∈ ms, member m = .ok v
  | [], h => by cases h
  | m :: ms, h => by
    rw [checkMembers] at h
    split at h
    · obtain ⟨u, hu, hv⟩ := exists_of_checkMembers h
      exact ⟨u, List.mem_cons_of_mem m hu, hv⟩
    · exact ⟨m, List.mem_cons_self, h⟩

theorem value_of_checkFacets {f : Facets} {typeName value : String} {x : Except Error Variety}
    (h : checkFacets f typeName x value = .ok v) :
    v = (f.whiteSpace.map (·.apply value)).getD value ∧ ∃ variety, x = .ok variety := by
  unfold checkFacets at h
  dsimp only at h
  split at h
  · cases h
  · next variety =>
    split at h
    · cases h
    · cases h
      exact ⟨rfl, variety, rfl⟩

theorem exists_apply_of_checkTypeWith {typeName : String} {t : SimpleType}
    (hcheck : ∀ r raw v, check r raw = .ok v → ∃ w : WhiteSpace, v = w.apply raw)
    (h : checkTypeWith check variety typeName t raw = .ok v) :
    ∃ w : WhiteSpace, v = w.apply raw := by
  cases t with
  | restriction base facets =>
    obtain ⟨value, hbase, h⟩ := bind_eq_ok.1 h
    obtain ⟨w, rfl⟩ := hcheck base raw value hbase
    obtain ⟨rfl, -⟩ := value_of_checkFacets h
    cases facets.whiteSpace with
    | none => exact ⟨w, rfl⟩
    | some s => exact ⟨max s w, (s.apply_max w raw).symm⟩
  | list item =>
    obtain ⟨_, -, h⟩ := bind_eq_ok.1 h
    cases h
    exact ⟨.collapse, rfl⟩
  | union members =>
    obtain ⟨m, -, hm⟩ := exists_of_checkMembers h
    exact hcheck m raw v hm

/-- **A value is the text that was checked**, with its white space normalized in some way. -/
theorem exists_apply_of_checkRef : ∀ {steps : ℕ} {r : SimpleTypeRef} {raw v : String},
    g.checkRef steps r raw = .ok v → ∃ w : WhiteSpace, v = w.apply raw
  | 0, _, _, _, h => by cases h
  | steps + 1, .inline t, raw, v, h =>
    exists_apply_of_checkTypeWith (fun _ _ _ => exists_apply_of_checkRef) h
  | steps + 1, .named n, raw, v, h => by
    rw [checkRef] at h
    split at h
    · split at h
      · next b _ =>
        rw [Builtin.check] at h
        split at h
        · cases h
          exact ⟨b.whiteSpace, rfl⟩
        · cases h
      · cases h
    · split at h
      · exact exists_apply_of_checkTypeWith (fun _ _ _ => exists_apply_of_checkRef) h
      · exact exists_apply_of_checkRef h
      · cases h

theorem exists_variety_of_checkTypeWith {typeName : String} {t : SimpleType}
    (hvariety : ∀ r raw v, check r raw = .ok v → ∃ x, variety r = .ok x)
    (h : checkTypeWith check variety typeName t raw = .ok v) :
    ∃ x, varietyOfType variety t = .ok x := by
  cases t with
  | restriction base facets =>
    obtain ⟨value, hbase, -⟩ := bind_eq_ok.1 h
    exact hvariety base raw value hbase
  | list item => exact ⟨.list, rfl⟩
  | union members => exact ⟨.union, rfl⟩

/-- **A type that has values** has a variety. -/
theorem exists_variety_of_checkRef : ∀ {steps : ℕ} {r : SimpleTypeRef} {raw v : String},
    g.checkRef steps r raw = .ok v → ∃ x, g.variety steps r = .ok x
  | 0, _, _, _, h => by cases h
  | steps + 1, .inline t, raw, v, h =>
    exists_variety_of_checkTypeWith (fun _ _ _ => exists_variety_of_checkRef) h
  | steps + 1, .named n, raw, v, h => by
    rw [variety]
    rw [checkRef] at h
    split at h
    · next schema =>
      rw [if_pos schema]
      split at h
      · exact ⟨_, rfl⟩
      · cases h
    · next own =>
      rw [if_neg own]
      split at h
      · exact exists_variety_of_checkTypeWith (fun _ _ _ => exists_variety_of_checkRef) h
      · exact exists_variety_of_checkRef h
      · cases h

/-! ## Fewer steps -/

/-- **A computation that falls short of another** fails for lack of steps, or ends as the other. -/
def FallsShort {ε α : Type} (e : ε) (x y : Except ε α) : Prop := x = .error e ∨ x = y

section FallsShort

variable {check' : SimpleTypeRef → String → Except ValueError String}
  {variety' : SimpleTypeRef → Except Error Variety}

theorem FallsShort.bind {ε α β : Type} {e : ε} {x y : Except ε α} {f f' : α → Except ε β}
    (hx : FallsShort e x y) (hf : ∀ a, FallsShort e (f a) (f' a)) :
    FallsShort e (x >>= f) (y >>= f') := by
  obtain rfl | rfl := hx
  · exact .inl rfl
  · cases x with
    | ok a => exact hf a
    | error e' => exact .inr rfl

theorem FallsShort.checkWords {word word' : String → Except ValueError String} {e : ValueError}
    (hword : ∀ w, FallsShort e (word w) (word' w)) :
    ∀ ws, FallsShort e (checkWords word ws) (checkWords word' ws)
  | [] => .inr rfl
  | w :: ws => by
    rw [Grammar.checkWords, Grammar.checkWords]
    obtain hw | hw := hword w
    · rw [hw]
      exact .inl rfl
    · rw [hw]
      cases word' w with
      | ok v => exact FallsShort.checkWords hword ws
      | error e' => exact .inr rfl

theorem FallsShort.checkMembers {member member' : SimpleTypeRef → Except ValueError String}
    {fault : ValueFault} {e : Error}
    (hmember : ∀ m, FallsShort (.unusable e) (member m) (member' m)) (ms : List SimpleTypeRef) :
    FallsShort (.unusable e) (checkMembers member fault ms) (checkMembers member' fault ms) := by
  induction ms with
  | nil => exact .inr rfl
  | cons m ms ih =>
    rw [Grammar.checkMembers, Grammar.checkMembers]
    obtain hm | hm := hmember m
    · rw [hm]
      exact .inl rfl
    · rw [hm]
      split
      · exact ih
      · exact .inr rfl

theorem FallsShort.checkFacets {f : Facets} {typeName : String} {x y : Except Error Variety}
    {e : Error} (h : FallsShort e x y) (value : String) :
    FallsShort (.unusable e) (checkFacets f typeName x value) (checkFacets f typeName y value) := by
  obtain rfl | rfl := h
  · exact .inl rfl
  · exact .inr rfl

theorem fallsShort_checkTypeWith {e : Error}
    (hcheck : ∀ r raw, FallsShort (.unusable e) (check r raw) (check' r raw))
    (hvariety : ∀ r, FallsShort e (variety r) (variety' r)) (typeName : String) (t : SimpleType)
    (raw : String) : FallsShort (.unusable e) (checkTypeWith check variety typeName t raw)
      (checkTypeWith check' variety' typeName t raw) := by
  cases t with
  | restriction base facets =>
    exact (hcheck base raw).bind fun value => (hvariety base).checkFacets value
  | list item => exact (FallsShort.checkWords (hcheck item) _).bind fun _ => .inr rfl
  | union members => exact FallsShort.checkMembers (fun m => hcheck m raw) members

theorem fallsShort_varietyOfType {e : Error} (hvariety : ∀ r, FallsShort e (variety r) (variety' r))
    (t : SimpleType) : FallsShort e (varietyOfType variety t) (varietyOfType variety' t) := by
  cases t with
  | restriction base facets => exact hvariety base
  | list item => exact .inr rfl
  | union members => exact .inr rfl

theorem fallsShort_variety (g : Grammar) : ∀ (steps : ℕ) (r : SimpleTypeRef),
    FallsShort .derivationTooDeep (g.variety steps r) (g.variety (steps + 1) r)
  | 0, _ => .inl rfl
  | steps + 1, .inline t => fallsShort_varietyOfType (g.fallsShort_variety steps) t
  | steps + 1, .named n => by
    rw [Grammar.variety, Grammar.variety]
    split
    · exact .inr rfl
    · split
      · exact fallsShort_varietyOfType (g.fallsShort_variety steps) _
      · exact g.fallsShort_variety steps _
      · exact .inr rfl

/-- **With fewer steps** the check of a value ends as with more, or for lack of steps. -/
theorem fallsShort_checkRef (g : Grammar) : ∀ (steps : ℕ) (r : SimpleTypeRef) (raw : String),
    FallsShort (.unusable .derivationTooDeep) (g.checkRef steps r raw)
      (g.checkRef (steps + 1) r raw)
  | 0, _, _ => .inl rfl
  | steps + 1, .inline t, raw =>
    fallsShort_checkTypeWith (g.fallsShort_checkRef steps) (g.fallsShort_variety steps) _ t raw
  | steps + 1, .named n, raw => by
    rw [Grammar.checkRef, Grammar.checkRef]
    split
    · exact .inr rfl
    · split
      · exact fallsShort_checkTypeWith (g.fallsShort_checkRef steps) (g.fallsShort_variety steps)
          _ _ raw
      · exact g.fallsShort_checkRef steps _ raw
      · exact .inr rfl

end FallsShort

/-! ## Enumerations -/

/-- Where there is only an enumeration, it is the only thing that a value can fail. -/
theorem fault?_enumeration (es : List String) (typeName value : String) (variety : Variety) :
    Facets.fault? { enumeration := es } typeName value variety =
      if es.isEmpty || es.any (equals variety.isNumeric value) then none
      else some (.enumeration value es) := by
  simp only [Facets.fault?, Facets.enumerationFault, Facets.patternFault, Facets.lengthFault,
    Facets.boundFault, Facets.limit?, Facets.digitsFault, Facets.faultUnless, List.findSome?_cons,
    List.findSome?_nil, List.isEmpty_nil, Bool.true_or, if_true, Option.or_none, ite_self]

/-- A number is the same as itself. -/
theorem equals_self {value : String} {numeric : Bool}
    (h : numeric = true → ∃ x, number? value = some x ∧ x.isNaN = false) :
    equals numeric value value = true := by
  cases numeric with
  | false => exact beq_self_eq_true value
  | true =>
    obtain ⟨x, hx, hnan⟩ := h rfl
    simp only [equals, hx, if_true]
    exact beq_self_of_not_isNaN hnan

/-- **A member of an enumeration as a value of the type that it enumerates.** -/
theorem check_enumeration {r base : SimpleTypeRef} {typeName e : String} {es : List String}
    (h : g.Restricts r ⟨typeName, { enumeration := es }⟩ base) (he : e ∈ es)
    (hbase : g.check (some base) e = .ok v) :
    ∃ x, g.variety derivationLimit base = .ok x ∧
      (g.check (some r) e = .error (.unusable .derivationTooDeep) ∨
        g.check (some r) e = if es.any (equals x.isNumeric v) then .ok v
          else .error (.invalid (.enumeration v es))) := by
  obtain ⟨steps, hlimit⟩ : ∃ steps, derivationLimit = steps + 1 := ⟨_, rfl⟩
  simp only [check, hlimit] at hbase ⊢
  obtain ⟨x, hvariety⟩ := exists_variety_of_checkRef hbase
  have hfacets : checkFacets { enumeration := es } typeName (.ok x) v =
      if es.any (equals x.isNumeric v) then .ok v else .error (.invalid (.enumeration v es)) := by
    have hne : es.isEmpty = false := List.isEmpty_eq_false_iff.2 (List.ne_nil_of_mem he)
    simp only [checkFacets, fault?_enumeration, hne, Bool.false_or, Option.map_none,
      Option.getD_none]
    cases es.any (equals x.isNumeric v) <;> rfl
  have hfalls : FallsShort (.unusable .derivationTooDeep) (g.checkRef (steps + 1) r e)
      (g.checkRef (steps + 1) base e >>=
        checkFacets { enumeration := es } typeName (g.variety (steps + 1) base)) := by
    rw [checkRef_restricts h steps e]
    exact (g.fallsShort_checkRef steps base e).bind fun value =>
      (g.fallsShort_variety steps base).checkFacets value
  rw [hbase, hvariety, ok_bind, hfacets] at hfalls
  exact ⟨x, hvariety, hfalls⟩

/-! ## Prescribed values -/

theorem exists_apply_of_check {type : Option SimpleTypeRef} (h : g.check type raw = .ok v) :
    ∃ w : WhiteSpace, v = w.apply raw := by
  cases type with
  | none =>
    cases h
    exact ⟨.preserve, rfl⟩
  | some r => exact exists_apply_of_checkRef h

theorem exists_apply_of_checkInline {t : SimpleType} (h : g.checkInline t raw = .ok v) :
    ∃ w : WhiteSpace, v = w.apply raw :=
  exists_apply_of_checkTypeWith (fun _ _ _ => exists_apply_of_checkRef) h

theorem filter_differs (f v : String) :
    (some f).filter (differs · v) = if trim f = trim v then none else some f := by
  by_cases h : trim f = trim v <;> simp [differs, h]

theorem checkFixed_of_fixed {t : Tag} {decl : ElementDecl} {f : String}
    (hfixed : decl.fixed = some f) :
    checkFixed t decl v =
      if trim f = trim v then .ok () else violates t (.fixedElement v t.qualifiedName f) := by
  rw [checkFixed, hfixed, filter_differs]
  split_ifs <;> rfl

theorem checkAttribute_of_fixed {c : ComplexType} {t : Tag} {a : Attribute} {f : String}
    {type : Option SimpleTypeRef} (hrule : g.attributeRule c a.name = some (some (type, some f)))
    (hvalue : g.check type a.value = .ok v) :
    g.checkAttribute c t a = if trim f = trim v then .ok ()
      else violates t (.fixedAttribute v (t.attributeName a.name) t.qualifiedName f) := by
  simp only [checkAttribute, hrule, hvalue, located, ok_bind, filter_differs]
  split_ifs <;> rfl

/-! ## Literals as values of their own types -/

/-- **Literals of a schema as values of their own types.** A member of an enumeration that is a
value of the base is one of the restriction if its value is the same as a member, or the same
number; so it is if it is written as its value and, where numbers are compared, is a number. The
only other error is that the derivation is too long. A value that a declaration prescribes is what
an element or attribute with the same text has, if normalization changes it at its ends only; the
two are compared apart from these. -/
theorem literals_of_own_types (g : Grammar) :
    (∀ {r base : SimpleTypeRef} {typeName e v : String} {es : List String},
      g.Restricts r ⟨typeName, { enumeration := es }⟩ base → e ∈ es →
      g.check (some base) e = .ok v →
      ∃ x, g.variety derivationLimit base = .ok x ∧
        (g.check (some r) e = .error (.unusable .derivationTooDeep) ∨
          g.check (some r) e = if es.any (equals x.isNumeric v) then .ok v
            else .error (.invalid (.enumeration v es))) ∧
        (normalizeSpace e = e →
          (x.isNumeric = true → ∃ y, number? e = some y ∧ y.isNaN = false) →
          es.any (equals x.isNumeric v) = true)) ∧
    (∀ {t : Tag} {decl : ElementDecl} {f v : String}, decl.fixed = some f →
      ((∃ type, g.check type f = .ok v) ∨ ∃ s, g.checkInline s f = .ok v) →
      (checkFixed t decl v = if trim f = trim v then .ok ()
        else violates t (.fixedElement v t.qualifiedName f)) ∧
        (normalizeSpace f = trim f → trim f = trim v)) ∧
    ∀ {c : ComplexType} {t : Tag} {a : Attribute} {type : Option SimpleTypeRef} {f v : String},
      g.attributeRule c a.name = some (some (type, some f)) → a.value = f →
      g.check type f = .ok v →
      (g.checkAttribute c t a = if trim f = trim v then .ok ()
        else violates t (.fixedAttribute v (t.attributeName a.name) t.qualifiedName f)) ∧
        (normalizeSpace f = trim f → trim f = trim v) := by
  refine ⟨fun hrestricts he hbase => ?_, fun hfixed hvalue => ?_, fun hrule htext hvalue => ?_⟩
  · obtain ⟨x, hvariety, hcheck⟩ := check_enumeration hrestricts he hbase
    refine ⟨x, hvariety, hcheck, fun hnormal hnumber => ?_⟩
    obtain ⟨w, rfl⟩ := exists_apply_of_check hbase
    rw [w.apply_eq_self hnormal]
    exact List.any_eq_true.2 ⟨_, he, equals_self hnumber⟩
  · refine ⟨checkFixed_of_fixed hfixed, fun hends => ?_⟩
    obtain ⟨w, rfl⟩ := hvalue.elim (fun ⟨_, h⟩ => exists_apply_of_check h) fun ⟨_, h⟩ =>
      exists_apply_of_checkInline h
    exact (w.trim_apply hends).symm
  · subst htext
    refine ⟨checkAttribute_of_fixed hrule hvalue, fun hends => ?_⟩
    obtain ⟨w, rfl⟩ := exists_apply_of_check hvalue
    exact (w.trim_apply hends).symm

/-- Tokens that are members of an enumeration. -/
def oneOfTokens (es : List String) : SimpleTypeRef :=
  .inline (.restriction (.named (schemaName "token")) { enumeration := es })

/-- An element of tokens for which a value is prescribed. -/
def fixedToken (f : String) : ElementDecl :=
  ⟨⟨none, "a"⟩, .named (schemaName "token"), false, false, some f⟩

theorem literals_of_own_types_size :
    (default : Grammar).check (some (.named (schemaName "token"))) "S" = .ok "S" ∧
    (∃ x, (default : Grammar).variety derivationLimit (.named (schemaName "token")) = .ok x ∧
      ((default : Grammar).check (some (oneOfTokens ["S", "M"])) "S" =
          .error (.unusable .derivationTooDeep) ∨
        (default : Grammar).check (some (oneOfTokens ["S", "M"])) "S" =
          if ["S", "M"].any (equals x.isNumeric "S") then .ok "S"
          else .error (.invalid (.enumeration "S" ["S", "M"]))) ∧
      (normalizeSpace "S" = "S" →
        (x.isNumeric = true → ∃ y, number? "S" = some y ∧ y.isNaN = false) →
        ["S", "M"].any (equals x.isNumeric "S") = true)) ∧
    (checkFixed default (fixedToken "S") "S" = if trim "S" = trim "S" then .ok ()
      else violates default (.fixedElement "S" (default : Tag).qualifiedName "S")) ∧
    (normalizeSpace "S" = trim "S" → trim "S" = trim "S") := by
  have hvalue : (default : Grammar).check (some (.named (schemaName "token"))) "S" = .ok "S" := by
    decide +kernel
  obtain ⟨henumeration, hfixed, -⟩ := literals_of_own_types default
  exact ⟨hvalue, henumeration .inline List.mem_cons_self hvalue, hfixed rfl (.inl ⟨_, hvalue⟩)⟩

/-- **Literals with white space**: a member of an enumeration with a space in front and behind is no
value of its own type, though it stands for a token, and a prescribed value with two spaces in it is
not the one that an element with this text has. -/
theorem literals_with_space :
    ((default : Grammar).check (some (.named (schemaName "token"))) " a " = .ok "a" ∧
      (default : Grammar).check (some (oneOfTokens [" a "])) " a " =
        .error (.invalid (.enumeration "a" [" a "]))) ∧
    (default : Grammar).check (some (.named (schemaName "token"))) "a  b" = .ok "a b" ∧
      checkFixed default (fixedToken "a  b") "a b" =
        violates default (.fixedElement "a b" (default : Tag).qualifiedName "a  b") := by
  have htrim : trim "a  b" ≠ trim "a b" := by decide +kernel
  refine ⟨⟨by decide +kernel, by decide +kernel⟩, by decide +kernel, ?_⟩
  rw [checkFixed_of_fixed rfl, if_neg htrim]

end Grammar

end XmlConformance.Schema
