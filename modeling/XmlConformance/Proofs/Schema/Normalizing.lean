import Mathlib.Data.List.Infix
import Mathlib.Order.Lattice
import XmlConformance.Proofs.Outcome
import XmlConformance.Proofs.Text.Spacing
import XmlConformance.Schema.Datatype

/-!
# Proofs/Schema/Normalizing — the white space of values

The ways to normalize white space are ordered by their strength, and one behind another is the
stronger of the two (`WhiteSpace.apply_max`). A value of a restriction is checked from the built-in
type outwards, so each restriction sees the white space that is left by itself and those further in
(`checkRef_chain`), not by the one that counts in the end. What follows from this for a value whose
white space is normalized beforehand is `check_normalized`.
-/

namespace XmlConformance.Schema

open Text Xml

namespace WhiteSpace

/-! ## Strength -/

/-- How much of the white space is normalized. -/
def strength : WhiteSpace → ℕ
  | .preserve => 0
  | .replace => 1
  | .collapse => 2

instance : LinearOrder WhiteSpace :=
  LinearOrder.lift' strength (by intro s t h; cases s <;> cases t <;> first | rfl | cases h)

theorem isBlank_toSpace (c : Char) : isBlank (toSpace c) = isBlank c := by
  rw [toSpace]
  split
  · next h =>
    simp only [Bool.or_eq_true, beq_iff_eq] at h
    obtain (rfl | rfl) | rfl := h <;> decide
  · rfl

theorem toSpace_of_other {c : Char} (h : isBlank c = false) : toSpace c = c := by
  rw [toSpace, if_neg]
  simp only [Bool.or_eq_true, beq_iff_eq]
  rintro ((rfl | rfl) | rfl) <;> exact absurd h (by decide)

theorem toSpace_toSpace (c : Char) : toSpace (toSpace c) = toSpace c := by
  by_cases h : (c == '\t' || c == '\n' || c == '\r') = true
  · rw [show toSpace c = ' ' from if_pos h]
    decide
  · rw [show toSpace c = c from if_neg h, show toSpace c = c from if_neg h]

theorem normalizeSpace_replaced (x : String) :
    normalizeSpace (WhiteSpace.replace.apply x) = normalizeSpace x := by
  rw [normalizeSpace, words, apply, String.toList_ofList, runs,
    runsFrom_map isBlank_toSpace fun _ => toSpace_of_other]
  rfl

theorem replace_normalizeSpace (x : String) :
    WhiteSpace.replace.apply (normalizeSpace x) = normalizeSpace x := by
  have hmap : (normalizeSpace x).toList.map toSpace = (normalizeSpace x).toList := by
    refine (List.map_congr_left fun c hc => ?_).trans (List.map_id _)
    obtain hspace | hother := Bool.or_eq_true_iff.1 (allChars_normalizeSpace x c hc)
    · rw [beq_iff_eq.1 hspace]
      decide
    · exact toSpace_of_other (by simpa using hother)
  rw [apply, hmap, String.ofList_toList]

/-- **One normalization behind another** is the stronger of the two. -/
theorem apply_max (s t : WhiteSpace) (x : String) : (max s t).apply x = s.apply (t.apply x) := by
  cases s <;> cases t
  case replace.replace =>
    show String.ofList (x.toList.map toSpace) =
      String.ofList ((String.ofList (x.toList.map toSpace)).toList.map toSpace)
    rw [String.toList_ofList, List.map_map]
    exact congrArg String.ofList (List.map_congr_left fun c _ => (toSpace_toSpace c).symm)
  case replace.collapse => exact (replace_normalizeSpace x).symm
  case collapse.replace => exact (normalizeSpace_replaced x).symm
  case collapse.collapse => exact (normalizeSpace_normalizeSpace x).symm
  all_goals rfl

/-- A normalization changes nothing in front of a stronger one, and nothing behind it. -/
theorem apply_of_le {s t : WhiteSpace} (h : s ≤ t) (x : String) :
    t.apply (s.apply x) = t.apply x ∧ s.apply (t.apply x) = t.apply x := by
  rw [← apply_max, ← apply_max, max_eq_left h, max_eq_right h]
  exact ⟨rfl, rfl⟩

end WhiteSpace

/-! ## Restrictions -/

/-- A restriction: how messages call the type, and what it demands. -/
structure Restriction where
  typeName : String
  facets : Facets

namespace Restriction

/-- A value keeps the facets of a restriction. -/
def Keeps (l : Restriction) (v : Variety) (value : String) : Prop :=
  l.facets.fault? l.typeName value v = none

/-- The strongest normalization in a chain of restrictions, the innermost last. -/
def strongest (b : Builtin) : List Restriction → WhiteSpace
  | [] => b.whiteSpace
  | l :: ls => l.facets.whiteSpace.elim (strongest b ls) (max · (strongest b ls))

/-- **The normalization that counts** in a chain of restrictions: the nearest one. -/
def nearest (b : Builtin) (ls : List Restriction) : WhiteSpace :=
  (ls.findSome? (·.facets.whiteSpace)).getD b.whiteSpace

/-- A text is admitted by a built-in type, and keeps the facets of all restrictions, each with the
white space that is left at its place in the chain. -/
def Admitted (b : Builtin) (raw : String) : List Restriction → Prop
  | [] => b.admits (b.whiteSpace.apply raw) = true
  | l :: ls => Admitted b raw ls ∧ l.Keeps (.atomic b) ((strongest b (l :: ls)).apply raw)

variable {l : Restriction} {ls inner : List Restriction} {b : Builtin} {raw : String}
  {w : WhiteSpace}

theorem admitted_iff : Admitted b raw ls ↔ b.admits (b.whiteSpace.apply raw) = true ∧
    ∀ l inner, l :: inner <:+ ls → l.Keeps (.atomic b) ((strongest b (l :: inner)).apply raw) := by
  induction ls with
  | nil => simp [Admitted]
  | cons l ls ih =>
    rw [Admitted, ih, and_assoc]
    refine and_congr_right fun _ => ?_
    constructor
    · rintro ⟨hrest, hfirst⟩ l' inner h
      obtain h | h := List.suffix_cons_iff.1 h
      · obtain ⟨rfl, rfl⟩ := List.cons.inj h
        exact hfirst
      · exact hrest l' inner h
    · intro h
      exact ⟨fun l' inner hsuffix => h l' inner (List.suffix_cons_iff.2 (.inr hsuffix)),
        h l ls List.suffix_rfl⟩

theorem strongest_le (hb : b.whiteSpace ≤ w)
    (hls : ∀ l ∈ ls, ∀ s, l.facets.whiteSpace = some s → s ≤ w) : strongest b ls ≤ w := by
  induction ls with
  | nil => exact hb
  | cons l ls ih =>
    obtain ⟨hl, hls⟩ := List.forall_mem_cons.1 hls
    rw [strongest]
    cases hspace : l.facets.whiteSpace with
    | none => exact ih hls
    | some s => exact max_le (hl s hspace) (ih hls)

theorem le_strongest {s : WhiteSpace} (hl : l ∈ ls) (hs : l.facets.whiteSpace = some s) :
    s ≤ strongest b ls := by
  induction ls with
  | nil => cases hl
  | cons l' ls ih =>
    rw [strongest]
    obtain rfl | hl := List.mem_cons.1 hl
    · rw [hs]
      exact le_max_left s _
    · cases l'.facets.whiteSpace with
      | none => exact ih hl
      | some s' => exact (ih hl).trans (le_max_right s' _)

theorem whiteSpace_le_strongest : b.whiteSpace ≤ strongest b ls := by
  induction ls with
  | nil => exact le_refl _
  | cons l ls ih =>
    rw [strongest]
    cases l.facets.whiteSpace with
    | none => exact ih
    | some s => exact ih.trans (le_max_right s _)

theorem nearest_le_strongest : nearest b ls ≤ strongest b ls := by
  rw [nearest]
  cases h : ls.findSome? (·.facets.whiteSpace) with
  | none => exact whiteSpace_le_strongest
  | some s =>
    obtain ⟨l, hl, hs⟩ := List.exists_of_findSome?_eq_some h
    exact le_strongest hl hs

/-- **The nearest normalization is the strongest one** if there is none stronger. -/
theorem strongest_eq_nearest (hb : b.whiteSpace ≤ nearest b ls)
    (hls : ∀ l ∈ ls, ∀ s, l.facets.whiteSpace = some s → s ≤ nearest b ls) :
    strongest b ls = nearest b ls :=
  le_antisymm (strongest_le hb hls) nearest_le_strongest

theorem strongest_le_of_suffix (h : inner <:+ ls) : strongest b inner ≤ strongest b ls :=
  strongest_le whiteSpace_le_strongest fun _ hl _ hs => le_strongest (h.subset hl) hs

/-- The types whose values keep some of their white space admit everything. -/
theorem admits_apply (hatomic : b.item? = none) (hw : b.whiteSpace ≤ w) (raw : String) :
    b.admits (b.whiteSpace.apply raw) = b.admits (w.apply raw) := by
  by_cases hcollapse : b.whiteSpace = .collapse
  · obtain rfl : w = .collapse := by
      rw [hcollapse] at hw
      cases w
      case collapse => rfl
      all_goals exact absurd hw (by decide)
    rw [hcollapse]
  · have hall (value : String) : b.admits value = true := by
      cases b
      case string | anySimpleType | normalizedString => rfl
      all_goals exact absurd rfl hcollapse
    rw [hall, hall]

/-- The white space that a restriction leaves of what those further in have left. -/
theorem strongest_cons_apply : (strongest b (l :: ls)).apply raw =
    l.facets.whiteSpace.elim ((strongest b ls).apply raw)
      (·.apply ((strongest b ls).apply raw)) := by
  rw [strongest]
  cases l.facets.whiteSpace with
  | none => rfl
  | some s => exact s.apply_max _ raw

end Restriction

namespace Grammar

open Restriction

/-- **A type is a restriction of another.** -/
inductive Restricts (g : Grammar) : SimpleTypeRef → Restriction → SimpleTypeRef → Prop
  | named {n : ExpandedName} {base : SimpleTypeRef} {facets : Facets}
      (own : isSchemaName n = false)
      (found : g.types.find? n = some (.simple (.restriction base facets))) :
      Restricts g (.named n) ⟨n.localName, facets⟩ base
  | inline {base : SimpleTypeRef} {facets : Facets} :
      Restricts g (.inline (.restriction base facets)) ⟨anonymousName, facets⟩ base

/-- **A chain of restrictions** from a type to an atomic built-in type, the outermost first. -/
inductive Chain (g : Grammar) : SimpleTypeRef → List Restriction → Builtin → Prop
  | builtin {n : ExpandedName} {b : Builtin} (schema : isSchemaName n = true)
      (found : Builtin.ofName? n.localName = some b) (atomic : b.item? = none) :
      Chain g (.named n) [] b
  | restriction {r base : SimpleTypeRef} {l : Restriction} {ls : List Restriction} {b : Builtin}
      (first : g.Restricts r l base) (rest : Chain g base ls b) : Chain g r (l :: ls) b

variable {g : Grammar} {r base : SimpleTypeRef} {l : Restriction} {ls : List Restriction}
  {b : Builtin} {steps : ℕ} {raw v : String}

/-- **A value of a restriction** is checked as one of the base first. -/
theorem checkRef_restricts (h : g.Restricts r l base) (steps : ℕ) (raw : String) :
    g.checkRef (steps + 1) r raw = (do
      let baseValue ← g.checkRef steps base raw
      checkFacets l.facets l.typeName (g.variety steps base) baseValue) := by
  cases h with
  | named own found =>
    rw [checkRef, own, if_neg Bool.false_ne_true, found]
    rfl
  | inline => rfl

theorem variety_restricts (h : g.Restricts r l base) (steps : ℕ) :
    g.variety (steps + 1) r = g.variety steps base := by
  cases h with
  | named own found =>
    rw [variety, own, if_neg Bool.false_ne_true, found]
    rfl
  | inline => rfl

theorem checkFacets_eq_ok {value : String} {variety : Variety} :
    checkFacets l.facets l.typeName (.ok variety) value = .ok v ↔
      v = l.facets.whiteSpace.elim value (·.apply value) ∧ l.Keeps variety v := by
  have hvalue : (l.facets.whiteSpace.map (·.apply value)).getD value =
      l.facets.whiteSpace.elim value (·.apply value) := by cases l.facets.whiteSpace <;> rfl
  rw [checkFacets, hvalue, Restriction.Keeps]
  constructor
  · intro h
    split at h
    · cases h
    · next hkeeps =>
      cases h
      exact ⟨rfl, hkeeps⟩
  · rintro ⟨rfl, hkeeps⟩
    rw [hkeeps]

theorem Chain.variety_eq (h : g.Chain r ls b) :
    ∀ {steps : ℕ}, ls.length < steps → g.variety steps r = .ok (.atomic b) := by
  induction h with
  | builtin schema found atomic =>
    rintro (_ | steps) hsteps
    · cases hsteps
    · rw [variety, if_pos schema, found]
      simp [Builtin.variety, atomic]
  | restriction first rest ih =>
    rintro (_ | steps) hsteps
    · cases hsteps
    · rw [variety_restricts first]
      exact ih (Nat.lt_of_succ_lt_succ hsteps)

/-- **What is checked along a chain.** Each restriction meets the value with the white space that is
left by itself and those further in. -/
theorem Chain.checkRef_eq_ok (h : g.Chain r ls b) : ∀ {steps : ℕ} {v : String},
    g.checkRef steps r raw = .ok v ↔
      ls.length < steps ∧ Admitted b raw ls ∧ v = (strongest b ls).apply raw := by
  induction h with
  | builtin schema found atomic =>
    rintro (_ | steps) v
    · simp [checkRef]
    · rw [checkRef, if_pos schema, found, Admitted, strongest]
      simp only [Builtin.check, List.length_nil, Nat.zero_lt_succ, true_and]
      split
      · next hadmits => simp [hadmits, eq_comm]
      · next hadmits => simp [hadmits]
  | @restriction _ _ l ls b first rest ih =>
    rintro (_ | steps) v
    · simp [checkRef]
    · rw [checkRef_restricts first, bind_eq_ok, List.length_cons, Nat.succ_lt_succ_iff, Admitted,
        strongest_cons_apply]
      constructor
      · rintro ⟨_, hbase, h⟩
        obtain ⟨hsteps, hadmitted, rfl⟩ := ih.1 hbase
        rw [rest.variety_eq hsteps] at h
        obtain ⟨rfl, hkeeps⟩ := checkFacets_eq_ok.1 h
        exact ⟨hsteps, ⟨hadmitted, hkeeps⟩, rfl⟩
      · rintro ⟨hsteps, ⟨hadmitted, hkeeps⟩, rfl⟩
        refine ⟨_, ih.2 ⟨hsteps, hadmitted, rfl⟩, ?_⟩
        rw [rest.variety_eq hsteps]
        exact checkFacets_eq_ok.2 ⟨rfl, hkeeps⟩

theorem Chain.atomic (h : g.Chain r ls b) : b.item? = none := by
  induction h with
  | builtin schema found atomic => exact atomic
  | restriction first rest ih => exact ih

/-- With its white space normalized beforehand, a value is the same to all restrictions. -/
theorem admitted_normalized (hatomic : b.item? = none) {w : WhiteSpace} (hw : strongest b ls ≤ w) :
    Admitted b (w.apply raw) ls ↔ b.admits (b.whiteSpace.apply raw) = true ∧
      ∀ l inner, l :: inner <:+ ls → l.Keeps (.atomic b) (w.apply raw) := by
  have hle : b.whiteSpace ≤ w := whiteSpace_le_strongest.trans hw
  rw [admitted_iff, (WhiteSpace.apply_of_le hle raw).2, admits_apply hatomic hle]
  refine and_congr_right fun _ => forall₂_congr fun l inner => forall_congr' fun hsuffix => ?_
  rw [(WhiteSpace.apply_of_le ((strongest_le_of_suffix hsuffix).trans hw) raw).2]

/-- **Values with normalized white space.** If no restriction of a chain normalizes more than the
nearest one that normalizes at all, then this is what is left of the white space of a value. A value
and the same one with its white space normalized beforehand are both accepted or both turned away,
unless there is a restriction, further in than any that normalizes as much, which tells the two
apart. -/
theorem check_normalized (h : g.Chain r ls b)
    (hstrong : ∀ s ∈ b.whiteSpace :: ls.filterMap (·.facets.whiteSpace), s ≤ nearest b ls)
    (raw : String) :
    (∀ x v, g.check (some r) x = .ok v ↔
      ls.length < derivationLimit ∧ Admitted b x ls ∧ v = (nearest b ls).apply x) ∧
    ((g.check (some r) raw).toOption = (g.check (some r) ((nearest b ls).apply raw)).toOption ∨
      ∃ l inner, l :: inner <:+ ls ∧ strongest b (l :: inner) < nearest b ls ∧
        ¬(l.Keeps (.atomic b) ((strongest b (l :: inner)).apply raw) ↔
          l.Keeps (.atomic b) ((nearest b ls).apply raw))) := by
  obtain ⟨hb, hls⟩ := List.forall_mem_cons.1 hstrong
  have hnearest : strongest b ls = nearest b ls :=
    strongest_eq_nearest hb fun l hl s hs => hls s (List.mem_filterMap.2 ⟨l, hl, hs⟩)
  have hcheck (x v : String) : g.check (some r) x = .ok v ↔
      ls.length < derivationLimit ∧ Admitted b x ls ∧ v = (nearest b ls).apply x :=
    hnearest ▸ h.checkRef_eq_ok
  refine ⟨hcheck, ?_⟩
  by_cases hall : ∀ l inner, l :: inner <:+ ls →
      (l.Keeps (.atomic b) ((strongest b (l :: inner)).apply raw) ↔
        l.Keeps (.atomic b) ((nearest b ls).apply raw))
  · left
    have hadmitted : Admitted b raw ls ↔ Admitted b ((nearest b ls).apply raw) ls := by
      rw [admitted_iff, admitted_normalized h.atomic hnearest.le]
      exact and_congr_right fun _ => forall₂_congr fun l inner => forall_congr' (hall l inner)
    refine toOption_eq_of_ok_iff fun v => ?_
    rw [hcheck, hcheck, hadmitted, (WhiteSpace.apply_of_le (le_refl _) raw).2]
  · right
    push Not at hall
    obtain ⟨l, inner, hsuffix, hdiffers⟩ := hall
    have hle : strongest b (l :: inner) ≤ nearest b ls :=
      (strongest_le_of_suffix hsuffix).trans_eq hnearest
    refine ⟨l, inner, hsuffix, lt_of_le_of_ne hle fun heq => ?_, fun hiff => ?_⟩
    · rw [heq] at hdiffers
      exact hdiffers.elim (fun h => h.2 h.1) fun h => h.1 h.2
    · exact hdiffers.elim (fun h => h.2 (hiff.1 h.1)) fun h => h.1 (hiff.2 h.2)

/-- Texts of three characters, without the white space around them. -/
def trimmedTriple : SimpleTypeRef :=
  .inline (.restriction (.inline (.restriction (.named (schemaName "string"))
    { length := some 3 })) { whiteSpace := some .collapse })

/-- The restrictions of `trimmedTriple`. -/
def tripleRestrictions : List Restriction :=
  [⟨anonymousName, { whiteSpace := some .collapse }⟩, ⟨anonymousName, { length := some 3 }⟩]

theorem chain_trimmedTriple (g : Grammar) : g.Chain trimmedTriple tripleRestrictions .string :=
  .restriction .inline (.restriction .inline (.builtin rfl rfl rfl))

theorem check_normalized_triple :
    Builtin.string.whiteSpace ≤ nearest .string tripleRestrictions ∧
    ((default : Grammar).check (some trimmedTriple) " a " = .ok "a" ↔
      tripleRestrictions.length < derivationLimit ∧ Admitted .string " a " tripleRestrictions ∧
        "a" = (nearest .string tripleRestrictions).apply " a ") :=
  ⟨by decide, (check_normalized (chain_trimmedTriple default) (by decide) " a ").1 " a " "a"⟩

/-- **The length counts the white space that is taken away further out**: a space, a letter and a
space make three characters, but without the spaces it is one. -/
theorem check_trimmedTriple :
    (default : Grammar).Chain trimmedTriple tripleRestrictions .string ∧
    (∀ s ∈ Builtin.string.whiteSpace :: tripleRestrictions.filterMap (·.facets.whiteSpace),
      s ≤ nearest .string tripleRestrictions) ∧
    (default : Grammar).check (some trimmedTriple) " a " = .ok "a" ∧
    (nearest .string tripleRestrictions).apply " a " = "a" ∧
    (default : Grammar).check (some trimmedTriple) "a" =
      .error (.invalid (.length "a" 1 3 anonymousName)) :=
  ⟨chain_trimmedTriple default, by decide, by decide +kernel, by decide +kernel, by decide +kernel⟩

end Grammar

end XmlConformance.Schema
