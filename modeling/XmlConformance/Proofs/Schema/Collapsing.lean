import Mathlib.Data.List.DropRight
import XmlConformance.Proofs.Schema.Normalizing

/-!
# Proofs/Schema/Collapsing — what is left of white space when it is collapsed

Collapsed values have no white space at their ends and single spaces in between, and white space is
that of any kind. Where it is only replaced by spaces, white space is the space, the tab and the two
line breaks. So collapsing is squeezing the spaces (`squeezed`) of a text in which white space of
any kind is made a space, and it squeezes the spaces of the replaced text only if there is no white
space of another kind (`WhiteSpace.collapse_apply_eq_iff`).
-/

namespace XmlConformance.Schema

open Text

/-! ## Runs of spaces -/

/-- A single space in place of each run of spaces. -/
def squeeze : List Char → List Char
  | [] => []
  | c :: cs => if c = ' ' ∧ cs.head? = some ' ' then squeeze cs else c :: squeeze cs

/-- No spaces at the ends of a text, and a single one in place of each run of them in between. -/
def squeezed (s : String) : String := String.ofList (trimBy (· == ' ') (squeeze s.toList))

variable {c : Char} {cs : List Char}

theorem squeeze_cons_of_ne (hc : c ≠ ' ') (cs : List Char) : squeeze (c :: cs) = c :: squeeze cs :=
  if_neg fun h => hc h.1

theorem squeeze_space_space (cs : List Char) :
    squeeze (' ' :: ' ' :: cs) = squeeze (' ' :: cs) :=
  if_pos ⟨rfl, rfl⟩

theorem squeeze_space_cons_of_ne (hc : c ≠ ' ') (cs : List Char) :
    squeeze (' ' :: c :: cs) = ' ' :: c :: squeeze cs := by
  rw [squeeze, if_neg fun h => hc (Option.some.inj h.2), squeeze_cons_of_ne hc]

theorem mem_squeeze (hc : c ≠ ' ') : ∀ {cs : List Char}, c ∈ cs → c ∈ squeeze cs
  | d :: cs, h => by
    rw [squeeze]
    split
    · next hd =>
      rcases List.mem_cons.1 h with rfl | h
      · exact absurd hd.1 hc
      · exact mem_squeeze hc h
    · rcases List.mem_cons.1 h with rfl | h
      · exact List.mem_cons_self
      · exact List.mem_cons_of_mem d (mem_squeeze hc h)

/-! ## Trimming -/

theorem mem_dropWhile {p : Char → Bool} (hc : p c = false) (h : c ∈ cs) : c ∈ cs.dropWhile p := by
  rw [← List.takeWhile_append_dropWhile (p := p) (l := cs), List.mem_append] at h
  refine h.resolve_left fun htake => ?_
  rw [List.mem_takeWhile_imp htake] at hc
  cases hc

theorem mem_trimBy {p : Char → Bool} (hc : p c = false) (h : c ∈ cs) : c ∈ trimBy p cs :=
  List.mem_reverse.2 (mem_dropWhile hc (List.mem_reverse.2 (mem_dropWhile hc h)))

theorem rdropWhile_append (p : Char → Bool) (as bs : List Char) :
    (as ++ bs).rdropWhile p =
      if bs.rdropWhile p = [] then as.rdropWhile p else as ++ bs.rdropWhile p := by
  simp only [List.rdropWhile, List.reverse_append, List.dropWhile_append, List.reverse_eq_nil_iff,
    List.isEmpty_iff]
  split_ifs <;> simp

theorem rdropWhile_eq_self {p : Char → Bool} {w : List Char} (hw : ∀ c ∈ w, p c = false) :
    w.rdropWhile p = w := by
  rw [List.rdropWhile, dropWhile_eq_self fun c hc =>
    hw c (List.mem_reverse.1 (List.mem_of_mem_head? hc)), List.reverse_reverse]

/-- A character that is no space keeps what is behind it from being trimmed in front. -/
theorem trimBy_squeeze_cons_of_ne (hc : c ≠ ' ') (cs : List Char) :
    trimBy (· == ' ') (squeeze (c :: cs)) = (c :: squeeze cs).rdropWhile (· == ' ') := by
  rw [squeeze_cons_of_ne hc, trimBy, List.dropWhile_cons_of_neg (by simpa using hc),
    List.rdropWhile]

theorem trimBy_squeeze_space (cs : List Char) :
    trimBy (· == ' ') (squeeze (' ' :: cs)) = trimBy (· == ' ') (squeeze cs) := by
  cases cs with
  | nil => rfl
  | cons c cs =>
    by_cases hc : c = ' '
    · rw [hc, squeeze_space_space]
    · rw [squeeze_space_cons_of_ne hc, squeeze_cons_of_ne hc, trimBy, trimBy,
        List.dropWhile_cons_of_pos (by rfl)]

/-- **What is left behind a space**: nothing, or the space and what is left of the rest. -/
theorem rdropWhile_squeeze_space : ∀ cs : List Char,
    (squeeze (' ' :: cs)).rdropWhile (· == ' ') =
      if trimBy (· == ' ') (squeeze cs) = [] then []
      else ' ' :: trimBy (· == ' ') (squeeze cs)
  | [] => rfl
  | c :: cs => by
    by_cases hc : c = ' '
    · rw [hc, squeeze_space_space, rdropWhile_squeeze_space cs, trimBy_squeeze_space]
    · have hne : (c :: squeeze cs).rdropWhile (· == ' ') ≠ [] := fun hnil =>
        hc (by simpa using List.rdropWhile_eq_nil_iff.1 hnil c List.mem_cons_self)
      rw [trimBy_squeeze_cons_of_ne hc, squeeze_space_cons_of_ne hc, if_neg hne,
        ← List.singleton_append, rdropWhile_append, if_neg hne, List.singleton_append]

/-! ## Words with single spaces between them -/

/-- A word in front of others: they are behind it if there are any. -/
theorem intercalate_cons_of_isWord {p : Char → Bool} (w : List Char) {ws : List (List Char)}
    (hws : ∀ v ∈ ws, IsWord p v) : [' '].intercalate (w :: ws) =
      if [' '].intercalate ws = [] then w else w ++ ' ' :: [' '].intercalate ws := by
  cases ws with
  | nil => simp
  | cons v vs =>
    have hv : v ≠ [] := (hws v List.mem_cons_self).1
    have hne : [' '].intercalate (v :: vs) ≠ [] := by
      cases vs with
      | nil => simpa using hv
      | cons u us => simp [List.intercalate_cons_cons]
    rw [if_neg hne, List.intercalate_cons_cons, List.append_assoc, List.singleton_append]

/-- **Words with single spaces between them** are what is left of a text when its spaces are
squeezed. By induction on the text, where `current` holds what is read of a word. -/
theorem intercalate_runsFrom : ∀ (cs current : List Char), (∀ c ∈ current, (c == ' ') = false) →
    [' '].intercalate (runsFrom (· == ' ') current cs) =
      if current = [] then trimBy (· == ' ') (squeeze cs)
      else (current.reverse ++ squeeze cs).rdropWhile (· == ' ')
  | [], current, hcurrent => by
    by_cases hnil : current = []
    · subst hnil
      rfl
    · have hword : ∀ c ∈ current.reverse, (c == ' ') = false := fun c hc =>
        hcurrent c (List.mem_reverse.1 hc)
      rw [runsFrom, if_neg (by simpa using hnil), if_neg hnil, List.intercalate_singleton, squeeze,
        List.append_nil, rdropWhile_eq_self hword]
  | c :: cs, current, hcurrent => by
    by_cases hc : c = ' '
    · subst hc
      have hrest := intercalate_runsFrom cs [] (List.forall_mem_nil _)
      have hwords := intercalate_cons_of_isWord current.reverse
        fun v (hv : v ∈ runsFrom (· == ' ') [] cs) => isWord_of_mem_runs hv
      rw [if_pos rfl] at hrest
      rw [runsFrom, if_pos (by rfl)]
      by_cases hnil : current = []
      · subst hnil
        rw [if_pos rfl, List.isEmpty_nil, if_pos rfl, trimBy_squeeze_space, hrest]
      · have hword : ∀ c ∈ current.reverse, (c == ' ') = false := fun c hc =>
          hcurrent c (List.mem_reverse.1 hc)
        rw [if_neg hnil, if_neg (by simpa using hnil), rdropWhile_append, rdropWhile_squeeze_space,
          ← hrest, rdropWhile_eq_self hword, hwords]
        by_cases hnone : [' '].intercalate (runsFrom (· == ' ') [] cs) = []
        · simp only [hnone, if_true]
        · simp only [hnone, if_false, List.cons_ne_nil]
    · rw [runsFrom, if_neg (by simpa using hc),
        intercalate_runsFrom cs (c :: current)
          (List.forall_mem_cons.2 ⟨by simpa using hc, hcurrent⟩),
        if_neg (List.cons_ne_nil c current), List.reverse_cons, List.append_assoc,
        List.singleton_append]
      by_cases hnil : current = []
      · subst hnil
        rw [if_pos rfl, trimBy_squeeze_cons_of_ne hc]
        rfl
      · rw [if_neg hnil, squeeze_cons_of_ne hc]

theorem runsFrom_congr {p q : Char → Bool} : ∀ {cs : List Char} (current : List Char),
    (∀ c ∈ cs, p c = q c) → runsFrom p current cs = runsFrom q current cs
  | [], _, _ => rfl
  | c :: cs, current, h => by
    obtain ⟨hc, hrest⟩ := List.forall_mem_cons.1 h
    rw [runsFrom, runsFrom, hc, runsFrom_congr _ hrest, runsFrom_congr _ hrest]

namespace WhiteSpace

/-! ## Collapsing -/

/-- A space in place of white space of any kind. -/
def blankToSpace (c : Char) : Char := if isBlank c then ' ' else c

theorem blankToSpace_of_other (h : isBlank c = false) : blankToSpace c = c := by
  rw [blankToSpace, if_neg (by simp [h])]

theorem isBlank_blankToSpace (c : Char) : isBlank (blankToSpace c) = isBlank c := by
  cases h : isBlank c with
  | false => rw [blankToSpace_of_other h, h]
  | true =>
    rw [blankToSpace, if_pos h]
    exact isBlank_space

theorem isBlank_blankToSpace_iff (c : Char) :
    isBlank (blankToSpace c) = (blankToSpace c == ' ') := by
  cases h : isBlank c with
  | false =>
    have hne : c ≠ ' ' := by
      rintro rfl
      cases h.symm.trans isBlank_space
    rw [blankToSpace_of_other h, h]
    simp [hne]
  | true =>
    rw [blankToSpace, if_pos h]
    exact isBlank_space

theorem runs_blankToSpace (cs : List Char) :
    runs (· == ' ') (cs.map blankToSpace) = runs isBlank cs := by
  have hspace : ∀ c ∈ cs.map blankToSpace, (c == ' ') = isBlank c := by
    intro c hc
    obtain ⟨d, -, rfl⟩ := List.mem_map.1 hc
    exact (isBlank_blankToSpace_iff d).symm
  exact (runsFrom_congr [] hspace).trans
    (runsFrom_map isBlank_blankToSpace (fun _ => blankToSpace_of_other) cs [])

theorem normalizeSpace_eq_squeezed (s : String) :
    normalizeSpace s = squeezed (String.ofList (s.toList.map blankToSpace)) := by
  have hjoined := intercalate_runsFrom (s.toList.map blankToSpace) [] (List.forall_mem_nil _)
  rw [if_pos rfl] at hjoined
  rw [squeezed, String.toList_ofList, ← hjoined,
    show runsFrom (· == ' ') [] (s.toList.map blankToSpace) = _ from runs_blankToSpace s.toList,
    ← toList_normalizeSpace, String.ofList_toList]

/-- The white space that is replaced, and the space that it is replaced by. -/
def replaced : List Char := [' ', '\t', '\n', '\r']

theorem toSpace_eq_self (h : c ∉ replaced) : toSpace c = c := by
  rw [toSpace, if_neg]
  simp only [Bool.or_eq_true, beq_iff_eq]
  rintro ((rfl | rfl) | rfl) <;> exact h (by decide)

theorem toSpace_eq_blankToSpace (h : isBlank c = true → c ∈ replaced) :
    toSpace c = blankToSpace c := by
  cases hblank : isBlank c with
  | false => rw [toSpace_of_other hblank, blankToSpace_of_other hblank]
  | true =>
    have hmem := h hblank
    simp only [replaced, List.mem_cons, List.not_mem_nil, or_false] at hmem
    obtain rfl | rfl | rfl | rfl := hmem <;> decide

/-- White space that is not replaced is left where spaces are squeezed. -/
theorem mem_squeezed_replace {s : String} (hc : c ∈ s.toList) (h : c ∉ replaced) :
    c ∈ (squeezed (WhiteSpace.replace.apply s)).toList := by
  have hne : c ≠ ' ' := by
    rintro rfl
    exact h List.mem_cons_self
  have hmem : c ∈ s.toList.map toSpace := List.mem_map.2 ⟨c, hc, toSpace_eq_self h⟩
  rw [squeezed, apply, String.toList_ofList, String.toList_ofList]
  exact mem_trimBy (by simpa using hne) (mem_squeeze hne hmem)

/-- **Collapsed white space.** A space in place of white space of any kind, none at the ends, and a
single one in place of each run. Spaces squeezed where white space is replaced give the same just if
all white space of the text is of the kinds that are replaced. -/
theorem collapse_apply_eq_iff (s : String) :
    WhiteSpace.collapse.apply s = squeezed (String.ofList (s.toList.map blankToSpace)) ∧
    (WhiteSpace.collapse.apply s = squeezed (WhiteSpace.replace.apply s) ↔
      ∀ c ∈ s.toList, isBlank c = true → c ∈ replaced) := by
  refine ⟨normalizeSpace_eq_squeezed s, fun heq c hc hblank => ?_, fun hall => ?_⟩
  · by_contra hnot
    have hmem := mem_squeezed_replace hc hnot
    rw [← heq] at hmem
    obtain hspace | hother := Bool.or_eq_true_iff.1 (allChars_normalizeSpace s c hmem)
    · exact hnot (by rw [beq_iff_eq.1 hspace]; decide)
    · rw [hblank] at hother
      cases hother
  · have hmap : s.toList.map toSpace = s.toList.map blankToSpace :=
      List.map_congr_left fun c hc => toSpace_eq_blankToSpace (hall c hc)
    rw [show WhiteSpace.replace.apply s = String.ofList (s.toList.map toSpace) from rfl, hmap]
    exact normalizeSpace_eq_squeezed s

/-- **The no-break space** is white space of a kind that is not replaced. -/
theorem collapse_noBreakSpace :
    WhiteSpace.collapse.apply "a\u00a0b" = "a b" ∧
      squeezed (WhiteSpace.replace.apply "a\u00a0b") = "a\u00a0b" :=
  ⟨by decide +kernel, by decide +kernel⟩

end WhiteSpace

end XmlConformance.Schema
