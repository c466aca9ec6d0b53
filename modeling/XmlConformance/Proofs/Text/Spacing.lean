import Mathlib.Data.List.Basic
import XmlConformance.Proofs.Xml.Characters
import XmlConformance.Text.Space

/-!
# Proofs/Text/Spacing — words and the white space between them

The runs of a text are its words: they are not empty and hold no white space (`IsWord`). Words with
white space between them have just these words as their runs (`runs_intercalate`), so a text whose
space is normalized stays as it is (`normalizeSpace_normalizeSpace`), and has no white space at its
ends (`trim_normalizeSpace`).
-/

namespace XmlConformance.Text

variable {p : Char → Bool} {x : Char} {w : List Char}

/-! ## Runs -/

/-- A character that ends words keeps what is in front of it apart from what is behind it. -/
theorem runsFrom_append_cons (hx : p x = true) (bs : List Char) :
    ∀ (as current : List Char),
      runsFrom p current (as ++ x :: bs) = runsFrom p current as ++ runs p bs
  | [], current => by
    rw [List.nil_append, runsFrom, runsFrom, if_pos hx]
    split <;> rfl
  | a :: as, current => by
    rw [List.cons_append, runsFrom, runsFrom, runsFrom_append_cons hx bs as,
      runsFrom_append_cons hx bs as]
    split
    · split <;> rfl
    · rfl

theorem runs_append_cons (hx : p x = true) (as bs : List Char) :
    runs p (as ++ x :: bs) = runs p as ++ runs p bs :=
  runsFrom_append_cons hx bs as []

theorem runs_cons (hx : p x = true) (bs : List Char) : runs p (x :: bs) = runs p bs :=
  runs_append_cons hx [] bs

theorem subset_of_mem_runsFrom :
    ∀ {cs current : List Char}, w ∈ runsFrom p current cs → w ⊆ current ++ cs
  | [], current, h => by
    rw [runsFrom] at h
    split at h
    · cases h
    · rw [List.mem_singleton.1 h]
      intro c hc
      simpa using hc
  | c :: cs, current, h => by
    have htail : cs ⊆ current ++ c :: cs := fun x hx => by simp [hx]
    have hcurrent : current ⊆ current ++ c :: cs := List.subset_append_left _ _
    rw [runsFrom] at h
    split at h
    · split at h
      · exact List.Subset.trans (subset_of_mem_runsFrom h) htail
      · obtain rfl | h := List.mem_cons.1 h
        · exact fun x hx => hcurrent (List.mem_reverse.1 hx)
        · exact List.Subset.trans (subset_of_mem_runsFrom h) htail
    · refine List.Subset.trans (subset_of_mem_runsFrom h) ?_
      exact List.append_subset.2 ⟨List.cons_subset.2 ⟨by simp, hcurrent⟩, htail⟩

/-- **A map that keeps white space as white space and the other characters as they are** keeps the
runs. -/
theorem runsFrom_map {f : Char → Char} (hblank : ∀ c, p (f c) = p c)
    (hother : ∀ c, p c = false → f c = c) :
    ∀ (cs current : List Char), runsFrom p current (cs.map f) = runsFrom p current cs
  | [], _ => rfl
  | c :: cs, current => by
    rw [List.map_cons, runsFrom, runsFrom, hblank, runsFrom_map hblank hother cs,
      runsFrom_map hblank hother cs]
    by_cases hc : p c = true
    · simp only [hc, if_true]
    · rw [if_neg hc, if_neg hc, hother c (Bool.eq_false_iff.2 hc)]

/-! ## Words -/

/-- A text that is not empty, without white space. -/
def IsWord (p : Char → Bool) (w : List Char) : Prop := w ≠ [] ∧ ∀ c ∈ w, p c = false

theorem isWord_of_mem_runsFrom : ∀ {cs current : List Char}, (∀ c ∈ current, p c = false) →
    w ∈ runsFrom p current cs → IsWord p w
  | [], current, hcurrent, h => by
    rw [runsFrom] at h
    split at h
    · cases h
    · next hne =>
      rw [List.mem_singleton.1 h]
      exact ⟨by simpa using hne, fun c hc => hcurrent c (List.mem_reverse.1 hc)⟩
  | c :: cs, current, hcurrent, h => by
    rw [runsFrom] at h
    split at h
    · split at h
      · exact isWord_of_mem_runsFrom (List.forall_mem_nil _) h
      · next hne =>
        obtain rfl | h := List.mem_cons.1 h
        · exact ⟨by simpa using hne, fun c hc => hcurrent c (List.mem_reverse.1 hc)⟩
        · exact isWord_of_mem_runsFrom (List.forall_mem_nil _) h
    · next hc =>
      exact isWord_of_mem_runsFrom
        (List.forall_mem_cons.2 ⟨Bool.eq_false_iff.2 hc, hcurrent⟩) h

theorem runsFrom_of_other : ∀ {cs : List Char} (current : List Char), (∀ c ∈ cs, p c = false) →
    cs ≠ [] → runsFrom p current cs = [current.reverse ++ cs]
  | [], _, _, hne => absurd rfl hne
  | [c], current, h, _ => by
    rw [runsFrom, if_neg (by simp [h c]), runsFrom]
    simp
  | c :: d :: cs, current, h, _ => by
    obtain ⟨hc, hrest⟩ := List.forall_mem_cons.1 h
    rw [runsFrom, if_neg (by simp [hc]), runsFrom_of_other _ hrest (List.cons_ne_nil d cs)]
    simp

/-- **Words with white space between them** are told apart again. -/
theorem runs_intercalate (hx : p x = true) :
    ∀ {ws : List (List Char)}, (∀ w ∈ ws, IsWord p w) → runs p ([x].intercalate ws) = ws
  | [], _ => rfl
  | [w], h => by
    obtain ⟨hne, hw⟩ := h w (List.mem_singleton_self w)
    rw [List.intercalate_singleton]
    exact runsFrom_of_other [] hw hne
  | w :: v :: ws, h => by
    obtain ⟨⟨hne, hw⟩, hrest⟩ := List.forall_mem_cons.1 h
    have hfirst : runs p w = [w] := runsFrom_of_other [] hw hne
    rw [List.intercalate_cons_cons, List.append_assoc, List.singleton_append, runs_append_cons hx,
      hfirst, runs_intercalate hx hrest]
    rfl

/-! ## Normalized white space -/

theorem isBlank_space : isBlank ' ' = true := by decide

theorem toList_normalizeSpace (s : String) :
    (normalizeSpace s).toList = [' '].intercalate (runs isBlank s.toList) := by
  rw [normalizeSpace, String.toList_intercalate, words, List.map_map]
  simp [Function.comp_def]

theorem isWord_of_mem_runs {s : List Char} (h : w ∈ runs p s) : IsWord p w :=
  isWord_of_mem_runsFrom (List.forall_mem_nil _) h

/-- **The words of a text stay** when its space is normalized. -/
theorem words_normalizeSpace (s : String) : words (normalizeSpace s) = words s := by
  rw [words, words, toList_normalizeSpace,
    runs_intercalate isBlank_space fun _ => isWord_of_mem_runs]

theorem normalizeSpace_normalizeSpace (s : String) :
    normalizeSpace (normalizeSpace s) = normalizeSpace s :=
  congrArg " ".intercalate (words_normalizeSpace s)

/-- **Texts have the same words** just if they are the same when their space is normalized. -/
theorem normalizeSpace_eq_iff {s s' : String} :
    normalizeSpace s = normalizeSpace s' ↔ runs isBlank s.toList = runs isBlank s'.toList := by
  refine ⟨fun h => ?_, fun h => by rw [normalizeSpace, normalizeSpace, words, words, h]⟩
  have hwords : words s = words s' := by rw [← words_normalizeSpace, h, words_normalizeSpace]
  exact List.map_injective_iff.2 (fun _ _ => String.ofList_injective) hwords

/-- The only white space in a text whose space is normalized is spaces. -/
theorem allChars_normalizeSpace (s : String) :
    AllChars (fun c => c == ' ' || !isBlank c) (normalizeSpace s) := by
  refine AllChars.intercalate (by decide) fun w hw => ?_
  obtain ⟨cs, hcs, rfl⟩ := List.mem_map.1 hw
  rw [AllChars.ofList_iff]
  intro c hc
  rw [(isWord_of_mem_runs hcs).2 c hc]
  simp

/-! ## Trimming -/

theorem dropWhile_eq_self {cs : List Char} (h : ∀ c ∈ cs.head?, p c = false) :
    cs.dropWhile p = cs := by
  cases cs with
  | nil => rfl
  | cons c cs => exact List.dropWhile_cons_of_neg (by simp [h c rfl])

theorem trimBy_eq_self {cs : List Char} (hhead : ∀ c ∈ cs.head?, p c = false)
    (hlast : ∀ c ∈ cs.getLast?, p c = false) : trimBy p cs = cs := by
  rw [trimBy, dropWhile_eq_self hhead, dropWhile_eq_self (by rwa [List.head?_reverse]),
    List.reverse_reverse]

theorem trimBy_map {f : Char → Char} (hblank : ∀ c, p (f c) = p c) (cs : List Char) :
    trimBy p (cs.map f) = (trimBy p cs).map f := by
  have hp : p ∘ f = p := funext hblank
  simp only [trimBy, List.dropWhile_map, hp, ← List.map_reverse]

/-- Words with white space between them neither start nor end with it. -/
theorem ends_intercalate (hx : p x = true) :
    ∀ {ws : List (List Char)}, (∀ w ∈ ws, IsWord p w) →
      (∀ c ∈ ([x].intercalate ws).head?, p c = false) ∧
        ∀ c ∈ ([x].intercalate ws).getLast?, p c = false
  | [], _ => ⟨nofun, nofun⟩
  | [w], h => by
    obtain ⟨-, hw⟩ := h w (List.mem_singleton_self w)
    rw [List.intercalate_singleton]
    exact ⟨fun c hc => hw c (List.mem_of_mem_head? hc),
      fun c hc => hw c (List.mem_of_mem_getLast? hc)⟩
  | w :: v :: ws, h => by
    obtain ⟨⟨hne, hw⟩, hrest⟩ := List.forall_mem_cons.1 h
    have hrestNe : [x].intercalate (v :: ws) ≠ [] := by
      intro hnil
      have hruns := runs_intercalate hx hrest
      rw [hnil] at hruns
      cases hruns
    rw [List.intercalate_cons_cons, List.append_assoc]
    constructor
    · intro c hc
      rw [List.head?_append_of_ne_nil _ hne] at hc
      exact hw c (List.mem_of_mem_head? hc)
    · intro c hc
      rw [List.getLast?_append_of_ne_nil _ (by simp), List.getLast?_append_of_ne_nil _ hrestNe]
        at hc
      exact (ends_intercalate hx hrest).2 c hc

/-- **There is nothing to trim** where white space is normalized. -/
theorem trim_normalizeSpace (s : String) : trim (normalizeSpace s) = normalizeSpace s := by
  have hends := ends_intercalate isBlank_space fun w (hw : w ∈ runs isBlank s.toList) =>
    isWord_of_mem_runs hw
  rw [← toList_normalizeSpace] at hends
  rw [trim, trimBy_eq_self hends.1 hends.2, String.ofList_toList]

end XmlConformance.Text
