import XmlConformance.Proofs.Text.Spacing

/-!
# Proofs/Text/Marking — characters that a text has too many

Some characters of a text are marked to stay, and the others are dropped (`kept`). The text has the
same words with and without the others just if these are white space and none of them stands inside
a word (`runs_kept_iff`).

What decides is where two texts meet. If a word goes on from the first to the second
(`MeetInWord`), the two have one word less together than apart; if not, the words of both are the
words of the whole.
-/

namespace XmlConformance.Text

variable {p : Char → Bool} {x : Char} {xs ys : List Char}

/-! ## Where texts meet -/

/-- **Two texts meet in a word**: there is no white space at the end of the first, nor at the start
of the second. -/
def MeetInWord (p : Char → Bool) (xs ys : List Char) : Prop :=
  (∃ x ∈ xs.getLast?, p x = false) ∧ ∃ y ∈ ys.head?, p y = false

/-- What texts meet in does not depend on what stands further in front. -/
theorem meetInWord_append_left (zs : List Char) (hxs : xs ≠ []) :
    MeetInWord p (zs ++ xs) ys ↔ MeetInWord p xs ys := by
  rw [MeetInWord, MeetInWord, List.getLast?_append_of_ne_nil _ hxs]

theorem runs_append_of_blank_left (h : ∀ x ∈ xs.getLast?, p x = true) (ys : List Char) :
    runs p (xs ++ ys) = runs p xs ++ runs p ys := by
  obtain rfl | ⟨as, x, rfl⟩ := List.eq_nil_or_concat xs
  · rfl
  · have hx : p x = true := h x (by simp)
    rw [List.concat_eq_append, List.append_assoc, List.singleton_append, runs_append_cons hx,
      runs_append_cons hx]
    exact congrArg (· ++ _) (List.append_nil _).symm

theorem runs_append_of_blank_right (h : ∀ y ∈ ys.head?, p y = true) (xs : List Char) :
    runs p (xs ++ ys) = runs p xs ++ runs p ys := by
  cases ys with
  | nil => rw [List.append_nil]; exact (List.append_nil _).symm
  | cons y bs =>
    have hy : p y = true := h y rfl
    rw [runs_append_cons hy, runs_cons hy]

/-- **Texts that do not meet in a word** keep their words. -/
theorem runs_append_of_not_meetInWord (h : ¬MeetInWord p xs ys) :
    runs p (xs ++ ys) = runs p xs ++ runs p ys := by
  rw [MeetInWord, not_and_or] at h
  push Not at h
  obtain h | h := h
  · exact runs_append_of_blank_left (fun x hx => by simpa using h x hx) ys
  · exact runs_append_of_blank_right (fun y hy => by simpa using h y hy) xs

/-- However a word begins, it is one word. -/
theorem length_runsFrom_cons (c d : Char) :
    ∀ (cs before before' : List Char),
      (runsFrom p (c :: before) cs).length = (runsFrom p (d :: before') cs).length
  | [], _, _ => rfl
  | x :: cs, before, before' => by
    rw [runsFrom, runsFrom]
    split
    · rfl
    · exact length_runsFrom_cons x x cs _ _

theorem length_runsFrom_append {y : Char} (hy : p y = false) (ys : List Char) :
    ∀ (xs current : List Char), (∃ x ∈ xs.getLast?, p x = false) →
      (runsFrom p current (xs ++ y :: ys)).length + 1 =
        (runsFrom p current xs).length + (runs p (y :: ys)).length
  | [], _, h => by simp at h
  | [x], current, h => by
    have hx : ¬p x = true := by simpa using h
    have hy' : ¬p y = true := by simp [hy]
    have hone : (runsFrom p current [x]).length = 1 := by
      rw [runsFrom, if_neg hx]
      rfl
    rw [hone, List.singleton_append, runsFrom, if_neg hx, runsFrom, if_neg hy', runs, runsFrom,
      if_neg hy', length_runsFrom_cons y y ys _ [], Nat.add_comm]
  | x :: x' :: xs, current, h => by
    have hlast : ∃ z ∈ (x' :: xs).getLast?, p z = false := by simpa using h
    rw [List.cons_append, runsFrom, runsFrom]
    split
    · split
      · exact length_runsFrom_append hy ys (x' :: xs) [] hlast
      · have ih := length_runsFrom_append hy ys (x' :: xs) [] hlast
        rw [List.length_cons, List.length_cons]
        omega
    · exact length_runsFrom_append hy ys (x' :: xs) (x :: current) hlast

/-- **Texts that meet in a word** have one word less together. -/
theorem length_runs_of_meetInWord (h : MeetInWord p xs ys) :
    (runs p (xs ++ ys)).length + 1 = (runs p xs).length + (runs p ys).length := by
  obtain ⟨hxs, y, hy, hp⟩ := h
  cases ys with
  | nil => cases hy
  | cons z bs =>
    cases hy
    exact length_runsFrom_append hp bs xs [] hxs

theorem length_runs_append_le (xs ys : List Char) :
    (runs p (xs ++ ys)).length ≤ (runs p xs).length + (runs p ys).length := by
  by_cases h : MeetInWord p xs ys
  · exact Nat.le_of_succ_le (Nat.le_of_eq (length_runs_of_meetInWord h))
  · exact Nat.le_of_eq (by rw [runs_append_of_not_meetInWord h, List.length_append])

/-- The characters of the words are the characters without white space. -/
theorem flatten_runsFrom : ∀ cs current : List Char,
    (runsFrom p current cs).flatten = current.reverse ++ cs.filter fun c => !p c
  | [], current => by
    rw [runsFrom]
    split <;> simp_all
  | c :: cs, current => by
    rw [runsFrom]
    split
    · case isTrue hc =>
      rw [List.filter_cons_of_neg (by simp [hc])]
      split
      · case isTrue hcurrent =>
        rw [List.isEmpty_iff.1 hcurrent]
        exact flatten_runsFrom cs []
      · rw [List.flatten_cons, flatten_runsFrom cs []]
        rfl
    · case isFalse hc =>
      rw [List.filter_cons_of_pos (by simpa using hc), flatten_runsFrom cs]
      simp

/-! ## Marked characters -/

/-- The characters that are marked to stay. -/
def kept (marked : List (Char × Bool)) : List Char :=
  (marked.filter (·.2)).map (·.1)

@[simp] theorem kept_nil : kept [] = [] := rfl

@[simp] theorem kept_cons_true (c : Char) (marked : List (Char × Bool)) :
    kept ((c, true) :: marked) = c :: kept marked := rfl

@[simp] theorem kept_cons_false (c : Char) (marked : List (Char × Bool)) :
    kept ((c, false) :: marked) = kept marked := rfl

theorem kept_append (marked more : List (Char × Bool)) :
    kept (marked ++ more) = kept marked ++ kept more := by
  rw [kept, List.filter_append, List.map_append, kept, kept]

/-- **Nothing is dropped** just if all characters are marked. -/
theorem map_fst_eq_kept_iff {marked : List (Char × Bool)} :
    marked.map (·.1) = kept marked ↔ ∀ c ∈ marked, c.2 = true := by
  refine ⟨fun h => ?_, fun h => by rw [kept, List.filter_eq_self.2 h]⟩
  have hlength := congrArg List.length h
  rw [kept, List.length_map, List.length_map] at hlength
  exact List.filter_eq_self.1 (List.filter_sublist.eq_of_length hlength.symm)

/-- **What is not marked is spare** behind a text: it is white space, and without it no two words
become one. -/
def SpareBehind (p : Char → Bool) (front : List Char) (marked : List (Char × Bool)) : Prop :=
  ∀ before c after, marked = before ++ (c, false) :: after →
    p c = true ∧ ¬MeetInWord p (front ++ kept before) (kept after)

variable {front : List Char} {marked : List (Char × Bool)}

theorem spareBehind_nil : SpareBehind p front [] := fun _ _ _ h => by simp at h

theorem spareBehind_cons_true {c : Char} :
    SpareBehind p front ((c, true) :: marked) ↔ SpareBehind p (front ++ [c]) marked := by
  constructor
  · intro h before d after hmarked
    have hspare := h ((c, true) :: before) d after (by rw [hmarked]; rfl)
    rwa [kept_cons_true, List.append_cons] at hspare
  · intro h before d after hmarked
    obtain ⟨-, hd⟩ | ⟨before, rfl, rfl⟩ := List.cons_eq_append_iff.1 hmarked
    · cases hd
    · rw [kept_cons_true, List.append_cons]
      exact h before d after rfl

theorem spareBehind_cons_false {c : Char} :
    SpareBehind p front ((c, false) :: marked) ↔
      (p c = true ∧ ¬MeetInWord p front (kept marked)) ∧ SpareBehind p front marked := by
  constructor
  · intro h
    have hfirst := h [] c marked rfl
    rw [kept_nil, List.append_nil] at hfirst
    exact ⟨hfirst, fun before d after hmarked =>
      h ((c, false) :: before) d after (by rw [hmarked]; rfl)⟩
  · rintro ⟨hfirst, hrest⟩ before d after hmarked
    obtain ⟨rfl, hd⟩ | ⟨before, rfl, rfl⟩ := List.cons_eq_append_iff.1 hmarked
    · cases hd
      rwa [kept_nil, List.append_nil]
    · exact hrest before d after rfl

/-- Behind a text that does not meet what follows in a word, it is as at the start. -/
theorem spareBehind_iff_of_not_meetInWord (h : ¬MeetInWord p front (kept marked)) :
    SpareBehind p front marked ↔ SpareBehind p [] marked := by
  refine forall₄_congr fun before c after hmarked => and_congr_right fun _ => not_congr ?_
  by_cases hbefore : kept before = []
  · have hafter : kept marked = kept after := by
      rw [hmarked, kept_append, hbefore, kept_cons_false, List.nil_append]
    rw [hbefore, ← hafter, List.append_nil]
    exact iff_of_false h fun hmeet => by simpa using hmeet.1
  · exact meetInWord_append_left front hbefore

/-- Without some white space there are no more words than with it. -/
theorem length_runs_kept_le : ∀ (marked : List (Char × Bool)) (front : List Char),
    (∀ c ∈ marked, c.2 = false → p c.1 = true) →
      (runs p (front ++ kept marked)).length ≤ (runs p (front ++ marked.map (·.1))).length
  | [], _, _ => Nat.le_refl _
  | (c, true) :: marked, front, h => by
    rw [kept_cons_true, List.map_cons, List.append_cons _ _ (kept marked),
      List.append_cons _ _ (marked.map _)]
    exact length_runs_kept_le marked _ (List.forall_mem_cons.1 h).2
  | (c, false) :: marked, front, h => by
    rw [List.forall_mem_cons] at h
    have ih := length_runs_kept_le marked [] h.2
    rw [kept_cons_false, List.map_cons, runs_append_cons (h.1 rfl), List.length_append]
    exact Nat.le_trans (length_runs_append_le _ _) (Nat.add_le_add_left ih _)

/-- What can be dropped without a change of the words is white space. -/
theorem blank_of_runs_kept_eq (front : List Char) (marked : List (Char × Bool))
    (h : runs p (front ++ marked.map (·.1)) = runs p (front ++ kept marked)) :
    ∀ c ∈ marked, c.2 = false → p c.1 = true := by
  have hwords := congrArg List.flatten h
  simp only [runs, flatten_runsFrom, List.reverse_nil, List.nil_append, List.filter_append,
    List.append_cancel_left_eq] at hwords
  have hcount := congrArg List.length hwords
  rw [kept, List.filter_map, List.filter_map, List.length_map, List.length_map, List.filter_filter,
    List.filter_congr fun c _ => Bool.and_comm _ _, ← List.filter_filter] at hcount
  have hkept := List.filter_sublist.eq_of_length hcount.symm
  intro c hc hunmarked
  by_contra hblank
  have hmem := List.filter_eq_self.1 hkept c (List.mem_filter.2 ⟨hc, by simpa using hblank⟩)
  rw [hunmarked] at hmem
  cases hmem

/-- **What is not marked can be dropped without a change of the words** just if it is spare. -/
theorem runs_kept_iff_behind : ∀ (marked : List (Char × Bool)) (front : List Char),
    runs p (front ++ marked.map (·.1)) = runs p (front ++ kept marked) ↔
      SpareBehind p front marked
  | [], _ => iff_of_true rfl spareBehind_nil
  | (c, true) :: marked, front => by
    rw [kept_cons_true, List.map_cons, List.append_cons _ _ (kept marked), List.append_cons,
      spareBehind_cons_true]
    exact runs_kept_iff_behind marked _
  | (c, false) :: marked, front => by
    rw [spareBehind_cons_false, kept_cons_false, List.map_cons]
    by_cases hc : p c = true
    · rw [runs_append_cons hc, and_iff_right hc]
      by_cases hmeet : MeetInWord p front (kept marked)
      · -- A word is cut in two here, and no word is lost further behind.
        refine iff_of_false (fun h => ?_) fun h => h.1 hmeet
        have hblank : ∀ d ∈ marked, d.2 = false → p d.1 = true :=
          fun d hd => blank_of_runs_kept_eq front ((c, false) :: marked)
            ((runs_append_cons hc front _).trans h) d (List.mem_cons_of_mem _ hd)
        have hle := length_runs_kept_le marked [] hblank
        have hlost := length_runs_of_meetInWord hmeet
        rw [← h, List.length_append] at hlost
        rw [List.nil_append, List.nil_append] at hle
        omega
      · rw [and_iff_right hmeet, runs_append_of_not_meetInWord hmeet, List.append_cancel_left_eq,
          spareBehind_iff_of_not_meetInWord hmeet]
        exact runs_kept_iff_behind marked []
    · refine iff_of_false (fun h => hc ?_) fun h => hc h.1.1
      exact blank_of_runs_kept_eq front ((c, false) :: marked) h _ List.mem_cons_self rfl

end XmlConformance.Text
