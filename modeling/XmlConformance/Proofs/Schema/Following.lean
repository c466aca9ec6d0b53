import Mathlib.Data.Set.Basic
import XmlConformance.Proofs.Outcome
import XmlConformance.Schema.Resolution

/-!
# Proofs/Schema/Following — resolving hangs on the questions that it asks

Components are resolved by functions that are given how references are followed. Such a function
puts questions: what does a group hold, what is the base of a type? A question may be left without
an answer (`Following.Silent`), where definitions hold each other without end. A function is
**steady** (`Steady`) if it behaves as what reads answers one after the other:

* a result stays when more questions are answered;
* without result there is a question to blame: it has no answer, and whatever error stood in place
  of the answer, the function would end in it (`HangsOn`).

Steady functions can be put behind each other (`Steady.bind`), so all of `resolveParticle`,
`resolveElement`, `resolveType`, `resolveComplex` and `resolveContent` are steady by one induction
on the components.
-/

namespace XmlConformance.Schema

open Xml

/-! ## Questions -/

/-- What is asked while references are followed. -/
inductive Question where
  /-- What does a group hold, if groups may be nested to a depth in it? -/
  | group (inside : List ExpandedName) (depth : ℕ) (name : ExpandedName)
  /-- What is the base of a type? -/
  | base (inside : List ExpandedName) (name : ExpandedName)
deriving DecidableEq

/-- The types that are being resolved as a question is asked. -/
def Question.inside : Question → List ExpandedName
  | .group inside _ _ | .base inside _ => inside

namespace Following

/-- Whether a question is answered, and the error if that is the answer. -/
def outcome (follow : Following) : Question → Except Error Unit
  | .group inside depth n => ((follow inside).group depth n).map fun _ => ()
  | .base inside n => ((follow inside).base n).map fun _ => ()

/-- A question is left without an answer. -/
def Silent (follow : Following) (q : Question) : Prop := follow.outcome q = .error .endlessUnfolding

/-- A question has the same answer as before. -/
def Agrees (follow other : Following) : Question → Prop
  | .group inside depth n => (other inside).group depth n = (follow inside).group depth n
  | .base inside n => (other inside).base n = (follow inside).base n

/-- Of the questions `asked`, what was answered has the same answer as before. -/
def Extends (asked : Set Question) (follow other : Following) : Prop :=
  ∀ q ∈ asked, ¬ follow.Silent q → follow.Agrees other q

/-- One question is answered by an error. -/
def failing (follow : Following) (q : Question) (e : Error) : Following := fun inside =>
  { group := fun depth n =>
      if Question.group inside depth n = q then .error e else (follow inside).group depth n
    base := fun n => if Question.base inside n = q then .error e else (follow inside).base n }

variable {asked asked' : Set Question} {follow other : Following} {q q' : Question}

theorem silent_group {inside : List ExpandedName} {depth : ℕ} {n : ExpandedName} :
    follow.Silent (.group inside depth n) ↔
      (follow inside).group depth n = .error .endlessUnfolding :=
  map_eq_error

theorem silent_base {inside : List ExpandedName} {n : ExpandedName} :
    follow.Silent (.base inside n) ↔ (follow inside).base n = .error .endlessUnfolding :=
  map_eq_error

theorem Extends.mono (h : Extends asked follow other) (hasked : asked' ⊆ asked) :
    Extends asked' follow other :=
  fun q hq => h q (hasked hq)

theorem Extends.refl (follow : Following) : Extends asked follow follow := fun q _ _ => by
  cases q <;> rfl

theorem agrees_failing (e : Error) (h : follow.Agrees other q) (hne : q ≠ q') :
    follow.Agrees (other.failing q' e) q := by
  cases q <;> exact (if_neg hne).trans h

theorem silent_failing (e : Error) (hne : q ≠ q') :
    (follow.failing q' e).Silent q ↔ follow.Silent q := by
  cases q <;> simp only [Silent, outcome, Following.failing, if_neg hne]

/-- **A question without an answer may be answered by an error**; all other answers are as
before. -/
theorem Extends.failing (h : Extends asked follow other) (hsilent : follow.Silent q) (e : Error) :
    Extends asked follow (other.failing q e) :=
  fun r hr hnot => agrees_failing e (h r hr hnot) fun heq => hnot (heq ▸ hsilent)

/-- The same error in place of the same answer. -/
theorem Extends.failing_failing (h : Extends asked follow other) (q : Question) (e : Error) :
    Extends asked (follow.failing q e) (other.failing q e) := by
  intro r hr hnot
  by_cases hrq : r = q
  · cases r <;> exact (if_pos hrq).trans (if_pos hrq).symm
  · have hagrees := h r hr (mt (silent_failing e hrq).2 hnot)
    cases r <;> exact (if_neg hrq).trans (hagrees.trans (if_neg hrq).symm)

/-- An error in place of the answer to a question that is not asked changes nothing. -/
theorem extends_failing_of_notMem (h : q ∉ asked) (e e' : Error) :
    Extends asked (follow.failing q e) (follow.failing q e') := by
  intro r hr _
  have hne : r ≠ q := fun heq => h (heq ▸ hr)
  cases r <;> exact (if_neg hne).trans (if_neg hne).symm

end Following

/-! ## Steady functions -/

section Steady

variable {α β : Type} {asked asked' : Set Question} {follow other : Following} {q : Question}

/-- **A function hangs on a question**: whatever error stands in place of the answer is the error in
which the function ends. -/
def HangsOn (f : Following → Except Error α) (follow : Following) (q : Question) : Prop :=
  ∀ e ≠ .endlessUnfolding, f (follow.failing q e) = .error e

/-- **A function that reads the answers to some questions**, one after the other, and is done at the
first error. -/
structure Steady (asked : Set Question) (f : Following → Except Error α) : Prop where
  /-- A result stays when more questions are answered. -/
  keeps : ∀ {follow other : Following}, follow.Extends asked other →
    f follow ≠ .error .endlessUnfolding → f other = f follow
  /-- Without result, there is a question to blame. -/
  blames : ∀ {follow : Following}, f follow = .error .endlessUnfolding →
    ∃ q ∈ asked, follow.Silent q ∧ HangsOn f follow q

namespace Steady

variable {f : Following → Except Error α}

theorem mono (hf : Steady asked f) (h : asked ⊆ asked') : Steady asked' f where
  keeps hmore := hf.keeps (hmore.mono h)
  blames hend :=
    let ⟨q, hq, hsilent⟩ := hf.blames hend
    ⟨q, h hq, hsilent⟩

/-- What asks nothing is steady if it ends. -/
theorem const {x : Except Error α} (h : x ≠ .error .endlessUnfolding) :
    Steady asked fun _ => x where
  keeps _ _ := rfl
  blames hend := absurd hend h

theorem ok (a : α) : Steady asked fun _ => .ok a := const nofun

/-- **A steady function behind a steady function**. If it is the second one that has no result, the
first one keeps its own while the question to blame is answered by errors. -/
theorem bind {g : α → Following → Except Error β} (hf : Steady asked f)
    (hg : ∀ a, Steady asked (g a)) :
    Steady asked fun follow => f follow >>= fun a => g a follow where
  keeps {follow other} hmore hend := by
    have hf' : f follow ≠ .error .endlessUnfolding := fun h => hend (by simp only [h, error_bind])
    show f other >>= _ = f follow >>= _
    rw [hf.keeps hmore hf']
    cases hresult : f follow with
    | error e => rfl
    | ok a =>
      simp only [hresult, ok_bind] at hend ⊢
      exact (hg a).keeps hmore hend
  blames {follow} hend := by
    cases hresult : f follow with
    | error e =>
      simp only [hresult, error_bind] at hend
      obtain rfl := Except.error.inj hend
      obtain ⟨q, hq, hsilent, hhangs⟩ := hf.blames hresult
      exact ⟨q, hq, hsilent, fun e he => by simp only [hhangs e he, error_bind]⟩
    | ok a =>
      simp only [hresult, ok_bind] at hend
      obtain ⟨q, hq, hsilent, hhangs⟩ := (hg a).blames hend
      refine ⟨q, hq, hsilent, fun e he => ?_⟩
      have hkept := hf.keeps ((Following.Extends.refl follow).failing hsilent e)
        (by rw [hresult]; exact nofun)
      simp only [hkept, hresult, ok_bind, hhangs e he]

theorem map (hf : Steady asked f) (g : α → β) : Steady asked fun follow => (f follow).map g := by
  have hmap : (fun follow => (f follow).map g) = fun follow => f follow >>= fun a => .ok (g a) := by
    funext follow
    cases f follow <;> rfl
  rw [hmap]
  exact hf.bind fun a => ok (g a)

/-- **The answer to a question.** -/
theorem group {inside : List ExpandedName} {depth : ℕ} {n : ExpandedName}
    (h : .group inside depth n ∈ asked) :
    Steady asked fun follow => (follow inside).group depth n where
  keeps hmore hend := hmore _ h fun hsilent => hend (Following.silent_group.1 hsilent)
  blames hend := ⟨_, h, Following.silent_group.2 hend, fun _ _ => if_pos rfl⟩

theorem base {inside : List ExpandedName} {n : ExpandedName} (h : .base inside n ∈ asked) :
    Steady asked fun follow => (follow inside).base n where
  keeps hmore hend := hmore _ h fun hsilent => hend (Following.silent_base.1 hsilent)
  blames hend := ⟨_, h, Following.silent_base.2 hend, fun _ _ => if_pos rfl⟩

end Steady

/-! ## Hanging on a question -/

section

variable {f : Following → Except Error α}

/-- No one result is every error. -/
theorem exists_error_ne (x : Except Error α) : ∃ e ≠ Error.endlessUnfolding, x ≠ .error e := by
  by_cases h : x = .error (.circularType default)
  · exact ⟨.circularGroup default, nofun, by rw [h]; exact nofun⟩
  · exact ⟨.circularType default, nofun, h⟩

/-- **What hangs on an unanswered question has no result**, even if it hangs on it only as more
other questions are answered. -/
theorem HangsOn.eq_endless (h : HangsOn f other q) (hf : Steady asked f)
    (hmore : ∀ e, follow.Extends asked (other.failing q e)) :
    f follow = .error .endlessUnfolding := by
  by_contra hend
  obtain ⟨e, he, hne⟩ := exists_error_ne (f follow)
  exact hne ((hf.keeps (hmore e) hend).symm.trans (h e he))

/-- **A function still hangs on a question** when more other questions are answered. -/
theorem HangsOn.extend (h : HangsOn f follow q) (hf : Steady asked f)
    (hmore : follow.Extends asked other) : HangsOn f other q := by
  intro e he
  rw [← h e he]
  refine hf.keeps (hmore.failing_failing q e) fun hend => he ?_
  exact Except.error.inj ((h e he).symm.trans hend)

/-- A function hangs on what it asks only. -/
theorem HangsOn.mem (h : HangsOn f follow q) (hf : Steady asked f) : q ∈ asked := by
  by_contra hnot
  have hend : f (follow.failing q (.circularType default)) = .error .endlessUnfolding :=
    h.eq_endless hf fun e => Following.extends_failing_of_notMem hnot _ e
  exact absurd ((h (.circularType default) nofun).symm.trans hend) nofun

end

end Steady

end XmlConformance.Schema
