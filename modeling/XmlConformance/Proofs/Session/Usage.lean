import Mathlib.Data.Nat.Notation
import Mathlib.Logic.Function.Basic
import XmlConformance.Session.Validator

/-!
# Proofs/Session/Usage — a validator in use

One validator serves any number of sessions. Its grammar and its rules are kept for all of them;
what a validation found is kept for the session that asked for it. So the state of a validator in
use (`Usage`) is what was compiled, and a record for each session, and every call takes it to
another one (`Usage.step`).

Calls come in any order (`Usage.after`). The documents may change between them, so each call comes
with the library as it is at the time.
-/

namespace XmlConformance.Session

open Rules

/-! ## Actions -/

namespace Action

variable {α β : Type} {x : Action α} {f : α → Action β} {c : Compiled}

theorem bind_of_ok {a : α} (h : (x c).1.outcome = .ok a) :
    ((x >>= f) c).1.outcome = (f a (x c).2).1.outcome ∧
      ((x >>= f) c).2 = (f a (x c).2).2 := by
  change (Action.bind x f c).1.outcome = _ ∧ (Action.bind x f c).2 = _
  unfold Action.bind
  revert h
  obtain ⟨⟨outcome, asked⟩, c'⟩ := x c
  rintro rfl
  exact ⟨rfl, rfl⟩

theorem bind_of_error {e : Error} (h : (x c).1.outcome = .error e) :
    ((x >>= f) c).1.outcome = .error e ∧ ((x >>= f) c).2 = (x c).2 := by
  change (Action.bind x f c).1.outcome = _ ∧ (Action.bind x f c).2 = _
  unfold Action.bind
  revert h
  obtain ⟨⟨outcome, asked⟩, c'⟩ := x c
  rintro rfl
  exact ⟨rfl, rfl⟩

/-- **An action that ends in a value** consists of parts that do. -/
theorem exists_of_bind_eq_ok {b : β} (h : ((x >>= f) c).1.outcome = .ok b) :
    ∃ a, (x c).1.outcome = .ok a ∧ (f a (x c).2).1.outcome = .ok b := by
  cases hx : (x c).1.outcome with
  | ok a => exact ⟨a, rfl, (bind_of_ok hx).1.symm.trans h⟩
  | error e => exact absurd ((bind_of_error hx).1.symm.trans h) nofun

end Action

/-! ## Calls -/

/-- What a session is asked to validate. -/
inductive Input where
  | source (s : Source)
  | document (d : Document)

/-- The document that is to be validated. -/
def Input.load (library : Library) : Input → Tracked Error Document
  | .source s => (library.load s).mapError (.document s.describe)
  | .document d => .pure d

/-- Validates what a session is asked to. -/
def Validator.validateInput (v : Validator) (library : Library) : Input → Action Verdict
  | .source s => v.validate library s
  | .document d => v.validateDocument library d

/-- What can be asked of a validator and its sessions. -/
inductive Call where
  | setPhase (phase : Option String)
  | prepare
  | validate (session : ℕ) (input : Input)
  | findings (session : ℕ)

/-- Whether a call is one to validate something in a session. -/
def Call.Validates (session : ℕ) : Call → Prop
  | .validate i _ => i = session
  | .setPhase _ | .prepare | .findings _ => False

/-- What a call gives. -/
inductive Answer where
  | done
  | prepared (outcome : Except Error Unit)
  | validated (outcome : Except Error Bool)
  | found (findings : List Finding)

/-- A validator in use: what it compiled, and what each session keeps. The sessions have numbers. -/
structure Usage where
  compiled : Compiled := {}
  records : ℕ → Record := fun _ => {}

namespace Usage

/-- **One call.** -/
def step (v : Validator) (library : Library) (u : Usage) : Call → Answer × Usage
  | .setPhase phase => (.done, { u with compiled := u.compiled.setPhase phase })
  | .prepare =>
    let (result, compiled) := v.prepare library u.compiled
    (.prepared result.outcome, { u with compiled })
  | .validate i input =>
    let (result, compiled) := v.validateInput library input u.compiled
    (.validated (result.outcome.map Verdict.isValid),
      ⟨compiled, Function.update u.records i (recordAfter result)⟩)
  | .findings i =>
    (.found (u.records i).findings,
      { u with records := Function.update u.records i (u.records i).settle })

/-- **Some calls**, one after the other, each with the library as it is at the time. -/
def after (v : Validator) (u : Usage) : List (Library × Call) → Usage
  | [] => u
  | (library, call) :: rest => after v (u.step v library call).2 rest

variable {v : Validator} {library : Library} {u : Usage} {i : ℕ}

/-- What every call keeps, all calls keep. -/
theorem after_induction {P : Usage → Prop} {events : List (Library × Call)}
    (hstep : ∀ event ∈ events, ∀ u, P u → P (u.step v event.1 event.2).2) (hu : P u) :
    P (u.after v events) := by
  induction events generalizing u with
  | nil => exact hu
  | cons event rest ih =>
    rw [List.forall_mem_cons] at hstep
    exact ih hstep.2 (hstep.1 u hu)

/-! ## Findings -/

/-- Reading a report does not change what there is to find. -/
theorem findings_settle (r : Record) : r.settle.findings = r.findings := by
  obtain ⟨found, pending⟩ := r
  cases pending <;> rfl

/-- **Only a validation in a session changes what the session finds.** Asking for the findings
changes what the session keeps, but not what it finds. -/
theorem findings_step {call : Call} (h : ¬ call.Validates i) :
    ((u.step v library call).2.records i).findings = (u.records i).findings := by
  cases call with
  | setPhase phase => rfl
  | prepare => rfl
  | validate j input =>
    have hij : i ≠ j := fun hij => h hij.symm
    exact congrArg Record.findings (Function.update_of_ne hij _ _)
  | findings j =>
    by_cases hij : i = j
    · subst hij
      exact (congrArg Record.findings (Function.update_self i _ _)).trans (findings_settle _)
    · exact congrArg Record.findings (Function.update_of_ne hij _ _)

theorem findings_after {events : List (Library × Call)}
    (h : ∀ event ∈ events, ¬ event.2.Validates i) :
    ((u.after v events).records i).findings = (u.records i).findings :=
  after_induction (P := fun u' => (u'.records i).findings = (u.records i).findings)
    (fun event hevent _ hu => (findings_step (h event hevent)).trans hu) rfl

end Usage

end XmlConformance.Session
