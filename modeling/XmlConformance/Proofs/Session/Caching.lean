import XmlConformance.Proofs.Session.Usage

/-!
# Proofs/Session/Caching — what is kept makes no difference

A validator keeps its grammar and its rules, and forgets the rules when another phase is chosen. As
long as the documents stay as they are, what it keeps is what it would compile now, and the rules
are those of the chosen phase (`Compiled.Current`). So it makes no difference to an action whether
it finds them kept or compiles them (`Action.Settled`), and the outcome of a validation depends on
the chosen phase and on what is validated, and on nothing else that happened before
(`Usage.report_after_eq_fresh`).
-/

namespace XmlConformance.Session

open Rules Schema

variable {v : Validator} {library : Library}

/-- **What is kept is what would be compiled now**; the rules are those of the chosen phase. -/
structure Compiled.Current (v : Validator) (library : Library) (c : Compiled) : Prop where
  grammar : ∀ g, c.grammar = some g → (v.compileGrammar library).outcome = .ok g
  rules : ∀ phase rs, c.rules = some (phase, rs) →
    phase = c.phase ∧ (v.compileRules library phase).outcome = .ok rs

namespace Compiled.Current

theorem empty : Compiled.Current v library {} := ⟨nofun, nofun⟩

/-- Choosing a phase keeps the rules of that phase only. -/
theorem setPhase {c : Compiled} (h : c.Current v library) (phase : Option String) :
    (c.setPhase phase).Current v library where
  grammar := h.grammar
  rules := by
    intro p rs hrules
    obtain ⟨hkept, hp⟩ := Option.filter_eq_some_iff.1 hrules
    exact ⟨eq_of_beq hp, (h.rules p rs hkept).2⟩

end Compiled.Current

/-! ## Actions -/

/-- **An action for which it makes no difference what is kept**, apart from the chosen phase. It
keeps only what is current, and chooses no phase itself. -/
structure Action.Settled {α : Type} (v : Validator) (library : Library) (x : Action α) : Prop where
  outcome : ∀ {c c' : Compiled}, c.Current v library → c'.Current v library → c.phase = c'.phase →
    (x c).1.outcome = (x c').1.outcome
  current : ∀ {c : Compiled}, c.Current v library → (x c).2.Current v library
  phase : ∀ c, (x c).2.phase = c.phase

namespace Action.Settled

variable {α β : Type}

theorem of (x : Tracked Error α) : Settled v library (.of x) where
  outcome _ _ _ := rfl
  current h := h
  phase _ := rfl

theorem bind {x : Action α} {f : α → Action β} (hx : Settled v library x)
    (hf : ∀ a, Settled v library (f a)) : Settled v library (x >>= f) where
  outcome {c c'} h h' hphase := by
    have hsame := hx.outcome h h' hphase
    cases hr : (x c).1.outcome with
    | ok a =>
      have hphase' : (x c).2.phase = (x c').2.phase := by rw [hx.phase, hx.phase, hphase]
      rw [(bind_of_ok hr).1, (bind_of_ok (hsame.symm.trans hr)).1]
      exact (hf a).outcome (hx.current h) (hx.current h') hphase'
    | error e => rw [(bind_of_error hr).1, (bind_of_error (hsame.symm.trans hr)).1]
  current {c} h := by
    cases hr : (x c).1.outcome with
    | ok a =>
      rw [(bind_of_ok hr).2]
      exact (hf a).current (hx.current h)
    | error e =>
      rw [(bind_of_error hr).2]
      exact hx.current h
  phase c := by
    cases hr : (x c).1.outcome with
    | ok a => rw [(bind_of_ok hr).2, (hf a).phase, hx.phase]
    | error e => rw [(bind_of_error hr).2, hx.phase]

/-- **What is kept is what `make` gives anew**, and what it gives is kept for what it is. A failure
leaves nothing. -/
theorem cached (find : Compiled → Option α) (make : Option String → Tracked Error α)
    (keep : α → Compiled → Compiled)
    (hfind : ∀ {c : Compiled} {a}, c.Current v library → find c = some a →
      (make c.phase).outcome = .ok a)
    (hkeep : ∀ {c : Compiled} {a}, c.Current v library → (make c.phase).outcome = .ok a →
      (keep a c).Current v library)
    (hphase : ∀ a c, (keep a c).phase = c.phase) :
    Settled v library (.cached find (fun c => make c.phase) keep) := by
  have houtcome : ∀ {c : Compiled}, c.Current v library →
      (Action.cached find (fun c => make c.phase) keep c).1.outcome = (make c.phase).outcome := by
    intro c h
    unfold Action.cached
    split
    · case h_1 a ha => exact (hfind h ha).symm
    · dsimp only
      split <;> rfl
  refine ⟨fun h h' hc => by rw [houtcome h, houtcome h', hc], fun {c} h => ?_, fun c => ?_⟩
  · unfold Action.cached
    split
    · exact h
    · dsimp only
      split
      · case h_1 a ha => exact hkeep h ha
      · exact h
  · unfold Action.cached
    split
    · rfl
    · dsimp only
      split
      · exact hphase _ c
      · rfl

end Action.Settled

/-! ## Validations -/

namespace Validator

theorem settled_ensureGrammar (v : Validator) (library : Library) :
    (v.ensureGrammar library).Settled v library := by
  refine .cached _ (fun _ => v.compileGrammar library) _ (fun h hkept => h.grammar _ hkept) ?_
    fun _ _ => rfl
  intro c g h hmade
  refine ⟨?_, h.rules⟩
  rintro _ ⟨⟩
  exact hmade

theorem settled_ensureRules (v : Validator) (library : Library) :
    (v.ensureRules library).Settled v library := by
  refine .cached _ (v.compileRules library) _ ?_ ?_ fun _ _ => rfl
  · intro c rs h hfind
    obtain ⟨⟨phase, rs'⟩, hkept, rfl⟩ := Option.map_eq_some_iff.1 hfind
    obtain ⟨hrules, -⟩ := Option.filter_eq_some_iff.1 hkept
    obtain ⟨rfl, hmade⟩ := h.rules phase rs' hrules
    exact hmade
  · intro c rs h hmade
    refine ⟨h.grammar, ?_⟩
    rintro _ _ ⟨⟩
    exact ⟨rfl, hmade⟩

theorem settled_prepare (v : Validator) (library : Library) :
    (v.prepare library).Settled v library :=
  (settled_ensureGrammar v library).bind fun _ =>
    (settled_ensureRules v library).bind fun _ => .of (.pure ())

theorem settled_validateDocument (v : Validator) (library : Library) (d : Document) :
    (v.validateDocument library d).Settled v library := by
  refine (settled_ensureGrammar v library).bind fun g => (Action.Settled.of _).bind fun result => ?_
  cases result with
  | invalid diagnostic => exact .of (.pure _)
  | valid =>
    exact (settled_ensureRules v library).bind fun rs =>
      (Action.Settled.of _).bind fun es => .of (.pure _)

theorem settled_validateInput (v : Validator) (library : Library) (input : Input) :
    (v.validateInput library input).Settled v library := by
  cases input with
  | document d => exact settled_validateDocument v library d
  | source s => exact (Action.Settled.of _).bind fun d => settled_validateDocument v library d

end Validator

/-! ## A validator in use -/

/-- The phase that is chosen after a call. -/
def Call.phaseAfter (phase : Option String) : Call → Option String
  | .setPhase phase => phase
  | .prepare | .validate .. | .findings _ => phase

/-- The phase that is chosen after some calls: the one chosen last, if there is one. -/
def chosenPhase (calls : List Call) : Option String := calls.foldl Call.phaseAfter none

namespace Usage

variable {u u' : Usage}

/-- What a validation says: its answer, and the findings that the session has then. -/
def report (v : Validator) (library : Library) (u : Usage) (session : ℕ) (input : Input) :
    Answer × List Finding :=
  let (answer, u) := u.step v library (.validate session input)
  (answer, (u.records session).findings)

/-- **Every call keeps only what is current.** -/
theorem current_step (h : u.compiled.Current v library) (call : Call) :
    (u.step v library call).2.compiled.Current v library := by
  cases call with
  | setPhase phase => exact h.setPhase phase
  | prepare => exact (v.settled_prepare library).current h
  | validate i input => exact (v.settled_validateInput library input).current h
  | findings i => exact h

/-- No call but one to choose a phase chooses one. -/
theorem phase_step (call : Call) :
    (u.step v library call).2.compiled.phase = call.phaseAfter u.compiled.phase := by
  cases call with
  | setPhase phase => rfl
  | prepare => exact (v.settled_prepare library).phase _
  | validate i input => exact (v.settled_validateInput library input).phase _
  | findings i => rfl

theorem current_after (h : u.compiled.Current v library) (calls : List Call) :
    (u.after v (calls.map (library, ·))).compiled.Current v library :=
  after_induction (P := fun u => u.compiled.Current v library)
    (List.forall_mem_map.2 fun call _ _ hu => current_step hu call) h

theorem phase_after (calls : List Call) :
    ∀ u : Usage, (u.after v (calls.map (library, ·))).compiled.phase =
      calls.foldl Call.phaseAfter u.compiled.phase := by
  induction calls with
  | nil => exact fun _ => rfl
  | cons call calls ih =>
    intro u
    have hphase : (u.step v library call).2.compiled.phase = call.phaseAfter u.compiled.phase :=
      phase_step call
    rw [List.foldl_cons, ← hphase]
    exact ih _

/-- **A validation says the same** to every session of every validator that keeps what is current
for the same phase. -/
theorem report_eq_report (h : u.compiled.Current v library) (h' : u'.compiled.Current v library)
    (hphase : u.compiled.phase = u'.compiled.phase) (i j : ℕ) (input : Input) :
    u.report v library i input = u'.report v library j input := by
  have houtcome := (v.settled_validateInput library input).outcome h h' hphase
  have hanswer : (u.step v library (.validate i input)).1 =
      (u'.step v library (.validate j input)).1 :=
    congrArg (fun outcome : Except Error Verdict => Answer.validated (outcome.map Verdict.isValid))
      houtcome
  have hrecord : recordAfter (v.validateInput library input u.compiled).1 =
      recordAfter (v.validateInput library input u'.compiled).1 := by
    rw [recordAfter, recordAfter, houtcome]
  refine Prod.ext hanswer ?_
  simpa [report, step] using congrArg Record.findings hrecord

/-- **Every validation says what a fresh validator with the chosen phase would say**, whatever was
asked before, and by whichever session; and whatever rules are kept, they are kept for the chosen
phase. -/
theorem report_after_eq_fresh (v : Validator) (library : Library) (calls : List Call)
    (i j : ℕ) (input : Input) :
    let used := after v {} (calls.map (library, ·))
    let fresh := after v {} [(library, .setPhase (chosenPhase calls))]
    used.report v library i input = fresh.report v library j input ∧
      used.compiled.phase = chosenPhase calls ∧
        ∀ phase rs, used.compiled.rules = some (phase, rs) → phase = used.compiled.phase := by
  intro used fresh
  have hused : used.compiled.Current v library := current_after .empty calls
  have hfresh : fresh.compiled.Current v library :=
    current_after .empty [.setPhase (chosenPhase calls)]
  have hphase : used.compiled.phase = chosenPhase calls := phase_after calls {}
  refine ⟨report_eq_report hused hfresh hphase i j input, hphase, fun phase rs hrules => ?_⟩
  exact (hused.rules phase rs hrules).1

end Usage

end XmlConformance.Session
