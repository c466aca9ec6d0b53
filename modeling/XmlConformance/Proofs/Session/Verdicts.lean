import XmlConformance.Proofs.Session.Usage

/-!
# Proofs/Session/Verdicts — a verdict and its findings belong together

Whether a document is valid is said at once, from the report of the rules; its findings are read off
that report when somebody asks for them. Both say the same: a document is valid exactly if none of
the findings is an error (`Verdict.Agrees`). The findings stay what they are until the session
validates something else, whatever is asked of the validator or of other sessions in between
(`Usage.findings_after_validate`). A validation that fails leaves nothing to be found.
-/

namespace XmlConformance.Session

open Rules Schema

variable {v : Validator} {library : Library} {c : Compiled}

/-- **A verdict agrees with its findings**: valid is what has no error among them. -/
def Verdict.Agrees (w : Verdict) : Prop :=
  w.isValid = true ↔ ∀ f ∈ w.record.findings, f.isError = false

/-- What has to be validated is not what the grammar demands. -/
def Validator.FailsStructure (v : Validator) (library : Library) (c : Compiled) (input : Input)
    (diagnostic : String) : Prop :=
  ∃ d g, (input.load library).outcome = .ok d ∧ (v.ensureGrammar library c).1.outcome = .ok g ∧
    g.conformance d = .ok (.invalid diagnostic)

namespace Validator

/-- The two ways to a verdict: the structure is at fault, or the rules have their say. -/
theorem agrees_of_validateDocument {d : Document} {w : Verdict}
    (h : (v.validateDocument library d c).1.outcome = .ok w) : w.Agrees := by
  obtain ⟨g, -, h⟩ := Action.exists_of_bind_eq_ok h
  obtain ⟨conformance, -, h⟩ := Action.exists_of_bind_eq_ok h
  cases conformance with
  | invalid diagnostic =>
    cases h
    exact ⟨nofun, fun hnone => nomatch hnone (.structural diagnostic) List.mem_cons_self⟩
  | valid =>
    obtain ⟨rs, -, h⟩ := Action.exists_of_bind_eq_ok h
    obtain ⟨es, -, h⟩ := Action.exists_of_bind_eq_ok h
    cases h
    have hfindings : Record.findings ⟨[], some es⟩ = Rules.findings es := List.nil_append _
    simp [Verdict.Agrees, hfindings, hasErrors]

theorem agrees_of_validateInput {input : Input} {w : Verdict}
    (h : (v.validateInput library input c).1.outcome = .ok w) : w.Agrees := by
  cases input with
  | document d => exact agrees_of_validateDocument h
  | source s =>
    obtain ⟨d, -, h⟩ := Action.exists_of_bind_eq_ok h
    exact agrees_of_validateDocument h

/-- **A structural failure is the only finding**; the rules are not asked. -/
theorem validateInput_of_failsStructure {input : Input} {diagnostic : String}
    (h : v.FailsStructure library c input diagnostic) :
    (v.validateInput library input c).1.outcome =
      .ok ⟨false, ⟨[.structural diagnostic], none⟩⟩ := by
  obtain ⟨d, g, hd, hg, hinvalid⟩ := h
  have hdocument : (v.validateDocument library d c).1.outcome =
      .ok ⟨false, ⟨[.structural diagnostic], none⟩⟩ := by
    have hcheck : (Action.of (.of ((g.conformance d).mapError Error.check))
        (v.ensureGrammar library c).2).1.outcome = .ok (.invalid diagnostic) :=
      congrArg (Except.mapError Error.check) hinvalid
    exact (Action.bind_of_ok hg).1.trans (Action.bind_of_ok hcheck).1
  cases input with
  | document d' =>
    obtain rfl : d' = d := Except.ok.inj hd
    exact hdocument
  | source s => exact (Action.bind_of_ok hd).1.trans hdocument

end Validator

/-- **The findings of a validation** are the same whenever they are asked for, until the session
validates again. A valid document is one without errors among them; a structural failure is the only
finding there is; and where a validation fails, there is none. -/
theorem Usage.findings_after_validate (v : Validator) (library : Library) (u : Usage) (i : ℕ)
    (input : Input) :
    let answer := (u.step v library (.validate i input)).1
    let u' := (u.step v library (.validate i input)).2
    ∃ fs : List Finding,
      (∀ later : List (Library × Call), (∀ event ∈ later, ¬ event.2.Validates i) →
        ∀ library', ((u'.after v later).step v library' (.findings i)).1 = .found fs) ∧
      (∀ b, answer = .validated (.ok b) → (b = true ↔ ∀ f ∈ fs, f.isError = false)) ∧
      (∀ diagnostic, v.FailsStructure library u.compiled input diagnostic →
        answer = .validated (.ok false) ∧ fs = [⟨true, none, none, none, diagnostic⟩]) ∧
      ∀ e, answer = .validated (.error e) → fs = [] := by
  intro answer u'
  have hanswer : answer = .validated
      ((v.validateInput library input u.compiled).1.outcome.map Verdict.isValid) := rfl
  have hrecord : u'.records i = recordAfter (v.validateInput library input u.compiled).1 :=
    Function.update_self i _ _
  refine ⟨(u'.records i).findings, fun later hlater library' => ?_, fun b hb => ?_,
    fun diagnostic hdiagnostic => ?_, fun e he => ?_⟩
  · exact congrArg Answer.found (findings_after hlater)
  · rw [hrecord, recordAfter]
    cases h : (v.validateInput library input u.compiled).1.outcome with
    | error e =>
      rw [hanswer, h] at hb
      cases hb
    | ok w =>
      rw [hanswer, h] at hb
      obtain rfl : w.isValid = b := Except.ok.inj (Answer.validated.inj hb)
      exact v.agrees_of_validateInput h
  · have h := v.validateInput_of_failsStructure hdiagnostic
    rw [hanswer, hrecord, recordAfter, h]
    exact ⟨rfl, rfl⟩
  · rw [hrecord, recordAfter]
    cases h : (v.validateInput library input u.compiled).1.outcome with
    | error e' => rfl
    | ok w =>
      rw [hanswer, h] at he
      cases he

end XmlConformance.Session
