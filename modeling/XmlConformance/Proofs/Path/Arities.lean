import XmlConformance.Proofs.Path.Congruence
import XmlConformance.Proofs.Path.Grammar

/-!
# Proofs/Path/Arities — calls have the arguments that their functions need

A call is only read if its function takes that many arguments, so every call anywhere in an
expression that is read, or in the pattern that it describes, has the arguments that are asked for
without a look (`Expression.Compiled.admitted`). The expressions of key definitions are read from
texts as well. So an evaluation never asks for a missing argument: it ends in a value, or in a
failure that names the expression (`Expression.evaluate_inBounds`).
-/

namespace XmlConformance.Path

open Xml

/-! ## What is read -/

namespace Expr

theorem allAdmitted_iff : ∀ {es : List Expr}, AllAdmitted es ↔ ∀ e ∈ es, e.Admitted
  | [] => by simp [AllAdmitted]
  | e :: es => by rw [AllAdmitted, allAdmitted_iff, List.forall_mem_cons]

/-- **The grammar only builds calls with as many arguments as their functions take.** -/
theorem kept_admitted : Syntax.Kept (fun _ => True) Admitted where
  literal _ := trivial
  number _ := trivial
  var _ := trivial
  root := trivial
  step h := allAdmitted_iff.2 h
  slash ha hb := ⟨ha, hb⟩
  filter he h := ⟨he, allAdmitted_iff.2 h⟩
  sequence h := allAdmitted_iff.2 h
  join hjoin ha hb := by cases hjoin <;> exact ⟨ha, hb⟩
  negate h := h
  call hadmits h := ⟨hadmits, allAdmitted_iff.2 h⟩

end Expr

variable {root : Node} {keys : Keys} {vars : Variables} {e : Expression}

/-- **An expression that is read from a text**, or the pattern that it describes. Expressions are
made in no other way. -/
def Expression.Compiled (e : Expression) : Prop :=
  ∃ ns text, Expression.compile ns text = .ok e ∨ Expression.pattern ns text = .ok e

/-- Keys whose definitions are read from texts. -/
def Keys.Compiled (keys : Keys) : Prop :=
  ∀ named ∈ keys, named.2.pattern.Compiled ∧ named.2.value.Compiled

/-- **Every call that is read has a number of arguments that its function takes.** -/
theorem Expression.Compiled.admitted (h : e.Compiled) : e.body.Admitted := by
  have hcompile {ns : Namespaces} {text : String} {e : Expression}
      (h : Expression.compile ns text = .ok e) : e.body.Admitted :=
    Expr.kept_admitted.ofText (fun _ _ _ _ => trivial) (Expression.compile_eq_ok.1 h).2
  obtain ⟨ns, text, h | h⟩ := h
  · exact hcompile h
  · obtain ⟨e', he', rfl⟩ := map_eq_ok.1 h
    exact Expr.kept_admitted.anchored id (hcompile he')

/-! ## What is evaluated -/

namespace Eval

variable {α β : Type}

/-- **An evaluation asks for no missing argument.** -/
def InBounds (x : Eval α) : Prop :=
  ∀ indexes, Path.InBounds (x indexes)

theorem InBounds.lift {x : Except EvalError α} (h : Path.InBounds x) : InBounds (Eval.lift x) := by
  intro indexes count i hx
  cases x with
  | ok a => cases hx
  | error cause => exact h count i (congrArg _ (Except.error.inj hx))

theorem InBounds.pure (a : α) : InBounds (Eval.pure a) :=
  lift (inBounds_ok a)

theorem InBounds.fail {e : EvalError} (h : Path.InBounds (.error e : Except EvalError α)) :
    InBounds (Eval.fail e : Eval α) :=
  lift h

theorem InBounds.bind {x : Eval α} {f : α → Eval β} (hx : InBounds x) (hf : ∀ a, InBounds (f a)) :
    InBounds (x >>= f) := by
  intro indexes count i h
  cases hr : x indexes with
  | ok r =>
    rw [Eval.bind_of_ok hr] at h
    exact hf r.1 r.2 count i h
  | error cause =>
    rw [Eval.bind_of_error hr] at h
    exact hx indexes count i (hr.trans (congrArg _ (Except.error.inj h)))

theorem InBounds.compatible : Compatible fun _ x _ => InBounds x where
  lift := .lift
  bind := .bind

end Eval

/-- **An expression whose calls have their arguments** asks for no missing one. -/
theorem Setting.inBounds_eval {s : Setting} (hindex : ∀ name, (s.index name).InBounds) {e : Expr}
    (he : e.Admitted) (focus : Focus) : (s.eval focus e).InBounds :=
  Eval.InBounds.compatible.eval e focus ⟨rfl, hindex, .inr he, .refl _ _⟩

theorem inBounds_keyless {e : Expr} (he : e.Admitted) (focus : Focus) :
    ((keyless root vars).eval focus e).InBounds :=
  Setting.inBounds_eval (fun name => .fail (e := .undeclaredKey name) nofun) he focus

theorem inBounds_indexItems {value : Expr} (hvalue : value.Admitted) :
    ∀ items : Sequence, (indexItems (keyless root vars) value items).InBounds
  | [] => .pure []
  | item :: rest => (inBounds_keyless hvalue (.on item)).bind fun _ =>
      (inBounds_indexItems hvalue rest).bind fun _ => .pure _

theorem inBounds_buildIndex : ∀ {definitions : List KeyDefinition},
    (∀ d ∈ definitions, d.pattern.Compiled ∧ d.value.Compiled) →
      (buildIndex (keyless root vars) definitions).InBounds
  | [], _ => .pure []
  | d :: rest, h => by
    rw [List.forall_mem_cons] at h
    obtain ⟨⟨hpattern, hvalue⟩, hrest⟩ := h
    exact (inBounds_keyless hpattern.admitted (.on (.node []))).bind fun items =>
      (inBounds_indexItems hvalue.admitted items).bind fun _ =>
        (inBounds_buildIndex hrest).bind fun _ => .pure _

/-- **An index is found or built** without asking for missing arguments. -/
theorem inBounds_indexOf (hkeys : keys.Compiled) (name : String) :
    Eval.InBounds (indexOf root vars keys name) := by
  have hdefinitions : ∀ d ∈ keys.named name, d.pattern.Compiled ∧ d.value.Compiled := by
    intro d hd
    obtain ⟨named, hnamed, rfl⟩ := List.mem_map.1 hd
    exact hkeys named (List.mem_filter.1 hnamed).1
  intro indexes
  unfold indexOf
  split
  · exact inBounds_ok _
  · split
    · exact nofun
    · split
      · exact inBounds_ok _
      · case h_2 cause hbuilt =>
        intro count i h
        cases h
        exact inBounds_buildIndex hdefinitions [] count i hbuilt

/-! ## Expressions with their text -/

/-- **A failure names an expression**, and is not that of asking for a missing argument. -/
def Expression.Reports (e : Expression) (failure : Failure) : Prop :=
  ∃ cause, failure = .path e.source (.dynamic cause) ∧
    ∀ count i, cause ≠ .missingArgument count i

namespace Expression

variable {item : Item} {indexes : Indexes} {failure : Failure}

theorem reports_of_evaluate (he : e.Compiled) (hkeys : keys.Compiled)
    (h : e.evaluate root keys vars item indexes = .error failure) : e.Reports failure := by
  have hbounds : ((setting root keys vars).eval (.on item) e.body).InBounds :=
    Setting.inBounds_eval (inBounds_indexOf hkeys) he.admitted _
  unfold evaluate at h
  cases hx : (setting root keys vars).eval (.on item) e.body indexes with
  | ok r =>
    rw [hx] at h
    cases h
  | error cause =>
    rw [hx] at h
    cases h
    exact ⟨cause, rfl, fun count i heq => hbounds indexes count i (hx.trans (congrArg _ heq))⟩

theorem reports_of_evaluateBoolean (he : e.Compiled) (hkeys : keys.Compiled)
    (h : e.evaluateBoolean root keys vars item indexes = .error failure) : e.Reports failure := by
  obtain h | ⟨⟨items, rest⟩, -, h⟩ := bind_eq_error.1 h
  · exact reports_of_evaluate he hkeys h
  · dsimp only at h
    split at h
    · cases h
    · case h_2 cause hcause =>
      cases h
      exact ⟨cause, rfl, fun count i heq =>
        inBounds_effectiveBoolean items count i (hcause.trans (congrArg _ heq))⟩

theorem reports_of_evaluateString (he : e.Compiled) (hkeys : keys.Compiled)
    (h : e.evaluateString root keys vars item indexes = .error failure) : e.Reports failure := by
  obtain h | ⟨_, -, h⟩ := bind_eq_error.1 h
  · exact reports_of_evaluate he hkeys h
  · cases h

/-- **What is read can be evaluated without asking for missing arguments.** Every call in an
expression that is read from a text, or in the pattern that it describes, has a number of arguments
that its function takes. So in whatever document and at whatever item, with whatever variables, keys
and indexes it is evaluated, it only fails with a failure that names it. -/
theorem evaluate_inBounds {ns : Namespaces} {text : String} {e : Expression}
    (h : compile ns text = .ok e ∨ pattern ns text = .ok e) :
    e.body.Admitted ∧
      ∀ (root : Node) (keys : Keys) (vars : Variables) (item : Item) (indexes : Indexes),
        keys.Compiled → ∀ failure,
          (e.evaluate root keys vars item indexes = .error failure → e.Reports failure) ∧
          (e.evaluateBoolean root keys vars item indexes = .error failure → e.Reports failure) ∧
          (e.evaluateString root keys vars item indexes = .error failure → e.Reports failure) := by
  have he : e.Compiled := ⟨ns, text, h⟩
  exact ⟨he.admitted, fun _ _ _ _ _ hkeys _ => ⟨reports_of_evaluate he hkeys,
    reports_of_evaluateBoolean he hkeys, reports_of_evaluateString he hkeys⟩⟩

/-- A union of what a key finds with a text, which is no node. -/
theorem evaluate_inBounds_union :
    ∃ selects gives e : Expression, ∃ failure,
      pattern .initial "/r" = .ok selects ∧ compile .initial "string()" = .ok gives ∧
      compile .initial "key('k', 'v') | 'w'" = .ok e ∧
      e.evaluate (.root [.element ⟨⟨none, "r"⟩, [], [], 0⟩ [.text "v"]])
        [("k", ⟨selects, gives⟩)] [] (.node []) [] = .error failure ∧
      e.body.Admitted ∧ e.Reports failure := by
  have hread : (do
      let selects ← pattern .initial "/r"
      let gives ← compile .initial "string()"
      let e ← compile .initial "key('k', 'v') | 'w'"
      return (selects, gives, e)).toOption.any
        (fun read : Expression × Expression × Expression =>
          (read.2.2.evaluate (.root [.element ⟨⟨none, "r"⟩, [], [], 0⟩ [.text "v"]])
            [("k", ⟨read.1, read.2.1⟩)] [] (.node []) []).toOption.isNone) = true := by
    decide +kernel
  obtain ⟨⟨selects, gives, e⟩, hread, hfails⟩ := exists_of_any_toOption hread
  obtain ⟨selects, hselects, hread⟩ := bind_eq_ok.1 hread
  obtain ⟨gives, hgives, hread⟩ := bind_eq_ok.1 hread
  obtain ⟨e, he, hread⟩ := bind_eq_ok.1 hread
  cases hread
  have hkeys : Keys.Compiled [("k", ⟨selects, gives⟩)] :=
    List.forall_mem_singleton.2 ⟨⟨_, _, .inr hselects⟩, _, _, .inl hgives⟩
  obtain ⟨failure, hfailure⟩ := exists_of_isNone_toOption hfails
  obtain ⟨hadmitted, hreports⟩ := evaluate_inBounds (.inl he)
  exact ⟨selects, gives, e, failure, hselects, hgives, he, hfailure, hadmitted,
    (hreports _ _ _ _ _ hkeys failure).1 hfailure⟩

end Expression

end XmlConformance.Path
