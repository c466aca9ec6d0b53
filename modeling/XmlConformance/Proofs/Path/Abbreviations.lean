import XmlConformance.Proofs.Path.Grammar
import XmlConformance.Proofs.Path.Layout

/-!
# Proofs/Path/Abbreviations — paths behind one slash and behind two

Behind one slash a path starts at the root of the document, behind two slashes at all of its nodes.
Whatever is read behind two slashes as an expression is read behind one slash as the same expression
with another start (`Expr.Rebased`), provided it begins with a step. If it begins with a literal, a
number, a variable or a parenthesis, the single slash is taken for the whole path, and what stands
behind it is rejected (`Expression.compile_slash`).
-/

namespace XmlConformance.Path

/-- **Expressions that differ only in where their first path starts**: at all nodes of the document,
or at its root. -/
inductive Expr.Rebased : Expr → Expr → Prop
  | base (step : Expr) : Rebased (.slash .allNodes step) (.slash .root step)
  | slash {a a' : Expr} (step : Expr) : Rebased a a' → Rebased (.slash a step) (.slash a' step)
  | union {a a' : Expr} (b : Expr) : Rebased a a' → Rebased (.union a b) (.union a' b)
  | or {a a' : Expr} (b : Expr) : Rebased a a' → Rebased (.or a b) (.or a' b)
  | and {a a' : Expr} (b : Expr) : Rebased a a' → Rebased (.and a b) (.and a' b)
  | general {a a' : Expr} (relation : Comparison) (b : Expr) : Rebased a a' →
      Rebased (.general relation a b) (.general relation a' b)
  | value {a a' : Expr} (relation : Comparison) (b : Expr) : Rebased a a' →
      Rebased (.value relation a b) (.value relation a' b)
  | arithmetic {a a' : Expr} (operator : Arithmetic) (b : Expr) : Rebased a a' →
      Rebased (.arithmetic operator a b) (.arithmetic operator a' b)
  | sequence {a a' : Expr} (parts : List Expr) : Rebased a a' →
      Rebased (.sequence (a :: parts)) (.sequence (a' :: parts))

namespace Syntax

theorem Joining.rebased {join : Expr → Expr → Expr} {a a' : Expr} (h : Joining join)
    (ha : a.Rebased a') (b : Expr) : (join a b).Rebased (join a' b) := by
  cases h with
  | or => exact .or b ha
  | and => exact .and b ha
  | general relation => exact .general relation b ha
  | value relation => exact .value relation b ha
  | arithmetic operator => exact .arithmetic operator b ha
  | union => exact .union b ha

/-! ## Levels -/

/-- **A parser reads two lists of tokens alike**, up to where the first path starts, and leaves the
same tokens. -/
def ReadsAlike (p : Parse Expr) (ts ts' : List Token) : Prop :=
  ∀ e rest, p ts = .ok (e, rest) → ∃ e', p ts' = .ok (e', rest) ∧ e.Rebased e'

variable {ns : Namespaces} {step operand : Parse Expr} {t : Token} {ts ts' rest : List Token}
  {join? : Token → Option (Expr → Expr → Expr)} {left left' e : Expr}

/-- What stands behind the first operand does not depend on it. -/
theorem chain_rebased (hjoin : Operators join?) {n : ℕ} (hleft : left.Rebased left')
    (h : chain operand join? n left ts = .ok (e, rest)) :
    ∃ e', chain operand join? n left' ts = .ok (e', rest) ∧ e.Rebased e' := by
  fun_induction chain operand join? n left ts generalizing left' with
  | case1 =>
    cases h
    exact ⟨left', rfl, hleft⟩
  | case2 =>
    cases h
    exact ⟨left', rfl, hleft⟩
  | case3 left n t ts join hj ih =>
    obtain ⟨⟨right, rest'⟩, hright, h⟩ := bind_eq_ok.1 h
    obtain ⟨e', he', hrebased⟩ := ih right rest' ((hjoin t join hj).rebased hleft right) h
    exact ⟨e', by simp only [chain, hj, hright, ok_bind, he'], hrebased⟩
  | case4 left n t ts hj =>
    cases h
    exact ⟨left', by simp only [chain, hj], hleft⟩

theorem ReadsAlike.leftGrouped (h : ReadsAlike operand ts ts') (hjoin : Operators join?) :
    ReadsAlike (leftGrouped join? operand) ts ts' := by
  intro e rest he
  obtain ⟨⟨first, rest'⟩, hfirst, he⟩ := bind_eq_ok.1 he
  obtain ⟨first', hfirst', hrebased⟩ := h first rest' hfirst
  obtain ⟨e', he', hresult⟩ := chain_rebased hjoin hrebased he
  exact ⟨e', bind_eq_ok.2 ⟨(first', rest'), hfirst', he'⟩, hresult⟩

/-- Further steps do not depend on the path in front of them. -/
theorem moreSteps_rebased {n : ℕ} (hleft : left.Rebased left')
    (h : moreSteps step n left ts = .ok (e, rest)) :
    ∃ e', moreSteps step n left' ts = .ok (e', rest) ∧ e.Rebased e' := by
  fun_induction moreSteps step n left ts generalizing left' with
  | case1 n left ts ih =>
    obtain ⟨⟨next, rest'⟩, hnext, h⟩ := bind_eq_ok.1 h
    obtain ⟨e', he', hrebased⟩ := ih next rest' (.slash next hleft) h
    exact ⟨e', by simp only [moreSteps, hnext, ok_bind, he'], hrebased⟩
  | case2 n left ts ih =>
    obtain ⟨⟨next, rest'⟩, hnext, h⟩ := bind_eq_ok.1 h
    obtain ⟨e', he', hrebased⟩ := ih next rest' (.slash next (.slash .anyDepth hleft)) h
    exact ⟨e', by simp only [moreSteps, hnext, ok_bind, he'], hrebased⟩
  | case3 n left ts hslash hdouble =>
    cases h
    exact ⟨left', by rw [moreSteps] <;> assumption, hleft⟩

/-- **A path that begins with a step** is read behind both kinds of slashes. -/
theorem readsAlike_path (ht : startsStep t = true) :
    ReadsAlike (path step) (.doubleSlash :: t :: ts) (.slash :: t :: ts) := by
  intro e rest h
  obtain ⟨⟨first, rest'⟩, hfirst, h⟩ := bind_eq_ok.1 h
  obtain ⟨e', he', hrebased⟩ := moreSteps_rebased (.base first) h
  refine ⟨e', ?_, hrebased⟩
  rw [path, if_pos ht]
  exact bind_eq_ok.2 ⟨(first, rest'), hfirst, he'⟩

theorem readsAlike_disjunction (ht : startsStep t = true) :
    ReadsAlike (disjunction step) (.doubleSlash :: t :: ts) (.slash :: t :: ts) := by
  have hunary : ReadsAlike (unary step) (.doubleSlash :: t :: ts) (.slash :: t :: ts) :=
    (readsAlike_path ht).leftGrouped operators_unionJoin?
  have hadditive : ReadsAlike (additive step) (.doubleSlash :: t :: ts) (.slash :: t :: ts) :=
    (hunary.leftGrouped operators_multiplicativeJoin?).leftGrouped operators_additiveJoin?
  have hcomparison :
      ReadsAlike (comparison step) (.doubleSlash :: t :: ts) (.slash :: t :: ts) := by
    intro e rest h
    obtain ⟨⟨left, rest'⟩, hleft, h⟩ := bind_eq_ok.1 h
    obtain ⟨left', hleft', hrebased⟩ := hadditive left rest' hleft
    obtain ⟨e', he', hresult⟩ := chain_rebased operators_comparisonJoin? hrebased h
    exact ⟨e', bind_eq_ok.2 ⟨(left', rest'), hleft', he'⟩, hresult⟩
  exact (hcomparison.leftGrouped operators_andJoin?).leftGrouped operators_orJoin?

theorem readsAlike_expression (ht : startsStep t = true) :
    ReadsAlike (expression step) (.doubleSlash :: t :: ts) (.slash :: t :: ts) := by
  intro e rest h
  obtain ⟨⟨first, rest'⟩, hfirst, h⟩ := bind_eq_ok.1 h
  obtain ⟨⟨parts, rest''⟩, hparts, h⟩ := bind_eq_ok.1 h
  obtain ⟨first', hfirst', hrebased⟩ := readsAlike_disjunction ht first rest' hfirst
  cases h
  refine ⟨if parts.isEmpty then first' else .sequence (first' :: parts), ?_, ?_⟩
  · exact bind_eq_ok.2 ⟨(first', rest'), hfirst', bind_eq_ok.2 ⟨(parts, rest), hparts, rfl⟩⟩
  · split
    · exact hrebased
    · exact .sequence parts hrebased

/-! ## What can stand behind slashes -/

/-- Whether a token can stand first in an innermost expression that is neither a step nor a
call. -/
def startsPrimary : Token → Bool
  | .literal _ | .number _ | .var _ | .leftParen => true
  | _ => false

/-- **What an innermost expression begins with.** -/
theorem starts_of_stepWith (h : stepWith ns step ts = .ok (e, rest)) :
    ∃ t ts', ts = t :: ts' ∧ (startsStep t = true ∨ startsPrimary t = true) := by
  unfold stepWith at h
  split at h
  case h_1 => cases h
  case h_12 t ts _ _ _ _ _ _ _ _ _ _ =>
    refine ⟨t, ts, rfl, ?_⟩
    split at h
    all_goals first
      | exact .inl rfl
      | cases h
  all_goals first
    | exact ⟨_, _, rfl, .inl rfl⟩
    | exact ⟨_, _, rfl, .inr rfl⟩

/-- Behind two slashes an innermost expression is read first. -/
theorem step_of_expression (h : expression step (.doubleSlash :: ts) = .ok (e, rest)) :
    ∃ r, step ts = .ok r := by
  obtain ⟨_, hdisjunction, -⟩ := bind_eq_ok.1 h
  obtain ⟨_, hconjunction, -⟩ := bind_eq_ok.1 hdisjunction
  obtain ⟨_, hcomparison, -⟩ := bind_eq_ok.1 hconjunction
  obtain ⟨_, hadditive, -⟩ := bind_eq_ok.1 hcomparison
  obtain ⟨_, hmultiplicative, -⟩ := bind_eq_ok.1 hadditive
  obtain ⟨_, hunary, -⟩ := bind_eq_ok.1 hmultiplicative
  obtain ⟨_, hpath, -⟩ := bind_eq_ok.1 (show union step (.doubleSlash :: ts) = _ from hunary)
  obtain ⟨r, hstep, -⟩ := bind_eq_ok.1 hpath
  exact ⟨r, hstep⟩

/-- **A single slash is a whole path** in front of an innermost expression that is no step. -/
theorem expression_slash (ht : startsPrimary t = true) :
    expression step (.slash :: t :: ts) = .ok (.root, t :: ts) := by
  cases t <;> first
    | rfl
    | cases ht

end Syntax

/-! ## Whole texts -/

open Syntax

theorem Token.ofText_doubleSlash (r : String) :
    Token.ofText ("//" ++ r) = (Token.ofText r).map (.doubleSlash :: ·) := by
  rw [Token.ofText, String.toList_append]
  exact Lexer.tokens_of_read (Lexer.skipLayout_of_ne rfl (by decide)) rfl

theorem Token.ofText_slash {r : String} (hr : r.toList.head? ≠ some '/') :
    Token.ofText ("/" ++ r) = (Token.ofText r).map (.slash :: ·) := by
  have hends : Lexer.Ends (· == '/') r.toList :=
    fun c hc => beq_eq_false_iff_ne.2 fun hslash => hr (hslash ▸ hc)
  rw [Token.ofText, String.toList_append]
  exact Lexer.tokens_of_read (Lexer.skipLayout_of_ne rfl (by decide)) (Lexer.read_slash hends)

/-- **Behind one slash the same is read as behind two**, but for where the path starts, if a step
stands there. A literal, a number, a variable or a parenthesis is read behind two slashes only. -/
theorem Expression.compile_slash {ns : Namespaces} {r : String} {e : Expression}
    (hr : r.toList.head? ≠ some '/') (h : Expression.compile ns ("//" ++ r) = .ok e) :
    ∃ t ts, Token.ofText r = .ok (t :: ts) ∧
      (startsStep t = true ∧
          (∃ e', Expression.compile ns ("/" ++ r) = .ok e' ∧ e.body.Rebased e'.body) ∨
        startsPrimary t = true ∧ Expression.compile ns ("/" ++ r) =
          .error (.path ("/" ++ r) (.syntactic (.unexpectedToken t)))) := by
  obtain ⟨-, hbody⟩ := Expression.compile_eq_ok.1 h
  obtain ⟨_, hdouble, hparse⟩ := Expr.ofText_eq_ok.1 hbody
  obtain ⟨ts, hts, rfl⟩ := map_eq_ok.1 ((Token.ofText_doubleSlash r).symm.trans hdouble)
  have hslash : Token.ofText ("/" ++ r) = .ok (.slash :: ts) := by
    rw [Token.ofText_slash hr, hts]
    rfl
  obtain ⟨⟨first, rest⟩, hfirst⟩ := step_of_expression hparse
  obtain ⟨t, ts, rfl, ht⟩ := starts_of_stepWith hfirst
  refine ⟨t, ts, hts, ht.imp (fun ht => ⟨ht, ?_⟩) fun ht => ⟨ht, ?_⟩⟩
  -- Both lists of tokens are equally long, so that the same depth of nesting is allowed in both.
  · obtain ⟨e', he', hrebased⟩ := readsAlike_expression ht e.body [] hparse
    refine ⟨⟨"/" ++ r, e'⟩, ?_, hrebased⟩
    exact Expression.compile_eq_ok.2 ⟨rfl, Expr.ofText_eq_ok.2 ⟨_, hslash, he'⟩⟩
  · have hroot : Expr.parse ns (.slash :: t :: ts) = .ok (.root, t :: ts) := expression_slash ht
    have herror : Expr.ofText ns ("/" ++ r) = .error (.unexpectedToken t) := by
      simp only [Expr.ofText, hslash, ok_bind, hroot]
      rfl
    rw [Expression.compile, herror]

/-- A union behind slashes: only its first path starts elsewhere. -/
theorem Expression.compile_slash_union :
    ∃ e e', Expression.compile .initial ("//" ++ "a|b") = .ok e ∧
      Expression.compile .initial ("/" ++ "a|b") = .ok e' ∧ e.body.Rebased e'.body := by
  have hdouble : (Expression.compile .initial ("//" ++ "a|b")).toOption.any
      (fun _ => true) = true := by decide +kernel
  have htokens : (Token.ofText "a|b").toOption.any
      (fun ts => ts.head?.any fun t => startsStep t && !startsPrimary t) = true := by
    decide +kernel
  obtain ⟨e, he, -⟩ := exists_of_any_toOption hdouble
  obtain ⟨ts, hts, hhead⟩ := exists_of_any_toOption htokens
  obtain ⟨t, ts, hread, ⟨-, e', he', hrebased⟩ | ⟨ht, -⟩⟩ :=
    Expression.compile_slash (by decide) he
  · exact ⟨e, e', he, he', hrebased⟩
  · cases hts.symm.trans hread
    simp [ht] at hhead

/-- **A parenthesis is read behind two slashes, but not behind one.** -/
theorem Expression.compile_slash_parenthesis :
    "(a)".toList.head? ≠ some '/' ∧ (∃ e, Expression.compile .initial ("//" ++ "(a)") = .ok e) ∧
      ¬∃ e', Expression.compile .initial ("/" ++ "(a)") = .ok e' := by
  have hdouble : (Expression.compile .initial ("//" ++ "(a)")).toOption.any
      (fun _ => true) = true := by decide +kernel
  have hsingle : (Expression.compile .initial ("/" ++ "(a)")).toOption.isNone = true := by
    decide +kernel
  obtain ⟨e, he, -⟩ := exists_of_any_toOption hdouble
  obtain ⟨failure, hfailure⟩ := exists_of_isNone_toOption hsingle
  exact ⟨by decide, ⟨e, he⟩, fun ⟨_, he'⟩ => nomatch hfailure.symm.trans he'⟩

end XmlConformance.Path
