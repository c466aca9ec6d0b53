import Mathlib.Data.List.TakeWhile
import Mathlib.Order.Nat
import XmlConformance.Proofs.Outcome
import XmlConformance.Proofs.Path.Printing

/-!
# Proofs/Path/Parsing — what is printed is read again

Every level of the grammar has a parser of its own, built from the parser of the next tighter level.
A parser reads a level (`Reads`) if it takes the tokens of an expression at a place of this level
off the front of others, whenever what follows cannot belong to the expression (`Stops`). Each level
is read if the next one is, and steps are read if whole expressions with fewer tokens are; so
induction on the number of tokens shows that whole expressions are read (`Expr.parse_tokens`).
-/

namespace XmlConformance.Path

/-- The loosest level of the places at which an expression ends in front of a token. -/
def Token.closes : Token → ℕ
  | .rightParen | .rightBracket => 0
  | .comma => 1
  | .or => 2
  | .and => 3
  | .eq | .notEq | .lt | .ltEq | .gt | .gtEq => 4
  | .valueEq | .valueNe | .valueLt | .valueLe | .valueGt | .valueGe => 4
  | .plus | .minus => 5
  | .multiply | .div | .mod => 6
  | .pipe => 8
  | .slash | .doubleSlash => 10
  | _ => 11

/-- **An expression at a place of a level ends in front of some tokens.** -/
def Stops (level : ℕ) (rest : List Token) : Prop :=
  ∀ t ∈ rest.head?, t.closes ≤ level

section Stops

variable {level : ℕ} {t : Token} {rest : List Token}

theorem stops_nil (level : ℕ) : Stops level [] :=
  nofun

theorem stops_cons : Stops level (t :: rest) ↔ t.closes ≤ level := by
  simp [Stops]

theorem Stops.mono {tighter : ℕ} (h : Stops level rest) (hle : level ≤ tighter) :
    Stops tighter rest :=
  fun t ht => Nat.le_trans (h t ht) hle

end Stops

open Syntax XmlConformance.Path.Expr

variable (ns : Namespaces) (label : String → String)

/-- **A parser reads a level**, as far as the tokens of an expression are no more than `size`. -/
structure Reads (level : ℕ) (parser : Parse Expr) (size : ℕ) : Prop where
  printed : ∀ {e : Expr}, e.Printable ns label → (e.tokensAt label level).length ≤ size →
    ∀ rest : List Token, Stops level rest →
      parser (e.tokensAt label level ++ rest) = .ok (e, rest)

/-! ## Binary operators -/

/-- **What joins the expressions of a level**: an operator between operands at places of the levels
`left` and `right`. -/
structure Joins (level left right : ℕ) (join? : Token → Option (Expr → Expr → Expr)) : Prop where
  closes : ∀ {t join}, join? t = some join → t.closes = right
  parts : ∀ {e : Expr}, e.level = level → e.Printable ns label → ∃ t join a b,
    join? t = some join ∧ e = join a b ∧ a.Printable ns label ∧ b.Printable ns label ∧
      e.tokens label = a.tokensAt label left ++ t :: b.tokensAt label right

section Joins

theorem joins_or : Joins ns label 1 1 2 orJoin? where
  closes {t _} h := by cases t <;> first | rfl | cases h
  parts {e} hl he := by
    cases e with
    | or a b => exact ⟨_, _, a, b, rfl, rfl, he.1, he.2, rfl⟩
    | _ => grind [Expr.level, Arithmetic.level_eq]

theorem joins_and : Joins ns label 2 2 3 andJoin? where
  closes {t _} h := by cases t <;> first | rfl | cases h
  parts {e} hl he := by
    cases e with
    | and a b => exact ⟨_, _, a, b, rfl, rfl, he.1, he.2, rfl⟩
    | _ => grind [Expr.level, Arithmetic.level_eq]

theorem joins_comparison : Joins ns label 3 4 4 comparisonJoin? where
  closes {t _} h := by cases t <;> first | rfl | cases h
  parts {e} hl he := by
    cases e with
    | general relation a b =>
      exact ⟨relation.generalToken, _, a, b, by cases relation <;> rfl, rfl, he.1, he.2, rfl⟩
    | value relation a b =>
      exact ⟨relation.valueToken, _, a, b, by cases relation <;> rfl, rfl, he.1, he.2, rfl⟩
    | _ => grind [Expr.level, Arithmetic.level_eq]

theorem joins_additive : Joins ns label 4 4 5 additiveJoin? where
  closes {t _} h := by cases t <;> first | rfl | cases h
  parts {e} hl he := by
    cases e with
    | arithmetic operator a b =>
      cases operator <;> first
        | exact ⟨_, _, a, b, rfl, rfl, he.1, he.2, rfl⟩
        | cases hl
    | _ => grind [Expr.level, Arithmetic.level_eq]

theorem joins_multiplicative : Joins ns label 5 5 6 multiplicativeJoin? where
  closes {t _} h := by cases t <;> first | rfl | cases h
  parts {e} hl he := by
    cases e with
    | arithmetic operator a b =>
      cases operator <;> first
        | exact ⟨_, _, a, b, rfl, rfl, he.1, he.2, rfl⟩
        | cases hl
    | _ => grind [Expr.level, Arithmetic.level_eq]

theorem joins_union : Joins ns label 7 7 8 unionJoin? where
  closes {t _} h := by cases t <;> first | rfl | cases h
  parts {e} hl he := by
    cases e with
    | union a b => exact ⟨_, _, a, b, rfl, rfl, he.1, he.2, rfl⟩
    | _ => grind [Expr.level, Arithmetic.level_eq]

end Joins

variable {ns label} {level size : ℕ} {join? : Token → Option (Expr → Expr → Expr)}
  {operand step : Parse Expr}

theorem chain_of_stops {left right : ℕ} (hjoin : Joins ns label level left right join?)
    (hlevel : level < right) {rest : List Token}
    (h : Stops level rest) {n : ℕ} (hn : min 1 rest.length ≤ n) (e : Expr) :
    chain operand join? n e rest = .ok (e, rest) := by
  cases rest with
  | nil => cases n <;> rfl
  | cons t rest =>
    obtain ⟨m, rfl⟩ : ∃ m, n = m + 1 := Nat.exists_eq_add_one.2 (by simp at hn; omega)
    have hnone : join? t = none := by
      refine Option.eq_none_iff_forall_ne_some.2 fun join ht => ?_
      have := stops_cons.1 h
      have := hjoin.closes ht
      omega
    simp only [chain, hnone]

/-- Behind an operand that ends in front of an operator of the level, a chain goes on with what is
read so far. -/
theorem leftGrouped_tokensAt (hjoin : Joins ns label level level (level + 1) join?)
    (hop : Reads ns label (level + 1) operand size) {e : Expr} (he : e.Printable ns label)
    (hsize : (e.tokensAt label level).length ≤ size) (rest : List Token)
    (hrest : Stops (level + 1) rest) :
    ∃ n, rest.length ≤ n ∧ leftGrouped join? operand (e.tokensAt label level ++ rest) =
      chain operand join? n e rest := by
  induction hn : (e.tokensAt label level).length using Nat.strong_induction_on
    generalizing e rest with
  | h n ih =>
    by_cases hl : e.level = level
    · obtain ⟨t, join, a, b, ht, rfl, ha, hb, htokens⟩ := hjoin.parts hl he
      have hsum := congrArg List.length htokens
      rw [tokensAt_of_le hl.ge] at hn hsize ⊢
      rw [List.length_append, List.length_cons] at hsum
      obtain ⟨m, hm, h⟩ := ih _ (by omega) ha (by omega)
        (t :: (b.tokensAt label (level + 1) ++ rest)) (stops_cons.2 (hjoin.closes ht).le) rfl
      obtain ⟨k, rfl⟩ : ∃ k, m = k + 1 := Nat.exists_eq_add_one.2 (by simp at hm; omega)
      refine ⟨k, by simp at hm; omega, ?_⟩
      rw [htokens, List.append_assoc, List.cons_append, h]
      simp only [chain, ht, hop.printed hb (by omega) rest hrest, ok_bind]
    · refine ⟨rest.length, le_rfl, ?_⟩
      rw [← tokensAt_succ hl] at hsize ⊢
      simp only [leftGrouped, hop.printed he hsize rest hrest, ok_bind]

theorem Reads.leftGrouped (hop : Reads ns label (level + 1) operand size)
    (hjoin : Joins ns label level level (level + 1) join?) :
    Reads ns label level (leftGrouped join? operand) size := by
  refine ⟨fun {e} he hsize rest hrest => ?_⟩
  obtain ⟨n, hn, h⟩ := leftGrouped_tokensAt hjoin hop he hsize rest (hrest.mono (Nat.le_succ _))
  rw [h, chain_of_stops hjoin (Nat.lt_succ_self _) hrest (by omega)]

/-! ## Paths -/

theorem moreSteps_of_stops {rest : List Token} (h : Stops 9 rest) (n : ℕ) (e : Expr) :
    moreSteps step n e rest = .ok (e, rest) := by
  unfold moreSteps
  split
  · exact absurd (stops_cons.1 h) (by decide)
  · exact absurd (stops_cons.1 h) (by decide)
  · rfl

/-- A path that does not begin with a slash is a step and what stands behind it. -/
theorem path_of_begins {ts : List Token} (h : Begins 10 ts) :
    path step ts = step ts >>= fun (first, rest) => moreSteps step rest.length first rest := by
  obtain ⟨t, rest, rfl, -, ht⟩ := h
  cases t <;> first | rfl | exact absurd ht (by decide)

/-- Behind a step that ends in front of a slash, a path goes on with what is read so far. -/
theorem path_tokensAt (hstep : Reads ns label 10 step size) {e : Expr} (he : e.Printable ns label)
    (hsize : (e.tokensAt label 9).length ≤ size) (rest : List Token) (hrest : Stops 10 rest) :
    ∃ n, rest.length ≤ n ∧ path step (e.tokensAt label 9 ++ rest) = moreSteps step n e rest := by
  induction hn : (e.tokensAt label 9).length using Nat.strong_induction_on
    generalizing e rest with
  | h n ih =>
    by_cases hl : e.level = 9
    · obtain ⟨base, next, rfl⟩ := exists_slash_of_level hl
      rw [tokensAt_of_le hl.ge] at hn hsize ⊢
      obtain ⟨rfl, axis, test, predicates, rfl⟩ | htokens := tokens_slash label base next
      · refine ⟨rest.length, le_rfl, ?_⟩
        have hnext := hstep.printed he.2 (Nat.le_of_succ_le hsize) rest hrest
        calc path step (.slash :: (Expr.step axis test predicates).tokens label ++ rest)
            = pathFrom step .root ((Expr.step axis test predicates).tokensAt label 10 ++ rest) :=
              rfl
          _ = _ := by rw [pathFrom, hnext, ok_bind]
      · have hsum := congrArg List.length htokens
        rw [List.length_append, List.length_cons] at hsum
        obtain ⟨m, hm, h⟩ := ih _ (by omega) he.1 (by omega)
          (.slash :: (next.tokensAt label 10 ++ rest)) (stops_cons.2 le_rfl) rfl
        obtain ⟨k, rfl⟩ : ∃ k, m = k + 1 := Nat.exists_eq_add_one.2 (by simp at hm; omega)
        refine ⟨k, by simp at hm; omega, ?_⟩
        rw [htokens, List.append_assoc, List.cons_append, h]
        simp only [moreSteps, hstep.printed he.2 (by omega) rest hrest, ok_bind]
    · refine ⟨rest.length, le_rfl, ?_⟩
      rw [← tokensAt_succ hl] at hsize ⊢
      have hbegins := begins_tokensAt label e 10 (by decide) rest
      simp only [path_of_begins hbegins, hstep.printed he hsize rest hrest, ok_bind]

theorem Reads.path (hstep : Reads ns label 10 step size) : Reads ns label 8 (path step) size := by
  refine ⟨fun {e} he hsize rest hrest => ?_⟩
  by_cases hl : e.level = 8
  · obtain rfl := eq_root_of_level hl
    cases rest with
    | nil => rfl
    | cons t rest =>
      have ht : startsStep t = false := by
        have hclose := stops_cons.1 hrest
        cases t <;> first | rfl | simp [Token.closes] at hclose
      change (if startsStep t then pathFrom step .root (t :: rest) else .ok (.root, t :: rest)) = _
      rw [ht]
      rfl
  · rw [← tokensAt_succ hl] at hsize ⊢
    obtain ⟨n, -, h⟩ := path_tokensAt hstep he hsize rest (hrest.mono (by decide))
    rw [h, moreSteps_of_stops (hrest.mono (by decide))]

/-! ## The levels above a path -/

theorem Reads.union (hstep : Reads ns label 10 step size) : Reads ns label 7 (union step) size :=
  hstep.path.leftGrouped (joins_union ns label)

theorem unary_of_begins {ts : List Token} (h : Begins 7 ts) :
    unary step ts = Syntax.union step ts := by
  obtain ⟨t, rest, rfl, -, ht⟩ := h
  cases t <;> first | rfl | exact absurd ht (by decide)

theorem Reads.unary (hstep : Reads ns label 10 step size) : Reads ns label 6 (unary step) size := by
  refine ⟨fun {e} he hsize rest hrest => ?_⟩
  induction hn : (e.tokensAt label 6).length using Nat.strong_induction_on
    generalizing e rest with
  | h n ih =>
    by_cases hl : e.level = 6
    · obtain ⟨operand, rfl⟩ := exists_negate_of_level hl
      have hlength : ((negate operand).tokensAt label 6).length =
          (operand.tokensAt label 6).length + 1 := rfl
      have hoperand := ih _ (by omega) (e := operand) he (by omega) rest hrest rfl
      calc Syntax.unary step (.minus :: operand.tokensAt label 6 ++ rest)
          = (Syntax.unary step (operand.tokensAt label 6 ++ rest) >>= fun (operand, rest) =>
            .ok (.negate operand, rest)) := rfl
        _ = _ := by rw [hoperand, ok_bind]
    · rw [← tokensAt_succ hl] at hsize ⊢
      rw [unary_of_begins (begins_tokensAt label e _ (by decide) rest),
        hstep.union.printed he hsize rest (hrest.mono (by decide))]

theorem Reads.multiplicative (hstep : Reads ns label 10 step size) :
    Reads ns label 5 (multiplicative step) size :=
  hstep.unary.leftGrouped (joins_multiplicative ns label)

theorem Reads.additive (hstep : Reads ns label 10 step size) :
    Reads ns label 4 (additive step) size :=
  hstep.multiplicative.leftGrouped (joins_additive ns label)

theorem Reads.comparison (hstep : Reads ns label 10 step size) :
    Reads ns label 3 (comparison step) size := by
  refine ⟨fun {e} he hsize rest hrest => ?_⟩
  have hstops : Stops 4 rest := hrest.mono (by decide)
  by_cases hl : e.level = 3
  · obtain ⟨t, join, a, b, ht, rfl, ha, hb, htokens⟩ := (joins_comparison ns label).parts hl he
    rw [tokensAt_of_le hl.ge, htokens, List.length_append, List.length_cons] at hsize
    have hleft := hstep.additive.printed ha (by omega)
      (t :: (b.tokensAt label 4 ++ rest))
      (stops_cons.2 ((joins_comparison ns label).closes ht).le)
    rw [tokensAt_of_le hl.ge, htokens, List.append_assoc, List.cons_append, Syntax.comparison,
      hleft]
    simp [chain, ht, hstep.additive.printed hb (by omega) rest hstops]
  · rw [← tokensAt_succ hl] at hsize ⊢
    rw [Syntax.comparison, hstep.additive.printed he hsize rest hstops, ok_bind]
    exact chain_of_stops (joins_comparison ns label) (by decide) hrest le_rfl e

theorem Reads.conjunction (hstep : Reads ns label 10 step size) :
    Reads ns label 2 (conjunction step) size :=
  hstep.comparison.leftGrouped (joins_and ns label)

theorem Reads.disjunction (hstep : Reads ns label 10 step size) :
    Reads ns label 1 (disjunction step) size :=
  hstep.conjunction.leftGrouped (joins_or ns label)

/-! ## Lists -/

theorem length_le_further (label : String → String) :
    ∀ es : List Expr, es.length ≤ (further label es).length
  | [] => Nat.zero_le _
  | e :: es => by
    have := length_le_further label es
    simp only [further, List.length_cons, List.length_append]
    omega

theorem stops_further (label : String → String) {rest : List Token} (h : Stops 0 rest) :
    ∀ es : List Expr, Stops 1 (further label es ++ rest)
  | [] => h.mono (by decide)
  | _ :: _ => stops_cons.2 le_rfl

theorem moreParts_of_stops {rest : List Token} (h : Stops 0 rest) (n : ℕ) :
    moreParts step n rest = .ok ([], rest) := by
  unfold moreParts
  split
  · exact absurd (stops_cons.1 h) (by decide)
  · rfl

theorem moreParts_further (hstep : Reads ns label 10 step size) {rest : List Token}
    (hrest : Stops 0 rest) : ∀ {es : List Expr} {n : ℕ}, AllPrintable ns label es →
      (further label es).length ≤ size → es.length ≤ n →
        moreParts step n (further label es ++ rest) = .ok (es, rest)
  | [], n, _, _, _ => moreParts_of_stops hrest n
  | e :: es, n + 1, he, hsize, hn => by
    rw [further_cons, List.length_cons, List.length_append] at hsize
    have hfirst := hstep.disjunction.printed he.1 (by omega) _ (stops_further label hrest es)
    have hmore := moreParts_further hstep hrest he.2 (by omega) (Nat.le_of_succ_le_succ hn)
    rw [further_cons, List.cons_append, List.append_assoc, moreParts, hfirst]
    simp only [ok_bind, hmore]
    rfl

theorem Reads.expression (hstep : Reads ns label 10 step size) :
    Reads ns label 0 (expression step) size := by
  refine ⟨fun {e} he hsize rest hrest => ?_⟩
  by_cases hl : e.level = 0
  · obtain ⟨first, second, parts, rfl⟩ :
        ∃ first second parts, e = .sequence (first :: second :: parts) := by
      cases e with
      | sequence parts =>
        match parts, he.1 with
        | [], _ => cases hl
        | [_], h => exact absurd rfl h
        | first :: second :: parts, _ => exact ⟨first, second, parts, rfl⟩
      | _ => grind [Expr.level, Arithmetic.level_eq]
    have htokens : (sequence (first :: second :: parts)).tokensAt label 0 =
      first.tokensAt label 1 ++ further label (second :: parts) := rfl
    have hlength := length_le_further label (second :: parts)
    rw [htokens, List.length_append] at hsize
    rw [htokens, List.append_assoc, Syntax.expression,
      hstep.disjunction.printed he.2.1 (by omega) _ (stops_further label hrest _), ok_bind]
    dsimp only
    rw [moreParts_further hstep hrest he.2.2 (by omega) (by rw [List.length_append]; omega)]
    rfl
  · rw [← tokensAt_succ hl] at hsize ⊢
    have hfirst := hstep.disjunction.printed he hsize rest (hrest.mono (by decide))
    rw [Syntax.expression, hfirst, ok_bind]
    dsimp only
    rw [moreParts_of_stops hrest]
    rfl

/-! ## Predicates -/

theorem length_le_bracketed (label : String → String) :
    ∀ es : List Expr, es.length ≤ (bracketed label es).length
  | [] => Nat.zero_le _
  | e :: es => by
    have := length_le_bracketed label es
    simp only [bracketed, List.length_cons, List.length_append]
    omega

theorem predicates_of_stops {rest : List Token} (h : Stops 10 rest) (n : ℕ) :
    predicates step n rest = .ok ([], rest) := by
  unfold predicates
  split
  · exact absurd (stops_cons.1 h) (by decide)
  · rfl

theorem predicates_bracketed (hstep : Reads ns label 10 step size) {rest : List Token}
    (hrest : Stops 10 rest) : ∀ {es : List Expr} {n : ℕ}, AllPrintable ns label es →
      (bracketed label es).length ≤ size + 1 → es.length ≤ n →
        predicates step n (bracketed label es ++ rest) = .ok (es, rest)
  | [], n, _, _, _ => predicates_of_stops hrest n
  | e :: es, n + 1, he, hsize, hn => by
    simp only [bracketed, List.length_cons, List.length_append] at hsize
    have hfirst := hstep.expression.printed he.1 (by rw [tokensAt_zero]; omega)
      (.rightBracket :: (bracketed label es ++ rest)) (stops_cons.2 le_rfl)
    have hmore := predicates_bracketed hstep hrest he.2 (by omega) (Nat.le_of_succ_le_succ hn)
    rw [tokensAt_zero] at hfirst
    rw [bracketed, List.cons_append, List.append_assoc, List.cons_append, predicates, hfirst]
    simp only [ok_bind, expect, isRightBracket, if_true, hmore]
    rfl

theorem finishStep_bracketed (hstep : Reads ns label 10 step size) {es : List Expr}
    (hes : AllPrintable ns label es) (hsize : (bracketed label es).length ≤ size + 1)
    {rest : List Token} (hrest : Stops 10 rest) (axis : Axis) (test : NodeTest) :
    finishStep step axis test (bracketed label es ++ rest) = .ok (.step axis test es, rest) := by
  have hlength := length_le_bracketed label es
  rw [finishStep, predicates_bracketed hstep hrest hes hsize (by rw [List.length_append]; omega)]
  rfl

theorem finishFilter_bracketed (hstep : Reads ns label 10 step size) {es : List Expr}
    (hes : AllPrintable ns label es) (hsize : (bracketed label es).length ≤ size + 1)
    {rest : List Token} (hrest : Stops 10 rest) (primary : Expr) :
    finishFilter step primary (bracketed label es ++ rest) =
      .ok (if es.isEmpty then primary else .filter primary es, rest) := by
  have hlength := length_le_bracketed label es
  rw [finishFilter, predicates_bracketed hstep hrest hes hsize (by rw [List.length_append]; omega)]
  rfl

theorem finishFilter_nil {rest : List Token} (h : Stops 10 rest) (primary : Expr) :
    finishFilter step primary rest = .ok (primary, rest) := by
  rw [finishFilter, predicates_of_stops h]
  rfl

/-! ## Node tests -/

theorem nameTest_of_plain {part : String} (h : ':' ∉ part.toList) :
    nameTest ns part = .ok (.name none part) := by
  have hdrop : part.toList.dropWhile (· != ':') = [] :=
    List.dropWhile_eq_nil_iff.2 fun c hc => bne_iff_ne.2 fun hcolon => h (hcolon ▸ hc)
  simp only [nameTest, hdrop]

theorem nameTest_of_qualified {name uri part : String} (hlabel : ns.lookup? name = some uri)
    (h : ':' ∉ name.toList) :
    nameTest ns (name ++ ":" ++ part) = .ok (.name (some uri) part) := by
  have hplain : ∀ c ∈ name.toList, (c != ':') = true :=
    fun c hc => bne_iff_ne.2 fun hcolon => h (hcolon ▸ hc)
  have hchars : (name ++ ":" ++ part).toList = name.toList ++ ':' :: part.toList := by simp
  have hdrop : (name ++ ":" ++ part).toList.dropWhile (· != ':') = ':' :: part.toList := by
    rw [hchars, List.dropWhile_append_of_pos hplain]
    rfl
  have htake : (name ++ ":" ++ part).toList.takeWhile (· != ':') = name.toList := by
    rw [hchars, List.takeWhile_append_of_pos hplain]
    simp
  simp only [nameTest, hdrop, htake, resolve, hlabel, String.ofList_toList, ok_bind, pure_eq_ok]

theorem nodeTest_name (name : String) {rest : List Token} (h : rest.head? ≠ some .leftParen) :
    nodeTest ns (.name name :: rest) = nameTest ns name >>= fun test => .ok (test, rest) := by
  cases rest with
  | nil => rfl
  | cons t rest => cases t <;> first | rfl | exact absurd rfl h

theorem nodeTest_tokens {test : NodeTest} (htest : test.Printable ns label) {rest : List Token}
    (h : rest.head? ≠ some .leftParen) :
    nodeTest ns (test.tokens label ++ rest) = .ok (test, rest) := by
  cases test with
  | name uri? part =>
    cases uri? with
    | none =>
      exact (nodeTest_name part h).trans (by rw [nameTest_of_plain htest, ok_bind])
    | some uri =>
      exact (nodeTest_name _ h).trans (by rw [nameTest_of_qualified htest.2.1 htest.2.2, ok_bind])
  | namespaceOf uri => simp [NodeTest.tokens, nodeTest, resolve, show ns.lookup? _ = _ from htest]
  | localName | any | node | text | comment | instruction => rfl

/-! ## Calls -/

theorem moreArguments_further (hstep : Reads ns label 10 step size) (rest : List Token) :
    ∀ {es : List Expr} {n : ℕ}, AllPrintable ns label es → (further label es).length ≤ size →
      es.length ≤ n →
        moreArguments step n (further label es ++ .rightParen :: rest) = .ok (es, rest)
  | [], n, _, _, _ => by cases n <;> rfl
  | e :: es, n + 1, he, hsize, hn => by
    rw [further_cons, List.length_cons, List.length_append] at hsize
    have hfirst := hstep.disjunction.printed he.1 (by omega)
      (further label es ++ .rightParen :: rest) (stops_further label (stops_cons.2 le_rfl) es)
    have hmore := moreArguments_further hstep rest he.2 (by omega) (Nat.le_of_succ_le_succ hn)
    rw [further_cons, List.cons_append, List.append_assoc, moreArguments, hfirst]
    simp only [ok_bind, hmore]
    rfl

theorem arguments_of_begins {ts : List Token} (h : Begins 0 ts) :
    arguments step ts = disjunction step ts >>= fun (first, rest) =>
      moreArguments step rest.length rest >>= fun (more, rest) => .ok (first :: more, rest) := by
  obtain ⟨t, rest, rfl, ht, -⟩ := h
  cases t <;> first | rfl | exact absurd ht (by decide)

theorem arguments_further (hstep : Reads ns label 10 step size) {e : Expr} {es : List Expr}
    (he : AllPrintable ns label (e :: es)) (hsize : (further label (e :: es)).length ≤ size)
    (rest : List Token) :
    arguments step (e.tokensAt label 1 ++ (further label es ++ .rightParen :: rest)) =
      .ok (e :: es, rest) := by
  rw [further_cons, List.length_cons, List.length_append] at hsize
  have hbegins := begins_tokensAt label e 1 (by decide) (further label es ++ .rightParen :: rest)
  have hfirst := hstep.disjunction.printed he.1 (by omega) (further label es ++ .rightParen :: rest)
    (stops_further label (stops_cons.2 le_rfl) es)
  have hlength := length_le_further label es
  rw [arguments_of_begins (hbegins.mono (Nat.zero_le _)), hfirst, ok_bind]
  dsimp only
  rw [moreArguments_further hstep rest he.2 (by omega) (by rw [List.length_append]; omega), ok_bind]

/-- A call whose arguments are read is read, and then the predicates behind it. -/
theorem stepWith_call {f : CoreFunction} {es : List Expr} {ts rest : List Token}
    (hf : f.arity.admits es.length = true) (h : arguments step ts = .ok (es, rest)) :
    stepWith ns step (.name f.plainName :: .leftParen :: ts) =
      finishFilter step (.call f es) rest := by
  have hkind : (kindTest? f.plainName).isSome = false := by cases f <;> rfl
  have hname : CoreFunction.ofName? f.plainName = some f := by cases f <;> rfl
  have hcall : Syntax.call step f.plainName ts = .ok (.call f es, rest) := by
    simp only [Syntax.call, hname, h, ok_bind, hf, if_true]
    rfl
  simp only [stepWith, hkind, Bool.false_eq_true, if_false, hcall, ok_bind]

/-! ## Steps -/

theorem stepWith_paren {ts : List Token} (h : Begins 0 ts) :
    stepWith ns step (.leftParen :: ts) = expression step ts >>= fun (inner, rest) =>
      expect isRightParen .rightParen rest >>= fun rest => finishFilter step inner rest := by
  obtain ⟨t, rest, rfl, ht, -⟩ := h
  cases t <;> first | rfl | exact absurd ht (by decide)

/-- **An innermost expression is read**, and then the predicates behind it. -/
theorem stepWith_tokensAt (hstep : Reads ns label 10 step size) {e : Expr}
    (he : e.Printable ns label) (hsize : (e.tokensAt label 11).length ≤ size + 1)
    (rest : List Token) :
    stepWith ns step (e.tokensAt label 11 ++ rest) = finishFilter step e rest := by
  by_cases hl : 11 ≤ e.level
  · cases e with
    | literal | number | var => rfl
    | call f es =>
      cases es with
      | nil => exact stepWith_call he.1 rfl
      | cons e es =>
        have htokens : (Expr.call f (e :: es)).tokens label = .name f.plainName :: .leftParen ::
            (e.tokensAt label 1 ++ (further label es ++ [.rightParen])) := rfl
        have hlength : (further label (e :: es)).length =
            (e.tokensAt label 1).length + (further label es).length + 1 := by
          rw [further_cons, List.length_cons, List.length_append]
        rw [tokensAt_of_le hl, htokens] at hsize ⊢
        simp only [List.length_cons, List.length_append, List.length_nil] at hsize
        simp only [List.cons_append, List.append_assoc, List.nil_append]
        exact stepWith_call he.1 (arguments_further hstep he.2 (by omega) rest)
    | _ => grind [Expr.level, Arithmetic.level_eq]
  · rw [tokensAt_of_lt (Nat.lt_of_not_le hl)] at hsize ⊢
    rw [List.length_cons, List.length_append, ← tokensAt_zero] at hsize
    have hinner := hstep.expression.printed he (by omega) (.rightParen :: rest)
      (stops_cons.2 le_rfl)
    have hbegins := begins_tokensAt label e 0 (by decide) (.rightParen :: rest)
    rw [List.cons_append, List.append_assoc, ← tokensAt_zero]
    exact (stepWith_paren hbegins).trans (by rw [hinner]; rfl)

theorem head?_bracketed (label : String → String) {rest : List Token} (h : Stops 10 rest) :
    ∀ es : List Expr, (bracketed label es ++ rest).head? ≠ some .leftParen
  | [], hparen => absurd (h _ hparen) (by decide)
  | _ :: _, hparen => by cases hparen

theorem stepWith_axis (axis : Axis) (ts : List Token) :
    stepWith ns step (.name axis.name :: .colonColon :: ts) =
      nodeTest ns ts >>= fun (test, rest) => finishStep step axis test rest := by
  simp only [stepWith, Axis.ofName?_name]

theorem Reads.stepWith (hstep : Reads ns label 10 step size) :
    Reads ns label 10 (stepWith ns step) (size + 1) := by
  refine ⟨fun {e} he hsize rest hrest => ?_⟩
  by_cases hl : e.level = 10
  · rw [tokensAt_of_le hl.ge] at hsize ⊢
    cases e with
    | step axis test predicates =>
      rw [tokens, List.length_cons, List.length_cons, List.length_append] at hsize
      rw [tokens, List.cons_append, List.cons_append, List.append_assoc, stepWith_axis,
        nodeTest_tokens he.1 (head?_bracketed label hrest predicates), ok_bind]
      exact finishStep_bracketed hstep he.2 (by omega) hrest axis test
    | filter primary predicates =>
      have htokens : (filter primary predicates).tokens label =
        primary.tokensAt label 11 ++ bracketed label predicates := rfl
      rw [htokens, List.length_append] at hsize
      rw [htokens, List.append_assoc, stepWith_tokensAt hstep he.2.1 (by omega),
        finishFilter_bracketed hstep he.2.2 (by omega) hrest,
        if_neg (by simpa using he.1)]
    | sequence parts =>
      obtain rfl : parts = [] := by grind [Expr.level]
      exact finishFilter_nil hrest (.sequence [])
    | _ => grind [Expr.level, Arithmetic.level_eq]
  · rw [← tokensAt_succ hl] at hsize ⊢
    rw [stepWith_tokensAt hstep he hsize]
    exact finishFilter_nil hrest e

theorem reads_stepExpr : ∀ size : ℕ, Reads ns label 10 (stepExpr ns size) size
  | 0 => by
    refine ⟨fun {e} _ hsize _ _ => ?_⟩
    obtain ⟨t, ts, h, -, -⟩ := begins_tokensAt label e 10 (by decide) []
    rw [List.append_nil] at h
    rw [h] at hsize
    cases hsize
  | size + 1 => (reads_stepExpr size).stepWith

/-- **What is printed is read again**: the tokens of an expression stand for it, and for all of
it. -/
theorem Expr.parse_tokens {e : Expr} (h : e.Printable ns label) :
    Expr.parse ns (e.tokens label) = .ok (e, []) := by
  have hread := (reads_stepExpr ((e.tokens label).length + 1)).expression.printed h
    (by rw [tokensAt_zero]; omega) [] (stops_nil 0)
  rwa [tokensAt_zero, List.append_nil] at hread

/-- A path with a predicate, and a list with another one. -/
theorem Expr.parse_tokens_path :
    Expr.parse ⟨[("p", "u")]⟩
        [.slash, .name "child", .colonColon, .name "p:x",
          .leftBracket, .name "position", .leftParen, .rightParen, .rightBracket, .or,
          .leftParen, .var "v", .comma, .literal "w", .rightParen,
          .leftBracket, .literal "1", .rightBracket] =
      .ok (.or (.slash .root (.step .child (.name (some "u") "x") [.call .position []]))
        (.filter (.sequence [.var "v", .literal "w"]) [.literal "1"]), []) := by
  have h : Expr.Printable ⟨[("p", "u")]⟩ (fun _ => "p")
      (.or (.slash .root (.step .child (.name (some "u") "x") [.call .position []]))
        (.filter (.sequence [.var "v", .literal "w"]) [.literal "1"])) :=
    ⟨⟨trivial, ⟨by decide, rfl, by decide⟩, ⟨rfl, trivial⟩, trivial⟩, by simp,
      ⟨by decide, trivial, trivial, trivial⟩, trivial, trivial⟩
  have hread := Expr.parse_tokens h
  exact hread

/-- **A label with a colon names no namespace** in front of a local name. -/
theorem Expr.parse_tokens_colon :
    (∀ l, Namespaces.lookup? ⟨[("a:b", "u")]⟩ l = some "u" ↔ l = "a:b") ∧
      Expr.parse ⟨[("a:b", "u")]⟩
          (Expr.tokens (fun _ => "a:b") (.step .child (.name (some "u") "x") [])) =
        .error (.unknownLabel "a") := by
  refine ⟨fun l => ?_, rfl⟩
  rw [Namespaces.lookup?, List.lookup_cons]
  cases hl : l == "a:b" with
  | true => simpa using hl
  | false => simpa using hl

end XmlConformance.Path
