import XmlConformance.Proofs.Outcome
import XmlConformance.Path.Expression

/-!
# Proofs/Path/Grammar — what the grammar keeps

Every level of the grammar puts its expressions together from those of the next tighter level. So a
property that passes from the parts of an expression to the whole of it (`Kept`) passes through all
levels (`Keeps`), and holds of every expression that is read from a text (`Kept.ofText`) and of the
pattern that it describes (`Kept.anchored`).
-/

namespace XmlConformance.Path

namespace Syntax

/-! ## Binary operators -/

/-- What the operators between two operands make of them. -/
inductive Joining : (Expr → Expr → Expr) → Prop
  | or : Joining .or
  | and : Joining .and
  | general (relation : Comparison) : Joining (.general relation)
  | value (relation : Comparison) : Joining (.value relation)
  | arithmetic (operator : Arithmetic) : Joining (.arithmetic operator)
  | union : Joining .union

/-- Operators whose operands are all that they hold. -/
def Operators (join? : Token → Option (Expr → Expr → Expr)) : Prop :=
  ∀ t join, join? t = some join → Joining join

theorem operators_orJoin? : Operators orJoin? := by
  intro t join h
  unfold orJoin? at h
  split at h <;> cases h
  exact .or

theorem operators_andJoin? : Operators andJoin? := by
  intro t join h
  unfold andJoin? at h
  split at h <;> cases h
  exact .and

theorem operators_comparisonJoin? : Operators comparisonJoin? := by
  intro t join h
  unfold comparisonJoin? at h
  split at h <;> cases h <;> first
    | exact .general _
    | exact .value _

theorem operators_additiveJoin? : Operators additiveJoin? := by
  intro t join h
  unfold additiveJoin? at h
  split at h <;> cases h <;> exact .arithmetic _

theorem operators_multiplicativeJoin? : Operators multiplicativeJoin? := by
  intro t join h
  unfold multiplicativeJoin? at h
  split at h <;> cases h <;> exact .arithmetic _

theorem operators_unionJoin? : Operators unionJoin? := by
  intro t join h
  unfold unionJoin? at h
  split at h <;> cases h
  exact .union

/-! ## The levels of the grammar -/

/-- **A property that passes from the parts of an expression to the whole of it**, where `T` is what
the tokens are known to have. -/
structure Kept (T : Token → Prop) (P : Expr → Prop) : Prop where
  literal : ∀ {s}, T (.literal s) → P (.literal s)
  number : ∀ x, P (.number x)
  var : ∀ name, P (.var name)
  root : P .root
  step : ∀ {axis test es}, (∀ e ∈ es, P e) → P (.step axis test es)
  slash : ∀ {a b}, P a → P b → P (.slash a b)
  filter : ∀ {e es}, P e → (∀ e ∈ es, P e) → P (.filter e es)
  sequence : ∀ {es}, (∀ e ∈ es, P e) → P (.sequence es)
  join : ∀ {join a b}, Joining join → P a → P b → P (join a b)
  negate : ∀ {e}, P e → P (.negate e)
  call : ∀ {f es}, f.arity.admits es.length = true → (∀ e ∈ es, P e) → P (.call f es)

/-- **A parser keeps a property**: out of tokens with `T` it makes something with the property, and
leaves tokens with `T`. -/
def Keeps {α : Type} (T : Token → Prop) (P : α → Prop) (p : Parse α) : Prop :=
  ∀ ts, (∀ t ∈ ts, T t) → ∀ a rest, p ts = .ok (a, rest) → P a ∧ ∀ t ∈ rest, T t

variable {T : Token → Prop} {P : Expr → Prop} {step operand : Parse Expr}
  {join? : Token → Option (Expr → Expr → Expr)}

/-- The property of a list all of whose expressions have one. -/
abbrev Each (P : Expr → Prop) (es : List Expr) : Prop :=
  ∀ e ∈ es, P e

theorem forall_of_expect {accepts : Token → Bool} {token : Token} {ts rest : List Token}
    (hts : ∀ t ∈ ts, T t) (h : expect accepts token ts = .ok rest) : ∀ t ∈ rest, T t := by
  unfold expect at h
  split at h
  · split at h
    · cases h
      exact (List.forall_mem_cons.1 hts).2
    · cases h
  · cases h

namespace Kept

theorem anyDepth (hP : Kept T P) : P Expr.anyDepth :=
  hP.step nofun

theorem allNodes (hP : Kept T P) : P Expr.allNodes :=
  hP.slash hP.root hP.anyDepth

/-- **What is kept is kept by patterns.** -/
theorem anchored (hP : Kept T P) {e : Expr} (h : ∀ {a b}, P (.union a b) → P a ∧ P b) :
    P e → P e.anchored := by
  fun_induction Expr.anchored e with
  | case1 left right ihl ihr => exact fun he => hP.join .union (ihl (h he).1) (ihr (h he).2)
  | case2 e _ _ => exact id
  | case3 e _ _ => exact hP.slash hP.allNodes

theorem keeps_chain (hP : Kept T P) (hoperand : Keeps T P operand) (hjoin : Operators join?) :
    ∀ (n : ℕ) (left : Expr), P left → Keeps T P (chain operand join? n left)
  | 0, left, hleft, ts, hts, a, rest, h => by
    cases h
    exact ⟨hleft, hts⟩
  | _ + 1, left, hleft, [], hts, a, rest, h => by
    cases h
    exact ⟨hleft, hts⟩
  | n + 1, left, hleft, t :: ts, hts, a, rest, h => by
    rw [chain] at h
    split at h
    · case h_1 join hj =>
      obtain ⟨⟨right, rest'⟩, hright, h⟩ := bind_eq_ok.1 h
      obtain ⟨hr, hrest⟩ := hoperand ts (List.forall_mem_cons.1 hts).2 right rest' hright
      have hjoined := hP.join (hjoin t join hj) hleft hr
      exact hP.keeps_chain hoperand hjoin n _ hjoined rest' hrest a rest h
    · cases h
      exact ⟨hleft, hts⟩

theorem keeps_leftGrouped (hP : Kept T P) (hjoin : Operators join?) (hoperand : Keeps T P operand) :
    Keeps T P (leftGrouped join? operand) := by
  intro ts hts e rest h
  obtain ⟨⟨first, rest'⟩, hfirst, h⟩ := bind_eq_ok.1 h
  obtain ⟨hf, hrest⟩ := hoperand ts hts first rest' hfirst
  exact hP.keeps_chain hoperand hjoin _ first hf rest' hrest e rest h

theorem keeps_moreSteps (hP : Kept T P) (hstep : Keeps T P step) :
    ∀ (n : ℕ) (path : Expr), P path → Keeps T P (moreSteps step n path) := by
  intro n path hpath ts hts e rest h
  fun_induction moreSteps step n path ts with
  | case1 n path ts ih =>
    obtain ⟨⟨next, rest'⟩, hnext, h⟩ := bind_eq_ok.1 h
    obtain ⟨hn, hrest⟩ := hstep ts (List.forall_mem_cons.1 hts).2 next rest' hnext
    exact ih next rest' (hP.slash hpath hn) hrest h
  | case2 n path ts ih =>
    obtain ⟨⟨next, rest'⟩, hnext, h⟩ := bind_eq_ok.1 h
    obtain ⟨hn, hrest⟩ := hstep ts (List.forall_mem_cons.1 hts).2 next rest' hnext
    exact ih next rest' (hP.slash (hP.slash hpath hP.anyDepth) hn) hrest h
  | case3 =>
    cases h
    exact ⟨hpath, hts⟩

theorem keeps_pathFrom (hP : Kept T P) (hstep : Keeps T P step) {base : Expr} (hbase : P base) :
    Keeps T P (pathFrom step base) := by
  intro ts hts e rest h
  obtain ⟨⟨first, rest'⟩, hfirst, h⟩ := bind_eq_ok.1 h
  obtain ⟨hf, hrest⟩ := hstep ts hts first rest' hfirst
  exact hP.keeps_moreSteps hstep _ _ (hP.slash hbase hf) rest' hrest e rest h

theorem keeps_path (hP : Kept T P) (hstep : Keeps T P step) : Keeps T P (path step) := by
  intro ts hts e rest h
  unfold path at h
  split at h
  · have htail := (List.forall_mem_cons.1 hts).2
    split at h
    · exact hP.keeps_pathFrom hstep hP.root _ htail e rest h
    · cases h
      exact ⟨hP.root, htail⟩
  · cases h
    exact ⟨hP.root, nofun⟩
  · exact hP.keeps_pathFrom hstep hP.allNodes _ (List.forall_mem_cons.1 hts).2 e rest h
  · obtain ⟨⟨first, rest'⟩, hfirst, h⟩ := bind_eq_ok.1 h
    obtain ⟨hf, hrest⟩ := hstep _ hts first rest' hfirst
    exact hP.keeps_moreSteps hstep _ first hf rest' hrest e rest h

theorem keeps_union (hP : Kept T P) (hstep : Keeps T P step) : Keeps T P (union step) :=
  hP.keeps_leftGrouped operators_unionJoin? (hP.keeps_path hstep)

theorem keeps_unary (hP : Kept T P) (hstep : Keeps T P step) : Keeps T P (unary step) := by
  intro ts hts e rest h
  fun_induction unary step ts generalizing e rest with
  | case1 ts ih =>
    obtain ⟨⟨operand, rest'⟩, hoperand, h⟩ := bind_eq_ok.1 h
    obtain ⟨ho, hrest⟩ := ih (List.forall_mem_cons.1 hts).2 operand rest' hoperand
    cases h
    exact ⟨hP.negate ho, hrest⟩
  | case2 ts ih => exact ih (List.forall_mem_cons.1 hts).2 e rest h
  | case3 ts => exact hP.keeps_union hstep ts hts e rest h

theorem keeps_multiplicative (hP : Kept T P) (hstep : Keeps T P step) :
    Keeps T P (multiplicative step) :=
  hP.keeps_leftGrouped operators_multiplicativeJoin? (hP.keeps_unary hstep)

theorem keeps_additive (hP : Kept T P) (hstep : Keeps T P step) : Keeps T P (additive step) :=
  hP.keeps_leftGrouped operators_additiveJoin? (hP.keeps_multiplicative hstep)

theorem keeps_comparison (hP : Kept T P) (hstep : Keeps T P step) :
    Keeps T P (comparison step) := by
  intro ts hts e rest h
  obtain ⟨⟨left, rest'⟩, hleft, h⟩ := bind_eq_ok.1 h
  have hadditive := hP.keeps_additive hstep
  obtain ⟨hl, hrest⟩ := hadditive ts hts left rest' hleft
  exact hP.keeps_chain hadditive operators_comparisonJoin? _ left hl rest' hrest e rest h

theorem keeps_disjunction (hP : Kept T P) (hstep : Keeps T P step) :
    Keeps T P (disjunction step) :=
  hP.keeps_leftGrouped operators_orJoin?
    (hP.keeps_leftGrouped operators_andJoin? (hP.keeps_comparison hstep))

theorem keeps_moreParts (hP : Kept T P) (hstep : Keeps T P step) (n : ℕ) :
    Keeps T (Each P) (moreParts step n) := by
  intro ts hts es rest h
  fun_induction moreParts step n ts generalizing es rest with
  | case1 n ts ih =>
    obtain ⟨⟨part, rest'⟩, hpart, h⟩ := bind_eq_ok.1 h
    obtain ⟨hp, hrest⟩ :=
      hP.keeps_disjunction hstep ts (List.forall_mem_cons.1 hts).2 part rest' hpart
    obtain ⟨⟨parts, rest''⟩, hparts, h⟩ := bind_eq_ok.1 h
    obtain ⟨hps, hrest'⟩ := ih rest' hrest parts rest'' hparts
    cases h
    exact ⟨List.forall_mem_cons.2 ⟨hp, hps⟩, hrest'⟩
  | case2 =>
    cases h
    exact ⟨nofun, hts⟩

theorem keeps_expression (hP : Kept T P) (hstep : Keeps T P step) :
    Keeps T P (expression step) := by
  intro ts hts e rest h
  obtain ⟨⟨first, rest'⟩, hfirst, h⟩ := bind_eq_ok.1 h
  obtain ⟨hf, hrest⟩ := hP.keeps_disjunction hstep ts hts first rest' hfirst
  obtain ⟨⟨parts, rest''⟩, hparts, h⟩ := bind_eq_ok.1 h
  obtain ⟨hps, hrest'⟩ := hP.keeps_moreParts hstep _ rest' hrest parts rest'' hparts
  cases h
  refine ⟨?_, hrest'⟩
  split
  · exact hf
  · exact hP.sequence (List.forall_mem_cons.2 ⟨hf, hps⟩)

end Kept

/-! ## Steps -/

theorem keeps_nodeTest (ns : Namespaces) : Keeps T (fun _ => True) (nodeTest ns) := by
  intro ts hts test rest h
  refine ⟨trivial, ?_⟩
  unfold nodeTest at h
  split at h
  · cases h
    exact (List.forall_mem_cons.1 hts).2
  · obtain ⟨uri, -, h⟩ := bind_eq_ok.1 h
    cases h
    exact (List.forall_mem_cons.1 hts).2
  · cases h
    exact (List.forall_mem_cons.1 hts).2
  · have htail := (List.forall_mem_cons.1 hts).2
    split at h
    · obtain ⟨rest', hclose, h⟩ := bind_eq_ok.1 h
      cases h
      unfold closeKindTest at hclose
      have htail := (List.forall_mem_cons.1 htail).2
      split at hclose
      · exact forall_of_expect (List.forall_mem_cons.1 htail).2 hclose
      · exact forall_of_expect htail hclose
    · obtain ⟨test', -, h⟩ := bind_eq_ok.1 h
      cases h
      exact htail
  · obtain ⟨test', -, h⟩ := bind_eq_ok.1 h
    cases h
    exact (List.forall_mem_cons.1 hts).2
  · cases h

namespace Kept

theorem keeps_predicates (hP : Kept T P) (hstep : Keeps T P step) (n : ℕ) :
    Keeps T (Each P) (predicates step n) := by
  intro ts hts es rest h
  fun_induction predicates step n ts generalizing es rest with
  | case1 n ts ih =>
    obtain ⟨⟨first, rest₁⟩, hfirst, h⟩ := bind_eq_ok.1 h
    obtain ⟨hf, hrest₁⟩ :=
      hP.keeps_expression hstep ts (List.forall_mem_cons.1 hts).2 first rest₁ hfirst
    obtain ⟨rest₂, hclose, h⟩ := bind_eq_ok.1 h
    obtain ⟨⟨more, rest₃⟩, hmore, h⟩ := bind_eq_ok.1 h
    obtain ⟨hm, hrest₃⟩ := ih rest₂ (forall_of_expect hrest₁ hclose) more rest₃ hmore
    cases h
    exact ⟨List.forall_mem_cons.2 ⟨hf, hm⟩, hrest₃⟩
  | case2 =>
    cases h
    exact ⟨nofun, hts⟩

theorem keeps_finishStep (hP : Kept T P) (hstep : Keeps T P step) (axis : Axis) (test : NodeTest) :
    Keeps T P (finishStep step axis test) := by
  intro ts hts e rest h
  obtain ⟨⟨conditions, rest'⟩, hconditions, h⟩ := bind_eq_ok.1 h
  obtain ⟨hc, hrest⟩ := hP.keeps_predicates hstep _ ts hts conditions rest' hconditions
  cases h
  exact ⟨hP.step hc, hrest⟩

theorem keeps_finishFilter (hP : Kept T P) (hstep : Keeps T P step) {primary : Expr}
    (hprimary : P primary) : Keeps T P (finishFilter step primary) := by
  intro ts hts e rest h
  obtain ⟨⟨conditions, rest'⟩, hconditions, h⟩ := bind_eq_ok.1 h
  obtain ⟨hc, hrest⟩ := hP.keeps_predicates hstep _ ts hts conditions rest' hconditions
  cases h
  refine ⟨?_, hrest⟩
  split
  · exact hprimary
  · exact hP.filter hprimary hc

theorem keeps_moreArguments (hP : Kept T P) (hstep : Keeps T P step) (n : ℕ) :
    Keeps T (Each P) (moreArguments step n) := by
  intro ts hts es rest h
  fun_induction moreArguments step n ts generalizing es rest with
  | case1 =>
    cases h
    exact ⟨nofun, (List.forall_mem_cons.1 hts).2⟩
  | case2 n ts ih =>
    obtain ⟨⟨first, rest'⟩, hfirst, h⟩ := bind_eq_ok.1 h
    obtain ⟨hf, hrest⟩ :=
      hP.keeps_disjunction hstep ts (List.forall_mem_cons.1 hts).2 first rest' hfirst
    obtain ⟨⟨more, rest''⟩, hmore, h⟩ := bind_eq_ok.1 h
    obtain ⟨hm, hrest'⟩ := ih rest' hrest more rest'' hmore
    cases h
    exact ⟨List.forall_mem_cons.2 ⟨hf, hm⟩, hrest'⟩
  | case3 => cases h

theorem keeps_arguments (hP : Kept T P) (hstep : Keeps T P step) :
    Keeps T (Each P) (arguments step) := by
  intro ts hts es rest h
  unfold arguments at h
  split at h
  · cases h
    exact ⟨nofun, (List.forall_mem_cons.1 hts).2⟩
  · obtain ⟨⟨first, rest'⟩, hfirst, h⟩ := bind_eq_ok.1 h
    obtain ⟨hf, hrest⟩ := hP.keeps_disjunction hstep _ hts first rest' hfirst
    obtain ⟨⟨more, rest''⟩, hmore, h⟩ := bind_eq_ok.1 h
    obtain ⟨hm, hrest'⟩ := hP.keeps_moreArguments hstep _ rest' hrest more rest'' hmore
    cases h
    exact ⟨List.forall_mem_cons.2 ⟨hf, hm⟩, hrest'⟩

theorem keeps_call (hP : Kept T P) (hstep : Keeps T P step) (name : String) :
    Keeps T P (Syntax.call step name) := by
  intro ts hts e rest h
  unfold Syntax.call at h
  split at h
  · cases h
  · obtain ⟨⟨args, rest'⟩, hargs, h⟩ := bind_eq_ok.1 h
    obtain ⟨ha, hrest⟩ := hP.keeps_arguments hstep ts hts args rest' hargs
    dsimp only at h
    split at h
    · case isTrue hadmits =>
      cases h
      exact ⟨hP.call hadmits ha, hrest⟩
    · cases h

/-- A node test and the predicates behind it. -/
theorem keeps_testedStep (hP : Kept T P) (hstep : Keeps T P step) (ns : Namespaces) (axis : Axis) :
    Keeps T P fun ts => nodeTest ns ts >>= fun r => finishStep step axis r.1 r.2 := by
  intro ts hts e rest h
  obtain ⟨⟨test, rest'⟩, htest, h⟩ := bind_eq_ok.1 h
  exact hP.keeps_finishStep hstep axis test rest'
    (keeps_nodeTest ns ts hts test rest' htest).2 e rest h

theorem keeps_stepWith (hP : Kept T P) (hstep : Keeps T P step) (ns : Namespaces) :
    Keeps T P (stepWith ns step) := by
  intro ts hts e rest h
  unfold stepWith at h
  split at h
  · cases h
  · exact hP.keeps_finishStep hstep _ _ _ (List.forall_mem_cons.1 hts).2 e rest h
  · exact hP.keeps_finishStep hstep _ _ _ (List.forall_mem_cons.1 hts).2 e rest h
  · exact hP.keeps_testedStep hstep ns _ _ (List.forall_mem_cons.1 hts).2 e rest h
  · split at h
    · cases h
    · exact hP.keeps_testedStep hstep ns _ _
        (List.forall_mem_cons.1 (List.forall_mem_cons.1 hts).2).2 e rest h
  · split at h
    · exact hP.keeps_testedStep hstep ns _ _ hts e rest h
    · obtain ⟨⟨primary, rest'⟩, hprimary, h⟩ := bind_eq_ok.1 h
      obtain ⟨hp, hrest⟩ := hP.keeps_call hstep _ _
        (List.forall_mem_cons.1 (List.forall_mem_cons.1 hts).2).2 primary rest' hprimary
      exact hP.keeps_finishFilter hstep hp rest' hrest e rest h
  · obtain ⟨htext, htail⟩ := List.forall_mem_cons.1 hts
    exact hP.keeps_finishFilter hstep (hP.literal htext) _ htail e rest h
  · exact hP.keeps_finishFilter hstep (hP.number _) _ (List.forall_mem_cons.1 hts).2 e rest h
  · exact hP.keeps_finishFilter hstep (hP.var _) _ (List.forall_mem_cons.1 hts).2 e rest h
  · exact hP.keeps_finishFilter hstep (hP.sequence (List.forall_mem_nil P)) _
      (List.forall_mem_cons.1 (List.forall_mem_cons.1 hts).2).2 e rest h
  · obtain ⟨⟨inner, rest₁⟩, hinner, h⟩ := bind_eq_ok.1 h
    obtain ⟨hi, hrest₁⟩ :=
      hP.keeps_expression hstep _ (List.forall_mem_cons.1 hts).2 inner rest₁ hinner
    obtain ⟨rest₂, hclose, h⟩ := bind_eq_ok.1 h
    exact hP.keeps_finishFilter hstep hi rest₂ (forall_of_expect hrest₁ hclose) e rest h
  · split at h
    all_goals first
      | exact hP.keeps_testedStep hstep ns _ _ hts e rest h
      | cases h

theorem keeps_stepExpr (hP : Kept T P) (ns : Namespaces) :
    ∀ depth : ℕ, Keeps T P (stepExpr ns depth)
  | 0 => fun _ _ _ _ h => by cases h
  | depth + 1 => hP.keeps_stepWith (hP.keeps_stepExpr ns depth) ns

end Kept

end Syntax

/-! ## Whole texts -/

/-- **A text is read as an expression** if its tokens are, all of them. -/
theorem Expr.ofText_eq_ok {ns : Namespaces} {text : String} {e : Expr} :
    Expr.ofText ns text = .ok e ↔
      ∃ ts, Token.ofText text = .ok ts ∧ Expr.parse ns ts = .ok (e, []) := by
  unfold Expr.ofText
  cases Token.ofText text with
  | error cause => simp
  | ok ts =>
    simp only [ok_bind, Except.ok.injEq, exists_eq_left']
    constructor
    · intro h
      obtain ⟨⟨e', rest⟩, hparse, h⟩ := bind_eq_ok.1 h
      cases rest with
      | nil =>
        cases h
        exact hparse
      | cons t rest => cases h
    · intro h
      rw [h]
      rfl

/-- **What is kept holds of the expression that a text is read as.** -/
theorem Syntax.Kept.ofText {T : Token → Prop} {P : Expr → Prop} (hP : Kept T P) {ns : Namespaces}
    {text : String} {e : Expr} (hT : ∀ ts, Token.ofText text = .ok ts → ∀ t ∈ ts, T t)
    (h : Expr.ofText ns text = .ok e) : P e := by
  obtain ⟨ts, hts, hparse⟩ := Expr.ofText_eq_ok.1 h
  exact (hP.keeps_expression (hP.keeps_stepExpr ns _) ts (hT ts hts) e [] hparse).1

/-- **An expression is compiled** with the text that it is read from. -/
theorem Expression.compile_eq_ok {ns : Namespaces} {text : String} {e : Expression} :
    Expression.compile ns text = .ok e ↔ e.source = text ∧ Expr.ofText ns text = .ok e.body := by
  obtain ⟨source, body⟩ := e
  unfold Expression.compile
  split
  · case h_1 body' hbody =>
    rw [Except.ok.injEq, Expression.mk.injEq, hbody, Except.ok.injEq, eq_comm (a := source)]
  · case h_2 hbody => simp [hbody]

end XmlConformance.Path
