import Mathlib.Data.List.Forall2
import XmlConformance.Path.Eval
import XmlConformance.Proofs.Outcome

/-!
# Proofs/Path/Congruence — what the value of an expression depends on

An expression is evaluated by going on with the results of other evaluations, and by nothing else.
So any relation of evaluations that is kept where they go on with each other's results
(`Compatible`) holds between the values of an expression in two settings, if it holds between their
keys, and if the variables that the expression reads have the same values (`Compatible.eval`). Calls
that lack an argument which their function needs are the exception: the relation has to hold where
such an argument is asked for (`Lenient`), or there has to be no such call (`Expr.Admitted`).

Equality is such a relation: the value of an expression depends only on the variables that it reads,
and the index of a key only on those that the definitions of the key read (`indexOf_congr`).
-/

namespace XmlConformance.Path

open Xml

/-! ## Variables -/

mutual

/-- **The variables that an expression reads.** -/
def Expr.reads : Expr → List String
  | .literal _ | .number _ | .root => []
  | .var name => [name]
  | .step _ _ predicates => Expr.readsOfAll predicates
  | .slash base next => base.reads ++ next.reads
  | .filter primary predicates => primary.reads ++ Expr.readsOfAll predicates
  | .sequence parts => Expr.readsOfAll parts
  | .union left right | .or left right | .and left right => left.reads ++ right.reads
  | .general _ left right | .value _ left right | .arithmetic _ left right =>
    left.reads ++ right.reads
  | .negate operand => operand.reads
  | .call _ arguments => Expr.readsOfAll arguments

/-- The variables that some expressions read. -/
def Expr.readsOfAll : List Expr → List String
  | [] => []
  | e :: es => e.reads ++ Expr.readsOfAll es

end

/-- Variables have the same values under some names. -/
def SameOn (names : List String) (vars vars' : Variables) : Prop :=
  ∀ name ∈ names, vars.lookup name = vars'.lookup name

section SameOn

variable {names names' : List String} {vars vars' vars'' : Variables}

theorem sameOn_append :
    SameOn (names ++ names') vars vars' ↔ SameOn names vars vars' ∧ SameOn names' vars vars' :=
  List.forall_mem_append

theorem SameOn.refl (names : List String) (vars : Variables) : SameOn names vars vars :=
  fun _ _ => rfl

theorem SameOn.trans (h : SameOn names vars vars') (h' : SameOn names vars' vars'') :
    SameOn names vars vars'' :=
  fun name hname => (h name hname).trans (h' name hname)

/-- A variable with another name changes nothing. -/
theorem sameOn_cons {other : String} (h : other ∉ names) (value : Sequence) (vars : Variables) :
    SameOn names ((other, value) :: vars) vars := by
  intro name hname
  have hne : name ≠ other := fun heq => h (heq ▸ hname)
  rw [List.lookup_cons, beq_false_of_ne hne]

end SameOn

/-! ## Arguments -/

mutual

/-- **Every call in an expression has a number of arguments that its function takes.** -/
def Expr.Admitted : Expr → Prop
  | .literal _ | .number _ | .var _ | .root => True
  | .step _ _ predicates => Expr.AllAdmitted predicates
  | .slash base next => base.Admitted ∧ next.Admitted
  | .filter primary predicates => primary.Admitted ∧ Expr.AllAdmitted predicates
  | .sequence parts => Expr.AllAdmitted parts
  | .union left right | .or left right | .and left right => left.Admitted ∧ right.Admitted
  | .general _ left right | .value _ left right | .arithmetic _ left right =>
    left.Admitted ∧ right.Admitted
  | .negate operand => operand.Admitted
  | .call f arguments => f.arity.admits arguments.length = true ∧ Expr.AllAdmitted arguments

/-- Every call in some expressions has a number of arguments that its function takes. -/
def Expr.AllAdmitted : List Expr → Prop
  | [] => True
  | e :: es => e.Admitted ∧ Expr.AllAdmitted es

end

theorem Arity.least_le {a : Arity} {n : ℕ} (h : a.admits n = true) : a.least ≤ n :=
  of_decide_eq_true (Bool.and_eq_true_iff.1 h).1

/-- **A result is not that of asking for a missing argument.** -/
def InBounds {α : Type} (x : Except EvalError α) : Prop :=
  ∀ count i, x ≠ .error (.missingArgument count i)

theorem inBounds_ok {α : Type} (a : α) : InBounds (.ok a) :=
  nofun

theorem inBounds_effectiveBoolean (items : Sequence) : InBounds (effectiveBoolean items) := by
  unfold effectiveBoolean
  split
  · exact nofun
  · exact nofun
  · split <;> exact nofun

theorem inBounds_atMostOne (items : Sequence) : InBounds (atMostOne items) := by
  unfold atMostOne
  split <;> exact nofun

theorem inBounds_some? (relation : Comparison) (root : Node) (a b : Sequence) :
    InBounds (relation.some? root a b) := by
  unfold Comparison.some?
  split
  · intro count i h
    obtain ha | ⟨x, -, h⟩ := bind_eq_error.1 h
    · exact inBounds_effectiveBoolean a count i ha
    · obtain hb | ⟨y, -, h⟩ := bind_eq_error.1 h
      · exact inBounds_effectiveBoolean b count i hb
      · cases h
  · exact nofun

theorem inBounds_matchesPattern (text pattern flags : String) :
    InBounds (Library.matchesPattern text pattern flags) := by
  unfold Library.matchesPattern
  split <;> exact nofun

/-! ## Going on with results -/

section Bind

variable {α β : Type} {x : Eval α} {f : α → Eval β} {indexes between rest : Indexes} {a : α} {b : β}

/-- **An evaluation goes on with the result of another.** -/
theorem Eval.bind_of_ok (h : x indexes = .ok (a, between)) : (x >>= f) indexes = f a between := by
  change Eval.bind x f indexes = _
  rw [Eval.bind, h]

/-- An evaluation that fails is not gone on with. -/
theorem Eval.bind_of_error {e : EvalError} (h : x indexes = .error e) :
    (x >>= f) indexes = .error e := by
  change Eval.bind x f indexes = _
  rw [Eval.bind, h]

theorem Eval.bind_eq_ok : (x >>= f) indexes = .ok (b, rest) ↔
    ∃ a between, x indexes = .ok (a, between) ∧ f a between = .ok (b, rest) := by
  cases hx : x indexes with
  | ok r =>
    rw [bind_of_ok hx]
    exact ⟨fun h => ⟨r.1, r.2, rfl, h⟩, fun ⟨_, _, hr, h⟩ => Except.ok.inj hr ▸ h⟩
  | error e =>
    rw [bind_of_error hx]
    exact ⟨nofun, nofun⟩

end Bind

/-! ## Relations of evaluations -/

/-- **A relation of evaluations** that is kept where evaluations go on with each other's results. -/
structure Compatible (R : (α : Type) → Eval α → Eval α → Prop) : Prop where
  lift : ∀ {α : Type} {x : Except EvalError α}, InBounds x → R α (Eval.lift x) (Eval.lift x)
  bind : ∀ {α β : Type} {x y : Eval α} {f g : α → Eval β}, R α x y → (∀ a, R β (f a) (g a)) →
    R β (x >>= f) (y >>= g)

/-- A relation that holds where a missing argument is asked for. -/
def Lenient (R : (α : Type) → Eval α → Eval α → Prop) : Prop :=
  ∀ count i,
    R Sequence (Eval.fail (.missingArgument count i)) (Eval.fail (.missingArgument count i))

namespace Compatible

open Setting

variable {R : (α : Type) → Eval α → Eval α → Prop} {α : Type}

theorem pure (hR : Compatible R) (a : α) : R α (Eval.pure a) (Eval.pure a) :=
  hR.lift (inBounds_ok a)

theorem fail (hR : Compatible R) {e : EvalError} (h : InBounds (.error e : Except EvalError α)) :
    R α (Eval.fail e) (Eval.fail e) :=
  hR.lift h

theorem joined (hR : Compatible R) {f g : Item → ℕ → Eval Sequence}
    (h : ∀ item i, R Sequence (f item i) (g item i)) :
    ∀ (items : Sequence) (i : ℕ), R Sequence (Eval.joined f items i) (Eval.joined g items i)
  | [], _ => hR.pure []
  | item :: rest, i =>
    hR.bind (h item i) fun _ => hR.bind (hR.joined h rest (i + 1)) fun _ => hR.pure _

/-! ## Predicates -/

/-- Predicates are related at every focus. -/
def Predicates (R : (α : Type) → Eval α → Eval α → Prop) (p q : Focus → Eval Sequence) : Prop :=
  ∀ focus, R Sequence (p focus) (q focus)

theorem keep (hR : Compatible R) {p q : Focus → Eval Sequence} (h : Predicates R p q)
    (focus : Focus) (size : ℕ) : ∀ (items : Sequence) (i : ℕ),
      R Sequence (Setting.keep p focus size items i) (Setting.keep q focus size items i)
  | [], _ => hR.pure []
  | item :: rest, i => by
    have htail (kept : Bool) : R Sequence
        (Setting.keep p focus size rest (i + 1) >>= fun more =>
          Eval.pure (if kept then item :: more else more))
        (Setting.keep q focus size rest (i + 1) >>= fun more =>
          Eval.pure (if kept then item :: more else more)) :=
      hR.bind (hR.keep h focus size rest (i + 1)) fun _ => hR.pure _
    refine hR.bind (h _) fun result => ?_
    dsimp only
    split
    · exact hR.bind (hR.pure _) htail
    · exact hR.bind (hR.lift (inBounds_effectiveBoolean _)) htail

theorem keepAll (hR : Compatible R) (focus : Focus) {ps qs : List (Focus → Eval Sequence)}
    (h : List.Forall₂ (Predicates R) ps qs) (items : Sequence) :
    R Sequence (Setting.keepAll focus ps items) (Setting.keepAll focus qs items) := by
  induction h generalizing items with
  | nil => exact hR.pure items
  | cons hpq _ ih => exact hR.bind (hR.keep hpq focus _ items 1) ih

/-! ## Calls -/

section Calls

variable {s s' : Setting} {focus : Focus} {args args' : List (Eval Sequence)}

/-- An argument is missing on both sides, or there on both. -/
theorem arg_cases (h : List.Forall₂ (R Sequence) args args') (i : ℕ) :
    (args[i]? = none ∧ args'[i]? = none) ∨
      ∃ x y, args[i]? = some x ∧ args'[i]? = some y ∧ R Sequence x y := by
  induction h generalizing i with
  | nil => exact .inl ⟨rfl, rfl⟩
  | cons hxy _ ih =>
    cases i with
    | zero => exact .inr ⟨_, _, rfl, rfl, hxy⟩
    | succ i => exact ih i

/-- An argument is there, unless it may be missing. -/
theorem argument (h : List.Forall₂ (R Sequence) args args') {i : ℕ}
    (hi : Lenient R ∨ i < args.length) :
    R Sequence (Setting.argument args i) (Setting.argument args' i) := by
  unfold Setting.argument
  obtain ⟨hx, hy⟩ | ⟨x, y, hx, hy, hxy⟩ := arg_cases h i <;> rw [hx, hy]
  · obtain hlenient | hlt := hi
    · rw [h.length_eq]
      exact hlenient _ i
    · exact absurd (List.getElem?_eq_none_iff.1 hx) (Nat.not_le.2 hlt)
  · exact hxy

theorem stringOr (hR : Compatible R) (hroot : s.root = s'.root)
    (h : List.Forall₂ (R Sequence) args args') (i : ℕ) :
    R String (s.stringOr focus args[i]?) (s'.stringOr focus args'[i]?) := by
  obtain ⟨hx, hy⟩ | ⟨x, y, hx, hy, hxy⟩ := arg_cases h i <;>
    rw [hx, hy, Setting.stringOr, Setting.stringOr, hroot]
  · exact hR.pure _
  · exact hR.bind hxy fun _ => hR.pure _

theorem itemOr (hR : Compatible R) (h : List.Forall₂ (R Sequence) args args') (i : ℕ) :
    R (Option Item) (Setting.itemOr focus args[i]?) (Setting.itemOr focus args'[i]?) := by
  obtain ⟨hx, hy⟩ | ⟨x, y, hx, hy, hxy⟩ := arg_cases h i <;> rw [hx, hy]
  · exact hR.pure _
  · exact hR.bind hxy fun _ => hR.pure _

theorem concatAll (hR : Compatible R) (hroot : s.root = s'.root)
    (h : List.Forall₂ (R Sequence) args args') :
    R String (s.concatAll args) (s'.concatAll args') := by
  induction h with
  | nil => exact hR.pure ""
  | cons hxy _ ih =>
    rw [Setting.concatAll, Setting.concatAll, hroot]
    exact hR.bind hxy fun _ => hR.bind ih fun _ => hR.pure _

theorem keyed_eq (hroot : s.root = s'.root) : s.keyed = s'.keyed := by
  funext index values top
  unfold Setting.keyed
  rw [hroot]

/-- **Calls** are related if their arguments and the keys are, and if no argument that the function
needs is missing. -/
theorem call (hR : Compatible R) (hroot : s.root = s'.root)
    (hindex : ∀ name, R Index (s.index name) (s'.index name)) (focus : Focus) (f : CoreFunction)
    (hargs : Lenient R ∨ f.arity.admits args.length = true)
    (h : List.Forall₂ (R Sequence) args args') :
    R Sequence (s.call focus f args) (s'.call focus f args') := by
  -- The arguments that are asked for without a look are among the least that the function takes.
  have harg (i : ℕ) (hi : i < f.arity.least) :
      R Sequence (Setting.argument args i) (Setting.argument args' i) :=
    argument h (hargs.imp_right fun hadmits => Nat.lt_of_lt_of_le hi (Arity.least_le hadmits))
  have hstr : ∀ i : ℕ, R String (s.stringOr focus args[i]?) (s'.stringOr focus args'[i]?) :=
    hR.stringOr hroot h
  unfold Setting.call
  rw [hroot, keyed_eq hroot]
  cases f
  case count | empty | «exists» | sum | distinctValues =>
    exact hR.bind (harg 0 (by decide)) fun _ => hR.pure _
  case not | boolean =>
    exact hR.bind (harg 0 (by decide)) fun _ =>
      hR.bind (hR.lift (inBounds_effectiveBoolean _)) fun _ => hR.pure _
  case true | false | position | last | current => exact hR.pure _
  case string | stringLength | normalizeSpace | lowerCase | upperCase =>
    exact hR.bind (hstr 0) fun _ => hR.pure _
  case concat => exact hR.bind (hR.concatAll hroot h) fun _ => hR.pure _
  case contains | startsWith | endsWith | substringBefore | substringAfter =>
    exact hR.bind (hstr 0) fun _ => hR.bind (hstr 1) fun _ => hR.pure _
  case translate =>
    exact hR.bind (hstr 0) fun _ => hR.bind (hstr 1) fun _ => hR.bind (hstr 2) fun _ => hR.pure _
  case name | localName | namespaceUri => exact hR.bind (hR.itemOr h 0) fun _ => hR.pure _
  case number =>
    obtain ⟨hx, hy⟩ | ⟨x, y, hx, hy, hxy⟩ := arg_cases h 0 <;> rw [hx, hy]
    · exact hR.pure _
    · exact hR.bind hxy fun _ => hR.pure _
  case substring =>
    refine hR.bind (hstr 0) fun _ => hR.bind (harg 1 (by decide)) fun _ => ?_
    obtain ⟨hx, hy⟩ | ⟨x, y, hx, hy, hxy⟩ := arg_cases h 2 <;> rw [hx, hy]
    · exact hR.pure _
    · exact hR.bind hxy fun _ => hR.pure _
  case «matches» =>
    have htail (value pattern flags : String) : R Sequence
        (Eval.lift (Library.matchesPattern value pattern flags) >>= fun b => Eval.pure (truth b))
        (Eval.lift (Library.matchesPattern value pattern flags) >>= fun b => Eval.pure (truth b)) :=
      hR.bind (hR.lift (inBounds_matchesPattern _ _ _)) fun _ => hR.pure _
    refine hR.bind (hstr 0) fun value => hR.bind (hstr 1) fun pattern => ?_
    obtain ⟨hx, hy⟩ | ⟨x, y, hx, hy, hxy⟩ := arg_cases h 2 <;> rw [hx, hy]
    · exact hR.bind (hR.pure _) (htail value pattern)
    · exact hR.bind hxy fun _ => hR.bind (hR.pure _) (htail value pattern)
  case stringJoin =>
    have htail (separator : String) : R Sequence
        (Setting.argument args 0 >>= fun items => Eval.pure
          (text (separator.intercalate (items.map (·.stringValue s'.root)))))
        (Setting.argument args' 0 >>= fun items => Eval.pure
          (text (separator.intercalate (items.map (·.stringValue s'.root))))) :=
      hR.bind (harg 0 (by decide)) fun _ => hR.pure _
    obtain ⟨hx, hy⟩ | ⟨x, y, hx, hy, hxy⟩ := arg_cases h 1 <;> rw [hx, hy]
    · exact hR.bind (hR.pure _) htail
    · exact hR.bind hxy fun _ => hR.bind (hR.pure _) htail
  case key =>
    refine hR.bind (hstr 0) fun name => hR.bind (hindex name) fun index => ?_
    obtain ⟨hx, hy⟩ | ⟨x, y, hx, hy, hxy⟩ := arg_cases h 2 <;> rw [hx, hy]
    · exact hR.bind (harg 1 (by decide)) fun _ => hR.pure _
    · refine hR.bind hxy fun tops => ?_
      dsimp only
      split
      · exact hR.pure _
      · split
        · exact hR.bind (harg 1 (by decide)) fun _ => hR.pure _
        · exact hR.fail nofun

end Calls

/-! ## Expressions -/

section Expressions

variable {s s' : Setting}

/-- Conditions are evaluated to a truth value. -/
theorem condition (hR : Compatible R) {x y : Eval Sequence} {f g : Bool → Eval Sequence}
    (h : R Sequence x y) (hfg : ∀ b, R Sequence (f b) (g b)) :
    R Sequence (x >>= fun items => Eval.lift (effectiveBoolean items) >>= f)
      (y >>= fun items => Eval.lift (effectiveBoolean items) >>= g) :=
  hR.bind h fun _ => hR.bind (hR.lift (inBounds_effectiveBoolean _)) hfg

/-- Operands are single items, or missing. -/
theorem operand (hR : Compatible R) {x y : Eval Sequence} {f g : Option Item → Eval Sequence}
    (h : R Sequence x y) (hfg : ∀ i, R Sequence (f i) (g i)) :
    R Sequence (x >>= fun items => Eval.lift (atMostOne items) >>= f)
      (y >>= fun items => Eval.lift (atMostOne items) >>= g) :=
  hR.bind h fun _ => hR.bind (hR.lift (inBounds_atMostOne _)) hfg

theorem rootFrom (hR : Compatible R) (item : Item) :
    R Sequence (Setting.rootFrom item) (Setting.rootFrom item) := by
  unfold Setting.rootFrom
  split
  · exact hR.pure _
  · exact hR.pure _
  · exact hR.fail nofun

theorem length_argumentsOf (s : Setting) (focus : Focus) :
    ∀ es : List Expr, (s.argumentsOf focus es).length = es.length
  | [] => rfl
  | _ :: es => congrArg Nat.succ (length_argumentsOf s focus es)

/-- **Two settings that suit each other** for an expression, or for several: their keys are related,
and the variables that are read have the same values. No argument is missing that may not be. -/
structure Suits (R : (α : Type) → Eval α → Eval α → Prop) (s s' : Setting) (admitted : Prop)
    (reads : List String) : Prop where
  root : s.root = s'.root
  index : ∀ name, R Index (s.index name) (s'.index name)
  calls : Lenient R ∨ admitted
  vars : SameOn reads s.vars s'.vars

/-- Settings that suit each other for two expressions do so for each of them. -/
theorem Suits.parts {p q : Prop} {names names' : List String}
    (h : Suits R s s' (p ∧ q) (names ++ names')) : Suits R s s' p names ∧ Suits R s s' q names' :=
  ⟨{ h with calls := h.calls.imp_right And.left, vars := (sameOn_append.1 h.vars).1 },
    { h with calls := h.calls.imp_right And.right, vars := (sameOn_append.1 h.vars).2 }⟩

mutual

/-- **The values of an expression are related** in two settings in which keys are, and in which the
variables that it reads have the same values, if no argument is missing in it that may not be. -/
theorem eval (hR : Compatible R) : ∀ (e : Expr) (focus : Focus), Suits R s s' e.Admitted e.reads →
    R Sequence (s.eval focus e) (s'.eval focus e)
  | .literal t, focus, _ => by
    unfold Setting.eval
    exact hR.pure _
  | .number x, focus, _ => by
    unfold Setting.eval
    exact hR.pure _
  | .var name, focus, h => by
    unfold Setting.eval
    rw [h.vars name List.mem_cons_self]
    split
    · exact hR.pure _
    · exact hR.fail nofun
  | .root, focus, _ => by
    unfold Setting.eval
    exact hR.rootFrom _
  | .step axis test predicates, focus, h => by
    unfold Setting.eval
    rw [h.root]
    split
    · exact hR.fail nofun
    · exact hR.bind (hR.keepAll focus (hR.predicatesOf predicates h) _) fun _ => hR.pure _
  | .slash base next, focus, h => by
    unfold Setting.eval
    obtain ⟨hbase, hnext⟩ := h.parts
    refine hR.bind (hR.eval base focus hbase) fun items => ?_
    refine hR.bind (hR.joined (fun item i => ?_) items 1) fun _ => hR.pure _
    split
    · exact hR.eval next _ hnext
    · exact hR.fail nofun
  | .filter primary predicates, focus, h => by
    unfold Setting.eval
    obtain ⟨hprimary, hpredicates⟩ := h.parts
    exact hR.bind (hR.eval primary focus hprimary) fun items =>
      hR.keepAll focus (hR.predicatesOf predicates hpredicates) items
  | .sequence parts, focus, h => by
    unfold Setting.eval
    exact hR.bind (hR.evalAll parts focus h) fun _ => hR.pure _
  | .union left right, focus, h => by
    unfold Setting.eval
    obtain ⟨hleft, hright⟩ := h.parts
    refine hR.bind (hR.eval left focus hleft) fun a =>
      hR.bind (hR.eval right focus hright) fun b => ?_
    split
    · exact hR.pure _
    · exact hR.fail nofun
  | .or left right, focus, h => by
    unfold Setting.eval
    obtain ⟨hleft, hright⟩ := h.parts
    refine hR.condition (hR.eval left focus hleft) fun b => ?_
    split
    · exact hR.pure _
    · exact hR.condition (hR.eval right focus hright) fun _ => hR.pure _
  | .and left right, focus, h => by
    unfold Setting.eval
    obtain ⟨hleft, hright⟩ := h.parts
    refine hR.condition (hR.eval left focus hleft) fun b => ?_
    split
    · exact hR.condition (hR.eval right focus hright) fun _ => hR.pure _
    · exact hR.pure _
  | .general relation left right, focus, h => by
    unfold Setting.eval
    obtain ⟨hleft, hright⟩ := h.parts
    rw [h.root]
    exact hR.bind (hR.eval left focus hleft) fun a =>
      hR.bind (hR.eval right focus hright) fun b =>
        hR.bind (hR.lift (inBounds_some? _ _ _ _)) fun _ => hR.pure _
  | .value relation left right, focus, h => by
    unfold Setting.eval
    obtain ⟨hleft, hright⟩ := h.parts
    rw [h.root]
    refine hR.operand (hR.eval left focus hleft) fun a =>
      hR.operand (hR.eval right focus hright) fun b => ?_
    split
    · exact hR.pure _
    · exact hR.pure _
  | .arithmetic operator left right, focus, h => by
    unfold Setting.eval
    obtain ⟨hleft, hright⟩ := h.parts
    rw [h.root]
    refine hR.operand (hR.eval left focus hleft) fun a =>
      hR.operand (hR.eval right focus hright) fun b => ?_
    split
    · exact hR.pure _
    · exact hR.pure _
  | .negate operand, focus, h => by
    unfold Setting.eval
    rw [h.root]
    refine hR.operand (hR.eval operand focus h) fun a => ?_
    split
    · exact hR.pure _
    · exact hR.pure _
  | .call f arguments, focus, h => by
    unfold Setting.eval
    obtain ⟨hadmits, harguments⟩ := or_and_left.1 h.calls
    rw [← length_argumentsOf s focus arguments] at hadmits
    exact hR.call h.root h.index focus f hadmits
      (hR.argumentsOf arguments focus { h with calls := harguments })

theorem predicatesOf (hR : Compatible R) : ∀ es : List Expr,
    Suits R s s' (Expr.AllAdmitted es) (Expr.readsOfAll es) →
      List.Forall₂ (Predicates R) (s.predicatesOf es) (s'.predicatesOf es)
  | [], _ => .nil
  | e :: es, h => .cons (fun focus => hR.eval e focus h.parts.1) (hR.predicatesOf es h.parts.2)

theorem argumentsOf (hR : Compatible R) : ∀ (es : List Expr) (focus : Focus),
    Suits R s s' (Expr.AllAdmitted es) (Expr.readsOfAll es) →
      List.Forall₂ (R Sequence) (s.argumentsOf focus es) (s'.argumentsOf focus es)
  | [], _, _ => .nil
  | e :: es, focus, h => .cons (hR.eval e focus h.parts.1) (hR.argumentsOf es focus h.parts.2)

theorem evalAll (hR : Compatible R) : ∀ (es : List Expr) (focus : Focus),
    Suits R s s' (Expr.AllAdmitted es) (Expr.readsOfAll es) →
      R (List Sequence) (s.evalAll focus es) (s'.evalAll focus es)
  | [], focus, _ => by
    unfold Setting.evalAll
    exact hR.pure []
  | e :: es, focus, h => by
    unfold Setting.evalAll
    exact hR.bind (hR.eval e focus h.parts.1) fun _ =>
      hR.bind (hR.evalAll es focus h.parts.2) fun _ => hR.pure _

end

end Expressions

end Compatible

end XmlConformance.Path
