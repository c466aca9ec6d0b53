import Mathlib.Tactic.Common
import XmlConformance.Path.Eval

/-!
# Proofs/Path/Focusing — what an expression takes from its focus

An expression is evaluated with a focus, but it takes from it no more than the functions say that it
calls: the item always, its place among the items of the context if `position()` or `last()` is
called outside of predicates, and the current item if `current()` is called anywhere. From foci that
are alike in this an expression has the same value (`Setting.eval_alike`).
-/

namespace XmlConformance.Path

/-! ## Calls -/

mutual

/-- **The functions that an expression calls**, those in predicates only if `inside` is set. -/
def Expr.calls (inside : Bool) : Expr → List CoreFunction
  | .literal _ | .number _ | .var _ | .root => []
  | .step _ _ predicates => if inside then Expr.callsOfAll inside predicates else []
  | .slash base next => base.calls inside ++ next.calls inside
  | .filter primary predicates =>
    primary.calls inside ++ if inside then Expr.callsOfAll inside predicates else []
  | .sequence parts => Expr.callsOfAll inside parts
  | .union left right | .or left right | .and left right => left.calls inside ++ right.calls inside
  | .general _ left right | .value _ left right | .arithmetic _ left right =>
    left.calls inside ++ right.calls inside
  | .negate operand => operand.calls inside
  | .call function arguments => function :: Expr.callsOfAll inside arguments

/-- The functions that some expressions call. -/
def Expr.callsOfAll (inside : Bool) : List Expr → List CoreFunction
  | [] => []
  | e :: es => e.calls inside ++ Expr.callsOfAll inside es

end

/-! ## Foci -/

/-- **Foci are alike** for what calls the functions `outer` outside of predicates, and `all` of
these anywhere. -/
structure Focus.Alike (outer all : List CoreFunction) (f g : Focus) : Prop where
  item : f.item = g.item
  position : .position ∈ outer → f.position = g.position
  size : .last ∈ outer → f.size = g.size
  current : .current ∈ all → f.current = g.current

namespace Focus.Alike

variable {outer outer' all all' : List CoreFunction} {f g : Focus}

theorem mono (h : Alike outer all f g) (houter : outer' ⊆ outer) (hall : all' ⊆ all) :
    Alike outer' all' f g :=
  ⟨h.item, fun hp => h.position (houter hp), fun hl => h.size (houter hl),
    fun hc => h.current (hall hc)⟩

theorem left {outer₂ all₂ : List CoreFunction} (h : Alike (outer ++ outer₂) (all ++ all₂) f g) :
    Alike outer all f g :=
  h.mono (List.subset_append_left _ _) (List.subset_append_left _ _)

theorem right {outer₁ all₁ : List CoreFunction} (h : Alike (outer₁ ++ outer) (all₁ ++ all) f g) :
    Alike outer all f g :=
  h.mono (List.subset_append_right _ _) (List.subset_append_right _ _)

/-- Going on to the same item at the same place leaves nothing but the current item to differ. -/
theorem moved (h : .current ∈ all → f.current = g.current) (item : Item) (position size : ℕ) :
    Alike outer all { f with item, position, size } { g with item, position, size } :=
  ⟨rfl, fun _ => rfl, fun _ => rfl, h⟩

end Focus.Alike

namespace Setting

variable {s : Setting} {f g : Focus}

theorem keep_congr (holds : Focus → Eval Sequence) (size : ℕ)
    (h : ∀ item position, holds { f with item, position, size } =
      holds { g with item, position, size }) :
    ∀ (items : Sequence) (i : ℕ), keep holds f size items i = keep holds g size items i
  | [], _ => rfl
  | item :: rest, i => by
    rw [keep, keep, h item i, keep_congr holds size h rest (i + 1)]

theorem call_alike {function : CoreFunction} {outer all : List CoreFunction}
    (h : Focus.Alike (function :: outer) (function :: all) f g) (args : List (Eval Sequence)) :
    s.call f function args = s.call g function args := by
  obtain ⟨item, position, size, current⟩ := f
  obtain ⟨item', position', size', current'⟩ := g
  obtain rfl : item = item' := h.item
  cases function
  case position => rw [show position = position' from h.position List.mem_cons_self]; rfl
  case last => rw [show size = size' from h.size List.mem_cons_self]; rfl
  case current => rw [show current = current' from h.current List.mem_cons_self]; rfl
  all_goals rfl

/-! ## Expressions -/

/-- The step of a path is applied to foci of its own. -/
theorem eval_slash_congr {base next : Expr} (hbase : s.eval f base = s.eval g base)
    (hnext : ∀ item position size, s.eval { f with item, position, size } next =
      s.eval { g with item, position, size } next) :
    s.eval f (.slash base next) = s.eval g (.slash base next) := by
  unfold eval
  rw [hbase]
  simp only [hnext]

mutual

/-- **From foci that are alike for what it calls an expression has the same value.** -/
theorem eval_alike (s : Setting) : ∀ (e : Expr) {f g : Focus},
    Focus.Alike (e.calls false) (e.calls true) f g → s.eval f e = s.eval g e
  | .literal _, f, g, _ | .number _, f, g, _ | .var _, f, g, _ => by
    unfold eval
    rfl
  | .root, f, g, h => by
    unfold eval
    rw [h.item]
  | .step axis test predicates, f, g, h => by
    unfold eval
    rw [h.item]
    cases candidates s.root axis test g.item with
    | none => rfl
    | some items =>
      dsimp only
      rw [keepAll_alike s predicates h.current]
  | .slash base next, f, g, h =>
    eval_slash_congr (eval_alike s base h.left) fun item position size =>
      eval_alike s next (Focus.Alike.moved h.right.current item position size)
  | .filter primary predicates, f, g, h => by
    unfold eval
    rw [eval_alike s primary h.left]
    exact congrArg (s.eval g primary >>= ·) (funext fun items =>
      keepAll_alike s predicates h.right.current items)
  | .sequence parts, f, g, h => by
    unfold eval
    rw [evalAll_alike s parts h]
  | .union left right, f, g, h | .or left right, f, g, h | .and left right, f, g, h => by
    unfold eval
    rw [eval_alike s left h.left, eval_alike s right h.right]
  | .general _ left right, f, g, h | .value _ left right, f, g, h
  | .arithmetic _ left right, f, g, h => by
    unfold eval
    rw [eval_alike s left h.left, eval_alike s right h.right]
  | .negate operand, f, g, h => by
    unfold eval
    rw [eval_alike s operand h]
  | .call function arguments, f, g, h => by
    unfold eval
    rw [argumentsOf_alike s arguments (h.mono (List.subset_cons_self _ _)
      (List.subset_cons_self _ _))]
    exact call_alike h _

/-- Predicates are applied to foci of their own. -/
theorem keepAll_alike (s : Setting) : ∀ (es : List Expr) {f g : Focus},
    (.current ∈ Expr.callsOfAll true es → f.current = g.current) → ∀ items : Sequence,
      keepAll f (s.predicatesOf es) items = keepAll g (s.predicatesOf es) items
  | [], f, g, _, items => rfl
  | e :: es, f, g, h, items => by
    unfold predicatesOf
    rw [keepAll, keepAll]
    have hkeep := keep_congr (fun focus => s.eval focus e) items.length
      (fun item i => eval_alike s e (Focus.Alike.moved
        (fun hc => h (List.mem_append_left _ hc)) item i items.length)) items 1
    rw [hkeep]
    exact congrArg (keep (fun focus => s.eval focus e) g items.length items 1 >>= ·)
      (funext fun kept => keepAll_alike s es (fun hc => h (List.mem_append_right _ hc)) kept)

theorem argumentsOf_alike (s : Setting) : ∀ (es : List Expr) {f g : Focus},
    Focus.Alike (Expr.callsOfAll false es) (Expr.callsOfAll true es) f g →
      s.argumentsOf f es = s.argumentsOf g es
  | [], _, _, _ => rfl
  | e :: es, f, g, h => by
    unfold argumentsOf
    rw [eval_alike s e h.left, argumentsOf_alike s es h.right]

theorem evalAll_alike (s : Setting) : ∀ (es : List Expr) {f g : Focus},
    Focus.Alike (Expr.callsOfAll false es) (Expr.callsOfAll true es) f g →
      s.evalAll f es = s.evalAll g es
  | [], _, _, _ => rfl
  | e :: es, f, g, h => by
    unfold evalAll
    rw [eval_alike s e h.left, evalAll_alike s es h.right]

end

end Setting

end XmlConformance.Path
