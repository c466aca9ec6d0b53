import XmlConformance.Proofs.Path.Axes
import XmlConformance.Proofs.Path.Congruence

/-!
# Proofs/Path/Ordering — results in document order

What a step, a union, a call of `key()` or a path gives is in document order, and holds no node or
attribute twice. A union, a call of `key()` and a path sort their results. A step does not: an axis
lists its items nearest first, predicates leave them where they are, and a reverse axis is turned
around at the end.
-/

namespace XmlConformance.Path

open Xml

variable {α β : Type}

/-! ## What evaluations always give -/

namespace Eval

/-- **An evaluation always gives what has a property**, whatever indexes it starts with. -/
def Always (P : α → Prop) (x : Eval α) : Prop :=
  ∀ indexes a rest, x indexes = .ok (a, rest) → P a

namespace Always

variable {P : α → Prop} {Q : β → Prop}

theorem pure {a : α} (h : P a) : Always P (Eval.pure a) := by
  intro indexes b rest hb
  cases hb
  exact h

theorem fail (e : EvalError) : Always P (Eval.fail e) :=
  fun _ _ _ h => nomatch h

theorem bind {x : Eval α} {f : α → Eval β} (hx : Always P x) (hf : ∀ a, P a → Always Q (f a)) :
    Always Q (x >>= f) := by
  intro indexes b rest hb
  obtain ⟨a, between, ha, hb⟩ := Eval.bind_eq_ok.1 hb
  exact hf a (hx indexes a between ha) between b rest hb

theorem mono {P' : α → Prop} {x : Eval α} (hx : Always P x) (h : ∀ a, P a → P' a) :
    Always P' x :=
  fun indexes a rest hok => h a (hx indexes a rest hok)

/-- What is given does not depend on the way. -/
theorem bind_any {x : Eval α} {f : α → Eval β} (hf : ∀ a, Always Q (f a)) : Always Q (x >>= f) :=
  bind (fun _ _ _ _ => trivial) fun a _ => hf a

end Always

end Eval

namespace Setting

open Eval

variable {s : Setting} {focus : Focus}

/-! ## Predicates -/

/-- **Predicates leave items out** and do not move the others. -/
theorem always_keep (holds : Focus → Eval Sequence) (focus : Focus) (size : ℕ) :
    ∀ (items : Sequence) (i : ℕ), (keep holds focus size items i).Always (·.Sublist items)
  | [], _ => .pure (List.Sublist.refl [])
  | item :: rest, i => by
    have htail (kept : Bool) : Always (·.Sublist (item :: rest))
        (keep holds focus size rest (i + 1) >>= fun more =>
          Eval.pure (if kept then item :: more else more)) := by
      refine (always_keep holds focus size rest (i + 1)).bind fun more hmore => .pure ?_
      split
      · exact hmore.cons_cons item
      · exact hmore.cons item
    unfold keep
    refine .bind_any fun result => ?_
    dsimp only
    split <;> exact .bind_any htail

theorem always_keepAll (focus : Focus) : ∀ (ps : List (Focus → Eval Sequence)) (items : Sequence),
    (keepAll focus ps items).Always (·.Sublist items)
  | [], items => .pure (List.Sublist.refl items)
  | p :: ps, items =>
    (always_keep p focus items.length items 1).bind fun kept hkept rest a last h =>
    (always_keepAll focus ps kept rest a last h).trans hkept

/-! ## Results -/

theorem isNode_of_admits {test : NodeTest} {axis : Axis} {root : Node} {item : Item}
    (h : test.admits axis root item = true) : item.isNode = true := by
  cases item with
  | node | «attribute» => rfl
  | string | number | boolean => cases h

theorem isNode_of_candidates {root : Node} {axis : Axis} {test : NodeTest} {item : Item}
    {items : Sequence} (h : candidates root axis test item = some items) :
    ∀ x ∈ items, x.isNode = true := by
  match item with
  | .node p =>
    obtain rfl := Option.some.inj h
    exact fun x hx => isNode_of_admits (List.mem_filter.1 hx).2
  | .attribute p i =>
    obtain rfl := Option.some.inj h
    exact fun x hx => isNode_of_admits (List.mem_filter.1 hx).2
  | .string _ | .number _ | .boolean _ => cases h

/-- **A step** gives the items of its axis in document order. -/
theorem always_step (s : Setting) (focus : Focus) (axis : Axis) (test : NodeTest)
    (predicates : List Expr) : (s.eval focus (.step axis test predicates)).Always fun items =>
      InOrder items ∧ ∀ item ∈ items, item.isNode = true := by
  unfold eval
  split
  · exact .fail _
  · case h_2 items hitems =>
    refine (always_keepAll focus (s.predicatesOf predicates) items).bind fun kept hkept => .pure ?_
    refine ⟨inOrder_of_pairwise_before ((pairwise_candidates hitems).sublist hkept), ?_⟩
    intro item hitem
    refine isNode_of_candidates hitems item (hkept.subset ?_)
    split at hitem
    · exact List.mem_reverse.1 hitem
    · exact hitem

/-- **A union** gives the items of its branches in document order. -/
theorem always_union (s : Setting) (focus : Focus) (left right : Expr) :
    (s.eval focus (.union left right)).Always fun items =>
      InOrder items ∧ ∀ item ∈ items, item.isNode = true := by
  unfold eval
  refine .bind_any fun a => .bind_any fun b => ?_
  split
  · case isTrue hall =>
    have hnodes := List.all_eq_true.1 hall
    exact .pure ⟨pairwise_inDocumentOrder _, fun item hitem =>
      hnodes item ((mem_inDocumentOrder hnodes).1 hitem)⟩
  · exact .fail _

/-- **A call of `key()`** gives in document order what the key finds. -/
theorem always_key (s : Setting) (focus : Focus) (arguments : List (Eval Sequence)) :
    (s.call focus .key arguments).Always InOrder := by
  have hfound (index : Index) (top : Option Item) : Always InOrder
      (argument arguments 1 >>= fun values => Eval.pure (s.keyed index values top)) :=
    .bind_any fun values => .pure (pairwise_inDocumentOrder _)
  unfold call
  refine .bind_any fun name => .bind_any fun index => ?_
  dsimp only
  split
  · exact hfound index none
  · refine .bind_any fun tops => ?_
    split
    · exact .pure List.Pairwise.nil
    · split
      · exact hfound index _
      · exact .fail _

/-- **A path** gives in document order what it leads to, unless there are atomic values in it. -/
theorem always_slash (s : Setting) (focus : Focus) (base next : Expr) :
    (s.eval focus (.slash base next)).Always fun items =>
      items.all Item.isNode = true → InOrder items := by
  unfold eval
  refine .bind_any fun items => .bind_any fun result => .pure ?_
  split
  · exact fun _ => pairwise_inDocumentOrder result
  · case isFalse hatomic => exact fun hall => absurd hall hatomic

/-- **What a step, a union or a call of `key()` gives is in document order**, and so is what a path
gives that leads to nodes and attributes only; none of them gives an item twice. Steps and unions
give nothing but nodes and attributes. -/
theorem eval_inOrder (s : Setting) (focus : Focus) :
    (∀ axis test predicates, (s.eval focus (.step axis test predicates)).Always fun items =>
      InOrder items ∧ items.Nodup ∧ ∀ item ∈ items, item.isNode = true) ∧
    (∀ left right, (s.eval focus (.union left right)).Always fun items =>
      InOrder items ∧ items.Nodup ∧ ∀ item ∈ items, item.isNode = true) ∧
    (∀ arguments, (s.eval focus (.call .key arguments)).Always fun items =>
      InOrder items ∧ items.Nodup) ∧
    ∀ base next, (s.eval focus (.slash base next)).Always fun items =>
      items.all Item.isNode = true → InOrder items ∧ items.Nodup := by
  refine ⟨fun axis test predicates => ?_, fun left right => ?_, fun arguments => ?_,
    fun base next => ?_⟩
  · exact (always_step s focus axis test predicates).mono fun _ h => ⟨h.1, h.1.nodup, h.2⟩
  · exact (always_union s focus left right).mono fun _ h => ⟨h.1, h.1.nodup, h.2⟩
  · unfold eval
    exact (always_key s focus _).mono fun _ h => ⟨h, h.nodup⟩
  · exact (always_slash s focus base next).mono fun _ h hall => ⟨h hall, (h hall).nodup⟩

end Setting

end XmlConformance.Path
