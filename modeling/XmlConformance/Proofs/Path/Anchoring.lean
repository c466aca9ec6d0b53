import XmlConformance.Proofs.Path.DocumentOrder
import XmlConformance.Proofs.Path.Focusing
import XmlConformance.Proofs.Path.Indexing

/-!
# Proofs/Path/Anchoring — patterns select the same from everywhere

A pattern is read as an expression in which every branch starts at the root of the document. So
wherever it is evaluated it has the same value, if it does not call `current()`
(`Setting.eval_anchored`). A branch that was relative goes on from every node of the document. It
selects what it selects from each of them on its own, in document order and without repetitions, if
it does not ask for its place among all these nodes (`Expression.selects_anchored`).
-/

namespace XmlConformance.Path

open Xml

/-! ## Branches -/

namespace Expr

/-- **The branches of a pattern**, which its unions join. -/
def branches : Expr → List Expr
  | .union left right => left.branches ++ right.branches
  | e => [e]

/-- Only unions have several branches. -/
theorem anchored_of_ne_union {e : Expr} (h : ∀ left right, e = .union left right → False) :
    e.anchored = if e.isAbsolute then e else .slash allNodes e := by
  cases e <;> first | rfl | exact (h _ _ rfl).elim

/-- **A pattern is anchored branch by branch.** -/
theorem branches_anchored (e : Expr) : e.anchored.branches = e.branches.map anchored := by
  fun_induction branches e with
  | case1 left right ihleft ihright =>
    show left.anchored.branches ++ right.anchored.branches = _
    rw [ihleft, ihright, List.map_append]
  | case2 e hne =>
    rw [List.map_singleton, anchored_of_ne_union hne]
    split
    · exact branches.eq_2 e hne
    · rfl

/-- Relative branches go on from every node. -/
theorem anchored_of_mem_branches {e b : Expr} (h : b ∈ e.branches) (hrelative : ¬b.isAbsolute) :
    b.anchored = .slash allNodes b := by
  fun_induction branches e with
  | case1 left right ihleft ihright => exact (List.mem_append.1 h).elim ihleft ihright
  | case2 e hne =>
    obtain rfl := List.mem_singleton.1 h
    rw [anchored_of_ne_union hne, if_neg hrelative]

/-- **An expression takes nothing but the item from its focus**: it calls `current()` nowhere, and
`position()` and `last()` in predicates only. -/
structure ItemOnly (e : Expr) : Prop where
  current : .current ∉ e.calls true
  position : .position ∉ e.calls false
  last : .last ∉ e.calls false

instance (e : Expr) : Decidable e.ItemOnly :=
  decidable_of_iff
    (.current ∉ e.calls true ∧ .position ∉ e.calls false ∧ .last ∉ e.calls false)
    ⟨fun h => ⟨h.1, h.2.1, h.2.2⟩, fun h => ⟨h.1, h.2, h.3⟩⟩

theorem ItemOnly.alike {e : Expr} (h : e.ItemOnly) {f g : Focus} (hitem : f.item = g.item) :
    Focus.Alike (e.calls false) (e.calls true) f g :=
  ⟨hitem, fun hp => absurd hp h.position, fun hl => absurd hl h.last,
    fun hc => absurd hc h.current⟩

theorem calls_subset_of_mem_branches (inside : Bool) {e b : Expr} (h : b ∈ e.branches) :
    b.calls inside ⊆ e.calls inside := by
  fun_induction branches e with
  | case1 left right ihleft ihright =>
    obtain h | h := List.mem_append.1 h
    · exact List.Subset.trans (ihleft h) (List.subset_append_left _ _)
    · exact List.Subset.trans (ihright h) (List.subset_append_right _ _)
  | case2 e hne =>
    obtain rfl := List.mem_singleton.1 h
    exact List.Subset.refl _

theorem ItemOnly.of_mem_branches {e b : Expr} (h : e.ItemOnly) (hb : b ∈ e.branches) :
    b.ItemOnly :=
  ⟨fun hc => h.current (calls_subset_of_mem_branches true hb hc),
    fun hp => h.position (calls_subset_of_mem_branches false hb hp),
    fun hl => h.last (calls_subset_of_mem_branches false hb hl)⟩

end Expr

/-! ## Absolute expressions -/

namespace Setting

variable {s : Setting} {f g : Focus}

theorem rootFrom_of_isNode {item : Item} (h : item.isNode = true) :
    rootFrom item = Eval.pure [.node []] := by
  cases item <;> first | rfl | cases h

/-- **An expression that starts at the root has the same value from every node and attribute**, if
it does not call `current()`. -/
theorem eval_absolute (s : Setting) (hf : f.item.isNode = true) (hg : g.item.isNode = true) :
    ∀ {e : Expr}, e.isAbsolute = true → .current ∉ e.calls true → s.eval f e = s.eval g e
  | .root, _, _ => by
    unfold eval
    rw [rootFrom_of_isNode hf, rootFrom_of_isNode hg]
  | .slash base next, h, hcurrent => by
    rw [Expr.calls, List.mem_append, not_or] at hcurrent
    exact eval_slash_congr (eval_absolute s hf hg h hcurrent.1) fun item position size =>
      eval_alike s next (.moved (fun hc => absurd hc hcurrent.2) item position size)

/-- **So has every pattern.** -/
theorem eval_anchored (s : Setting) (hf : f.item.isNode = true) (hg : g.item.isNode = true)
    {e : Expr} (hcurrent : .current ∉ e.calls true) :
    s.eval f e.anchored = s.eval g e.anchored := by
  induction e using Expr.branches.induct with
  | case1 left right ihleft ihright =>
    rw [Expr.calls, List.mem_append, not_or] at hcurrent
    show s.eval f (.union left.anchored right.anchored) = s.eval g (.union _ _)
    rw [eval, eval, ihleft hcurrent.1, ihright hcurrent.2]
  | case2 e hne =>
    rw [Expr.anchored_of_ne_union hne]
    split
    case isTrue habsolute => exact eval_absolute s hf hg habsolute hcurrent
    case isFalse => exact eval_absolute s hf hg rfl hcurrent

/-! ## Relative branches -/

theorem joined_congr {f g : Item → ℕ → Eval Sequence} : ∀ {items : Sequence} (i : ℕ),
    (∀ item ∈ items, ∀ i, f item i = g item i) → Eval.joined f items i = Eval.joined g items i
  | [], _, _ => rfl
  | item :: rest, i, h => by
    rw [List.forall_mem_cons] at h
    rw [Eval.joined, Eval.joined, h.1, joined_congr (i + 1) h.2]

/-- A result in document order, unless there are atomic values in it. -/
def arranged (result : Sequence) : Sequence :=
  if result.all Item.isNode then inDocumentOrder result else result

/-- A step from every item of a base. -/
theorem eval_slash_of_base {base next : Expr} {items : Sequence}
    (hbase : s.eval f base = Eval.pure items) (hnodes : ∀ item ∈ items, item.isNode = true) :
    s.eval f (.slash base next) =
      Eval.joined (fun item position => s.eval { f with item, position, size := items.length } next)
        items 1 >>= fun result => Eval.pure (arranged result) := by
  have hjoined : Eval.joined (fun item i =>
      if item.isNode then s.eval { f with item := item, position := i, size := items.length } next
      else Eval.fail .stepFromAtomic) items 1 = Eval.joined (fun item position =>
        s.eval { f with item, position, size := items.length } next) items 1 :=
    joined_congr 1 fun item hitem i => if_pos (hnodes item hitem)
  rw [← hjoined, eval, hbase]
  rfl

theorem candidates_anyDepth (root : Node) :
    candidates root .descendantOrSelf .node (.node []) = some (root.positions.map .node) := by
  have hpositions : root.positionsAt [] = root.positions := by
    show root.positions.map ([] ++ ·) = root.positions
    simp
  rw [candidates, Axis.fromNode, hpositions, List.filter_eq_self.2]
  rintro item hitem
  obtain ⟨p, hp, rfl⟩ := List.mem_map.1 hitem
  obtain ⟨n, hn⟩ := Option.isSome_iff_exists.1 ((Node.mem_positions root p).1 hp)
  rw [NodeTest.admits, hn]
  rfl

theorem forall_isNode_map_node (ps : List Position) :
    ∀ item ∈ ps.map Item.node, item.isNode = true := by
  rintro item hitem
  obtain ⟨p, -, rfl⟩ := List.mem_map.1 hitem
  rfl

theorem arranged_of_nodes {items : Sequence} (h : ∀ item ∈ items, item.isNode = true) :
    arranged items = inDocumentOrder items :=
  if_pos (List.all_eq_true.2 h)

/-- **All nodes of a document**, in document order. -/
theorem eval_allNodes (hf : f.item.isNode = true) :
    s.eval f Expr.allNodes = Eval.pure (s.root.positions.map .node) := by
  have hroot : s.eval f .root = Eval.pure [.node []] := by
    unfold eval
    exact rootFrom_of_isNode hf
  have hstep : s.eval { f with item := .node [], position := 1, size := 1 } Expr.anyDepth =
      Eval.pure (s.root.positions.map .node) := by
    unfold Expr.anyDepth eval
    dsimp only
    rw [candidates_anyDepth]
    rfl
  have hsorted : (s.root.positions.map Item.node).Pairwise fun a b => a.key < b.key :=
    List.pairwise_map.2 ((Node.pairwise_positions s.root).imp key_node_lt.2)
  have hnodes := forall_isNode_map_node s.root.positions
  rw [Expr.allNodes, eval_slash_of_base hroot (by simp [Item.isNode]), Eval.joined]
  rw [List.length_singleton, hstep]
  show Eval.pure (arranged (s.root.positions.map .node ++ [])) = _
  rw [List.append_nil, arranged_of_nodes hnodes, inDocumentOrder_of_pairwise hsorted hnodes]

/-- **A relative branch goes on from every node of the document**, as it would on its own. -/
theorem eval_slash_allNodes {e : Expr} (he : e.ItemOnly) (hf : f.item.isNode = true) :
    s.eval f (.slash Expr.allNodes e) =
      Eval.joined (fun item _ => s.eval (.on item) e) (s.root.positions.map .node) 1 >>=
        fun result => Eval.pure (arranged result) := by
  rw [eval_slash_of_base (eval_allNodes hf) (forall_isNode_map_node _)]
  have halike (item : Item) (position : ℕ) :
      s.eval { f with item, position, size := (s.root.positions.map Item.node).length } e =
        s.eval (.on item) e :=
    eval_alike s e (he.alike rfl)
  simp only [halike]

end Setting

/-! ## What is selected -/

/-- **A computation has a value** from some indexes. -/
def Yields {α ε : Type} (x : Indexes → Except ε (α × Indexes)) (indexes : Indexes) (a : α) : Prop :=
  ∃ rest, x indexes = .ok (a, rest)

theorem Yields.unique {α ε : Type} {x : Indexes → Except ε (α × Indexes)} {indexes : Indexes}
    {a b : α} (ha : Yields x indexes a) (hb : Yields x indexes b) : a = b := by
  obtain ⟨rest, ha⟩ := ha
  obtain ⟨rest', hb⟩ := hb
  exact congrArg Prod.fst (Except.ok.inj (ha.symm.trans hb))

theorem yields_bind_pure {α β : Type} {x : Eval α} {f : α → β} {indexes : Indexes} {b : β} :
    Yields (x >>= fun a => Eval.pure (f a)) indexes b ↔ ∃ a, Yields x indexes a ∧ b = f a := by
  constructor
  · rintro ⟨rest, h⟩
    obtain ⟨a, between, hx, h⟩ := Eval.bind_eq_ok.1 h
    cases h
    exact ⟨a, ⟨rest, hx⟩, rfl⟩
  · rintro ⟨a, ⟨rest, hx⟩, rfl⟩
    exact ⟨rest, Eval.bind_of_ok hx⟩

section Joined

variable {C : Indexes → Prop} {h : Item → Eval Sequence} {start indexes : Indexes}

/-- Going on with the value that a repeatable computation has from the start. -/
theorem Repeatable.yields_bind {x : Eval Sequence} {f : Sequence → Eval Sequence}
    (hx : Repeatable C x) (hstart : C start) (hC : C indexes) {b : Sequence} :
    Yields (x >>= f) indexes b ↔ ∃ a rest, Yields x start a ∧ x indexes = .ok (a, rest) ∧ C rest ∧
      Yields (f a) rest b := by
  change (∃ r, Eval.bind x f indexes = .ok (b, r)) ↔ _
  unfold Eval.bind
  obtain ⟨e, he, -⟩ | ⟨a, rest, rest', ha, ha', hrest, -⟩ := hx indexes start hC hstart
  · simp [he]
  · rw [ha]
    constructor
    · exact fun hb => ⟨a, rest, ⟨rest', ha'⟩, rfl, hrest, hb⟩
    · rintro ⟨a', r, -, heq, -, hb⟩
      cases heq
      exact hb

/-- From indexes of its kind a repeatable computation has the value that it has from the start. -/
theorem Repeatable.exists_of_yields {x : Eval Sequence} (hx : Repeatable C x) (hstart : C start)
    (hC : C indexes) {a : Sequence} (ha : Yields x start a) :
    ∃ rest, x indexes = .ok (a, rest) ∧ C rest := by
  obtain ⟨after, ha⟩ := ha
  obtain ⟨e, -, he⟩ | ⟨b, rest, rest', hb, hb', hrest, -⟩ := hx indexes start hC hstart
  · rw [ha] at he
    cases he
  · rw [ha] at hb'
    cases hb'
    exact ⟨rest, hb, hrest⟩

/-- What holds of some found of an item that comes first. -/
theorem mem_cons_iff_yields {item : Item} {items : Sequence} {a more : Sequence} {x : Item}
    (ha : Yields (h item) start a)
    (hmore : x ∈ more ↔ ∃ i ∈ items, ∃ found, Yields (h i) start found ∧ x ∈ found) :
    x ∈ a ++ more ↔ ∃ i ∈ item :: items, ∃ found, Yields (h i) start found ∧ x ∈ found := by
  rw [List.mem_append, hmore, List.exists_mem_cons_iff]
  refine or_congr_left ⟨fun hx => ⟨a, ha, hx⟩, ?_⟩
  rintro ⟨found, hfound, hx⟩
  rwa [ha.unique hfound]

theorem yields_joined_cons (hh : ∀ item, Repeatable C (h item)) (hstart : C start)
    (hC : C indexes) {item : Item} {items : Sequence} {i : ℕ} {result : Sequence} :
    Yields (Eval.joined (fun item _ => h item) (item :: items) i) indexes result ↔
      ∃ a rest more, Yields (h item) start a ∧ h item indexes = .ok (a, rest) ∧ C rest ∧
        Yields (Eval.joined (fun item _ => h item) items (i + 1)) rest more ∧
          result = a ++ more := by
  rw [Eval.joined, (hh item).yields_bind hstart hC]
  constructor
  · rintro ⟨a, rest, ha, hx, hrest, hresult⟩
    obtain ⟨more, hmore, rfl⟩ := yields_bind_pure.1 hresult
    exact ⟨a, rest, more, ha, hx, hrest, hmore, rfl⟩
  · rintro ⟨a, rest, more, ha, hx, hrest, hmore, rfl⟩
    exact ⟨a, rest, ha, hx, hrest, yields_bind_pure.2 ⟨more, hmore, rfl⟩⟩

/-- **What is joined is what is found from each item**, if something is found from every one. -/
theorem yields_joined (hh : ∀ item, Repeatable C (h item)) (hstart : C start) :
    ∀ (items : Sequence) (i : ℕ) {indexes : Indexes}, C indexes →
      ((∃ result, Yields (Eval.joined (fun item _ => h item) items i) indexes result) ↔
        ∀ item ∈ items, ∃ found, Yields (h item) start found) ∧
      ∀ result, Yields (Eval.joined (fun item _ => h item) items i) indexes result →
        ∀ x, x ∈ result ↔ ∃ item ∈ items, ∃ found, Yields (h item) start found ∧ x ∈ found
  | [], i, indexes, _ => by
    refine ⟨iff_of_true ⟨[], indexes, rfl⟩ nofun, ?_⟩
    rintro result ⟨rest, hresult⟩ x
    cases hresult
    simp
  | item :: items, i, indexes, hC => by
    refine ⟨⟨?_, fun hall => ?_⟩, fun result hresult x => ?_⟩
    · rintro ⟨result, hresult⟩
      obtain ⟨a, rest, more, ha, -, hrest, hmore, rfl⟩ :=
        (yields_joined_cons hh hstart hC).1 hresult
      have ih := (yields_joined hh hstart items (i + 1) hrest).1
      exact List.forall_mem_cons.2 ⟨⟨a, ha⟩, ih.1 ⟨more, hmore⟩⟩
    · obtain ⟨⟨a, ha⟩, hall⟩ := List.forall_mem_cons.1 hall
      obtain ⟨rest, hx, hrest⟩ := (hh item).exists_of_yields hstart hC ha
      obtain ⟨more, hmore⟩ := (yields_joined hh hstart items (i + 1) hrest).1.2 hall
      exact ⟨_, (yields_joined_cons hh hstart hC).2 ⟨a, rest, more, ha, hx, hrest, hmore, rfl⟩⟩
    · obtain ⟨a, rest, more, ha, -, hrest, hmore, rfl⟩ :=
        (yields_joined_cons hh hstart hC).1 hresult
      exact mem_cons_iff_yields ha ((yields_joined hh hstart items (i + 1) hrest).2 more hmore x)

end Joined

variable {root : Node} {keys : Keys} {vars : Variables} {indexes : Indexes} {item : Item}
  {items : Sequence}

/-- **An expression selects nodes and attributes** from an item. -/
def Expression.Selects (root : Node) (keys : Keys) (vars : Variables) (indexes : Indexes)
    (e : Expression) (item : Item) (items : Sequence) : Prop :=
  Yields (e.evaluate root keys vars item) indexes items ∧ ∀ x ∈ items, x.isNode = true

theorem Expression.yields_evaluate {e : Expression} :
    Yields (e.evaluate root keys vars item) indexes items ↔
      Yields ((setting root keys vars).eval (.on item) e.body) indexes items :=
  exists_congr fun _ => mapError_eq_ok

theorem forall_isNode_arranged {result : Sequence} :
    (∀ x ∈ Setting.arranged result, x.isNode = true) ↔ ∀ x ∈ result, x.isNode = true := by
  unfold Setting.arranged
  split
  case isTrue h =>
    have hresult := List.all_eq_true.1 h
    exact iff_of_true (fun x hx => hresult x ((mem_inDocumentOrder hresult).1 hx)) hresult
  case isFalse => rfl

/-- The evaluations of an expression from every node of a document, joined. -/
def Expr.fromEach (e : Expr) (root : Node) (keys : Keys) (vars : Variables) : Eval Sequence :=
  Eval.joined (fun item _ => (setting root keys vars).eval (.on item) e)
    (root.positions.map .node) 1

/-- **What is found from every node is what is found from each of them.** -/
theorem Expr.yields_fromEach (e : Expr) (source : String) :
    ((∃ result, Yields (e.fromEach root keys vars) indexes result) ↔
      ∀ p ∈ root.positions, ∃ found,
        Yields ((⟨source, e⟩ : Expression).evaluate root keys vars (.node p)) indexes found) ∧
    ∀ result, Yields (e.fromEach root keys vars) indexes result → ∀ x, x ∈ result ↔
      ∃ p ∈ root.positions, ∃ found,
        Yields ((⟨source, e⟩ : Expression).evaluate root keys vars (.node p)) indexes found ∧
          x ∈ found := by
  have hrepeatable (item : Item) : Repeatable (Continues root vars keys indexes)
      ((setting root keys vars).eval (.on item) e) :=
    repeatable_eval (.refl _ _) indexes e (.on item)
  have hjoined := yields_joined hrepeatable (.refl indexes) (root.positions.map .node) 1
    (.refl indexes)
  simpa [Expression.yields_evaluate, fromEach] using hjoined

/-- What a relative branch selects is what is found from every node, in document order. -/
theorem Expression.selects_slash_allNodes {e : Expr} (he : e.ItemOnly) (source : String)
    (hitem : item.isNode = true) :
    Selects root keys vars indexes ⟨source, .slash .allNodes e⟩ item items ↔ ∃ result,
      Yields (e.fromEach root keys vars) indexes result ∧ (∀ x ∈ result, x.isNode = true) ∧
        items = inDocumentOrder result := by
  rw [Selects, yields_evaluate, Setting.eval_slash_allNodes he hitem, yields_bind_pure]
  constructor
  · rintro ⟨⟨result, hresult, rfl⟩, hnodes⟩
    rw [forall_isNode_arranged] at hnodes
    exact ⟨result, hresult, hnodes, Setting.arranged_of_nodes hnodes⟩
  · rintro ⟨result, hresult, hnodes, rfl⟩
    refine ⟨⟨result, hresult, (Setting.arranged_of_nodes hnodes).symm⟩, fun x hx => ?_⟩
    exact hnodes x ((mem_inDocumentOrder hnodes).1 hx)

/-- Where nothing but nodes is found from all nodes, what is found from one is selected. -/
theorem Expr.selects_iff_yields (e : Expr) (source : String) {result : Sequence}
    (hresult : Yields (e.fromEach root keys vars) indexes result)
    (hnodes : ∀ x ∈ result, x.isNode = true) {p : Position} (hp : p ∈ root.positions) :
    Expression.Selects root keys vars indexes ⟨source, e⟩ (.node p) items ↔
      Yields ((⟨source, e⟩ : Expression).evaluate root keys vars (.node p)) indexes items := by
  refine and_iff_left_of_imp fun hitems x hx => hnodes x ?_
  exact ((e.yields_fromEach source).2 result hresult x).2 ⟨p, hp, items, hitems, hx⟩

/-- **A relative branch selects what it selects from each node of the document**, in document order
and without repetitions. -/
theorem Expression.selects_anchored {e : Expr} (he : e.ItemOnly) (source : String)
    (hitem : item.isNode = true) :
    ((∃ items, Selects root keys vars indexes ⟨source, .slash .allNodes e⟩ item items) ↔
      ∀ p ∈ root.positions, ∃ found, Selects root keys vars indexes ⟨source, e⟩ (.node p) found) ∧
    ∀ items, Selects root keys vars indexes ⟨source, .slash .allNodes e⟩ item items →
      (items.Pairwise fun a b => a.key < b.key) ∧
      ∀ x, x ∈ items ↔ ∃ p ∈ root.positions, ∃ found,
        Selects root keys vars indexes ⟨source, e⟩ (.node p) found ∧ x ∈ found := by
  obtain ⟨hall, hmem⟩ := e.yields_fromEach source
  refine ⟨⟨?_, fun hselects => ?_⟩, fun items hitems => ?_⟩
  · rintro ⟨items, hitems⟩ p hp
    obtain ⟨result, hresult, hnodes, -⟩ := (selects_slash_allNodes he source hitem).1 hitems
    obtain ⟨found, hfound⟩ := hall.1 ⟨result, hresult⟩ p hp
    exact ⟨found, (e.selects_iff_yields source hresult hnodes hp).2 hfound⟩
  · obtain ⟨result, hresult⟩ := hall.2 fun p hp => (hselects p hp).imp fun _ h => h.1
    refine ⟨_, (selects_slash_allNodes he source hitem).2 ⟨result, hresult, fun x hx => ?_, rfl⟩⟩
    obtain ⟨p, hp, found, hyields, hx⟩ := (hmem result hresult x).1 hx
    obtain ⟨found', hselected, hnodes⟩ := hselects p hp
    rw [hyields.unique hselected] at hx
    exact hnodes x hx
  · obtain ⟨result, hresult, hnodes, rfl⟩ := (selects_slash_allNodes he source hitem).1 hitems
    refine ⟨pairwise_inDocumentOrder result, fun x => ?_⟩
    rw [mem_inDocumentOrder hnodes, hmem result hresult]
    refine exists_congr fun p => and_congr_right fun hp => exists_congr fun found => ?_
    rw [e.selects_iff_yields source hresult hnodes hp]

/-- **A pattern has the same value from every node and attribute**, and each of its relative
branches selects what the branch selects on its own from all nodes of the document, in document
order and without repetitions. -/
theorem Expression.evaluate_pattern {ns : Namespaces} {text : String} {e : Expression}
    (he : Expression.compile ns text = .ok e) (hitem : e.body.ItemOnly) (root : Node) (keys : Keys)
    (vars : Variables) :
    ∃ pattern, Expression.pattern ns text = .ok pattern ∧
      (∀ a b : Item, a.isNode = true → b.isNode = true →
        pattern.evaluate root keys vars a = pattern.evaluate root keys vars b) ∧
      pattern.body.branches = e.body.branches.map Expr.anchored ∧
      ∀ branch ∈ e.body.branches, ¬branch.isAbsolute → ∀ item : Item, item.isNode = true →
        ∀ indexes,
          ((∃ items, Selects root keys vars indexes ⟨text, branch.anchored⟩ item items) ↔
            ∀ p, (root.at? p).isSome = true →
              ∃ found, Selects root keys vars indexes ⟨text, branch⟩ (.node p) found) ∧
          ∀ items, Selects root keys vars indexes ⟨text, branch.anchored⟩ item items →
            (items.Pairwise fun a b => a.key < b.key) ∧
            ∀ x, x ∈ items ↔ ∃ p, (root.at? p).isSome = true ∧ ∃ found,
              Selects root keys vars indexes ⟨text, branch⟩ (.node p) found ∧ x ∈ found := by
  refine ⟨{ e with body := e.body.anchored }, by rw [pattern, he]; rfl, fun a b ha hb => ?_,
    e.body.branches_anchored, fun branch hbranch hrelative item hnode indexes => ?_⟩
  · have hsame := Setting.eval_anchored (f := .on a) (g := .on b) (setting root keys vars) ha hb
      hitem.current
    funext indexes
    rw [evaluate, evaluate, hsame]
  · rw [Expr.anchored_of_mem_branches hbranch hrelative]
    simp only [← Node.mem_positions]
    exact selects_anchored (hitem.of_mem_branches hbranch) text hnode

/-- A union of an absolute path and a relative one with a predicate about places. -/
theorem Expression.evaluate_pattern_union : ∃ e pattern,
    Expression.compile .initial "/a | b[position() = last()]/@c" = .ok e ∧ e.body.ItemOnly ∧
      Expression.pattern .initial "/a | b[position() = last()]/@c" = .ok pattern ∧
      pattern.evaluate (.root [.text "t"]) [] [] (.node []) =
        pattern.evaluate (.root [.text "t"]) [] [] (.node [0]) := by
  have hread : ((Expression.compile .initial "/a | b[position() = last()]/@c").toOption.any
      fun e => decide e.body.ItemOnly) = true := by decide +kernel
  obtain ⟨e, he, hitem⟩ := exists_of_any_toOption hread
  have hitem := of_decide_eq_true hitem
  obtain ⟨pattern, hpattern, hsame, -⟩ :=
    Expression.evaluate_pattern he hitem (.root [.text "t"]) [] []
  exact ⟨e, pattern, he, hitem, hpattern, hsame _ _ rfl rfl⟩

end XmlConformance.Path
