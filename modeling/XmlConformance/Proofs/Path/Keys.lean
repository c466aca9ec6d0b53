import XmlConformance.Proofs.Path.Anchoring
import XmlConformance.Proofs.Path.Indexing
import XmlConformance.Proofs.Path.Ordering

/-!
# Proofs/Path/Keys — what a key finds

A definition of a key finds an item by a text if its match pattern selects the item and its use
expression, evaluated at the item, gives a value with this text (`KeyDefinition.Finds`). A call of
`key()` looks into an index that is built when the key is first used and kept from then on; for
definitions that use no variables it gives what a search through all definitions would, whichever
indexes earlier evaluations left behind (`Keys.Built`).
-/

namespace XmlConformance.Path

open Xml

variable {root : Node} {keys : Keys} {vars : Variables} {indexes rest : Indexes} {name : String}
  {focus : Focus} {item : Item} {α β : Type} {ε : Type}

/-! ## Expressions that use no keys -/

/-- **The value of an expression at an item** where no variable is set and no key is declared. -/
def Expr.valueAt (root : Node) (e : Expr) (item : Item) : Except EvalError Sequence :=
  ((keyless root []).eval (.on item) e []).map Prod.fst

theorem lift_bind_lift (x : Except EvalError α) (f : α → Except EvalError β) :
    (Eval.lift x >>= fun a => Eval.lift (f a)) = Eval.lift (x >>= f) := by
  cases x <;> rfl

/-- Not to look at indexes is kept where evaluations go on with each other's results. -/
theorem compatible_lift : Compatible fun α x _ => ∃ v : Except EvalError α, x = Eval.lift v where
  lift _ := ⟨_, rfl⟩
  bind hx hf := by
    obtain ⟨v, rfl⟩ := hx
    choose w hw using hf
    exact ⟨v >>= w, by rw [funext hw, lift_bind_lift]⟩

/-- **An expression that reads no variables** has the same value from all indexes and with all
variables, where no key is declared. -/
theorem eval_keyless {e : Expr} (h : e.reads = []) (vars : Variables) (item : Item) :
    (keyless root vars).eval (.on item) e = Eval.lift (e.valueAt root item) := by
  have hsame : SameOn e.reads vars [] := by
    rw [h]
    exact List.forall_mem_nil _
  rw [eval_keyless_congr hsame]
  have hroot : (keyless root []).root = (keyless root []).root := rfl
  obtain ⟨v, hv⟩ := compatible_lift.eval e (.on item)
    ⟨hroot, fun name => ⟨.error (.undeclaredKey name), rfl⟩, .inl fun _ _ => ⟨.error _, rfl⟩,
      .refl _ _⟩
  have hvalue : e.valueAt root item = v := by
    rw [Expr.valueAt, hv]
    cases v <;> rfl
  rw [hvalue, hv]

/-! ## Indexes -/

/-- **A definition finds an item by a text**: its match pattern selects the item, and its use
expression gives a value with the text there. -/
def KeyDefinition.Finds (root : Node) (d : KeyDefinition) (text : String) (item : Item) : Prop :=
  ∃ items values, d.pattern.body.valueAt root (.node []) = .ok items ∧ item ∈ items ∧
    d.value.body.valueAt root item = .ok values ∧ ∃ v ∈ values, v.stringValue root = text

/-- **A definition can be evaluated**: its match pattern, and its use expression at every item that
the pattern selects. -/
def KeyDefinition.Evaluates (root : Node) (d : KeyDefinition) : Prop :=
  ∃ items, d.pattern.body.valueAt root (.node []) = .ok items ∧
    ∀ item ∈ items, ∃ values, d.value.body.valueAt root item = .ok values

/-- What a definition adds to an index for an item that its pattern selects. -/
def KeyDefinition.entriesAt (root : Node) (d : KeyDefinition) (item : Item) :
    Except EvalError Index := do
  let values ← d.value.body.valueAt root item
  return values.map fun v => (v.stringValue root, item)

/-- What a definition adds to an index for the items that its pattern selects. -/
def KeyDefinition.entriesOf (root : Node) (d : KeyDefinition) (items : Sequence) :
    Except EvalError Index :=
  items.mapM (d.entriesAt root) >>= fun found => pure found.flatten

/-- What a definition adds to an index. -/
def KeyDefinition.entries (root : Node) (d : KeyDefinition) : Except EvalError Index :=
  d.pattern.body.valueAt root (.node []) >>= d.entriesOf root

theorem indexItems_keyless {d : KeyDefinition} (h : d.value.body.reads = []) (vars : Variables) :
    ∀ items : Sequence,
      indexItems (keyless root vars) d.value.body items = Eval.lift (d.entriesOf root items)
  | [] => rfl
  | item :: rest => by
    rw [indexItems, eval_keyless h, indexItems_keyless h vars rest, KeyDefinition.entriesOf,
      KeyDefinition.entriesOf, List.mapM_cons]
    generalize rest.mapM (d.entriesAt root) = found
    unfold KeyDefinition.entriesAt
    cases d.value.body.valueAt root item with
    | error e => rfl
    | ok values => cases found <;> rfl

theorem buildIndex_keyless (vars : Variables) : ∀ {definitions : List KeyDefinition},
    (∀ d ∈ definitions, d.reads = []) → buildIndex (keyless root vars) definitions =
      Eval.lift (definitions.mapM (KeyDefinition.entries root) >>= fun found => pure found.flatten)
  | [], _ => rfl
  | d :: rest, h => by
    rw [List.forall_mem_cons] at h
    obtain ⟨hpattern, hvalue⟩ := List.append_eq_nil_iff.1 h.1
    have hitems : indexItems (keyless root vars) d.value.body =
        fun items => Eval.lift (d.entriesOf root items) := funext (indexItems_keyless hvalue vars)
    rw [buildIndex, eval_keyless hpattern, hitems, buildIndex_keyless vars h.2, List.mapM_cons]
    generalize rest.mapM (KeyDefinition.entries root) = found
    unfold KeyDefinition.entries
    cases d.pattern.body.valueAt root (.node []) with
    | error e => rfl
    | ok items =>
      change (Eval.lift (d.entriesOf root items) >>= _) =
        Eval.lift ((d.entriesOf root items >>= _) >>= _)
      cases d.entriesOf root items with
      | error e => rfl
      | ok first => cases found <;> rfl

namespace KeyDefinition

variable {d : KeyDefinition} {index : Index} {text : String}

theorem exists_entries : (∃ index, d.entries root = .ok index) ↔ d.Evaluates root := by
  have hitem (item : Item) : (∃ index, d.entriesAt root item = .ok index) ↔
      ∃ values, d.value.body.valueAt root item = .ok values := by
    unfold entriesAt
    cases d.value.body.valueAt root item <;> simp
  have hitems (items : Sequence) : (∃ index, d.entriesOf root items = .ok index) ↔
      ∀ item ∈ items, ∃ values, d.value.body.valueAt root item = .ok values := by
    simp only [← hitem, ← exists_mapM_eq_ok, entriesOf]
    cases items.mapM (d.entriesAt root) <;> simp
  simp only [Evaluates, ← hitems, entries, bind_eq_ok]
  exact ⟨fun ⟨index, items, h, hindex⟩ => ⟨items, h, index, hindex⟩,
    fun ⟨items, h, index, hindex⟩ => ⟨index, items, h, hindex⟩⟩

/-- **An index has an item under a text** if a definition finds the item by it. -/
theorem mem_entries (h : d.entries root = .ok index) :
    (text, item) ∈ index ↔ d.Finds root text item := by
  obtain ⟨items, hitems, h⟩ := bind_eq_ok.1 h
  obtain ⟨found, hfound, h⟩ := bind_eq_ok.1 h
  cases h
  rw [mem_flatten_of_mapM hfound]
  constructor
  · rintro ⟨selected, hselected, entries, hentries, hmem⟩
    obtain ⟨values, hvalues, h⟩ := bind_eq_ok.1 hentries
    cases h
    obtain ⟨v, hv, heq⟩ := List.mem_map.1 hmem
    cases heq
    exact ⟨items, values, hitems, hselected, hvalues, v, hv, rfl⟩
  · rintro ⟨items', values, hitems', hselected, hvalues, v, hv, rfl⟩
    obtain rfl := Except.ok.inj (hitems.symm.trans hitems')
    exact ⟨item, hselected, _, bind_eq_ok.2 ⟨values, hvalues, rfl⟩, List.mem_map.2 ⟨v, hv, rfl⟩⟩

end KeyDefinition

/-! ## What a key finds -/

theorem reads_of_mem_named (hkeys : keys.reads = []) : ∀ d ∈ keys.named name, d.reads = [] := by
  intro d hd
  obtain ⟨named, hnamed, rfl⟩ := List.mem_map.1 hd
  exact List.flatMap_eq_nil_iff.1 hkeys named (List.mem_filter.1 hnamed).1

/-- **The index of a key** has what each of its definitions adds to it. -/
theorem builtIndex_eq (hkeys : keys.reads = []) (hname : keys.named name ≠ [])
    (vars : Variables) : builtIndex root vars keys name =
      (keys.named name).mapM (KeyDefinition.entries root) >>= fun found => pure found.flatten := by
  have hbuild : buildIndex (keyless root vars) (keys.named name) = _ :=
    buildIndex_keyless vars (reads_of_mem_named hkeys)
  unfold builtIndex
  split
  · contradiction
  · rw [hbuild]
    cases (keys.named name).mapM (KeyDefinition.entries root) <;> rfl

/-- **A key finds an item by some values**, below `top` if there is one: a definition of the key
finds it by the text of one of the values. -/
def Keys.Finds (keys : Keys) (root : Node) (name : String) (values : Sequence)
    (top : Option Item) (item : Item) : Prop :=
  (∃ d ∈ keys.named name, ∃ v ∈ values, d.Finds root (v.stringValue root) item) ∧
    ∀ t, top = some t → item.LiesIn t

variable {index : Index} {values : Sequence} {top : Option Item}

theorem mem_lookup :
    item ∈ Setting.lookup root index values ↔ ∃ v ∈ values, (v.stringValue root, item) ∈ index := by
  simp [Setting.lookup, and_comm]

/-- **What is looked up in the index of a key** is what the key finds. -/
theorem mem_found (hkeys : keys.reads = []) (hname : keys.named name ≠ [])
    (hindex : builtIndex root vars keys name = .ok index)
    (htop : ∀ t, top = some t → t.isNode = true) :
    (item ∈ Setting.lookup root index values ∧
      ∀ t, top = some t → Library.isWithin item t = true) ↔
        keys.Finds root name values top item := by
  rw [builtIndex_eq hkeys hname] at hindex
  obtain ⟨found, hfound, h⟩ := bind_eq_ok.1 hindex
  cases h
  have hwithin : (∀ t, top = some t → Library.isWithin item t = true) ↔
      ∀ t, top = some t → item.LiesIn t :=
    forall₂_congr fun t ht => isWithin_iff (htop t ht)
  rw [Keys.Finds, hwithin, mem_lookup]
  refine and_congr_left' ?_
  simp only [mem_flatten_of_mapM hfound]
  constructor
  · rintro ⟨v, hv, d, hd, entries, hentries, hmem⟩
    exact ⟨d, hd, v, hv, (KeyDefinition.mem_entries hentries).1 hmem⟩
  · rintro ⟨d, hd, v, hv, hfinds⟩
    obtain ⟨entries, hentries⟩ := exists_mapM_eq_ok.1 ⟨found, hfound⟩ d hd
    exact ⟨v, hv, d, hd, entries, hentries, (KeyDefinition.mem_entries hentries).2 hfinds⟩

theorem mem_keyed {s : Setting} (hitem : item.isNode = true) :
    item ∈ s.keyed index values top ↔ item ∈ Setting.lookup s.root index values ∧
      ∀ t, top = some t → Library.isWithin item t = true := by
  unfold Setting.keyed
  rw [mem_inDocumentOrder_of_isNode hitem]
  cases top <;> simp

theorem mem_of_mem_keyed {s : Setting} (h : item ∈ s.keyed index values top) :
    item ∈ Setting.lookup s.root index values ∧
      ∀ t, top = some t → Library.isWithin item t = true := by
  have h := inDocumentOrder_subset _ h
  cases top with
  | none => exact ⟨h, nofun⟩
  | some t =>
    obtain ⟨hfound, hwithin⟩ := List.mem_filter.1 h
    exact ⟨hfound, fun _ ht => Option.some.inj ht ▸ hwithin⟩

/-! ## Calls -/

/-- **The indexes that the keys of a document may have been given**: each is built when its key is
first used, by whatever is evaluated then. -/
inductive Keys.Built (keys : Keys) (root : Node) : Indexes → Prop
  | none : Keys.Built keys root []
  | used {vars : Variables} {name : String} {index : Index} {indexes rest : Indexes}
      (before : Keys.Built keys root indexes)
      (use : indexOf root vars keys name indexes = .ok (index, rest)) : Keys.Built keys root rest

/-- Evaluating keeps to the indexes that keys may have been given. -/
theorem Keys.Built.eval (hbuilt : keys.Built root indexes) {e : Expr} {items : Sequence}
    (h : (setting root keys vars).eval focus e indexes = .ok (items, rest)) :
    keys.Built root rest := by
  have hkept : Compatible fun α x _ => ∀ indexes (a : α) rest,
      keys.Built root indexes → x indexes = .ok (a, rest) → keys.Built root rest := by
    refine ⟨fun {α x} _ indexes a rest hbuilt h => ?_,
      fun {α β x y f g} hx hf indexes b rest hbuilt h => ?_⟩
    · cases x with
      | ok a => cases h; exact hbuilt
      | error e => cases h
    · obtain ⟨a, between, ha, h⟩ := Eval.bind_eq_ok.1 h
      exact hf a _ _ _ (hx _ _ _ hbuilt ha) h
  exact hkept.eval e focus
    ⟨rfl, fun _ _ _ _ hbuilt h => hbuilt.used h, .inl fun _ _ => nofun, .refl _ _⟩ _ _ _ hbuilt h

/-- Where key definitions use no variables, the indexes that were built are those that are built
later. -/
theorem Keys.Built.continues (hkeys : keys.reads = []) (hbuilt : keys.Built root indexes)
    (vars : Variables) : Continues root vars keys [] indexes := by
  induction hbuilt with
  | none => exact .refl []
  | @used vars' _ _ _ _ before use ih =>
    have hsame : SameOn keys.reads vars' vars := by
      rw [hkeys]
      exact List.forall_mem_nil _
    rw [indexOf_congr hsame] at use
    exact ih.of_indexOf use

/-- **What a call of `key()` asks for**: the name of a key, values and, if there is a third
argument, the item in which to search. -/
inductive Keys.Asks (keys : Keys) (root : Node) (vars : Variables) (focus : Focus) :
    List Expr → String → Sequence → Option Item → Prop
  | anywhere {e₀ e₁ : Expr} {names values : Sequence}
      (hnames : Yields ((setting root keys vars).eval focus e₀) [] names)
      (hvalues : Yields ((setting root keys vars).eval focus e₁) [] values) :
      Keys.Asks keys root vars focus [e₀, e₁] (Library.firstString root names) values none
  | below {e₀ e₁ e₂ : Expr} {names values tops : Sequence} {top : Item}
      (hnames : Yields ((setting root keys vars).eval focus e₀) [] names)
      (hvalues : Yields ((setting root keys vars).eval focus e₁) [] values)
      (htops : Yields ((setting root keys vars).eval focus e₂) [] tops)
      (hfirst : tops.head? = some top) (htop : top.isNode = true) :
      Keys.Asks keys root vars focus [e₀, e₁, e₂] (Library.firstString root names) values
        (some top)

theorem Keys.Asks.isNode {arguments : List Expr} {t : Item}
    (h : keys.Asks root vars focus arguments name values top) (ht : top = some t) :
    t.isNode = true := by
  cases h with
  | anywhere => cases ht
  | below _ _ _ _ htop => exact Option.some.inj ht ▸ htop

section Calls

variable (s : Setting) (focus : Focus) (x y z : Eval Sequence) (e₀ e₁ e₂ : Expr)

theorem call_key_anywhere : s.call focus .key [x, y] =
    (s.stringOr focus (some x) >>= fun name => s.index name >>= fun index =>
      y >>= fun values => Eval.pure (s.keyed index values none)) := rfl

theorem call_key_below : s.call focus .key [x, y, z] =
    (s.stringOr focus (some x) >>= fun name => s.index name >>= fun index =>
      z >>= fun tops =>
        match tops.head? with
        | none => Eval.pure []
        | some top =>
          if top.isNode then y >>= fun values => Eval.pure (s.keyed index values (some top))
          else Eval.fail .topIsAtomic) := rfl

theorem eval_call_pair (f : CoreFunction) :
    s.eval focus (.call f [e₀, e₁]) = s.call focus f [s.eval focus e₀, s.eval focus e₁] := by
  rw [Setting.eval]
  simp only [Setting.argumentsOf]

theorem eval_call_triple (f : CoreFunction) : s.eval focus (.call f [e₀, e₁, e₂]) =
    s.call focus f [s.eval focus e₀, s.eval focus e₁, s.eval focus e₂] := by
  rw [Setting.eval]
  simp only [Setting.argumentsOf]

end Calls

/-- What an expression yields without indexes it yields with them, and it leaves them as they would
be without it. -/
theorem exists_eval_of_yields {e : Expr} {items : Sequence}
    (hitems : Yields ((setting root keys vars).eval focus e) [] items)
    (hindexes : Continues root vars keys [] indexes) :
    ∃ rest, (setting root keys vars).eval focus e indexes = .ok (items, rest) ∧
      Continues root vars keys [] rest :=
  (repeatable_eval (.refl _ _) [] e focus).exists_of_yields (.refl []) hindexes hitems

/-- **The name of a key is a text, and its index is built or found.** What comes then depends on the
other arguments. -/
theorem map_fst_look_up {e : Expr} {names items : Sequence} {f : Index → Eval Sequence}
    (hnames : Yields ((setting root keys vars).eval focus e) [] names)
    (hindexes : Continues root vars keys [] indexes)
    (hf : ∀ index rest, Continues root vars keys [] rest → (f index rest).map Prod.fst =
      .ok ((setting root keys vars).keyed index items top)) :
    (((setting root keys vars).stringOr focus (some ((setting root keys vars).eval focus e)) >>=
      fun name => indexOf root vars keys name >>= f) indexes).map Prod.fst =
        (builtIndex root vars keys (Library.firstString root names)).map fun index =>
          (setting root keys vars).keyed index items top := by
  obtain ⟨rest, hname, hrest⟩ := exists_eval_of_yields hnames hindexes
  have htext : (setting root keys vars).stringOr focus
      (some ((setting root keys vars).eval focus e)) indexes =
        .ok (Library.firstString root names, rest) := Eval.bind_of_ok hname
  have hindex : (indexOf root vars keys (Library.firstString root names) rest).map Prod.fst =
      builtIndex root vars keys (Library.firstString root names) := by
    rw [hrest, indexOf_eq]
    cases builtIndex root vars keys (Library.firstString root names) <;> rfl
  rw [Eval.bind_of_ok htext, ← hindex]
  cases hfound : indexOf root vars keys (Library.firstString root names) rest with
  | error e =>
    rw [Eval.bind_of_error hfound]
    rfl
  | ok found =>
    rw [Eval.bind_of_ok hfound, hf _ _ (hrest.of_indexOf hfound)]
    rfl

/-- **A call looks into the index of its key**, which is the same whatever was built before. -/
theorem Keys.Asks.eval_call {arguments : List Expr}
    (h : keys.Asks root vars focus arguments name values top)
    (hindexes : Continues root vars keys [] indexes) :
    ((setting root keys vars).eval focus (.call .key arguments) indexes).map Prod.fst =
      (builtIndex root vars keys name).map fun index =>
        (setting root keys vars).keyed index values top := by
  cases h with
  | anywhere hnames hvalues =>
    rw [eval_call_pair, call_key_anywhere]
    refine map_fst_look_up hnames hindexes fun index rest hrest => ?_
    obtain ⟨rest', hvalues, -⟩ := exists_eval_of_yields hvalues hrest
    rw [Eval.bind_of_ok hvalues]
    rfl
  | below hnames hvalues htops hfirst htop =>
    rw [eval_call_triple, call_key_below]
    refine map_fst_look_up hnames hindexes fun index rest hrest => ?_
    obtain ⟨rest', htops, hrest'⟩ := exists_eval_of_yields htops hrest
    obtain ⟨rest'', hvalues, -⟩ := exists_eval_of_yields hvalues hrest'
    rw [Eval.bind_of_ok htops, hfirst]
    dsimp only
    rw [if_pos htop, Eval.bind_of_ok hvalues]
    rfl

/-- The index of a key can be built where its definitions can be evaluated. -/
theorem exists_builtIndex (hkeys : keys.reads = []) (hname : keys.named name ≠ []) :
    (∃ index, builtIndex root vars keys name = .ok index) ↔
      ∀ d ∈ keys.named name, d.Evaluates root := by
  simp only [← KeyDefinition.exists_entries, ← exists_mapM_eq_ok, builtIndex_eq hkeys hname]
  cases (keys.named name).mapM (KeyDefinition.entries root) <;> simp

/-- **A call of `key()` finds what a search through all definitions of the key would find**, where
the definitions of keys use no variables. It does so whichever indexes were built before, and ends
in a value if the definitions can be evaluated. What it gives is in document order and has nothing
twice; all of it is found by the key, and every node and attribute that the key finds is there. -/
theorem Setting.eval_key (hkeys : keys.reads = []) (hname : keys.named name ≠ [])
    {arguments : List Expr} (h : keys.Asks root vars focus arguments name values top) :
    (∀ indexes indexes', keys.Built root indexes → keys.Built root indexes' →
      ((setting root keys vars).eval focus (.call .key arguments) indexes).map Prod.fst =
        ((setting root keys vars).eval focus (.call .key arguments) indexes').map Prod.fst) ∧
    ∀ indexes, keys.Built root indexes →
      ((∃ items,
          Yields ((setting root keys vars).eval focus (.call .key arguments)) indexes items) ↔
        ∀ d ∈ keys.named name, d.Evaluates root) ∧
      ∀ items rest,
        (setting root keys vars).eval focus (.call .key arguments) indexes = .ok (items, rest) →
          keys.Built root rest ∧ InOrder items ∧ items.Nodup ∧
          (∀ item ∈ items, keys.Finds root name values top item) ∧
          ∀ item, item.isNode = true → keys.Finds root name values top item → item ∈ items := by
  have hcall {indexes : Indexes} (hbuilt : keys.Built root indexes) :=
    h.eval_call (hbuilt.continues hkeys vars)
  refine ⟨fun indexes indexes' hbuilt hbuilt' => (hcall hbuilt).trans (hcall hbuilt').symm,
    fun indexes hbuilt => ⟨?_, fun items rest hitems => ?_⟩⟩
  · rw [← @exists_builtIndex root keys vars name hkeys hname]
    have hcall := hcall hbuilt
    unfold Yields
    cases hx : (setting root keys vars).eval focus (.call .key arguments) indexes with
    | error e =>
      rw [hx] at hcall
      rw [map_eq_error.1 hcall.symm]
      simp
    | ok r =>
      rw [hx] at hcall
      obtain ⟨index, hindex, -⟩ := map_eq_ok.1 hcall.symm
      exact iff_of_true ⟨r.1, r.2, rfl⟩ ⟨index, hindex⟩
  · have hcall := hcall hbuilt
    rw [hitems] at hcall
    obtain ⟨index, hindex, hkeyed⟩ := map_eq_ok.1 hcall.symm
    change items = _ at hkeyed
    have hfound (item : Item) : _ ↔ keys.Finds root name values top item :=
      mem_found hkeys hname hindex fun _ => h.isNode
    have horder : InOrder items := by
      rw [hkeyed]
      exact pairwise_inDocumentOrder _
    refine ⟨hbuilt.eval hitems, horder, horder.nodup, fun item hitem => ?_, fun item hnode hf => ?_⟩
    · rw [hkeyed] at hitem
      exact (hfound item).1 (mem_of_mem_keyed hitem)
    · rw [hkeyed]
      exact (mem_keyed hnode).2 ((hfound item).2 hf)

/-- A sequence with the place of one node or attribute consists of it. -/
theorem Item.eq_singleton_of_map_place? {items : Sequence} (hnode : item.isNode = true)
    (h : items.map Item.place? = [item.place?]) : items = [item] := by
  obtain ⟨found, rfl, hplace⟩ := List.map_eq_singleton_iff.1 h
  rw [Item.eq_of_samePlace hnode (beq_iff_eq.2 hplace.symm)]

/-- An element that is found by its attribute, whichever indexes were built. -/
theorem Setting.eval_key_attribute :
    let root : Node := .root [.element ⟨⟨none, "r"⟩, [⟨⟨none, "n"⟩, "v"⟩], [], 0⟩ []]
    ∃ pattern value : Expression, Expression.pattern .initial "/r" = .ok pattern ∧
      Expression.compile .initial "@n" = .ok value ∧
      Keys.reads [("k", ⟨pattern, value⟩)] = [] ∧
      ∀ indexes, Keys.Built [("k", ⟨pattern, value⟩)] root indexes → ∃ items,
        Yields ((setting root [("k", ⟨pattern, value⟩)] []).eval (.on (.node []))
          (.call .key [.literal "k", .literal "v"])) indexes items ∧ .node [0] ∈ items := by
  intro root
  have hread : (do
      let pattern ← Expression.pattern .initial "/r"
      let value ← Expression.compile .initial "@n"
      let items ← (pattern.body.valueAt root (.node [])).mapError fun e => .path "" (.dynamic e)
      let values ← (value.body.valueAt root (.node [0])).mapError fun e => .path "" (.dynamic e)
      return (Keys.reads [("k", ⟨pattern, value⟩)], items, values)).toOption.any
        (fun read : List String × Sequence × Sequence => read.1 == [] &&
          (read.2.1.map Item.place? == [(Item.node [0]).place?] &&
            read.2.2.map Item.place? == [(Item.attribute ([0]) 0).place?])) = true := by
    decide +kernel
  obtain ⟨read, hread, hfound⟩ := exists_of_any_toOption hread
  obtain ⟨pattern, hpattern, hread⟩ := bind_eq_ok.1 hread
  obtain ⟨value, hcompiled, hread⟩ := bind_eq_ok.1 hread
  obtain ⟨items, hitems, hread⟩ := bind_eq_ok.1 hread
  obtain ⟨values, hvalues, hread⟩ := bind_eq_ok.1 hread
  cases hread
  rw [Bool.and_eq_true, Bool.and_eq_true, beq_iff_eq, beq_iff_eq, beq_iff_eq] at hfound
  obtain ⟨hreads, hitem, hattribute⟩ := hfound
  obtain rfl := Item.eq_singleton_of_map_place? rfl hitem
  obtain rfl := Item.eq_singleton_of_map_place? rfl hattribute
  rw [mapError_eq_ok] at hitems hvalues
  have hnamed : Keys.named [("k", ⟨pattern, value⟩)] "k" = [⟨pattern, value⟩] := by
    simp [Keys.named]
  have hnames : Yields ((setting root [("k", ⟨pattern, value⟩)] []).eval (.on (.node []))
      (.literal "k")) [] [.string "k"] := ⟨[], by rw [Setting.eval]; rfl⟩
  have htexts : Yields ((setting root [("k", ⟨pattern, value⟩)] []).eval (.on (.node []))
      (.literal "v")) [] [.string "v"] := ⟨[], by rw [Setting.eval]; rfl⟩
  have hasks : Keys.Asks [("k", ⟨pattern, value⟩)] root [] (.on (.node []))
      [.literal "k", .literal "v"] "k" [.string "v"] none := .anywhere hnames htexts
  have hfinds : KeyDefinition.Finds root ⟨pattern, value⟩
      ((Item.string "v").stringValue root) (.node [0]) :=
    ⟨_, _, hitems, List.mem_singleton_self _, hvalues, _, List.mem_singleton_self _, rfl⟩
  refine ⟨pattern, value, hpattern, hcompiled, hreads, fun indexes hbuilt => ?_⟩
  obtain ⟨-, hkey⟩ := Setting.eval_key hreads (by simp [hnamed]) hasks
  obtain ⟨hends, hmem⟩ := hkey indexes hbuilt
  have hevaluates : KeyDefinition.Evaluates root ⟨pattern, value⟩ :=
    ⟨_, hitems, List.forall_mem_singleton.2 ⟨_, hvalues⟩⟩
  obtain ⟨found, rest, hfound⟩ := hends.2 (by simpa [hnamed] using hevaluates)
  refine ⟨found, ⟨rest, hfound⟩, (hmem found rest hfound).2.2.2.2 _ rfl ?_⟩
  exact ⟨⟨⟨pattern, value⟩, by simp [hnamed], .string "v", by simp, hfinds⟩, by simp⟩

/-- The text that an item is, if it is one. -/
def Item.text? : Item → Option String
  | .string s => some s
  | _ => none

theorem Item.text?_eq_some {s : String} : item.text? = some s ↔ item = .string s := by
  cases item <;> simp [Item.text?]

/-- **A match pattern that selects an atomic value** brings the value into what its key finds. -/
theorem Setting.eval_key_atomic : ∃ pattern value call : Expression, ∃ rest,
    Expression.pattern .initial "/r/name()" = .ok pattern ∧
      Expression.compile .initial "'v'" = .ok value ∧
      Expression.compile .initial "key('k', 'v')" = .ok call ∧
      Keys.reads [("k", ⟨pattern, value⟩)] = [] ∧
      call.evaluate (.root [.element ⟨⟨none, "r"⟩, [], [], 0⟩ []]) [("k", ⟨pattern, value⟩)] []
        (.node []) [] = .ok ([.string "r"], rest) := by
  have hread : (do
      let pattern ← Expression.pattern .initial "/r/name()"
      let value ← Expression.compile .initial "'v'"
      let call ← Expression.compile .initial "key('k', 'v')"
      let result ← call.evaluate (.root [.element ⟨⟨none, "r"⟩, [], [], 0⟩ []])
        [("k", ⟨pattern, value⟩)] [] (.node []) []
      return (Keys.reads [("k", ⟨pattern, value⟩)], result)).toOption.any
        (fun read : List String × Sequence × Indexes =>
          read.1 == [] && read.2.1.map Item.text? == [some "r"]) = true := by decide +kernel
  obtain ⟨read, hread, htext⟩ := exists_of_any_toOption hread
  obtain ⟨pattern, hpattern, hread⟩ := bind_eq_ok.1 hread
  obtain ⟨value, hcompiled, hread⟩ := bind_eq_ok.1 hread
  obtain ⟨call, hcall, hread⟩ := bind_eq_ok.1 hread
  obtain ⟨⟨items, rest⟩, hresult, hread⟩ := bind_eq_ok.1 hread
  cases hread
  rw [Bool.and_eq_true, beq_iff_eq, beq_iff_eq] at htext
  obtain ⟨hreads, htext⟩ := htext
  obtain ⟨item, rfl, hitem⟩ := List.map_eq_singleton_iff.1 htext
  rw [Item.text?_eq_some.1 hitem] at hresult
  exact ⟨pattern, value, call, rest, hpattern, hcompiled, hcall, hreads, hresult⟩

end XmlConformance.Path
