import XmlConformance.Proofs.Outcome
import XmlConformance.Proofs.Path.Congruence

/-!
# Proofs/Path/Indexing — evaluation does not depend on which indexes were built

The index of a key is built with the variables at its first use, and kept. Wherever the variables
that key definitions read have the same values, it does not matter when that was: an index that is
found is the one that would be built (`Continues`). So from all such indexes an evaluation gives the
same (`Repeatable`), and leaves such indexes behind.
-/

namespace XmlConformance.Path

open Xml

variable {root : Node} {keys : Keys} {vars vars' : Variables} {α β : Type} {ε : Type}

/-! ## What key definitions read -/

/-- The variables that the definition of a key reads. -/
def KeyDefinition.reads (d : KeyDefinition) : List String :=
  d.pattern.body.reads ++ d.value.body.reads

/-- **The variables that the definitions of keys read.** -/
def Keys.reads (keys : Keys) : List String := keys.flatMap fun named => named.2.reads

/-- Equality is kept where evaluations go on with each other's results. -/
theorem compatible_eq : Compatible fun _ x y => x = y where
  lift _ := rfl
  bind hxy hfg := by
    obtain rfl := hxy
    obtain rfl := funext hfg
    rfl

/-- The value of an expression in which no key is used depends only on the variables that it
reads. -/
theorem eval_keyless_congr {e : Expr} (h : SameOn e.reads vars vars') (focus : Focus) :
    (keyless root vars).eval focus e = (keyless root vars').eval focus e := by
  have hroot : (keyless root vars).root = (keyless root vars').root := rfl
  exact compatible_eq.eval e focus ⟨hroot, fun _ => rfl, .inl fun _ _ => rfl, h⟩

theorem indexItems_congr {value : Expr} (h : SameOn value.reads vars vars') :
    ∀ items : Sequence,
      indexItems (keyless root vars) value items = indexItems (keyless root vars') value items
  | [] => rfl
  | item :: rest => by
    rw [indexItems, indexItems, indexItems_congr h rest, eval_keyless_congr h]
    rfl

theorem buildIndex_congr : ∀ {definitions : List KeyDefinition},
    (∀ d ∈ definitions, SameOn d.reads vars vars') →
      buildIndex (keyless root vars) definitions = buildIndex (keyless root vars') definitions
  | [], _ => rfl
  | d :: rest, h => by
    rw [List.forall_mem_cons] at h
    obtain ⟨hpattern, hvalue⟩ := sameOn_append.1 h.1
    have hitems : indexItems (keyless root vars) d.value.body =
        indexItems (keyless root vars') d.value.body := funext (indexItems_congr hvalue)
    rw [buildIndex, buildIndex, buildIndex_congr h.2, eval_keyless_congr hpattern, hitems]

/-- The index of a key, built now. -/
def builtIndex (root : Node) (vars : Variables) (keys : Keys) (name : String) :
    Except EvalError Index :=
  match keys.named name with
  | [] => .error (.undeclaredKey name)
  | definitions => (buildIndex (keyless root vars) definitions []).map Prod.fst

/-- **An index is found or built**, and kept if it is built. -/
theorem indexOf_eq (name : String) (indexes : Indexes) : indexOf root vars keys name indexes =
    match indexes.lookup name with
    | some index => .ok (index, indexes)
    | none =>
      (builtIndex root vars keys name).map fun index => (index, (name, index) :: indexes) := by
  unfold indexOf builtIndex
  cases indexes.lookup name with
  | some index => rfl
  | none =>
    cases keys.named name with
    | nil => rfl
    | cons d rest =>
      dsimp only
      cases buildIndex (keyless root vars) (d :: rest) [] <;> rfl

/-- **The index of a key** depends only on the variables that key definitions read. -/
theorem indexOf_congr (h : SameOn keys.reads vars vars') (name : String) :
    indexOf root vars keys name = indexOf root vars' keys name := by
  have hdefinitions : ∀ d ∈ keys.named name, SameOn d.reads vars vars' := by
    intro d hd n hn
    obtain ⟨named, hnamed, rfl⟩ := List.mem_map.1 hd
    exact h n (List.mem_flatMap.2 ⟨named, (List.mem_filter.1 hnamed).1, hn⟩)
  have hbuilt : builtIndex root vars keys name = builtIndex root vars' keys name := by
    unfold builtIndex
    cases hnamed : keys.named name with
    | nil => rfl
    | cons d rest =>
      rw [hnamed] at hdefinitions
      show (buildIndex _ (d :: rest) []).map Prod.fst = (buildIndex _ (d :: rest) []).map Prod.fst
      rw [buildIndex_congr hdefinitions]
  funext indexes
  rw [indexOf_eq, indexOf_eq, hbuilt]

/-! ## Repeatable computations -/

/-- **From all indexes of some kind a computation gives the same**, and leaves such indexes
behind. -/
def Repeatable (C : Indexes → Prop) (x : Indexes → Except ε (α × Indexes)) : Prop :=
  ∀ indexes indexes', C indexes → C indexes' →
    (∃ e, x indexes = .error e ∧ x indexes' = .error e) ∨
      ∃ a rest rest', x indexes = .ok (a, rest) ∧ x indexes' = .ok (a, rest') ∧ C rest ∧ C rest'

namespace Repeatable

variable {C : Indexes → Prop}

theorem ended (a : α) :
    Repeatable C fun indexes => (.ok (a, indexes) : Except ε (α × Indexes)) :=
  fun indexes indexes' h h' => .inr ⟨a, indexes, indexes', rfl, rfl, h, h'⟩

theorem throw (e : ε) : Repeatable C fun _ => (.error e : Except ε (α × Indexes)) :=
  fun _ _ _ _ => .inl ⟨e, rfl, rfl⟩

/-- A computation that goes on with a result that there can be. -/
theorem next {x : Indexes → Except ε (α × Indexes)} {f : α × Indexes → Except ε (β × Indexes)}
    (hx : Repeatable C x)
    (hf : ∀ a indexes rest, x indexes = .ok (a, rest) →
      Repeatable C fun indexes => f (a, indexes)) :
    Repeatable C fun indexes => x indexes >>= f := by
  intro indexes indexes' h h'
  obtain ⟨e, he, he'⟩ | ⟨a, rest, rest', ha, ha', hrest, hrest'⟩ := hx indexes indexes' h h'
  · exact .inl ⟨e, by simp [he], by simp [he']⟩
  · simp only [ha, ha', ok_bind]
    exact hf a indexes rest ha rest rest' hrest hrest'

/-- Being repeatable is kept where evaluations go on with each other's results. -/
theorem compatible : Compatible fun _ x _ => Repeatable C x where
  lift {_ x} _ := by
    cases x with
    | ok a => exact ended a
    | error e => exact throw e
  bind {α β x y f g} hx hf := by
    have hbind : (x >>= f) = fun indexes => x indexes >>= fun r => f r.1 r.2 := by
      funext indexes
      change Eval.bind x f indexes = _
      unfold Eval.bind
      cases x indexes <;> rfl
    rw [hbind]
    exact hx.next fun a _ _ _ => hf a

end Repeatable

/-! ## Indexes that continue others -/

/-- **Indexes continue others**: under every name they give the index that the others give. -/
def Continues (root : Node) (vars : Variables) (keys : Keys) (start indexes : Indexes) : Prop :=
  ∀ name, (indexOf root vars keys name indexes).map Prod.fst =
    (indexOf root vars keys name start).map Prod.fst

variable {start indexes rest : Indexes} {name : String} {index : Index}

theorem Continues.refl (start : Indexes) : Continues root vars keys start start := fun _ => rfl

theorem lookup_of_indexOf (h : indexOf root vars keys name indexes = .ok (index, rest))
    (other : String) :
    rest.lookup other = if other = name then some index else indexes.lookup other := by
  rw [indexOf_eq] at h
  cases hfound : indexes.lookup name with
  | some found =>
    rw [hfound] at h
    cases h
    split
    · next heq => rw [heq, hfound]
    · rfl
  | none =>
    rw [hfound] at h
    cases hbuilt : builtIndex root vars keys name with
    | error e =>
      rw [hbuilt] at h
      cases h
    | ok built =>
      rw [hbuilt] at h
      cases h
      by_cases heq : other = name
      · rw [if_pos heq, heq, List.lookup_cons_self]
      · rw [if_neg heq, List.lookup_cons, beq_false_of_ne heq]

/-- The index that is given under a name depends on the indexes by what they have there. -/
theorem map_fst_indexOf_congr (h : indexes.lookup name = rest.lookup name) :
    (indexOf root vars keys name indexes).map Prod.fst =
      (indexOf root vars keys name rest).map Prod.fst := by
  rw [indexOf_eq, indexOf_eq, h]
  cases rest.lookup name with
  | some found => rfl
  | none => cases builtIndex root vars keys name <;> rfl

/-- **Using a key** leaves indexes that continue the same. -/
theorem Continues.of_indexOf (hstart : Continues root vars keys start indexes)
    (h : indexOf root vars keys name indexes = .ok (index, rest)) :
    Continues root vars keys start rest := by
  intro other
  have hlookup := lookup_of_indexOf h other
  rw [← hstart other]
  by_cases heq : other = name
  · rw [if_pos heq] at hlookup
    rw [heq, h, ← heq, indexOf_eq, hlookup]
  · rw [if_neg heq] at hlookup
    exact map_fst_indexOf_congr hlookup

theorem repeatable_indexOf (start : Indexes) (name : String) :
    Repeatable (Continues root vars keys start) (indexOf root vars keys name) := by
  intro indexes indexes' h h'
  have hsame := (h name).trans (h' name).symm
  cases hx : indexOf root vars keys name indexes with
  | error e =>
    rw [hx] at hsame
    exact .inl ⟨e, rfl, map_eq_error.1 hsame.symm⟩
  | ok r =>
    rw [hx] at hsame
    cases hy : indexOf root vars keys name indexes' with
    | error e =>
      rw [hy] at hsame
      cases hsame
    | ok r' =>
      rw [hy] at hsame
      have hindex : r.1 = r'.1 := Except.ok.inj hsame
      exact .inr ⟨r.1, r.2, r'.2, rfl, by rw [hindex], h.of_indexOf hx, h'.of_indexOf hy⟩

/-- **The value of an expression** does not depend on which indexes were built, if the variables
that key definitions read have the values that they had at the start. -/
theorem repeatable_eval (h : SameOn keys.reads vars' vars) (start : Indexes) (e : Expr)
    (focus : Focus) :
    Repeatable (Continues root vars keys start) ((setting root keys vars').eval focus e) := by
  refine Repeatable.compatible.eval e _
    ⟨rfl, fun name => ?_, .inl fun _ _ => .throw _, .refl _ _⟩
  show Repeatable _ (indexOf root vars' keys name)
  rw [indexOf_congr h]
  exact repeatable_indexOf start name

theorem Expression.repeatable_evaluate (h : SameOn keys.reads vars' vars) (start : Indexes)
    (e : Expression) (item : Item) :
    Repeatable (Continues root vars keys start) (e.evaluate root keys vars' item) := by
  have heval := @repeatable_eval root keys vars vars' h start e.body (.on item)
  intro indexes indexes' hstart hstart'
  show (∃ c, ((setting root keys vars').eval (.on item) e.body indexes).mapError _ = _ ∧
    ((setting root keys vars').eval (.on item) e.body indexes').mapError _ = _) ∨ ∃ a r r',
      ((setting root keys vars').eval (.on item) e.body indexes).mapError _ = _ ∧
        ((setting root keys vars').eval (.on item) e.body indexes').mapError _ = _ ∧ _
  obtain ⟨c, hc, hc'⟩ | ⟨a, r, r', ha, ha', hr, hr'⟩ := heval indexes indexes' hstart hstart'
  · exact .inl ⟨_, by rw [hc]; rfl, by rw [hc']; rfl⟩
  · exact .inr ⟨a, r, r', by rw [ha]; rfl, by rw [ha']; rfl, hr, hr'⟩

end XmlConformance.Path
