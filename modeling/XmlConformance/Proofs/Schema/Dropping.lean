import XmlConformance.Proofs.Schema.Applying
import XmlConformance.Proofs.Schema.ContentModel
import XmlConformance.Schema.Reading

/-!
# Proofs/Schema/Dropping — particles that never occur

A particle whose upper bound is 0 never occurs (`Occurs.never`). Dropping it from a sequence or from
an `xs:all` group changes nothing. Dropping it from a choice may: there it does not stand for
nothing but for the empty word, so a choice with such an alternative needs no children
(`Particle.language_of_drops`).

Hence what a content model binds never grows when such particles are dropped, and it stays as it is
unless a choice is left behind that needs a child (`Grammar.binds_of_drops`). An `xs:all` group has
no regard for its own upper bound.
-/

namespace XmlConformance.Schema

open Xml Relation

/-! ## Never -/

/-- Bounds that permit no occurrence. -/
def Occurs.never : Occurs := ⟨0, some 0⟩

/-- **Bounds are read in their order only.** -/
theorem ordered_of_readOccurs {t : Tag} {o : Occurs} (h : readOccurs t = .ok o) {most : ℕ}
    (hmost : o.most = some most) : o.least ≤ most := by
  have hcheck {least : ℕ} {upper : Option ℕ} {e : Error}
      (h : (if upper.any (· < least) then .error e else .ok ⟨least, upper⟩) = Except.ok o) :
      o.least ≤ most := by
    split at h
    · cases h
    · next hordered =>
      cases h
      obtain rfl : upper = some most := hmost
      simpa using hordered
  unfold readOccurs at h
  dsimp only at h
  split at h <;> obtain ⟨least, -, h⟩ := bind_eq_ok.1 h <;> split at h <;>
    obtain ⟨upper, -, h⟩ := bind_eq_ok.1 h <;> exact hcheck h

theorem eq_never_of_readOccurs {t : Tag} {o : Occurs} (h : readOccurs t = .ok o)
    (hmost : o.most = some 0) : o = .never := by
  obtain ⟨least, most⟩ := o
  obtain rfl : most = some 0 := hmost
  obtain rfl : least = 0 := Nat.le_zero.1 (ordered_of_readOccurs h rfl)
  rfl

section Repetitions

variable {α : Type*} {o : Occurs} {l m : Language α}

@[simp] theorem Occurs.times_never (l : Language α) : Occurs.never.times l = 1 := by
  ext w
  refine ⟨fun ⟨k, hk, hw⟩ => ?_, fun hw => ⟨0, ⟨le_rfl, fun _ _ => .inr rfl⟩, hw⟩⟩
  obtain rfl : k = 0 := (hk.2 0 rfl).elim Nat.le_zero.1 id
  exact hw

theorem Occurs.times_mono (o : Occurs) (h : l ≤ m) : o.times l ≤ o.times m :=
  fun _ ⟨k, hk, hw⟩ => ⟨k, hk, pow_le_pow_left' h k hw⟩

theorem one_le_of_nil_mem (h : [] ∈ l) : 1 ≤ l := fun w hw => by
  rwa [(Language.mem_one w).1 hw]

/-- With the empty word beside a language, some of the repetitions may be left out. -/
theorem exists_le_mem_pow : ∀ {k : ℕ} {w : List α}, w ∈ (1 + l) ^ k → ∃ j ≤ k, w ∈ l ^ j
  | 0, _, hw => ⟨0, le_rfl, hw⟩
  | k + 1, w, hw => by
    rw [pow_succ', add_mul, one_mul, Language.mem_add] at hw
    rcases hw with hw | ⟨u, hu, v, hv, rfl⟩
    · obtain ⟨j, hj, hw⟩ := exists_le_mem_pow hw
      exact ⟨j, hj.trans (Nat.le_succ k), hw⟩
    · obtain ⟨j, hj, hv⟩ := exists_le_mem_pow hv
      exact ⟨j + 1, Nat.succ_le_succ hj, by rw [pow_succ']; exact ⟨u, hu, v, hv, rfl⟩⟩

/-- **The empty word beside a language** adds nothing where the repetitions have it already. -/
theorem Occurs.times_one_add (h : [] ∈ o.times l) : o.times (1 + l) = o.times l := by
  refine le_antisymm (fun w ⟨k, hk, hw⟩ => ?_) (o.times_mono le_add_self)
  obtain ⟨n, hn, hnil⟩ := h
  rcases n.eq_zero_or_pos with rfl | hpos
  · have hleast : o.least = 0 := Nat.le_zero.1 hn.1
    obtain ⟨j, hj, hw⟩ := exists_le_mem_pow hw
    refine ⟨j, ⟨by omega, fun most hmost => ?_⟩, hw⟩
    have := hk.2 most hmost
    omega
  · obtain ⟨n, rfl⟩ := Nat.exists_eq_succ_of_ne_zero hpos.ne'
    rw [pow_succ', Language.mem_mul] at hnil
    obtain ⟨u, hu, v, -, huv⟩ := hnil
    obtain ⟨rfl, -⟩ := List.append_eq_nil_iff.1 huv
    rw [add_eq_right_iff_le.2 (one_le_of_nil_mem hu)] at hw
    exact ⟨k, hk, hw⟩

theorem Occurs.nil_mem_times (o : Occurs) (h : [] ∈ l) : [] ∈ o.times l :=
  ⟨o.least, ⟨le_rfl, fun _ _ => .inr rfl⟩, one_le_pow_of_one_le' (one_le_of_nil_mem h) _ rfl⟩

end Repetitions

/-! ## Dropping -/

namespace Particle

/-- **A particle that never occurs is dropped** from a sequence, a choice or an `xs:all` group, at
any depth. A choice may only be `left` as it says. -/
inductive Drops (left : Particle → Prop) : Particle → Particle → Prop
  | sequence {o : Occurs} {before after : List Particle} {p : Particle}
      (never : p.occurs = .never) :
      Drops left (.sequence o (before ++ p :: after)) (.sequence o (before ++ after))
  | choice {o : Occurs} {before after : List Particle} {p : Particle} (never : p.occurs = .never)
      (rest : left (.choice o (before ++ after))) :
      Drops left (.choice o (before ++ p :: after)) (.choice o (before ++ after))
  | all {o : Occurs} {before after : List Particle} {p : Particle} (never : p.occurs = .never) :
      Drops left (.all o (before ++ p :: after)) (.all o (before ++ after))
  | inSequence {o : Occurs} {before after : List Particle} {p p' : Particle}
      (inner : Drops left p p') :
      Drops left (.sequence o (before ++ p :: after)) (.sequence o (before ++ p' :: after))
  | inChoice {o : Occurs} {before after : List Particle} {p p' : Particle}
      (inner : Drops left p p') :
      Drops left (.choice o (before ++ p :: after)) (.choice o (before ++ p' :: after))
  | inAll {o : Occurs} {before after : List Particle} {p p' : Particle} (inner : Drops left p p') :
      Drops left (.all o (before ++ p :: after)) (.all o (before ++ p' :: after))

/-- **A model needs no children**: the empty word is one of its words. -/
def NeedsNone (elements : Table ElementDecl) (p : Particle) : Prop := [] ∈ p.language elements

variable {elements : Table ElementDecl} {left : Particle → Prop} {p p' : Particle}

theorem Drops.occurs (h : Drops left p p') : p'.occurs = p.occurs := by
  induction h <;> rfl

/-! ### The language -/

theorem language_of_never (h : p.occurs = .never) : p.language elements = 1 := by
  rw [language_eq_times, h, Occurs.times_never]

theorem language_sequence (o : Occurs) (items : List Particle) :
    (sequence o items).language elements = o.times (items.map (language elements)).prod := by
  rw [language_eq_times, languageOnce_sequence, Particle.occurs]

theorem language_choice (o : Occurs) (items : List Particle) :
    (choice o items).language elements = o.times (items.map (language elements)).sum := by
  rw [language_eq_times, languageOnce_choice, Particle.occurs]

/-- **A choice with an alternative that never occurs** has the empty word beside the others. -/
theorem language_choice_of_never (o : Occurs) (before after : List Particle)
    (h : p.occurs = .never) : (choice o (before ++ p :: after)).language elements =
      o.times (1 + ((before ++ after).map (language elements)).sum) := by
  rw [language_choice, List.map_append, List.map_cons, List.sum_append, List.sum_cons,
    language_of_never h, List.map_append, List.sum_append, add_left_comm]

/-- **What is dropped adds no words**, and takes none away unless a choice is left that needs a
child. -/
theorem language_of_drops (h : Drops left p p') : p'.language elements ≤ p.language elements ∧
    ((∀ q, left q → q.NeedsNone elements) → p'.language elements = p.language elements) := by
  induction h with
  | @sequence o before after p never =>
    have heq : (sequence o (before ++ p :: after)).language elements =
        (sequence o (before ++ after)).language elements := by
      simp only [language_sequence, List.map_append, List.map_cons, List.prod_append,
        List.prod_cons, language_of_never never, one_mul]
    exact ⟨heq.ge, fun _ => heq.symm⟩
  | @choice o before after p never rest =>
    rw [language_choice_of_never o before after never, language_choice]
    refine ⟨o.times_mono le_add_self, fun hleft => (Occurs.times_one_add ?_).symm⟩
    rw [← language_choice]
    exact hleft _ rest
  | all => exact ⟨le_rfl, fun _ => rfl⟩
  | @inSequence o before after p p' _ ih =>
    simp only [language_sequence, List.map_append, List.map_cons, List.prod_append, List.prod_cons]
    refine ⟨o.times_mono ?_, fun hleft => by rw [ih.2 hleft]⟩
    exact mul_le_mul_right (mul_le_mul_left ih.1 _) _
  | @inChoice o before after p p' _ ih =>
    simp only [language_choice, List.map_append, List.map_cons, List.sum_append, List.sum_cons]
    refine ⟨o.times_mono ?_, fun hleft => by rw [ih.2 hleft]⟩
    exact add_le_add_right (add_le_add_left ih.1 _) _
  | inAll => exact ⟨le_rfl, fun _ => rfl⟩

/-! ### The size -/

theorem statesOfAll_eq_sum (ps : List Particle) : statesOfAll ps = (ps.map states).sum := by
  induction ps with
  | nil => rfl
  | cons p ps ih => rw [statesOfAll, ih, List.map_cons, List.sum_cons]

theorem someReachesAll_eq_any (ps : List Particle) : someReachesAll ps = ps.any reachesAll := by
  induction ps with
  | nil => rfl
  | cons p ps ih => rw [someReachesAll, ih, List.any_cons]

theorem states_of_never (h : p.occurs = .never) : p.states = 0 := by
  cases p <;> (obtain rfl : _ = Occurs.never := h; simp [states, Occurs.states, Occurs.never])

theorem reachesAll_of_never (h : p.occurs = .never) : p.reachesAll = false := by
  cases p <;>
    (obtain rfl : _ = Occurs.never := h; simp [reachesAll, Occurs.permitsAny, Occurs.never])

/-- **What is dropped needs no states** and holds no `xs:all` group that could occur. -/
theorem Drops.size (h : Drops left p p') :
    p'.states = p.states ∧ p'.reachesAll = p.reachesAll := by
  induction h with
  | sequence never | choice never _ =>
    simp [states, reachesAll, statesOfAll_eq_sum, someReachesAll_eq_any, states_of_never never,
      reachesAll_of_never never]
  | all => exact ⟨rfl, rfl⟩
  | inSequence _ ih | inChoice _ ih =>
    simp [states, reachesAll, statesOfAll_eq_sum, someReachesAll_eq_any, ih.1, ih.2]
  | inAll => exact ⟨rfl, rfl⟩

/-! ## What content models accept -/

/-- **A content model accepts children**: there are leaves that admit them. -/
def Accepts (elements : Table ElementDecl) (p : Particle) (names : List ExpandedName) : Prop :=
  ∃ leaves, runModel elements p names = .ok (.ok leaves)

/-- Every model but an `xs:all` group accepts the words of its language, if it has an automaton. -/
theorem accepts_iff (hsingle : ∀ o items, p ≠ .all o items) {names : List ExpandedName} :
    p.Accepts elements names ↔
      (p.reachesAll = false ∧ p.states < stateLimit) ∧ names ∈ p.language elements := by
  rw [Accepts, runModel_eq_build hsingle]
  rcases Automaton.build_cases elements p with ⟨hreaches, hstates, a, ha⟩ | ⟨hstates, he⟩ |
    ⟨hreaches, he⟩
  · rw [and_iff_right ⟨hreaches, hstates⟩, ← Automaton.run_build_ok_iff_mem_language ha, ha]
    exact exists_congr fun leaves => ⟨Except.ok.inj, congrArg _⟩
  · exact iff_of_false (by rw [he]; exact nofun) fun h => h.1.2.not_ge hstates
  · exact iff_of_false (by rw [he]; exact nofun) fun h => by simp [hreaches] at h

end Particle

/-! ### `xs:all` groups -/

section Groups

variable {elements : Table ElementDecl} {left : Particle → Prop} {p p' : Particle}

theorem membersOf_of_never (h : p.occurs = .never) : membersOf elements p = .ok [] := by
  unfold membersOf
  rw [h]
  rfl

/-- What something is dropped from holds other particles, so it is no member either way. -/
theorem membersOf_of_drops (h : p.Drops left p') :
    membersOf elements p' = membersOf elements p := by
  unfold membersOf
  rw [h.occurs]
  cases h <;> rfl

/-- **A particle that never occurs gives a group no members.** -/
theorem mapM_membersOf_of_never {β : Type} (h : p.occurs = .never) (after : List Particle) :
    ∀ (before : List Particle) (rest : List Member → Except Error β),
      ((before ++ p :: after).mapM (membersOf elements) >>= fun mss => rest mss.flatten) =
        ((before ++ after).mapM (membersOf elements) >>= fun mss => rest mss.flatten)
  | [], rest => by
    simp only [List.nil_append, List.mapM_cons, membersOf_of_never h, ok_bind, bind_assoc,
      pure_bind, List.flatten_cons]
  | q :: before, rest => by
    simp only [List.cons_append, List.mapM_cons, bind_assoc, pure_bind, List.flatten_cons]
    exact congrArg _ (funext fun ms =>
      mapM_membersOf_of_never h after before fun more => rest (ms ++ more))

end Groups

namespace Particle

variable {elements : Table ElementDecl} {left : Particle → Prop} {p p' : Particle}
  {names : List ExpandedName}

/-! ### Accepted children -/

/-- A drop in an `xs:all` group leaves its run as it was. -/
theorem runModel_of_drops {o : Occurs} {items : List Particle}
    (h : Drops left (.all o items) p') :
    runModel elements p' names = runModel elements (.all o items) names := by
  cases h with
  | all never =>
    exact (mapM_membersOf_of_never never _ _ fun ms => .ok (runAll o.least ms names)).symm
  | @inAll _ before after p p' inner =>
    show ((before ++ p' :: after).mapM (membersOf elements) >>= _ : Except _ _) = _
    rw [List.mapM_append, List.mapM_cons, membersOf_of_drops inner, ← List.mapM_cons,
      ← List.mapM_append]
    rfl

theorem Drops.ne_all (h : Drops left p p') (hp : ∀ o items, p ≠ .all o items) :
    ∀ o items, p' ≠ .all o items := by
  cases h with
  | all | inAll => exact absurd rfl (hp _ _)
  | sequence | choice | inSequence | inChoice => exact nofun

/-- **What is accepted never grows as something is dropped**, and stays as it is unless a choice is
left that needs a child. -/
theorem accepts_of_drops (h : Drops left p p') :
    (p'.Accepts elements names → p.Accepts elements names) ∧
      ((∀ q, left q → q.NeedsNone elements) →
        (p.Accepts elements names ↔ p'.Accepts elements names)) := by
  by_cases hall : ∃ o items, p = .all o items
  · obtain ⟨o, items, rfl⟩ := hall
    have hrun : runModel elements p' names = runModel elements (.all o items) names :=
      runModel_of_drops h
    exact ⟨fun ⟨leaves, hp'⟩ => ⟨leaves, hrun ▸ hp'⟩, fun _ => by rw [Accepts, Accepts, hrun]⟩
  · have hp : ∀ o items, p ≠ .all o items := fun o items heq => hall ⟨o, items, heq⟩
    obtain ⟨hsub, heq⟩ : p'.language elements ≤ p.language elements ∧
        ((∀ q, left q → q.NeedsNone elements) → p'.language elements = p.language elements) :=
      language_of_drops h
    rw [accepts_iff hp, accepts_iff (h.ne_all hp), h.size.1, h.size.2]
    exact ⟨And.imp_right fun hw => hsub hw, fun hleft => by rw [heq hleft]⟩

/-- A model that needs no children accepts none if it accepts any. -/
theorem Accepts.nil (hp : ∀ o items, p ≠ .all o items) (hnone : p.NeedsNone elements)
    (h : p.Accepts elements names) : p.Accepts elements [] :=
  (accepts_iff hp).2 ⟨((accepts_iff hp).1 h).1, hnone⟩

/-- A choice with an alternative that never occurs needs no children. -/
theorem needsNone_choice_of_never (o : Occurs) (before after : List Particle)
    (h : p.occurs = .never) : (choice o (before ++ p :: after)).NeedsNone elements := by
  rw [NeedsNone, language_choice_of_never o before after h]
  exact o.nil_mem_times (.inl rfl)

/-- **An alternative that never occurs can be dropped** exactly if the choice then accepts no
children, should it have done so before. -/
theorem accepts_choice_iff (o : Occurs) (before after : List Particle) (h : p.occurs = .never) :
    (∀ names, (choice o (before ++ p :: after)).Accepts elements names →
        (choice o (before ++ after)).Accepts elements names) ↔
      ((choice o (before ++ p :: after)).Accepts elements [] →
        (choice o (before ++ after)).Accepts elements []) := by
  refine ⟨fun hall => hall [], fun hnil names hnames => ?_⟩
  have hrest := hnil (hnames.nil nofun (needsNone_choice_of_never o before after h))
  have hnone := ((accepts_iff (p := choice o (before ++ after)) nofun).1 hrest).2
  have hdrops : Drops (NeedsNone elements) (choice o (before ++ p :: after))
      (choice o (before ++ after)) := .choice h hnone
  exact ((accepts_of_drops hdrops).2 fun _ => id).1 hnames

/-- **A model that never occurs** accepts no children, unless it is an `xs:all` group. -/
theorem accepts_of_never (h : p.occurs = .never) (hp : ∀ o items, p ≠ .all o items) :
    p.Accepts elements names ↔ names = [] := by
  rw [accepts_iff hp, states_of_never h, reachesAll_of_never h, language_of_never h,
    Language.mem_one]
  exact and_iff_right ⟨rfl, Nat.two_pow_pos 16⟩

end Particle

namespace Grammar

variable {g : Grammar} {p p' : Particle} {t : Tag} {cs : List Node}

/-- **A content model binds the children of an element**: there are leaves that admit them. -/
def Binds (g : Grammar) (model : Particle) (t : Tag) (cs : List Node) : Prop :=
  ∃ leaves, g.bind model t cs = .ok leaves

theorem binds_iff : g.Binds p t cs ↔ p.Accepts g.elements ((childTags cs).map (·.name)) :=
  exists_congr fun _ => bind_eq_ok_iff

/-- **Dropping what never occurs.** Bounds with an upper bound of 0 are read as never. As particles
that never occur are dropped from the sequences, choices and `xs:all` groups of a content model, it
binds nothing new, and it binds the same if no choice is left that needs a child. For a choice the
condition is exact: dropping an alternative takes something away precisely if it takes away the
empty content. A model that itself never occurs binds no children, but an `xs:all` group binds the
same whatever its upper bound. -/
theorem binds_of_drops (g : Grammar) :
    (∀ t o, readOccurs t = .ok o → o.most = some 0 → o = .never) ∧
    (∀ p p' t cs, ReflTransGen (Particle.Drops fun _ => True) p p' →
      g.Binds p' t cs → g.Binds p t cs) ∧
    (∀ p p' t cs, ReflTransGen (Particle.Drops (Particle.NeedsNone g.elements)) p p' →
      (g.Binds p t cs ↔ g.Binds p' t cs)) ∧
    (∀ o before p after, p.occurs = .never →
      ((∀ t cs, g.Binds (.choice o (before ++ p :: after)) t cs →
          g.Binds (.choice o (before ++ after)) t cs) ↔
        ∀ t, g.Binds (.choice o (before ++ p :: after)) t [] →
          g.Binds (.choice o (before ++ after)) t [])) ∧
    (∀ p t cs, p.occurs = .never → (∀ o items, p ≠ .all o items) →
      (g.Binds p t cs ↔ childTags cs = [])) ∧
    ∀ least most items t cs,
      g.bind (.all ⟨least, most⟩ items) t cs = g.bind (.all ⟨least, none⟩ items) t cs := by
  refine ⟨fun t o h hmost => eq_never_of_readOccurs h hmost, fun p p' t cs hdrops => ?_,
    fun p p' t cs hdrops => ?_, fun o before p after never => ?_, fun p t cs never hp => ?_,
    fun _ _ _ _ _ => rfl⟩
  · rw [binds_iff, binds_iff]
    induction hdrops with
    | refl => exact id
    | tail _ hstep ih => exact ih ∘ (Particle.accepts_of_drops hstep).1
  · rw [binds_iff, binds_iff]
    induction hdrops with
    | refl => exact Iff.rfl
    | tail _ hstep ih => exact ih.trans ((Particle.accepts_of_drops hstep).2 fun _ => id)
  · simp only [binds_iff]
    refine ⟨fun hall t => hall t [], fun hnil t cs => ?_⟩
    exact (Particle.accepts_choice_iff o before after never).2 (hnil t) _
  · rw [binds_iff, Particle.accepts_of_never never hp, List.map_eq_nil_iff]

/-- The tag of a particle that never occurs. -/
def neverTag : Tag where
  name := schemaName "element"
  attributes := [⟨⟨none, "minOccurs"⟩, "0"⟩, ⟨⟨none, "maxOccurs"⟩, "0"⟩]
  scope := []
  start := 0

/-- No schema around the models below. -/
def bare : Grammar := ⟨[], [], []⟩

/-- A particle for an `a` that never occurs. -/
def neverA : Particle := .element .never (Components.anyElement "a")

/-- A `b`. -/
def onceB : Particle := .element .once (Components.anyElement "b")

/-- A `b`, or an `a` that never occurs. -/
def aOrB (o : Occurs) : Particle := .choice o [neverA, onceB]

/-- What is left of it without the `a`. -/
def onlyB (o : Occurs) : Particle := .choice o [onceB]

theorem drops_aOrB {left : Particle → Prop} {o : Occurs} (h : left (onlyB o)) :
    Particle.Drops left (aOrB o) (onlyB o) :=
  show Particle.Drops left (.choice o ([] ++ neverA :: [onceB])) (.choice o ([] ++ [onceB])) from
    .choice rfl h

theorem needsNone_onlyB : (onlyB ⟨0, none⟩).NeedsNone [] := by
  rw [Particle.NeedsNone, onlyB, Particle.language_choice]
  exact ⟨0, ⟨le_rfl, nofun⟩, rfl⟩

/-- An `a` that never occurs is dropped in front of any number of `b` and among them. -/
theorem drops_neverA : ReflTransGen (Particle.Drops (Particle.NeedsNone []))
    (.sequence .once [neverA, aOrB ⟨0, none⟩]) (.sequence .once [onlyB ⟨0, none⟩]) := by
  have hfront : Particle.Drops (Particle.NeedsNone [])
      (.sequence .once ([] ++ neverA :: [aOrB ⟨0, none⟩]))
      (.sequence .once ([] ++ [aOrB ⟨0, none⟩])) := .sequence rfl
  have hamong : Particle.Drops (Particle.NeedsNone [])
      (.sequence .once ([] ++ aOrB ⟨0, none⟩ :: []))
      (.sequence .once ([] ++ onlyB ⟨0, none⟩ :: [])) := .inSequence (drops_aOrB needsNone_onlyB)
  exact .tail (.single hfront) hamong

/-- **What never occurs in a model** is read, and dropped from it. -/
theorem binds_neverA : readOccurs neverTag = .ok neverA.occurs ∧ neverA.occurs = .never ∧
    ∀ t cs, (bare.Binds (onlyB .once) t cs → bare.Binds (aOrB .once) t cs) ∧
      (bare.Binds (.sequence .once [neverA, aOrB ⟨0, none⟩]) t cs ↔
        bare.Binds (.sequence .once [onlyB ⟨0, none⟩]) t cs) ∧
      (bare.Binds neverA t cs ↔ childTags cs = []) := by
  have hread : readOccurs neverTag = .ok neverA.occurs := rfl
  obtain ⟨hnever, hsub, hsame, -, hnone, -⟩ := binds_of_drops bare
  exact ⟨hread, hnever _ _ hread rfl, fun t cs => ⟨hsub _ _ t cs (.single (drops_aOrB trivial)),
    hsame _ _ t cs drops_neverA, hnone neverA t cs rfl nofun⟩⟩

/-- **What never occurs still has a part in what is accepted**: beside a `b`, it stands for no
children at all, so that the choice does not need the `b`; and an `xs:all` group that never occurs
accepts a child. -/
theorem binds_aOrB : Particle.Drops (fun _ => True) (aOrB .once) (onlyB .once) ∧
    (∀ t, bare.Binds (aOrB .once) t [] ∧ ¬ bare.Binds (onlyB .once) t []) ∧
    ∀ t, bare.Binds (.all .never [onceB]) t [.element ⟨⟨none, "b"⟩, [], [], 0⟩ []] := by
  refine ⟨drops_aOrB trivial, fun t => ⟨?_, ?_⟩, fun t => ?_⟩
  · rw [binds_iff, Particle.accepts_iff (p := aOrB .once) nofun]
    exact ⟨⟨rfl, by decide⟩, Particle.needsNone_choice_of_never .once [] [onceB] rfl⟩
  · rw [binds_iff, Particle.accepts_iff (p := onlyB .once) nofun, onlyB, Particle.language_choice,
      Occurs.times_once, List.map_singleton, List.sum_singleton, onceB, Particle.language,
      Particle.denotes, Occurs.times_once, Leaf.names_element]
    exact fun h => List.cons_ne_nil _ _ h.2.symm
  · exact ⟨[some (.element (Components.anyElement "b"))], rfl⟩

end Grammar

end XmlConformance.Schema
