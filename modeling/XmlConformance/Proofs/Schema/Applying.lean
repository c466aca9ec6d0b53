import Mathlib.Tactic.Ring
import XmlConformance.Proofs.Schema.References
import XmlConformance.Schema.Validation

/-!
# Proofs/Schema/Applying — when a content model can be applied

A content model is applied by an automaton, which has room for a limited number of states, or, if it
is an `xs:all` group, by going through its members. `Particle.states` is the number of states that a
model adds, and `Particle.reachesAll` says that there is an `xs:all` group within it where none can
be. A draft grows by just these states, or it fails for one of the two reasons (`Draft.Grows`).

So the models of a grammar that cannot be applied are known without any children
(`bind_settles`).
-/

namespace XmlConformance.Schema

open Xml

/-! ## What a model needs -/

/-- Whether there are bounds that permit something at all. -/
def Occurs.permitsAny (o : Occurs) : Bool := 0 < o.least || o.most != some 0

/-- The states that something adds as often as it occurs, if it adds `n` each time. -/
def Occurs.states (o : Occurs) (n : ℕ) : ℕ :=
  o.least * n +
    match o.most with
    | none => 1 + n
    | some most => if most ≤ o.least then 0 else 1 + (most - o.least) * n

namespace Particle

mutual

/-- **The number of states that a content model needs**, besides the initial one. -/
def states : Particle → ℕ
  | .element o _ | .reference o _ | .group o _ | .any o _ => o.states 1
  | .sequence o items => o.states (statesOfAll items)
  | .choice o items => o.states (1 + statesOfAll items)
  | .all o _ => o.states 0

/-- The number of states that several particles need. -/
def statesOfAll : List Particle → ℕ
  | [] => 0
  | p :: ps => p.states + statesOfAll ps

end

mutual

/-- **There is an `xs:all` group in a particle**, and the bounds around it permit that it occurs. -/
def reachesAll : Particle → Bool
  | .all o _ => o.permitsAny
  | .sequence o items | .choice o items => o.permitsAny && someReachesAll items
  | .element .. | .reference .. | .group .. | .any .. => false

/-- There is one in some of several particles. -/
def someReachesAll : List Particle → Bool
  | [] => false
  | p :: ps => p.reachesAll || someReachesAll ps

end

/-- Particles that hold others. -/
def isCompound : Particle → Bool
  | .sequence .. | .choice .. | .all .. => true
  | .element .. | .reference .. | .group .. | .any .. => false

end Particle

/-! ## How drafts grow -/

namespace Draft

/-- **A draft grows by a number of states**, or fails: because there is no room for them, or because
the way is `blocked` by a group. -/
def Grows {α : Type} (size : α → ℕ) (start n : ℕ) (blocked : Prop) : Except Error α → Prop
  | .ok a => ¬ blocked ∧ size a = start + n ∧ size a ≤ stateLimit
  | .error e => e = .tooManyStates stateLimit ∧ stateLimit < start + n ∨
      e = .allInsideModel ∧ blocked

/-- The size of the draft that a builder leaves. -/
abbrev sizeOf (r : ℕ × Draft) : ℕ := r.2.size

/-- **A builder adds a number of states** to every draft that has room for them, unless it is
`blocked`. -/
def Counts (build : Builder) (n : ℕ) (blocked : Prop) : Prop :=
  ∀ source d, d.size ≤ stateLimit → Grows sizeOf d.size n blocked (build source d)

section Grows

variable {α β : Type} {size : α → ℕ} {s : β → ℕ} {start n m : ℕ} {p q : Prop}
  {x : Except Error α}

/-- **One behind the other**: the states add up. -/
theorem Grows.bind {f : α → Except Error β} (hx : Grows size start n p x)
    (hf : ∀ a, ¬ p → size a = start + n → size a ≤ stateLimit → Grows s (size a) m q (f a)) :
    Grows s start (n + m) (p ∨ q) (x >>= f) := by
  cases x with
  | error e =>
    obtain ⟨he, hlt⟩ | ⟨he, hp⟩ := hx
    · exact .inl ⟨he, by omega⟩
    · exact .inr ⟨he, .inl hp⟩
  | ok a =>
    obtain ⟨hp, hsize, hle⟩ := hx
    have h := hf a hp hsize hle
    rw [ok_bind]
    cases hb : f a with
    | error e =>
      rw [hb] at h
      obtain ⟨he, hlt⟩ | ⟨he, hq⟩ := h
      · exact .inl ⟨he, by omega⟩
      · exact .inr ⟨he, .inr hq⟩
    | ok b =>
      rw [hb] at h
      obtain ⟨hq, hsize', hle'⟩ := h
      exact ⟨not_or.2 ⟨hp, hq⟩, by omega, hle'⟩

theorem Grows.congr (h : Grows size start n p x) (hn : n = m) (hpq : p ↔ q) :
    Grows size start m q x := hn ▸ propext hpq ▸ h

/-- A result that leaves the draft as it was. -/
theorem grows_ok {a : α} (hsize : size a = start) (h : start ≤ stateLimit) :
    Grows size start 0 False (.ok a) := ⟨id, hsize, hsize ▸ h⟩

end Grows

theorem Counts.congr {build : Builder} {n m : ℕ} {p q : Prop} (h : Counts build n p) (hn : n = m)
    (hpq : p ↔ q) : Counts build m q := hn ▸ propext hpq ▸ h

theorem grows_addState (d : Draft) : Grows sizeOf d.size 1 False d.addState := by
  unfold addState
  split
  · exact ⟨id, rfl, by assumption⟩
  · case isFalse h => exact .inl ⟨rfl, by omega⟩

theorem counts_addLeaf (leaf : Option Leaf) :
    Counts (fun source d => d.addLeaf leaf source) 1 False := by
  intro source d _
  refine ((grows_addState d).bind (s := sizeOf) (m := 0) (q := False) ?_).congr rfl (by simp)
  rintro ⟨target, d'⟩ - - h
  cases leaf with
  | none => exact grows_ok rfl h
  | some l => exact grows_ok rfl h

/-! ## Repetitions -/

section Repetitions

variable {build : Builder} {n : ℕ} {blocked : Prop}

theorem repeatTimes_succ (build : Builder) (k source : ℕ) (d : Draft) :
    repeatTimes build (k + 1) source d = build source d >>= fun r =>
      if r.2.size == d.size then .ok r else repeatTimes build k r.1 r.2 := by
  rw [repeatTimes]
  cases build source d <;> rfl

theorem repeatUpTo_succ (build : Builder) (exit k source : ℕ) (d : Draft) :
    repeatUpTo build exit (k + 1) source d = build source (d.addSkip source exit) >>= fun r =>
      if r.2.size == d.size then .ok r else repeatUpTo build exit k r.1 r.2 := by
  rw [repeatUpTo]
  cases build source (d.addSkip source exit) <;> rfl

/-- **Once and then some more times**; where nothing was added, nothing is added again. -/
theorem grows_again (hb : Counts build n blocked) {k : ℕ} {more : Builder}
    (hmore : Counts more (k * n) (0 < k ∧ blocked)) (source : ℕ) {d : Draft}
    (hd : d.size ≤ stateLimit) :
    Grows sizeOf d.size ((k + 1) * n) (0 < k + 1 ∧ blocked) (build source d >>= fun r =>
      if r.2.size == d.size then .ok r else more r.1 r.2) := by
  refine ((hb source d hd).bind (m := k * n) (q := 0 < k ∧ blocked) ?_).congr
    (by ring) (by simp)
  intro r hblocked hsize hle
  split
  · case isTrue heq =>
    have hn : n = 0 := by
      have : sizeOf r = d.size := eq_of_beq heq
      omega
    exact (grows_ok rfl hle).congr (by rw [hn, Nat.mul_zero]) (by simp [hblocked])
  · exact hmore r.1 r.2 hle

theorem counts_repeatTimes (hb : Counts build n blocked) :
    ∀ k, Counts (repeatTimes build k) (k * n) (0 < k ∧ blocked)
  | 0 => fun source d hd => (grows_ok rfl hd).congr (Nat.zero_mul n).symm (by simp)
  | k + 1 => fun source d hd => by
    rw [repeatTimes_succ]
    exact grows_again hb (counts_repeatTimes hb k) source hd

theorem counts_repeatUpTo (hb : Counts build n blocked) (exit : ℕ) :
    ∀ k, Counts (repeatUpTo build exit k) (k * n) (0 < k ∧ blocked)
  | 0 => fun source d hd => (grows_ok rfl hd).congr (Nat.zero_mul n).symm (by simp)
  | k + 1 => fun source d hd => by
    rw [repeatUpTo_succ]
    exact grows_again (d := d.addSkip source exit) hb (counts_repeatUpTo hb exit k) source hd

/-- Any number of times more, around a state of its own. -/
theorem counts_anyMore (hb : Counts build n blocked) :
    Counts (fun last d => do
      let (again, d) ← d.addState
      let (last, d) ← build again (d.addSkip last again)
      return (again, d.addSkip last again)) (1 + n) blocked := by
  intro last d hd
  refine ((grows_addState d).bind (s := sizeOf) (m := n) (q := blocked) ?_).congr rfl (by simp)
  rintro ⟨again, d₁⟩ - - h₁
  refine ((hb again (d₁.addSkip last again) h₁).bind (s := sizeOf) (m := 0) (q := False)
    ?_).congr rfl (by simp)
  exact fun _ _ _ h₂ => grows_ok rfl h₂

/-- Up to a number of times more, with a way out each time. -/
theorem counts_upToMore (hb : Counts build n blocked) (k : ℕ) :
    Counts (fun last d => do
      let (exit, d) ← d.addState
      let (last, d) ← repeatUpTo build exit k last d
      return (exit, d.addSkip last exit)) (1 + k * n) (0 < k ∧ blocked) := by
  intro last d hd
  refine ((grows_addState d).bind (s := sizeOf) (m := k * n) (q := 0 < k ∧ blocked) ?_).congr rfl
    (by simp)
  rintro ⟨exit, d₁⟩ - - h₁
  refine ((counts_repeatUpTo hb exit k last d₁ h₁).bind (s := sizeOf) (m := 0) (q := False)
    ?_).congr rfl (by simp)
  exact fun _ _ _ h₂ => grows_ok rfl h₂

/-- **As often as it occurs.** -/
theorem counts_occurring (hb : Counts build n blocked) (o : Occurs) :
    Counts (occurring build o) (o.states n) (o.permitsAny = true ∧ blocked) := by
  intro source d hd
  obtain ⟨least, most⟩ := o
  have htimes := counts_repeatTimes hb least source d hd
  cases most with
  | none =>
    refine (htimes.bind (s := sizeOf) (m := 1 + n) (q := blocked) ?_).congr rfl
      (by simp [Occurs.permitsAny])
    exact fun r _ _ h₁ => counts_anyMore hb r.1 r.2 h₁
  | some most =>
    by_cases hle : most ≤ least
    · refine (htimes.bind (s := sizeOf) (m := 0) (q := False) ?_).congr ?_ ?_
      · intro r _ _ h₁
        dsimp only
        rw [if_pos hle]
        exact grows_ok rfl h₁
      · simp [Occurs.states, hle]
      · simp [Occurs.permitsAny]
        omega
    · refine (htimes.bind (s := sizeOf) (m := 1 + (most - least) * n)
        (q := 0 < most - least ∧ blocked) ?_).congr ?_ ?_
      · intro r _ _ h₁
        dsimp only
        rw [if_neg hle]
        exact counts_upToMore hb (most - least) r.1 r.2 h₁
      · simp [Occurs.states, hle]
      · have : 0 < most - least := by omega
        have : most ≠ 0 := by omega
        simp [Occurs.permitsAny, *]

end Repetitions

/-! ## Content models -/

section Particles

variable (elements : Table ElementDecl)

mutual

/-- **The automaton of a content model** grows by the states that the model needs. -/
theorem counts_particle : ∀ p : Particle,
    Counts (particle elements p) p.states (p.reachesAll = true)
  | .element o _ | .reference o _ | .any o _ | .group o _ => by
    rw [particle, Particle.states, Particle.reachesAll]
    exact (counts_occurring (counts_addLeaf _) o).congr rfl (by simp)
  | .all o items => by
    have hblocked : Counts (fun _ _ => .error .allInsideModel) 0 True :=
      fun _ _ _ => .inr ⟨rfl, trivial⟩
    rw [particle, Particle.states, Particle.reachesAll]
    exact (counts_occurring hblocked o).congr rfl (by simp)
  | .sequence o items => by
    rw [particle, Particle.states, Particle.reachesAll]
    exact (counts_occurring (counts_inRow items) o).congr rfl (by simp)
  | .choice o items => by
    have hchoosing : Counts (choosing (particles elements items))
        (1 + Particle.statesOfAll items) (Particle.someReachesAll items = true) := by
      intro source d hd
      refine ((grows_addState d).bind (s := sizeOf) (m := Particle.statesOfAll items)
        (q := Particle.someReachesAll items = true) ?_).congr rfl (by simp)
      rintro ⟨join, d₁⟩ - - h₁
      refine ((grows_beside source join items d₁ h₁).bind (s := sizeOf) (m := 0) (q := False)
        ?_).congr rfl (by simp)
      exact fun d₂ _ _ h₂ => grows_ok rfl h₂
    rw [particle, Particle.states, Particle.reachesAll]
    exact (counts_occurring hchoosing o).congr rfl (by simp)

theorem counts_inRow : ∀ ps : List Particle,
    Counts (inRow (particles elements ps)) (Particle.statesOfAll ps)
      (Particle.someReachesAll ps = true)
  | [] => fun source d hd => (grows_ok rfl hd).congr rfl (by simp [Particle.someReachesAll])
  | p :: ps => fun source d hd =>
    ((counts_particle p source d hd).bind fun r _ _ hle => counts_inRow ps r.1 r.2 hle).congr rfl
      (by rw [Particle.someReachesAll, Bool.or_eq_true])

theorem grows_beside (source join : ℕ) : ∀ (ps : List Particle) (d : Draft),
    d.size ≤ stateLimit → Grows Draft.size d.size (Particle.statesOfAll ps)
      (Particle.someReachesAll ps = true) (beside source join (particles elements ps) d)
  | [], d, hd => (grows_ok rfl hd).congr rfl (by simp [Particle.someReachesAll])
  | p :: ps, d, hd =>
    ((counts_particle p source d hd).bind fun r _ _ hle =>
      grows_beside source join ps (r.2.addSkip r.1 join) hle).congr rfl
        (by rw [Particle.someReachesAll, Bool.or_eq_true])

end

end Particles

end Draft

/-- **The automaton of a content model** can be built if there is no `xs:all` group in the way and
room for all states; if it cannot, that is why. -/
theorem Automaton.build_cases (elements : Table ElementDecl) (model : Particle) :
    (model.reachesAll = false ∧ model.states < stateLimit ∧
      ∃ a, Automaton.build elements model = .ok a) ∨
    (stateLimit ≤ model.states ∧
      Automaton.build elements model = .error (.tooManyStates stateLimit)) ∨
    model.reachesAll = true ∧ Automaton.build elements model = .error .allInsideModel := by
  have hsize : Draft.initial.size = 1 := rfl
  have hgrows := Draft.counts_particle elements model 0 .initial (by rw [hsize]; decide)
  unfold Automaton.build
  cases hbuild : Draft.particle elements model 0 .initial with
  | ok r =>
    rw [hbuild, hsize] at hgrows
    obtain ⟨hreaches, heq, hle⟩ := hgrows
    exact .inl ⟨Bool.eq_false_of_not_eq_true hreaches, by omega, _, rfl⟩
  | error e =>
    rw [hbuild, hsize] at hgrows
    obtain ⟨rfl, hlt⟩ | ⟨rfl, hreaches⟩ := hgrows
    · exact .inr (.inl ⟨by omega, rfl⟩)
    · exact .inr (.inr ⟨hreaches, rfl⟩)

/-! ## Groups -/

/-- A member of an `xs:all` group is refused if it holds other particles, unless it never occurs. -/
theorem membersOf_cases (elements : Table ElementDecl) {p : Particle}
    (hp : ∀ o n, p ≠ .group o n) :
    (p.occurs.most ≠ some 0 ∧ p.isCompound = true ∧
      membersOf elements p = .error .groupInsideAll) ∨
    ¬ (p.occurs.most ≠ some 0 ∧ p.isCompound = true) ∧ ∃ ms, membersOf elements p = .ok ms := by
  unfold membersOf
  dsimp only
  by_cases hmost : p.occurs.most = some 0
  · rw [hmost, beq_self_eq_true, if_pos rfl]
    exact .inr ⟨fun h => h.1 rfl, _, rfl⟩
  · rw [beq_false_of_ne hmost, if_neg Bool.false_ne_true]
    cases p with
    | element _ _ | reference _ _ | any _ _ => exact .inr ⟨nofun, _, rfl⟩
    | sequence _ _ | choice _ _ | all _ _ => exact .inl ⟨hmost, rfl, rfl⟩
    | group o n => exact absurd rfl (hp o n)

/-- **The members of an `xs:all` group** are known unless one of them is refused. -/
theorem mapM_membersOf_cases (elements : Table ElementDecl) : ∀ {items : List Particle},
    (∀ p ∈ items, ∀ o n, p ≠ .group o n) →
    ((∃ p ∈ items, p.occurs.most ≠ some 0 ∧ p.isCompound = true) ∧
      items.mapM (membersOf elements) = .error .groupInsideAll) ∨
    (¬ ∃ p ∈ items, p.occurs.most ≠ some 0 ∧ p.isCompound = true) ∧
      ∃ ms, items.mapM (membersOf elements) = .ok ms
  | [], _ => .inr ⟨nofun, [], rfl⟩
  | p :: items, h => by
    rw [List.forall_mem_cons] at h
    rw [List.mapM_cons, List.exists_mem_cons_iff]
    obtain ⟨hmost, hcompound, hp⟩ | ⟨hp, ms, hms⟩ := membersOf_cases elements h.1
    · rw [hp]
      exact .inl ⟨.inl ⟨hmost, hcompound⟩, rfl⟩
    · rw [hms, ok_bind]
      obtain ⟨hrest, hitems⟩ | ⟨hrest, rest, hitems⟩ := mapM_membersOf_cases elements h.2
      · rw [hitems]
        exact .inl ⟨.inr hrest, rfl⟩
      · rw [hitems]
        exact .inr ⟨not_or.2 ⟨hp, hrest⟩, _, rfl⟩

/-! ## Content models of a grammar -/

/-- **Why a content model cannot be applied**, whatever the children are: it needs more states than
an automaton may have, there is an `xs:all` group within it, or it is such a group, and a member
that may occur holds other particles. -/
inductive Particle.Refused : Particle → Error → Prop
  | states {p : Particle} (single : ∀ o items, p ≠ .all o items) (h : stateLimit ≤ p.states) :
      Refused p (.tooManyStates stateLimit)
  | nested {p : Particle} (single : ∀ o items, p ≠ .all o items) (h : p.reachesAll = true) :
      Refused p .allInsideModel
  | member {o : Occurs} {items : List Particle} {p : Particle} (member : p ∈ items)
      (occurs : p.occurs.most ≠ some 0) (h : p.isCompound = true) :
      Refused (.all o items) .groupInsideAll

/-- A content model is run, or refused for one of the reasons. -/
def Particle.Settles (elements : Table ElementDecl) (names : List ExpandedName)
    (model : Particle) : Prop :=
  ((¬ ∃ e, model.Refused e) ∧ ∃ r, runModel elements model names = .ok r) ∨
    ∃ e, model.Refused e ∧ runModel elements model names = .error e

/-- An `xs:all` group without references to groups is run unless a member is refused. -/
theorem Particle.settles_all (elements : Table ElementDecl) (names : List ExpandedName) (o : Occurs)
    {items : List Particle} (hgroups : ∀ p ∈ items, ∀ o n, p ≠ .group o n) :
    (Particle.all o items).Settles elements names := by
  unfold Settles
  rw [runModel]
  obtain ⟨⟨p, hp, hmost, hcompound⟩, hitems⟩ | ⟨hp, ms, hitems⟩ :=
    mapM_membersOf_cases elements hgroups
  · rw [hitems]
    exact .inr ⟨_, .member hp hmost hcompound, rfl⟩
  · rw [hitems]
    refine .inl ⟨?_, _, rfl⟩
    rintro ⟨_, hrefused⟩
    cases hrefused with
    | states single | nested single => exact single o items rfl
    | member member occurs h => exact hp ⟨_, member, occurs, h⟩

/-- Every other model is run unless it has no automaton. -/
theorem Particle.settles_single (elements : Table ElementDecl) (names : List ExpandedName)
    {model : Particle} (hsingle : ∀ o items, model ≠ .all o items) :
    model.Settles elements names := by
  unfold Settles
  rw [runModel_eq_build hsingle]
  obtain ⟨hreaches, hstates, a, ha⟩ | ⟨hstates, he⟩ | ⟨hreaches, he⟩ :=
    Automaton.build_cases elements model
  · rw [ha]
    refine .inl ⟨?_, _, rfl⟩
    rintro ⟨_, hrefused⟩
    cases hrefused with
    | states _ h => exact absurd hstates h.not_gt
    | nested _ h => cases hreaches.symm.trans h
    | member => exact hsingle _ _ rfl
  · rw [he]
    exact .inr ⟨_, .states hsingle hstates, rfl⟩
  · rw [he]
    exact .inr ⟨_, .nested hsingle hreaches, rfl⟩

/-- **A content model without references to groups** is run, or refused for one of the reasons. -/
theorem Particle.settles (elements : Table ElementDecl) (names : List ExpandedName)
    {model : Particle}
    (hgroups : ∀ o items, model = .all o items → ∀ p ∈ items, ∀ o n, p ≠ .group o n) :
    model.Settles elements names := by
  by_cases hall : ∃ o items, model = .all o items
  · obtain ⟨o, items, rfl⟩ := hall
    exact settles_all elements names o (hgroups o items rfl)
  · exact settles_single elements names fun o items h => hall ⟨o, items, h⟩

/-- Children are bound to the leaves that a run of the content model finds. -/
theorem Grammar.bind_eq_ok_iff {g : Grammar} {model : Particle} {t : Tag} {cs : List Node}
    {leaves : List (Option Leaf)} : g.bind model t cs = .ok leaves ↔
      runModel g.elements model ((childTags cs).map (·.name)) = .ok (.ok leaves) := by
  unfold Grammar.bind
  dsimp only
  generalize runModel g.elements model ((childTags cs).map (·.name)) = outcome
  match outcome with
  | .error e => exact iff_of_false nofun nofun
  | .ok (.ok found) => simp only [Except.ok.injEq]
  | .ok (.error m) =>
    refine iff_of_false ?_ nofun
    dsimp only
    split <;> exact nofun

namespace Components

/-- **Content models of a grammar.** The content model of a type that a grammar holds binds the
children of every element or finds a fault of the element or of a child, unless the model is
refused; then it is refused for all children. -/
theorem bind_settles {c : Components} {g : Grammar} (h : c.resolve = .ok g) {t : ComplexType}
    (holds : g.components.Holds t) {model : Particle} (content : t.content = .elements model)
    (tag : Tag) (cs : List Node) :
    ((¬ ∃ e, model.Refused e) ∧ ((∃ leaves, g.bind model tag cs = .ok leaves) ∨
      ∃ offset fault, g.bind model tag cs = .error (.invalid offset fault))) ∨
    ∃ e, model.Refused e ∧ g.bind model tag cs = .error (.unusable e) := by
  have hcomplex := (Grammar.checked_of_resolve h).complex holds
  have hcontent := Grammar.checkContent_of_checkComplex hcomplex
  rw [content] at hcontent
  have hgroups : ∀ o items, model = .all o items → ∀ p ∈ items, ∀ o n, p ≠ .group o n := by
    rintro o items rfl p hp o' n rfl
    cases Grammar.checkParticle_of_mem hcontent _ hp
  unfold Grammar.bind
  dsimp only
  obtain ⟨hrefused, r, hr⟩ | ⟨e, hrefused, he⟩ :=
    Particle.settles g.elements ((childTags cs).map (·.name)) hgroups
  · refine .inl ⟨hrefused, ?_⟩
    rw [hr]
    cases r with
    | ok leaves => exact .inl ⟨leaves, rfl⟩
    | error m =>
      refine .inr ?_
      dsimp only
      split
      · exact ⟨_, _, rfl⟩
      · exact ⟨_, _, rfl⟩
  · rw [he]
    exact .inr ⟨e, hrefused, rfl⟩

/-- **The content model of letters** binds the children of every element or finds a fault. -/
theorem bind_letters : ∃ g t model, letters.resolve = .ok g ∧
    g.types.find? ⟨none, "Letter"⟩ = some (.complex t) ∧ t.content = .elements model ∧
    ∀ tag cs, (∃ leaves, g.bind model tag cs = .ok leaves) ∨
      ∃ offset fault, g.bind model tag cs = .error (.invalid offset fault) := by
  refine ⟨_, _, _, rfl, rfl, rfl, fun tag cs => ?_⟩
  obtain ⟨-, hsettled⟩ | ⟨e, hrefused, -⟩ :=
    bind_settles (c := letters) rfl (.named (n := ⟨none, "Letter"⟩) rfl) rfl tag cs
  · exact hsettled
  · cases hrefused with
    | states _ h => exact absurd h (by decide)
    | nested _ h => cases h

/-- A record holds an `A`. -/
def recordType : ComplexType :=
  ⟨false, none, .elements (.all .once [.element .once (anyElement "A")]), [], [], none⟩

/-- An entry is a record with a `B`. -/
def entryType : ComplexType :=
  ⟨false, some (⟨none, "Record"⟩, .extension),
    .elements (.sequence .once [.element .once (anyElement "B")]), [], [], none⟩

/-- Records and entries. -/
def entries : Components where
  types := [(⟨none, "Record"⟩, .complex recordType), (⟨none, "Entry"⟩, .complex entryType)]

/-- **A type that is extended from an `xs:all` group** becomes a type of a grammar, but its content
model is refused for all children, however few states it needs. -/
theorem bind_entry : ∃ g t model, entries.resolve = .ok g ∧ g.components.Holds t ∧
    t.content = .elements model ∧ model.states < stateLimit ∧
    ∀ tag cs, g.bind model tag cs = .error (.unusable .allInsideModel) :=
  ⟨_, _, _, rfl, .named (n := ⟨none, "Entry"⟩) rfl, rfl, by decide, fun _ _ => rfl⟩

end Components

end XmlConformance.Schema
