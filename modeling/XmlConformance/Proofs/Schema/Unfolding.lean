import Mathlib.Data.Finset.Prod
import Mathlib.Data.Finset.Option
import Mathlib.Data.List.Nodup
import Mathlib.Combinatorics.Pigeonhole
import Mathlib.Logic.Relation
import XmlConformance.Proofs.Schema.Resolving

/-!
# Proofs/Schema/Unfolding — when making a grammar never ends

Groups may not be nested in themselves and types may not be derived from themselves; a count of the
depth of groups and the types being resolved guard against that. A type without a name starts the
count anew. So a group may hold an element whose type has no name and holds the group, and
unfolding it does not end.

One question **leads** to another (`Components.Leads`) if its answer hangs on the answer to the
other. Without end, each question leads to the next; as no more than `stepLimit` of them can follow
one another and all be different, some question leads back to itself. On the way round, the types
being resolved only grow in number, so they stay as they are, and a group is entered with the count
at its start. `resolve_eq_endless_iff` says that this is the only way in which making a grammar does
not end, and that the limit has no other effect.
-/

namespace XmlConformance.Schema

open Xml Relation

namespace Components

variable {c : Components} {q q' : Question} {steps steps' : ℕ}

/-! ## More steps answer more questions -/

theorem silent_zero (c : Components) (q : Question) : (c.lookup 0).Silent q := by
  cases q <;> rfl

/-- **Following references further keeps all answers.** -/
theorem extends_lookup (c : Components) (asked : Set Question) :
    ∀ {steps steps' : ℕ}, steps ≤ steps' → (c.lookup steps).Extends asked (c.lookup steps')
  | 0, _, _ => fun q _ hnot => absurd (c.silent_zero q) hnot
  | steps + 1, steps' + 1, h => by
    have hmore (asked : Set Question) := c.extends_lookup asked (Nat.le_of_succ_le_succ h)
    rintro (⟨inside, depth, n⟩ | ⟨inside, n⟩) - hnot
    · exact (c.steady_group inside depth n).keeps (hmore _) (mt Following.silent_group.2 hnot)
    · exact (c.steady_base inside n).keeps (hmore _) (mt Following.silent_base.2 hnot)

/-! ## Which question leads to which -/

/-- The answer to a question hangs on the answer to another, if references are followed far
enough. -/
def Leads (c : Components) (q q' : Question) : Prop :=
  ∃ steps, HangsOn (fun follow => Following.outcome (c.enter follow) q) (c.lookup steps) q'

/-- Whether there is a grammar hangs on the answer to a question, if references are followed far
enough. -/
def Raises (c : Components) (q : Question) : Prop :=
  ∃ steps, HangsOn c.resolveWith (c.lookup steps) q

end Components

section

variable {α : Type} {asked : Set Question} {f : Following → Except Error α} {c : Components}
  {q : Question} {steps steps' : ℕ}

/-- **What hangs on a question has no result without an answer to it**, however far references are
followed. -/
theorem HangsOn.eq_endless_lookup (h : HangsOn f (c.lookup steps) q) (hf : Steady asked f)
    (hq : (c.lookup steps').Silent q) : f (c.lookup steps') = .error .endlessUnfolding := by
  rcases le_total steps steps' with hle | hle
  · exact (h.extend hf (c.extends_lookup asked hle)).eq_endless hf
      ((Following.Extends.refl _).failing hq)
  · exact h.eq_endless hf ((c.extends_lookup asked hle).failing hq)

end

namespace Components

variable {c : Components} {q q' r : Question} {steps : ℕ}

theorem Leads.mem (h : c.Leads q q') : q' ∈ c.asks q :=
  h.elim fun _ h => h.mem (c.steady_outcome q)

theorem Leads.silent (h : c.Leads q q') (hq : (c.lookup steps).Silent q') :
    (c.lookup (steps + 1)).Silent q :=
  h.elim fun _ h => h.eq_endless_lookup (c.steady_outcome q) hq

theorem exists_leads_of_silent (h : (c.lookup (steps + 1)).Silent q) :
    ∃ q', c.Leads q q' ∧ (c.lookup steps).Silent q' := by
  obtain ⟨q', -, hsilent, hhangs⟩ := (c.steady_outcome q).blames h
  exact ⟨q', ⟨steps, hhangs⟩, hsilent⟩

/-- **What leads into a circle is never answered.** -/
theorem silent_of_circle (hreach : ReflTransGen c.Leads q r) (hcircle : TransGen c.Leads r r) :
    ∀ steps, (c.lookup steps).Silent q := by
  intro steps
  induction steps generalizing q with
  | zero => exact c.silent_zero q
  | succ steps ih =>
    have hnext : ∃ q', c.Leads q q' ∧ ReflTransGen c.Leads q' r := by
      rcases hreach.cases_head with rfl | hnext
      · exact TransGen.head'_iff.1 hcircle
      · exact hnext
    obtain ⟨q', hleads, hrest⟩ := hnext
    exact hleads.silent (ih hrest)

/-! ## Long ways come by the same question twice -/

/-- Without an answer after some steps, as many questions lead to one another. -/
theorem exists_way_of_silent {steps : ℕ} {q : Question} (h : (c.lookup steps).Silent q) :
    ∃ way : ℕ → Question, way 0 = q ∧ ∀ i < steps, c.Leads (way i) (way (i + 1)) := by
  induction steps generalizing q with
  | zero => exact ⟨fun _ => q, rfl, nofun⟩
  | succ steps ih =>
    obtain ⟨q', hleads, hsilent⟩ := exists_leads_of_silent h
    obtain ⟨way, rfl, hway⟩ := ih hsilent
    refine ⟨fun i => i.casesOn q way, rfl, fun i hi => ?_⟩
    cases i with
    | zero => exact hleads
    | succ i => exact hway i (Nat.lt_of_succ_lt_succ hi)

/-- A question as it can come up: the types being resolved are different types of the schema, and
groups are nested no deeper than they may be. -/
def Fits (c : Components) : Question → Prop
  | .group inside depth _ =>
    inside.Nodup ∧ inside ⊆ c.types.map Prod.fst ∧ depth ≤ groupLimit
  | .base inside _ => inside.Nodup ∧ inside ⊆ c.types.map Prod.fst

theorem fits_of_questions {inside : List ExpandedName} {depth : ℕ} (hnodup : inside.Nodup)
    (htypes : inside ⊆ c.types.map Prod.fst) (hdepth : depth ≤ groupLimit)
    (hq : q ∈ questions inside depth) : c.Fits q := by
  cases q with
  | group inside' depth' n =>
    obtain ⟨rfl, rfl | rfl⟩ := hq
    · exact ⟨hnodup, htypes, hdepth⟩
    · exact ⟨hnodup, htypes, le_rfl⟩
  | base inside' n =>
    obtain rfl := hq
    exact ⟨hnodup, htypes⟩

theorem fits_of_firstQuestions (hq : q ∈ c.firstQuestions) : c.Fits q := by
  rcases hq with ⟨n, hn, hq⟩ | hq
  · exact fits_of_questions (List.nodup_singleton n) (List.cons_subset.2 ⟨hn, List.nil_subset _⟩)
      le_rfl hq
  · exact fits_of_questions List.nodup_nil (List.nil_subset _) le_rfl hq

theorem Leads.fits (h : c.Leads q q') (hfits : c.Fits q) : c.Fits q' := by
  have hmem := h.mem
  rcases q with ⟨inside, _ | depth, n⟩ | ⟨inside, n⟩
  · exact absurd hmem (Set.notMem_empty q')
  · exact fits_of_questions hfits.1 hfits.2.1 (Nat.le_of_succ_le hfits.2.2) hmem.2
  · obtain ⟨hinside, hn, hq⟩ := hmem
    exact fits_of_questions (List.nodup_cons.2 ⟨hinside, hfits.1⟩)
      (List.cons_subset.2 ⟨hn, hfits.2⟩) le_rfl hq

theorem inside_of_questions {inside : List ExpandedName} {depth : ℕ}
    (hq : q ∈ questions inside depth) : q.inside = inside := by
  cases q with
  | group _ _ _ => exact hq.1
  | base _ _ => exact hq

/-- **The types being resolved only grow in number.** -/
theorem Leads.suffix (h : c.Leads q q') : q.inside <:+ q'.inside := by
  have hmem := h.mem
  rcases q with ⟨inside, _ | depth, n⟩ | ⟨inside, n⟩
  · exact absurd hmem (Set.notMem_empty q')
  · rw [inside_of_questions hmem.2]
    exact List.suffix_rfl
  · rw [inside_of_questions hmem.2.2]
    exact List.suffix_cons n inside

/-- What tells the questions of a way apart: how many types are being resolved, and the group that
is asked about. -/
def key : Question → ℕ × Option (ℕ × ExpandedName)
  | .group inside depth n => (inside.length, some (depth, n))
  | .base inside _ => (inside.length, none)

/-- The keys of the questions that lead to others. -/
def keys (c : Components) : Finset (ℕ × Option (ℕ × ExpandedName)) :=
  Finset.range (c.types.length + 1) ×ˢ
    Finset.insertNone (Finset.range (groupLimit + 1) ×ˢ (c.groups.map Prod.fst).toFinset)

theorem length_le_types {inside : List ExpandedName} (hnodup : inside.Nodup)
    (htypes : inside ⊆ c.types.map Prod.fst) : inside.length < c.types.length + 1 := by
  have hle := (hnodup.subperm htypes).length_le
  rw [List.length_map] at hle
  exact Nat.lt_succ_of_le hle

theorem Leads.key_mem (h : c.Leads q q') (hfits : c.Fits q) : key q ∈ c.keys := by
  have hmem := h.mem
  rcases q with ⟨inside, _ | depth, n⟩ | ⟨inside, n⟩
  · exact absurd hmem (Set.notMem_empty q')
  · refine Finset.mem_product.2 ⟨Finset.mem_range.2 (length_le_types hfits.1 hfits.2.1), ?_⟩
    refine Finset.some_mem_insertNone.2 (Finset.mem_product.2 ⟨?_, List.mem_toFinset.2 hmem.1⟩)
    exact Finset.mem_range.2 (Nat.lt_succ_of_le hfits.2.2)
  · refine Finset.mem_product.2 ⟨Finset.mem_range.2 (length_le_types hfits.1 hfits.2), ?_⟩
    exact Finset.none_mem_insertNone

theorem card_keys_lt (c : Components) : c.keys.card < c.stepLimit := by
  have hgroups : (c.groups.map Prod.fst).toFinset.card ≤ c.groups.length :=
    (List.toFinset_card_le _).trans_eq (List.length_map _)
  have hasked : (groupLimit + 1) * (c.groups.map Prod.fst).toFinset.card + 1 <
      c.groups.length * (groupLimit + 1) + 2 := by
    rw [Nat.mul_comm c.groups.length]
    exact Nat.succ_lt_succ (Nat.lt_succ_of_le (Nat.mul_le_mul_left _ hgroups))
  rw [keys, stepLimit, Finset.card_product, Finset.card_insertNone, Finset.card_product,
    Finset.card_range, Finset.card_range]
  exact Nat.mul_lt_mul_of_lt_of_lt (Nat.lt_succ_self _) hasked

section Way

variable {way : ℕ → Question}

theorem reaches_of_way (hway : ∀ i < steps, c.Leads (way i) (way (i + 1))) {i j : ℕ} (hij : i ≤ j)
    (hj : j ≤ steps) : ReflTransGen c.Leads (way i) (way j) := by
  induction j, hij using Nat.le_induction with
  | base => exact .refl
  | succ j _ ih => exact (ih (Nat.le_of_succ_le hj)).tail (hway j hj)

theorem suffix_of_reaches (h : ReflTransGen c.Leads q q') : q.inside <:+ q'.inside := by
  induction h with
  | refl => exact List.suffix_rfl
  | tail _ hleads ih => exact ih.trans hleads.suffix

theorem fits_of_reaches (h : ReflTransGen c.Leads q q') (hfits : c.Fits q) : c.Fits q' := by
  induction h with
  | refl => exact hfits
  | tail _ hleads ih => exact hleads.fits ih

/-- **Questions on a way with the same key are the same**: between them no type is entered. -/
theorem eq_of_key_eq (hleads : c.Leads q q') (hreach : ReflTransGen c.Leads q' r)
    (hkey : key q = key r) : q = r := by
  have hinside := (suffix_of_reaches hreach).length_le
  have hsuffix := hleads.suffix.trans (suffix_of_reaches hreach)
  have hmem := hleads.mem
  rcases q with ⟨inside, _ | depth, n⟩ | ⟨inside, n⟩
  · exact absurd hmem (Set.notMem_empty q')
  · cases r with
    | group inside' depth' n' =>
      obtain ⟨hlength, hgroup⟩ := Prod.mk.inj hkey
      obtain ⟨rfl, rfl⟩ := Prod.mk.inj (Option.some.inj hgroup)
      rw [show inside = inside' from hsuffix.eq_of_length hlength]
    | base _ _ => exact absurd (congrArg Prod.snd hkey) nofun
  · cases r with
    | group _ _ _ => exact absurd (congrArg Prod.snd hkey) nofun
    | base inside' n' =>
      have hlength : inside.length = inside'.length := congrArg Prod.fst hkey
      rw [inside_of_questions hmem.2.2] at hinside
      exact absurd hinside (by simp [Question.inside, hlength])

end Way

/-- **Without an answer after `stepLimit` steps, there is a circle.** -/
theorem exists_circle (hfits : c.Fits q) (h : (c.lookup c.stepLimit).Silent q) :
    ∃ r, ReflTransGen c.Leads q r ∧ TransGen c.Leads r r := by
  obtain ⟨way, rfl, hway⟩ := exists_way_of_silent h
  have hkeys : ∀ i ∈ Finset.range c.stepLimit, key (way i) ∈ c.keys := fun i hi => by
    have hi := Finset.mem_range.1 hi
    exact (hway i hi).key_mem (fits_of_reaches (reaches_of_way hway (Nat.zero_le i) hi.le) hfits)
  obtain ⟨i, hi, j, hj, hne, hkey⟩ := Finset.exists_ne_map_eq_of_card_lt_of_maps_to
    (by rw [Finset.card_range]; exact c.card_keys_lt) hkeys
  wlog hij : i < j generalizing i j
  · exact this j hj i hi hne.symm hkey.symm (lt_of_le_of_ne (not_lt.1 hij) hne.symm)
  have hi := Finset.mem_range.1 hi
  have hj := Finset.mem_range.1 hj
  have hrest := reaches_of_way hway hij hj.le
  have heq := eq_of_key_eq (hway i hi) hrest hkey
  have hback : ReflTransGen c.Leads (way (i + 1)) (way i) := heq ▸ hrest
  exact ⟨way i, reaches_of_way hway (Nat.zero_le i) hi.le, TransGen.head' (hway i hi) hback⟩

/-! ## On every circle a group is entered with the count at its start -/

/-- How far a question is on its way, as long as no group is entered with the count at its start:
one more type is worth more than all the groups that may be nested. -/
def progress : Question → ℕ
  | .group inside depth _ => inside.length * (groupLimit + 2) + (groupLimit - depth)
  | .base inside _ => inside.length * (groupLimit + 2) + (groupLimit + 1)

theorem Leads.progress_lt (h : c.Leads q q') (hfits : c.Fits q) :
    progress q < progress q' ∨ ∃ inside n, q' = .group inside groupLimit n := by
  have hmem := h.mem
  rcases q with ⟨inside, _ | depth, n⟩ | ⟨inside, n⟩
  · exact absurd hmem (Set.notMem_empty q')
  · have hdepth := hfits.2.2
    obtain ⟨-, hq⟩ := hmem
    rcases q' with ⟨inside', depth', n'⟩ | ⟨inside', n'⟩
    · obtain ⟨rfl, rfl | rfl⟩ := hq
      · refine .inl (Nat.add_lt_add_left ?_ _)
        omega
      · exact .inr ⟨_, _, rfl⟩
    · obtain rfl := hq
      refine .inl (Nat.add_lt_add_left ?_ _)
      omega
  · obtain ⟨-, -, hq⟩ := hmem
    have hinside := inside_of_questions hq
    refine .inl ?_
    have hle : (n :: inside).length * (groupLimit + 2) ≤ progress q' := by
      cases q' <;> exact hinside ▸ Nat.le_add_right _ _
    refine lt_of_lt_of_le ?_ hle
    rw [progress, List.length_cons, Nat.succ_mul]
    exact Nat.add_lt_add_left (Nat.lt_succ_self _) _

/-- A way either makes progress or enters a group with the count at its start. -/
theorem progress_lt_of_way (h : TransGen c.Leads q r) (hfits : c.Fits q) :
    progress q < progress r ∨ ∃ inside n, TransGen c.Leads q (.group inside groupLimit n) ∧
      ReflTransGen c.Leads (.group inside groupLimit n) r := by
  induction h with
  | single hleads =>
    rcases hleads.progress_lt hfits with hlt | ⟨inside, n, rfl⟩
    · exact .inl hlt
    · exact .inr ⟨inside, n, .single hleads, .refl⟩
  | tail hway hleads ih =>
    rcases ih with hlt | ⟨inside, n, hto, hfrom⟩
    · rcases hleads.progress_lt (fits_of_reaches hway.to_reflTransGen hfits) with
        hlt' | ⟨inside, n, rfl⟩
      · exact .inl (hlt.trans hlt')
      · exact .inr ⟨inside, n, hway.tail hleads, .refl⟩
    · exact .inr ⟨inside, n, hto, hfrom.tail hleads⟩

/-- **A circle comes by a group that is entered with the count at its start.** -/
theorem exists_group_of_circle (h : TransGen c.Leads r r) (hfits : c.Fits r) :
    ∃ inside n, ReflTransGen c.Leads r (.group inside groupLimit n) ∧
      TransGen c.Leads (.group inside groupLimit n) (.group inside groupLimit n) := by
  rcases progress_lt_of_way h hfits with hlt | ⟨inside, n, hto, hfrom⟩
  · exact absurd hlt (lt_irrefl _)
  · exact ⟨inside, n, hto.to_reflTransGen, TransGen.trans_right hfrom hto⟩

/-! ## When making a grammar does not end -/

/-- **Some group holds itself**: a question that is raised leads to what the group holds, with the
count of the depth of groups at its start, and that leads back to the same question. -/
def UnfoldsForever (c : Components) : Prop :=
  ∃ q inside n, c.Raises q ∧ ReflTransGen c.Leads q (.group inside groupLimit n) ∧
    TransGen c.Leads (.group inside groupLimit n) (.group inside groupLimit n)

theorem UnfoldsForever.resolveWith_eq (h : c.UnfoldsForever) (steps : ℕ) :
    c.resolveWith (c.lookup steps) = .error .endlessUnfolding := by
  obtain ⟨q, inside, n, ⟨_, hraises⟩, hreach, hcircle⟩ := h
  exact hraises.eq_endless_lookup c.steady_resolveWith (silent_of_circle hreach hcircle steps)

theorem unfoldsForever_of_resolve (h : c.resolve = .error .endlessUnfolding) :
    c.UnfoldsForever := by
  obtain ⟨q, hq, hsilent, hhangs⟩ := c.steady_resolveWith.blames h
  have hfits := fits_of_firstQuestions hq
  obtain ⟨r, hreach, hcircle⟩ := exists_circle hfits hsilent
  obtain ⟨inside, n, hgroup, hself⟩ :=
    exists_group_of_circle hcircle (fits_of_reaches hreach hfits)
  exact ⟨q, inside, n, ⟨_, hhangs⟩, hreach.trans hgroup, hself⟩

/-- **Making a grammar ends unless some group holds itself** with the count of the depth of groups
started anew; and no number of steps gives a result that `stepLimit` steps do not give. -/
theorem resolve_eq_endless_iff (c : Components) :
    (c.resolve = .error .endlessUnfolding ↔ c.UnfoldsForever) ∧
      ∀ steps, c.resolveWith (c.lookup steps) = .error .endlessUnfolding ∨
        c.resolveWith (c.lookup steps) = c.resolve := by
  refine ⟨⟨unfoldsForever_of_resolve, fun h => h.resolveWith_eq c.stepLimit⟩, fun steps => ?_⟩
  rw [or_iff_not_imp_left]
  intro hend
  rcases le_total steps c.stepLimit with hle | hle
  · exact (c.steady_resolveWith.keeps (c.extends_lookup _ hle) hend).symm
  · refine c.steady_resolveWith.keeps (c.extends_lookup _ hle) fun hendless => hend ?_
    exact (unfoldsForever_of_resolve hendless).resolveWith_eq steps

/-- A node holds whatever the group `Node` holds. -/
def nodeType : ComplexType := ⟨false, none, .elements (.group .once ⟨none, "Node"⟩), [], [], none⟩

/-- A tree of nodes: the group `Node` holds an element `Child`, whose type has no name and holds
the group. -/
def treeOfNodes : Components where
  groups := [(⟨none, "Node"⟩, .sequence .once [.element ⟨0, some 1⟩
    ⟨⟨none, "Child"⟩, .complex nodeType, false, false, none⟩])]
  elements := [(⟨none, "Tree"⟩, ⟨⟨none, "Tree"⟩, .complex nodeType, false, false, none⟩)]

theorem resolveComplex_nodeType {l : Lookup}
    (h : l.group groupLimit ⟨none, "Node"⟩ = .error .endlessUnfolding) :
    treeOfNodes.resolveComplex l nodeType = .error .endlessUnfolding := by
  have hattributes : treeOfNodes.attributesOf groupLimit ⟨[], [], none⟩ = .ok ([], none) := rfl
  simp only [resolveComplex, nodeType, hattributes, ok_bind, resolveContent, resolveParticle, h,
    error_bind]

theorem lookup_node : ∀ steps, (treeOfNodes.lookup steps []).group groupLimit ⟨none, "Node"⟩ =
    .error .endlessUnfolding
  | 0 => rfl
  | steps + 1 => by
    show treeOfNodes.resolveParticle (treeOfNodes.lookup steps []) 32 (.sequence _ _) = _
    simp only [resolveParticle, resolveParticles, resolveElement, resolveType,
      resolveComplex_nodeType (lookup_node steps), error_bind]

/-- **A tree of nodes is never made into a grammar**, however far references are followed. -/
theorem treeOfNodes_endless :
    ¬ ∃ steps, treeOfNodes.resolveWith (treeOfNodes.lookup steps) ≠ .error .endlessUnfolding := by
  rintro ⟨steps, h⟩
  refine h ?_
  have htypes : treeOfNodes.resolveTypes (treeOfNodes.lookup steps) treeOfNodes.types = .ok [] :=
    rfl
  simp only [resolveWith, htypes, ok_bind]
  show (treeOfNodes.resolveElements _ [(_, _)] >>= _ : Except Error Grammar) = _
  simp only [resolveElements, resolveElement, resolveType,
    resolveComplex_nodeType (lookup_node steps), error_bind]

end Components

end XmlConformance.Schema
