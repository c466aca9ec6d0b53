import Mathlib.Tactic.Common

/-!
# Proofs/Outcome — computations that may fail

A computation in `Except` that ends in a value can be taken apart: `bind_eq_ok` gives the value of
the first part, and says that the second part ends in the same value.
-/

namespace XmlConformance

universe u v

variable {ε : Type u} {α β : Type v}

/-- **A computation ends in a value if its parts do**, one behind the other. -/
theorem bind_eq_ok {x : Except ε α} {f : α → Except ε β} {b : β} :
    x >>= f = .ok b ↔ ∃ a, x = .ok a ∧ f a = .ok b := by
  cases x with
  | ok a => exact ⟨fun h => ⟨a, rfl, h⟩, fun ⟨_, h, hb⟩ => by cases h; exact hb⟩
  | error e => exact ⟨fun h => (by cases h), fun ⟨_, h, _⟩ => by cases h⟩

/-- **A computation fails in its first part or in what comes behind it.** -/
theorem bind_eq_error {x : Except ε α} {f : α → Except ε β} {e : ε} :
    x >>= f = .error e ↔ x = .error e ∨ ∃ a, x = .ok a ∧ f a = .error e := by
  match x with
  | .ok a => exact ⟨fun h => .inr ⟨a, rfl, h⟩, fun h => h.elim nofun fun ⟨_, rfl, h⟩ => h⟩
  | .error d => exact ⟨fun h => .inl (congrArg _ (Except.error.inj h)),
      fun h => h.elim (fun h => congrArg _ (Except.error.inj h)) nofun⟩

/-- A value that is only put into another one is there just when the other one is not. -/
theorem bind_pure_eq_error {x : Except ε α} {f : α → β} {e : ε} :
    (x >>= fun a => pure (f a)) = .error e ↔ x = .error e :=
  bind_eq_error.trans (or_iff_left fun ⟨_, _, h⟩ => nomatch h)

/-- **A mapped computation ends in a mapped value.** -/
theorem map_eq_ok {x : Except ε α} {f : α → β} {b : β} :
    x.map f = .ok b ↔ ∃ a, x = .ok a ∧ b = f a := by
  match x with
  | .ok a => exact ⟨fun h => ⟨a, rfl, (Except.ok.inj h).symm⟩, fun ⟨_, rfl, hb⟩ => hb ▸ rfl⟩
  | .error e => exact ⟨nofun, nofun⟩

/-- **A mapped computation fails as before.** -/
theorem map_eq_error {x : Except ε α} {f : α → β} {e : ε} : x.map f = .error e ↔ x = .error e := by
  cases x with
  | ok a => exact ⟨fun h => (by cases h), fun h => by cases h⟩
  | error d => exact ⟨fun h => congrArg _ (Except.error.inj h), fun h => congrArg _
      (Except.error.inj h)⟩

/-- **Another error changes no value.** -/
theorem mapError_eq_ok {δ : Type u} {x : Except ε α} {f : ε → δ} {a : α} :
    x.mapError f = .ok a ↔ x = .ok a := by
  cases x with
  | ok b => exact ⟨fun h => congrArg _ (Except.ok.inj h), fun h => congrArg _ (Except.ok.inj h)⟩
  | error e => exact ⟨fun h => (by cases h), fun h => by cases h⟩

@[simp] theorem ok_bind (a : α) (f : α → Except ε β) : (.ok a >>= f : Except ε β) = f a := rfl

@[simp] theorem error_bind (e : ε) (f : α → Except ε β) :
    (.error e >>= f : Except ε β) = .error e := rfl

@[simp] theorem pure_eq_ok (a : α) : (pure a : Except ε α) = .ok a := rfl

/-- A result that passes a test is there. -/
theorem exists_of_any_toOption {x : Except ε α} {p : α → Bool}
    (h : x.toOption.any p = true) : ∃ a, x = .ok a ∧ p a = true := by
  cases x with
  | ok a => exact ⟨a, rfl, h⟩
  | error e => cases h

theorem exists_of_isNone_toOption {x : Except ε α} (h : x.toOption.isNone = true) :
    ∃ e, x = .error e := by
  cases x with
  | ok a => cases h
  | error e => exact ⟨e, rfl⟩

/-- Computations that end in the same values have the same result. -/
theorem toOption_eq_of_ok_iff {x y : Except ε α} (h : ∀ a, x = .ok a ↔ y = .ok a) :
    x.toOption = y.toOption := by
  cases x with
  | ok a => rw [(h a).1 rfl]
  | error d =>
    cases y with
    | ok a => exact nomatch (h a).2 rfl
    | error e => rfl

/-- A property that every step of a traversal ensures holds of all results. -/
theorem forall_of_mapM_eq_ok {f : α → Except ε β} {P : β → Prop} : ∀ {l : List α} {r : List β},
    l.mapM f = .ok r → (∀ a ∈ l, ∀ b, f a = .ok b → P b) → ∀ b ∈ r, P b
  | [], r, h, _ => by
    cases h
    exact nofun
  | a :: l, r, h, hf => by
    rw [List.mapM_cons] at h
    obtain ⟨b, hb, h⟩ := bind_eq_ok.1 h
    obtain ⟨rest, hrest, h⟩ := bind_eq_ok.1 h
    cases h
    rw [List.forall_mem_cons] at hf
    exact List.forall_mem_cons.2 ⟨hf.1 b hb, forall_of_mapM_eq_ok hrest hf.2⟩

/-- **A traversal gives for each member what the step gives for it.** -/
theorem forall₂_of_mapM_eq_ok {f : α → Except ε β} : ∀ {l : List α} {r : List β},
    l.mapM f = .ok r → List.Forall₂ (fun a b => f a = .ok b) l r
  | [], r, h => by
    cases h
    exact .nil
  | a :: l, r, h => by
    rw [List.mapM_cons] at h
    obtain ⟨b, hb, h⟩ := bind_eq_ok.1 h
    obtain ⟨rest, hrest, h⟩ := bind_eq_ok.1 h
    cases h
    exact .cons hb (forall₂_of_mapM_eq_ok hrest)

/-- **A traversal ends in a value if every step does.** -/
theorem exists_mapM_eq_ok {f : α → Except ε β} : ∀ {l : List α},
    (∃ r, l.mapM f = .ok r) ↔ ∀ a ∈ l, ∃ b, f a = .ok b
  | [] => iff_of_true ⟨[], rfl⟩ nofun
  | a :: l => by
    rw [List.mapM_cons, List.forall_mem_cons, ← exists_mapM_eq_ok]
    constructor
    · rintro ⟨r, h⟩
      obtain ⟨b, hb, h⟩ := bind_eq_ok.1 h
      obtain ⟨rest, hrest, -⟩ := bind_eq_ok.1 h
      exact ⟨⟨b, hb⟩, rest, hrest⟩
    · rintro ⟨⟨b, hb⟩, rest, hrest⟩
      exact ⟨b :: rest, bind_eq_ok.2 ⟨b, hb, bind_eq_ok.2 ⟨rest, hrest, rfl⟩⟩⟩

/-- **What a traversal collects** is what the steps give. -/
theorem mem_flatten_of_mapM {f : α → Except ε (List β)} {l : List α} {r : List (List β)}
    (h : l.mapM f = .ok r) {x : β} : x ∈ r.flatten ↔ ∃ a ∈ l, ∃ b, f a = .ok b ∧ x ∈ b := by
  have hsteps := forall₂_of_mapM_eq_ok h
  clear h
  induction hsteps with
  | nil => simp
  | cons hb hrest ih => simp [ih, hb]

/-! ## What computations fail with -/

/-- **A computation fails with errors of a kind only.** -/
def FailsWith (P : ε → Prop) (x : Except ε α) : Prop := ∀ e, x = .error e → P e

namespace FailsWith

variable {P : ε → Prop} {x : Except ε α} {f : α → Except ε β}

theorem ok (a : α) : FailsWith P (.ok a) := nofun

theorem error {e : ε} (h : P e) : FailsWith P (.error e : Except ε α) := fun _ he =>
  Except.error.inj he ▸ h

theorem bind (hx : FailsWith P x) (hf : ∀ a, x = .ok a → FailsWith P (f a)) :
    FailsWith P (x >>= f) :=
  fun e he => (bind_eq_error.1 he).elim (hx e) fun ⟨a, ha, h⟩ => hf a ha e h

theorem mapM (hf : ∀ a, FailsWith P (f a)) : ∀ l : List α, FailsWith P (l.mapM f)
  | [] => ok []
  | a :: l => by
    rw [List.mapM_cons]
    exact (hf a).bind fun b _ => (mapM hf l).bind fun bs _ => ok (b :: bs)

theorem forM {f : α → Except ε PUnit} (hf : ∀ a, FailsWith P (f a)) :
    ∀ l : List α, FailsWith P (l.forM f)
  | [] => ok _
  | a :: l => (hf a).bind fun _ _ => forM hf l

end FailsWith

/-! ## What computations end in -/

/-- **Two computations never end in different values.** -/
def Coincide (x x' : Except ε α) : Prop := ∀ a a', x = .ok a → x' = .ok a' → a = a'

namespace Coincide

variable {x x' : Except ε α} {f f' : α → Except ε β}

theorem refl (x : Except ε α) : Coincide x x := fun _ _ h h' => Except.ok.inj (h.symm.trans h')

theorem bind (hx : Coincide x x') (hf : ∀ a, Coincide (f a) (f' a)) :
    Coincide (x >>= f) (x' >>= f') := by
  intro b b' h h'
  obtain ⟨a, ha, h⟩ := bind_eq_ok.1 h
  obtain ⟨a', ha', h'⟩ := bind_eq_ok.1 h'
  obtain rfl := hx a a' ha ha'
  exact hf a b b' h h'

end Coincide

end XmlConformance
