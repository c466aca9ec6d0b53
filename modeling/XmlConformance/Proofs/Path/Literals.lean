import XmlConformance.Proofs.Path.Grammar
import XmlConformance.Proofs.Path.Layout
import XmlConformance.Proofs.Xml.Characters

/-!
# Proofs/Path/Literals — where the literals of an expression come from

The literals of an expression are taken from its text, so they hold no characters that the text does
not hold (`Expression.clean_compile`). The lexer reads a literal off the front of the text, and the
grammar puts expressions together from such literals (`kept_clean`).
-/

namespace XmlConformance.Path

open Xml

/-! ## Tokens -/

/-- A token whose literal can be written. -/
def Token.Clean : Token → Prop
  | .literal s => XmlText s
  | _ => True

namespace Lexer

/-- A literal consists of characters of the text. -/
theorem readLiteral_subset {quote : Char} {cs text rest : List Char}
    (h : readLiteral quote cs = some (text, rest)) : text ⊆ cs := by
  fun_induction readLiteral quote cs generalizing text rest with
  | case1 => cases h
  | case2 c hc =>
    cases h
    exact List.nil_subset _
  | case3 c hc => cases h
  | case4 c d more hc hd ih =>
    obtain ⟨⟨t, r⟩, hr, he⟩ := Option.map_eq_some_iff.1 h
    cases he
    have hmore : more ⊆ c :: d :: more := fun x hx => by simp [hx]
    refine List.cons_subset.2 ⟨?_, List.Subset.trans (ih hr) hmore⟩
    rw [eq_of_beq hc]
    exact List.mem_cons_self
  | case5 c d more hc hd =>
    cases h
    exact List.nil_subset _
  | case6 c d more hc ih =>
    obtain ⟨⟨t, r⟩, hr, he⟩ := Option.map_eq_some_iff.1 h
    cases he
    exact List.cons_subset_cons c (ih hr)

theorem operator?_ne_literal (name s : String) : Token.operator? name ≠ some (.literal s) := by
  intro h
  unfold Token.operator? at h
  split at h <;> cases h

theorem readNamed_ne_literal {expected : Bool} {cs rest : List Char} {s : String} :
    readNamed expected cs ≠ .ok (.literal s, rest) := by
  intro h
  unfold readNamed at h
  dsimp only at h
  split at h
  · case h_1 operator hoperator =>
    cases h
    split at hoperator
    · cases hoperator
    · exact operator?_ne_literal _ s hoperator
  · split at h
    · cases h
    · cases h
    · split at h <;> cases h
    · cases h

/-- **A literal that is read** consists of characters of the text. -/
theorem subset_of_read {expected : Bool} {cs rest : List Char} {s : String}
    (h : read expected cs = .ok (some (.literal s, rest))) : s.toList ⊆ cs := by
  unfold read at h
  split at h
  all_goals first
    | cases h
    | skip
  · split at h <;> cases h
  · split at h <;> cases h
  · split at h
    · cases h
    · split at h
      · split at h <;> cases h
      · cases h
  · case h_24 c more _ _ _ _ _ _ _ _ _ _ _ _ _ _ _ _ _ _ _ _ _ _ =>
    split at h
    · split at h
      · case h_1 text after heq =>
        cases h
        rw [String.toList_ofList]
        exact List.Subset.trans (readLiteral_subset heq) (List.subset_cons_self _ _)
      · cases h
    · split at h
      · cases h
      · split at h
        · obtain ⟨_, hnamed, heq⟩ := map_eq_ok.1 h
          cases heq
          exact absurd hnamed readNamed_ne_literal
        · cases h

/-- The literals of tokens come from the text. -/
theorem clean_tokens {expected : Bool} {cs : List Char} {ts : List Token}
    (h : tokens expected cs = .ok ts) (hcs : ∀ c ∈ cs, isXmlChar c = true) :
    ∀ t ∈ ts, t.Clean := by
  fun_induction tokens expected cs generalizing ts with
  | case1 => cases h
  | case2 => cases h
  | case3 =>
    cases h
    exact List.forall_mem_nil _
  | case4 expected cs rest hlayout t after hread _ _ ih =>
    obtain ⟨⟨layout, rfl, -⟩, -⟩ := exists_layout_of_skipLayout hlayout
    obtain ⟨more, hmore, rfl⟩ := map_eq_ok.1 h
    obtain ⟨lexeme, hrest, -⟩ := takes_read hread
    have hchars := List.forall_mem_append.1 hcs
    have hafter : ∀ c ∈ after, isXmlChar c = true :=
      fun c hc => hchars.2 c (hrest ▸ List.mem_append_right lexeme hc)
    refine List.forall_mem_cons.2 ⟨?_, ih hmore hafter⟩
    cases t with
    | literal s => exact fun c hc => hchars.2 c (subset_of_read hread hc)
    | _ => trivial

end Lexer

/-! ## Expressions -/

namespace Expr

mutual

/-- An expression whose literals can be written. -/
def Clean : Expr → Prop
  | .literal s => XmlText s
  | .number _ | .var _ | .root => True
  | .step _ _ predicates => AllClean predicates
  | .slash a b | .union a b | .or a b | .and a b => a.Clean ∧ b.Clean
  | .general _ a b | .value _ a b | .arithmetic _ a b => a.Clean ∧ b.Clean
  | .filter primary predicates => primary.Clean ∧ AllClean predicates
  | .sequence parts => AllClean parts
  | .negate e => e.Clean
  | .call _ arguments => AllClean arguments

/-- Expressions whose literals can be written. -/
def AllClean : List Expr → Prop
  | [] => True
  | e :: es => e.Clean ∧ AllClean es

end

theorem allClean_iff : ∀ {es : List Expr}, AllClean es ↔ ∀ e ∈ es, e.Clean
  | [] => by simp [AllClean]
  | e :: es => by rw [AllClean, allClean_iff, List.forall_mem_cons]

theorem Clean.join {join : Expr → Expr → Expr} {a b : Expr} (h : Syntax.Joining join)
    (ha : a.Clean) (hb : b.Clean) : (join a b).Clean := by
  cases h <;> exact ⟨ha, hb⟩

/-- **An expression that is put together from clean parts is clean.** -/
theorem kept_clean : Syntax.Kept Token.Clean Clean where
  literal h := h
  number _ := trivial
  var _ := trivial
  root := trivial
  step h := allClean_iff.2 h
  slash ha hb := ⟨ha, hb⟩
  filter he h := ⟨he, allClean_iff.2 h⟩
  sequence h := allClean_iff.2 h
  join hjoin ha hb := .join hjoin ha hb
  negate h := h
  call _ h := allClean_iff.2 h

/-- **The literals of an expression come from its text.** -/
theorem clean_ofText {ns : Namespaces} {text : String} {e : Expr} (htext : XmlText text)
    (h : Expr.ofText ns text = .ok e) : e.Clean :=
  kept_clean.ofText (fun _ hts => Lexer.clean_tokens hts htext) h

end Expr

/-- An expression whose text and literals can be written. -/
structure Expression.Clean (e : Expression) : Prop where
  source : XmlText e.source
  body : e.body.Clean

theorem Expression.clean_compile {ns : Namespaces} {text : String} {e : Expression}
    (htext : XmlText text) (h : Expression.compile ns text = .ok e) : e.Clean := by
  obtain ⟨rfl, hbody⟩ := Expression.compile_eq_ok.1 h
  exact ⟨htext, Expr.clean_ofText htext hbody⟩

theorem Expression.clean_pattern {ns : Namespaces} {text : String} {e : Expression}
    (htext : XmlText text) (h : Expression.pattern ns text = .ok e) : e.Clean := by
  obtain ⟨e', hc, rfl⟩ := map_eq_ok.1 h
  have he := Expression.clean_compile htext hc
  exact ⟨he.source, Expr.kept_clean.anchored id he.body⟩

end XmlConformance.Path
