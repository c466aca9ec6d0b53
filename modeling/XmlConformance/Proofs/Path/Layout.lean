import XmlConformance.Proofs.Path.Lexemes

/-!
# Proofs/Path/Layout — blanks and comments between tokens

Layout is blanks and comments, and a comment may hold others (`Layout`). A place between the tokens
of a text is one that is reached token by token, blank by blank and comment by comment (`Between`).
From such a place on, the tokens depend on those in front only by whether an operand is expected
behind the last of them, and layout may be put in there (`Token.ofText_insertLayout`).
-/

namespace XmlConformance.Path

namespace Lexer

/-! ## Comments -/

/-- **The rest of a comment** behind its opening. Neither an opening nor a closing is skipped. -/
inductive Closes : List Char → Prop
  | close : Closes [':', ')']
  | nested {inner rest : List Char} : Closes inner → Closes rest →
      Closes ('(' :: ':' :: (inner ++ rest))
  | char {c : Char} {rest : List Char} : (c = '(' → rest.head? ≠ some ':') →
      (c = ':' → rest.head? ≠ some ')') → Closes rest → Closes (c :: rest)

variable {b : Bool} {c : Char} {cs u v x y : List Char} {t : Token} {ts : List Token}

theorem skipComment_char (depth : ℕ) (hopen : c = '(' → cs.head? ≠ some ':')
    (hclose : c = ':' → cs.head? ≠ some ')') :
    skipComment depth (c :: cs) = skipComment depth cs := by
  rw [skipComment]
  · rintro rest rfl rfl
    exact hopen rfl rfl
  · rintro rest - rfl rfl
    exact hclose rfl rfl
  · rintro depth rest - rfl rfl
    exact hclose rfl rfl

theorem Closes.ne_nil (h : Closes cs) : cs ≠ [] := by
  cases h <;> exact List.cons_ne_nil _ _

theorem head?_append_of_ne_nil (h : u ≠ []) (v : List Char) : (u ++ v).head? = u.head? := by
  obtain ⟨c, u, rfl⟩ := List.exists_cons_of_ne_nil h
  rfl

/-- **A comment is skipped as a whole**, also one inside of others. -/
theorem Closes.skipComment (h : Closes cs) (rest : List Char) :
    skipComment 0 (cs ++ rest) = some rest ∧
      ∀ depth, skipComment (depth + 1) (cs ++ rest) = skipComment depth rest := by
  induction h generalizing rest with
  | close => exact ⟨rfl, fun _ => rfl⟩
  | @nested inner behind _ _ ihInner ihBehind =>
    have hinner (depth : ℕ) : Lexer.skipComment depth ('(' :: ':' :: (inner ++ behind) ++ rest) =
        Lexer.skipComment depth (behind ++ rest) := by
      rw [List.cons_append, List.cons_append, List.append_assoc, Lexer.skipComment,
        (ihInner _).2]
    simp only [hinner]
    exact ihBehind rest
  | @char c behind hopen hclose hbehind ih =>
    have hhead := head?_append_of_ne_nil hbehind.ne_nil rest
    have hchar (depth : ℕ) : Lexer.skipComment depth (c :: (behind ++ rest)) =
        Lexer.skipComment depth (behind ++ rest) :=
      skipComment_char depth (hhead ▸ hopen) (hhead ▸ hclose)
    simp only [List.cons_append, hchar]
    exact ih rest

/-- The rests of several comments, one behind the other. -/
def ClosesEach : ℕ → List Char → Prop
  | 0, cs => cs = []
  | n + 1, cs => ∃ first more, cs = first ++ more ∧ Closes first ∧ ClosesEach n more

/-- **What is skipped closes the comments that are open.** -/
theorem closesEach_of_skipComment {depth : ℕ} {rest : List Char}
    (h : skipComment depth cs = some rest) :
    ∃ skipped, cs = skipped ++ rest ∧ ClosesEach (depth + 1) skipped := by
  fun_induction skipComment depth cs with
  | case1 depth cs ih =>
    obtain ⟨_, rfl, inner, _, rfl, hinner, behind, more, rfl, hbehind, hmore⟩ := ih h
    exact ⟨'(' :: ':' :: (inner ++ behind) ++ more, by simp, _, more, rfl,
      .nested hinner hbehind, hmore⟩
  | case2 cs =>
    obtain rfl := Option.some.inj h
    exact ⟨[':', ')'], rfl, _, [], rfl, .close, rfl⟩
  | case3 cs depth ih =>
    obtain ⟨skipped, rfl, hskipped⟩ := ih h
    exact ⟨':' :: ')' :: skipped, rfl, _, skipped, rfl, .close, hskipped⟩
  | case4 depth c cs hopen hclose hclose' ih =>
    have hopens : c = '(' → cs.head? ≠ some ':' := by
      intro hc hcs
      obtain ⟨more, rfl⟩ := List.head?_eq_some_iff.1 hcs
      exact hopen more hc rfl
    have hcloses : c = ':' → cs.head? ≠ some ')' := by
      intro hc hcs
      obtain ⟨more, rfl⟩ := List.head?_eq_some_iff.1 hcs
      cases depth with
      | zero => exact hclose more rfl hc rfl
      | succ depth => exact hclose' depth more rfl hc rfl
    obtain ⟨_, rfl, first, more, rfl, hfirst, hmore⟩ := ih h
    rw [List.append_assoc, head?_append_of_ne_nil hfirst.ne_nil] at hopens hcloses
    exact ⟨c :: first ++ more, by simp, _, more, rfl, .char hopens hcloses hfirst, hmore⟩
  | case5 => cases h

theorem exists_closes_of_skipComment {rest : List Char} (h : skipComment 0 cs = some rest) :
    ∃ body, cs = body ++ rest ∧ Closes body := by
  obtain ⟨_, rfl, body, _, rfl, hbody, rfl⟩ := closesEach_of_skipComment h
  exact ⟨body, by rw [List.append_nil], hbody⟩

/-! ## Layout -/

/-- **Layout**: blanks and comments that are closed. -/
inductive Layout : List Char → Prop
  | nil : Layout []
  | blank {c : Char} {rest : List Char} : isLayout c = true → Layout rest → Layout (c :: rest)
  | comment {body rest : List Char} : Closes body → Layout rest →
      Layout ('(' :: ':' :: (body ++ rest))

theorem skipLayout_blank (h : isLayout c = true) (cs : List Char) :
    skipLayout (c :: cs) = skipLayout cs := by
  rw [skipLayout, if_pos h]
  rintro rest rfl
  cases h

theorem skipLayout_comment (h : Closes cs) (rest : List Char) :
    skipLayout ('(' :: ':' :: (cs ++ rest)) = skipLayout rest := by
  have hskip := (h.skipComment rest).1
  rw [skipLayout]
  split
  · next heq =>
    obtain rfl := Option.some.inj (heq.symm.trans hskip)
    rfl
  · next heq => cases heq.symm.trans hskip

theorem skipLayout_cons (hc : isLayout c = false) (hopen : c = '(' → cs.head? ≠ some ':') :
    skipLayout (c :: cs) = .ok (c :: cs) := by
  rw [skipLayout, hc]
  · rfl
  · rintro rest rfl rfl
    exact hopen rfl rfl

theorem skipLayout_of_ne (hc : isLayout c = false) (hopen : c ≠ '(') :
    skipLayout (c :: cs) = .ok (c :: cs) :=
  skipLayout_cons hc fun h => absurd h hopen

/-- **Layout is skipped.** -/
theorem Layout.skipLayout {layout : List Char} (h : Layout layout) (rest : List Char) :
    skipLayout (layout ++ rest) = skipLayout rest := by
  induction h with
  | nil => rfl
  | blank hc _ ih => rw [List.cons_append, skipLayout_blank hc, ih]
  | comment hbody _ ih =>
    rw [List.cons_append, List.cons_append, List.append_assoc, skipLayout_comment hbody, ih]

/-- **What is skipped is layout**, and behind it there is none. -/
theorem exists_layout_of_skipLayout {rest : List Char} (h : skipLayout cs = .ok rest) :
    (∃ layout, cs = layout ++ rest ∧ Layout layout) ∧ skipLayout rest = .ok rest := by
  fun_induction skipLayout cs with
  | case1 more after hafter _ ih =>
    obtain ⟨⟨layout, rfl, hlayout⟩, hrest⟩ := ih h
    obtain ⟨body, rfl, hbody⟩ := exists_closes_of_skipComment hafter
    exact ⟨⟨'(' :: ':' :: (body ++ layout), by simp, .comment hbody hlayout⟩, hrest⟩
  | case2 => cases h
  | case3 c more _ hc ih =>
    obtain ⟨⟨layout, rfl, hlayout⟩, hrest⟩ := ih h
    exact ⟨⟨c :: layout, rfl, .blank hc hlayout⟩, hrest⟩
  | case4 c more hopen hc =>
    have heq := Except.ok.inj h
    subst heq
    refine ⟨⟨[], rfl, .nil⟩, skipLayout_cons (Bool.eq_false_iff.2 hc) fun hc hhead => ?_⟩
    obtain ⟨rest, rfl⟩ := List.head?_eq_some_iff.1 hhead
    exact hopen rest hc rfl
  | case5 =>
    cases h
    exact ⟨⟨[], rfl, .nil⟩, by rw [skipLayout]⟩

/-- A token in front of layout ends there. -/
theorem Layout.standsApart {layout : List Char} (h : Layout layout) (hne : layout ≠ [])
    (rest : List Char) : StandsApart (layout ++ rest) := by
  cases h with
  | nil => exact absurd rfl hne
  | blank hc _ => exact fun d hd => .inl (Option.some.inj hd ▸ hc)
  | comment _ _ => exact fun d hd => .inr (Option.some.inj hd).symm

/-! ## Places between tokens -/

/-- Whether an operand is expected behind some tokens, where `b` says whether one was in front. -/
def operandExpected (b : Bool) (ts : List Token) : Bool :=
  (ts.getLast?.map Token.expectsOperand).getD b

theorem operandExpected_cons (b : Bool) (t : Token) (ts : List Token) :
    operandExpected b (t :: ts) = operandExpected t.expectsOperand ts := by
  cases h : ts.getLast? <;> simp [operandExpected, List.getLast?_cons, h]

/-- **A place between the tokens of a text**: the text in front of it is gone through blank by
blank, comment by comment and token by token, as they are read in front of `behind`. -/
inductive Between : Bool → List Char → List Token → List Char → Prop
  | start (b : Bool) (behind : List Char) : Between b [] [] behind
  | blank {b : Bool} {c : Char} {front behind : List Char} {ts : List Token} :
      isLayout c = true → Between b front ts behind → Between b (c :: front) ts behind
  | comment {b : Bool} {body front behind : List Char} {ts : List Token} :
      Closes body → Between b front ts behind →
        Between b ('(' :: ':' :: (body ++ front)) ts behind
  | token {b : Bool} {lexeme front behind : List Char} {t : Token} {ts : List Token} :
      skipLayout (lexeme ++ (front ++ behind)) = .ok (lexeme ++ (front ++ behind)) →
      read b (lexeme ++ (front ++ behind)) = .ok (some (t, front ++ behind)) →
      Between t.expectsOperand front ts behind → Between b (lexeme ++ front) (t :: ts) behind

theorem Layout.between {layout : List Char} (h : Layout layout) (hu : Between b u ts v) :
    Between b (layout ++ u) ts v := by
  induction h with
  | nil => exact hu
  | blank hc _ ih => exact .blank hc ih
  | comment hbody _ ih =>
    rw [List.cons_append, List.cons_append, List.append_assoc]
    exact .comment hbody ih

theorem tokens_eq (b : Bool) (cs : List Char) :
    tokens b cs = skipLayout cs >>= fun cs => read b cs >>= fun
      | none => .ok []
      | some (t, rest) => (tokens t.expectsOperand rest).map (t :: ·) := by
  rw [tokens]
  split
  · next hlayout => simp only [hlayout, error_bind]
  · next hlayout =>
    split
    · next hread => simp only [hlayout, hread, ok_bind, error_bind]
    · next hread => simp only [hlayout, hread, ok_bind]
    · next hread => simp only [hlayout, hread, ok_bind]

theorem tokens_congr (h : skipLayout x = skipLayout y) (b : Bool) : tokens b x = tokens b y := by
  rw [tokens_eq, tokens_eq b y, h]

theorem tokens_of_read {rest : List Char} (hlayout : skipLayout cs = .ok cs)
    (h : read b cs = .ok (some (t, rest))) :
    tokens b cs = (tokens t.expectsOperand rest).map (t :: ·) := by
  rw [tokens_eq, hlayout, ok_bind, h]
  rfl

/-- Only where nothing is left is no token read. -/
theorem eq_nil_of_read (h : read b cs = .ok none) : cs = [] := by
  unfold read at h
  repeat' split at h
  all_goals first
    | rfl
    | cases h
    | exact nomatch (map_eq_ok.1 h).choose_spec.2

/-- **The end of a text is a place behind all of its tokens.** -/
theorem between_of_tokens (h : tokens b cs = .ok ts) : Between b cs ts [] := by
  fun_induction tokens b cs generalizing ts with
  | case1 => cases h
  | case2 => cases h
  | case3 b cs rest hlayout hread =>
    cases h
    obtain rfl := eq_nil_of_read hread
    obtain ⟨⟨layout, rfl, hl⟩, -⟩ := exists_layout_of_skipLayout hlayout
    exact hl.between (.start b [])
  | case4 b cs rest hlayout t after hread _ _ ih =>
    obtain ⟨more, hmore, rfl⟩ := map_eq_ok.1 h
    obtain ⟨⟨layout, rfl, hl⟩, hrest⟩ := exists_layout_of_skipLayout hlayout
    obtain ⟨lexeme, rfl, -⟩ := takes_read hread
    refine hl.between (.token ?_ ?_ (ih hmore)) <;> rwa [List.append_nil]

/-- Texts begin alike if more than one character is the same. -/
theorem continues_append (h : 2 ≤ u.length) (x y : List Char) : Continues (u ++ x) (u ++ y) := by
  obtain - | ⟨c, - | ⟨d, u⟩⟩ := u
  · cases h
  · exact absurd h (by simp)
  · exact .inr ⟨rfl, fun _ => Iff.rfl, fun _ => rfl⟩

/-- A mark that is read together with a second one is not left alone. -/
theorem read_ne_of_pair {d : Char} {pair : Token}
    (hpair : ∀ rest, read b (c :: d :: rest) = .ok (some (pair, rest))) :
    read b (c :: d :: cs) ≠ .ok (some (t, d :: cs)) := by
  intro h
  rw [hpair cs] at h
  have hrest := (Prod.mk.inj (Option.some.inj (Except.ok.inj h))).2
  exact absurd (congrArg List.length hrest) (by simp)

/-- No token is a single colon, and a point that is one stands in front of no other. -/
theorem continues_cons (h : read b (c :: v) = .ok (some (t, v))) (hx : StandsApart x) :
    Continues (c :: v) (c :: x) := by
  refine .inr ⟨rfl, fun hc => ?_, fun hc => ?_⟩
  · obtain rfl := Option.some.inj hc
    have hv : v.head? ≠ some '.' := by
      intro hv
      obtain ⟨more, rfl⟩ := List.head?_eq_some_iff.1 hv
      exact read_ne_of_pair (fun _ => rfl) h
    exact iff_of_false hv fun hpoint => absurd (hx '.' hpoint) (by decide)
  · obtain rfl := Option.some.inj hc
    by_cases hv : Ends (· == ':') v
    · rw [read_colon hv] at h
      cases h
    · obtain ⟨more, rfl⟩ : ∃ more, v = ':' :: more := by simpa [ends_mark_iff] using hv
      exact (read_ne_of_pair (fun _ => rfl) h).elim

/-- **What stands behind a place may be changed** for something that stands apart. -/
theorem Between.continues (h : Between b u ts v) (hx : x = v ∨ StandsApart x) :
    Continues (u ++ v) (u ++ x) := by
  obtain rfl | hx := hx
  · exact .refl _
  cases h with
  | start => exact .inl hx
  | blank hc _ => exact .inl fun d hd => .inl (Option.some.inj hd ▸ hc)
  | comment _ _ => exact .inl fun d hd => .inr (Option.some.inj hd).symm
  | @token _ lexeme front _ t ts _ hread _ =>
    by_cases hlength : 2 ≤ (lexeme ++ front).length
    · exact continues_append hlength v x
    · have hlt := length_of_read hread
      obtain ⟨c, rfl⟩ : ∃ c, lexeme = [c] := by
        rw [← List.length_eq_one_iff]
        simp only [List.length_append] at hlt hlength
        omega
      obtain rfl : front = [] := by
        rw [← List.length_eq_zero_iff]
        simp only [List.length_append, List.length_singleton] at hlength
        omega
      exact continues_cons hread hx

/-- Where there is no layout in front, neither a blank nor a comment begins. -/
theorem not_layout_of_skipLayout (h : skipLayout (c :: cs) = .ok (c :: cs)) :
    isLayout c = false ∧ (c = '(' → Ends (· == ':') cs) := by
  constructor
  · refine Bool.eq_false_iff.2 fun hc => ?_
    rw [skipLayout_blank hc] at h
    exact absurd (length_of_skipLayout h) (by simp)
  · rintro rfl
    refine ends_mark_iff.2 ?_
    rintro more rfl
    rw [skipLayout] at h
    split at h
    · next rest hrest =>
      have hlt := length_of_skipComment hrest
      have hle := length_of_skipLayout h
      simp only [List.length_cons] at hle
      omega
    · cases h

/-- What follows a token may be changed without a comment beginning at it. -/
theorem skipLayout_append {lexeme : List Char} (hne : lexeme ≠ [])
    (h : skipLayout (lexeme ++ x) = .ok (lexeme ++ x)) (hxy : Continues x y) :
    skipLayout (lexeme ++ y) = .ok (lexeme ++ y) := by
  obtain ⟨c, lexeme, rfl⟩ := List.exists_cons_of_ne_nil hne
  obtain ⟨hc, hopen⟩ := not_layout_of_skipLayout h
  refine skipLayout_cons hc fun hparen => ?_
  have hends : Ends (· == ':') (lexeme ++ y) := by
    cases lexeme with
    | nil => exact hxy.ends (inner_mark (by decide)) (hopen hparen)
    | cons d lexeme => exact hopen hparen
  exact fun hhead => absurd (hends ':' hhead) (by decide)

/-- **In front of what stands apart, the tokens in front of a place are read as before.** -/
theorem Between.tokens_append (h : Between b u ts v) (hx : x = v ∨ StandsApart x) :
    tokens b (u ++ x) = (tokens (operandExpected b ts) x).map (ts ++ ·) := by
  induction h with
  | start b v =>
    change tokens b x = (tokens b x).map id
    cases tokens b x <;> rfl
  | blank hc _ ih => rw [List.cons_append, tokens_congr (skipLayout_blank hc _), ih hx]
  | comment hbody _ ih =>
    rw [List.cons_append, List.cons_append, List.append_assoc,
      tokens_congr (skipLayout_comment hbody _), ih hx]
  | @token b lexeme front v t ts hlayout hread hfront ih =>
    have hcontinues := hfront.continues hx
    obtain ⟨lexeme', hlexeme, htakes⟩ := takes_read hread
    obtain rfl := List.append_cancel_right hlexeme
    have hne : lexeme ≠ [] := by
      rintro rfl
      exact absurd (length_of_read hread) (Nat.lt_irrefl _)
    rw [List.append_assoc, tokens_of_read (skipLayout_append hne hlayout hcontinues)
      (htakes _ hcontinues), ih hx, operandExpected_cons]
    cases tokens (operandExpected t.expectsOperand ts) x <;> rfl

end Lexer

open Lexer

theorem tokens_ofList (cs : List Char) :
    Token.ofText (String.ofList cs) = tokens true cs := by
  rw [Token.ofText, String.toList_ofList]

/-- **Layout does not change tokens.** The start and the end of a text are places between its
tokens, and so is where each of them ends. Layout that is put in at such a place leaves the tokens
as they are. How the text behind a place is read depends only on whether an operand is expected
behind the last token in front of it; so behind any other text that has the same tokens, and layout,
it is read alike. -/
theorem Token.ofText_insertLayout {text : List Char} {ts : List Token}
    (h : Token.ofText (String.ofList text) = .ok ts) :
    Between true [] [] text ∧ Between true text ts [] ∧
    ∀ front inFront behind, text = front ++ behind → Between true front inFront behind →
      (∀ layout, Layout layout →
        Token.ofText (String.ofList (front ++ layout ++ behind)) = .ok ts) ∧
      ∃ following, ts = inFront ++ following ∧
        tokens (operandExpected true inFront) behind = .ok following ∧
        ∀ other layout, Token.ofText (String.ofList other) = .ok inFront → Layout layout →
          layout ≠ [] → Token.ofText (String.ofList (other ++ layout ++ behind)) = .ok ts := by
  simp only [tokens_ofList] at h ⊢
  refine ⟨.start true text, between_of_tokens h, ?_⟩
  rintro front inFront behind rfl hplace
  obtain ⟨following, hfollowing, rfl⟩ :=
    map_eq_ok.1 ((hplace.tokens_append (.inl rfl)).symm.trans h)
  have hinsert {other rest layout : List Char} (hother : Between true other inFront rest)
      (hlayout : Layout layout) (hne : layout ≠ []) :
      tokens true (other ++ layout ++ behind) = .ok (inFront ++ following) := by
    rw [List.append_assoc, hother.tokens_append (.inr (hlayout.standsApart hne behind)),
      tokens_congr (hlayout.skipLayout behind), hfollowing]
    rfl
  refine ⟨fun layout hlayout => ?_, following, rfl, hfollowing,
    fun other layout hother hlayout hne => hinsert (between_of_tokens hother) hlayout hne⟩
  by_cases hne : layout = []
  · rw [hne, List.append_nil, h]
  · exact hinsert hplace hlayout hne

/-- A nested comment and a tab between a name and an operator that is written like one. -/
theorem Token.ofText_insertLayout_comment :
    Token.ofText (String.ofList "a and*".toList) = .ok [.name "a", .and, .star] ∧
      Token.ofText (String.ofList ("a".toList ++
        ['(', ':', '(', ':', ':', ')', ':', ')', '\t'] ++ " and*".toList)) =
        .ok [.name "a", .and, .star] := by
  have hstar : Between true "*".toList [.star] [] :=
    @Between.token _ ['*'] [] _ _ _ (skipLayout_of_ne rfl (by decide)) rfl (.start _ _)
  have hand : Between false " and*".toList [.and, .star] [] :=
    .blank rfl (@Between.token _ "and".toList _ _ _ _ (skipLayout_of_ne rfl (by decide)) rfl hstar)
  have hall : Between true "a and*".toList [.name "a", .and, .star] [] :=
    @Between.token _ ['a'] _ _ _ _ (skipLayout_of_ne rfl (by decide)) rfl hand
  have hread : Token.ofText (String.ofList "a and*".toList) = .ok [.name "a", .and, .star] := by
    rw [tokens_ofList, ← List.append_nil "a and*".toList, hall.tokens_append (.inl rfl), tokens_eq,
      skipLayout]
    rfl
  have hplace : Between true "a".toList [.name "a"] " and*".toList :=
    @Between.token _ ['a'] [] _ _ _ (skipLayout_of_ne rfl (by decide)) rfl (.start _ _)
  exact ⟨hread, ((Token.ofText_insertLayout hread).2.2 _ _ _ rfl hplace).1 _
    (.comment (.nested .close .close) (.blank rfl .nil))⟩

end XmlConformance.Path
