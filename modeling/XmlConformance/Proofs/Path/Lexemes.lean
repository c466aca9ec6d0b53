import Mathlib.Data.List.TakeWhile
import Mathlib.Tactic.Tauto
import XmlConformance.Path.Lexer
import XmlConformance.Proofs.Outcome

/-!
# Proofs/Path/Lexemes — how far a token looks ahead

A reader takes the text of a token off the front of a text, and to see where the token ends it looks
at what follows: at the next character, and behind a point or a colon at the one after it. So what
follows may give way to something that begins alike, or that begins with a blank or a parenthesis
(`Continues`): the same token is read in front of it (`takes_read`).
-/

namespace XmlConformance.Path.Lexer

/-! ## What follows a token -/

/-- **A text stands apart from a token in front of it**: it is empty, or begins with a blank or with
a parenthesis, which may open a comment. -/
def StandsApart (cs : List Char) : Prop := ∀ c ∈ cs.head?, isLayout c = true ∨ c = '('

/-- **A text may follow a token in place of another**: it stands apart, or begins as the other. -/
def Continues (x y : List Char) : Prop :=
  StandsApart y ∨ x.head? = y.head? ∧
    (x.head? = some '.' → (x.tail.head? = some '.' ↔ y.tail.head? = some '.')) ∧
    (x.head? = some ':' → x.tail.head? = y.tail.head?)

/-- A text does not begin with a character that has a property. -/
def Ends (p : Char → Bool) (cs : List Char) : Prop := ∀ c ∈ cs.head?, p c = false

/-- A property of which no text that stands apart has a character in front. -/
def Inner (p : Char → Bool) : Prop := ∀ c, isLayout c = true ∨ c = '(' → p c = false

theorem inner_of_chars {p : Char → Bool}
    (h : [' ', '\t', '\r', '\n', '('].all (fun c => !p c) = true) : Inner p := by
  intro c hc
  have hmem : c ∈ [' ', '\t', '\r', '\n', '('] := by
    simp only [isLayout, Bool.or_eq_true, beq_iff_eq] at hc
    simp only [List.mem_cons, List.not_mem_nil, or_false]
    tauto
  simpa using List.all_eq_true.1 h c hmem

theorem inner_isNameChar : Inner isNameChar := inner_of_chars (by decide)

theorem inner_isDigit : Inner Char.isDigit := inner_of_chars (by decide)

/-- The marks that a token may end with or go on with. -/
theorem inner_mark {d : Char} (h : d ∈ "=/.:*\"'".toList) : Inner (· == d) := by
  have hall : "=/.:*\"'".toList.all (fun d =>
      [' ', '\t', '\r', '\n', '('].all fun c => !(c == d)) = true := by decide
  exact inner_of_chars (List.all_eq_true.1 hall d h)

section Ends

variable {p : Char → Bool} {c d : Char} {cs x y : List Char}

theorem ends_nil : Ends p [] := nofun

theorem ends_cons : Ends p (c :: cs) ↔ p c = false := by simp [Ends]

theorem ends_mark_iff : Ends (· == d) cs ↔ ∀ rest, cs ≠ d :: rest := by
  cases cs with
  | nil => simp [Ends]
  | cons c cs =>
    rw [ends_cons, beq_eq_false_iff_ne]
    exact ⟨fun hne rest h => hne (List.cons.inj h).1, fun h hc => h cs (hc ▸ rfl)⟩

theorem ends_dropWhile (p : Char → Bool) (cs : List Char) : Ends p (cs.dropWhile p) := by
  intro c hc
  have h := List.head?_dropWhile_not p cs
  rwa [Option.mem_def.1 hc] at h

theorem StandsApart.ends (h : StandsApart y) (hp : Inner p) : Ends p y :=
  fun c hc => hp c (h c hc)

theorem Continues.refl (x : List Char) : Continues x x :=
  .inr ⟨rfl, fun _ => Iff.rfl, fun _ => rfl⟩

/-- **Where a token ends in front of a text, it ends in front of what continues the text.** -/
theorem Continues.ends (h : Continues x y) (hp : Inner p) (hx : Ends p x) : Ends p y := by
  obtain h | ⟨hhead, -, -⟩ := h
  · exact h.ends hp
  · exact fun c hc => hx c (hhead ▸ hc)

/-- Behind a colon the next character is the same. -/
theorem Continues.of_colon (h : Continues x (':' :: y)) :
    ∃ rest, x = ':' :: rest ∧ rest.head? = y.head? := by
  obtain h | ⟨hhead, -, htail⟩ := h
  · exact absurd (h ':' rfl) (by decide)
  · cases x with
    | nil => cases hhead
    | cons c rest =>
      obtain rfl := Option.some.inj hhead
      exact ⟨rest, rfl, htail rfl⟩

/-- Two points are two points on both sides. -/
theorem Continues.of_point (h : Continues x ('.' :: y)) :
    ∃ rest, x = '.' :: rest ∧ (rest.head? = some '.' ↔ y.head? = some '.') := by
  obtain h | ⟨hhead, htail, -⟩ := h
  · exact absurd (h '.' rfl) (by decide)
  · cases x with
    | nil => cases hhead
    | cons c rest =>
      obtain rfl := Option.some.inj hhead
      exact ⟨rest, rfl, htail rfl⟩

end Ends

/-! ## Readers -/

/-- **A reader takes a text off the front of what it reads**, and the same text off whatever may
stand in place of what it leaves. -/
def Takes {β : Type} (reader result : List Char → β) (cs x : List Char) : Prop :=
  ∃ lexeme, cs = lexeme ++ x ∧ ∀ y, Continues x y → reader (lexeme ++ y) = result y

variable {cs x y : List Char} {p : Char → Bool}

/-- A character that is taken off is the first one that is. -/
theorem Takes.exists_cons {β : Type} {reader result : List Char → β} {c : Char} {rest : List Char}
    (h : Takes reader result (c :: rest) x) (hlt : x.length < (c :: rest).length) :
    ∃ lexeme, rest = lexeme ++ x ∧ ∀ y, Continues x y → reader (c :: (lexeme ++ y)) = result y := by
  obtain ⟨lexeme, hlexeme, hread⟩ := h
  cases lexeme with
  | nil =>
    rw [hlexeme] at hlt
    exact absurd hlt (Nat.lt_irrefl _)
  | cons d lexeme =>
    obtain ⟨rfl, hrest⟩ := List.cons.inj hlexeme
    exact ⟨lexeme, hrest, hread⟩

theorem takeWhile_append {l : List Char} (hl : ∀ c ∈ l, p c = true) (hy : Ends p y) :
    (l ++ y).takeWhile p = l := by
  rw [List.takeWhile_append_of_pos hl]
  cases y with
  | nil => exact List.append_nil l
  | cons c y =>
    rw [List.takeWhile_cons_of_neg (by simp [ends_cons.1 hy])]
    exact List.append_nil l

theorem dropWhile_append {l : List Char} (hl : ∀ c ∈ l, p c = true) (hy : Ends p y) :
    (l ++ y).dropWhile p = y := by
  rw [List.dropWhile_append_of_pos hl]
  cases y with
  | nil => rfl
  | cons c y => rw [List.dropWhile_cons_of_neg (by simp [ends_cons.1 hy])]

/-! ### Names -/

/-- A name without a label. -/
def IsName : List Char → Prop
  | [] => False
  | c :: cs => isNameStart c = true ∧ ∀ d ∈ cs, isNameChar d = true

theorem readName_append {name : List Char} (hname : IsName name) (hy : Ends isNameChar y) :
    readName (name ++ y) = (name, y) := by
  cases name with
  | nil => exact hname.elim
  | cons c cs =>
    rw [List.cons_append, readName, if_pos hname.1, takeWhile_append hname.2 hy,
      dropWhile_append hname.2 hy]

theorem startsName_append {name : List Char} (hname : IsName name) (y : List Char) :
    startsName (name ++ y) = true := by
  cases name with
  | nil => exact hname.elim
  | cons c cs => exact hname.1

/-- **A name is taken off where one begins**, up to where it ends. -/
theorem exists_of_startsName (h : startsName cs = true) :
    ∃ name rest, cs = name ++ rest ∧ IsName name ∧ Ends isNameChar rest ∧
      readName cs = (name, rest) := by
  cases cs with
  | nil => cases h
  | cons c cs =>
    have hc : isNameStart c = true := h
    refine ⟨c :: cs.takeWhile isNameChar, cs.dropWhile isNameChar, ?_,
      ⟨hc, fun d hd => List.mem_takeWhile_imp hd⟩, ends_dropWhile isNameChar cs, ?_⟩
    · rw [List.cons_append, List.takeWhile_append_dropWhile]
    · rw [readName, if_pos hc]

theorem readName_of_not_startsName (h : startsName cs = false) : readName cs = ([], cs) := by
  cases cs with
  | nil => rfl
  | cons c cs =>
    have hc : isNameStart c = false := h
    simp [readName, hc]

theorem startsName_eq_of_head? (h : x.head? = y.head?) : startsName x = startsName y := by
  cases x <;> cases y <;> simp_all [startsName]

theorem ends_colon (cs : List Char) : Ends isNameChar (':' :: cs) := ends_cons.2 (by decide)

theorem readQualifiedName_plain {name rest : List Char} (hname : IsName name)
    (hrest : Ends isNameChar rest)
    (hcolon : ∀ after, rest = ':' :: after → startsName after = false) :
    readQualifiedName (name ++ rest) = (name, rest) := by
  unfold readQualifiedName
  rw [readName_append hname hrest]
  split
  · next h => exact (Prod.mk.inj h).1 ▸ hname |>.elim
  · next after _ h =>
    obtain ⟨rfl, rfl⟩ := Prod.mk.inj h
    rw [hcolon after rfl]
    rfl
  · next h => exact h.symm

theorem readQualifiedName_joined {label name : List Char} (hlabel : IsName label)
    (hname : IsName name) (hy : Ends isNameChar y) :
    readQualifiedName (label ++ ':' :: (name ++ y)) = (label ++ ':' :: name, y) := by
  unfold readQualifiedName
  rw [readName_append hlabel (ends_colon _)]
  split
  · next h => exact (Prod.mk.inj h).1 ▸ hlabel |>.elim
  · next after _ h =>
    obtain ⟨rfl, hafter⟩ := Prod.mk.inj h
    obtain rfl := (List.cons.inj hafter).2
    rw [startsName_append hname, readName_append hname hy]
    rfl
  · next hcolon h =>
    obtain ⟨rfl, rfl⟩ := Prod.mk.inj h
    exact (hcolon _ rfl).elim

/-- **A qualified name is taken off**, with what stands behind its colon if a name begins there. -/
theorem takes_readQualifiedName {name : List Char} (hname : name ≠ [])
    (h : readQualifiedName cs = (name, x)) :
    Takes readQualifiedName (fun y => (name, y)) cs x := by
  cases hstart : startsName cs with
  | false =>
    rw [readQualifiedName, readName_of_not_startsName hstart] at h
    exact absurd (congrArg Prod.fst h).symm hname
  | true =>
    obtain ⟨label, rest, rfl, hlabel, hrest, -⟩ := exists_of_startsName hstart
    by_cases hcolon : ∃ after, rest = ':' :: after ∧ startsName after = true
    · obtain ⟨after, rfl, hafter⟩ := hcolon
      obtain ⟨part, end_, rfl, hpart, hend, -⟩ := exists_of_startsName hafter
      rw [readQualifiedName_joined hlabel hpart hend] at h
      obtain ⟨rfl, rfl⟩ := Prod.mk.inj h
      refine ⟨label ++ ':' :: part, by simp, fun y hy => ?_⟩
      have hread := readQualifiedName_joined hlabel hpart (hy.ends inner_isNameChar hend)
      rwa [List.append_assoc]
    · have hplain : ∀ after, rest = ':' :: after → startsName after = false :=
        fun after hafter => Bool.eq_false_iff.2 fun hs => hcolon ⟨after, hafter, hs⟩
      rw [readQualifiedName_plain hlabel hrest hplain] at h
      obtain ⟨rfl, rfl⟩ := Prod.mk.inj h
      refine ⟨label, rfl, fun y hy => ?_⟩
      refine readQualifiedName_plain hlabel (hy.ends inner_isNameChar hrest) ?_
      rintro after rfl
      obtain ⟨rest', rfl, hhead⟩ := hy.of_colon
      rw [← startsName_eq_of_head? hhead]
      exact hplain rest' rfl

/-! ### Numbers and literals -/

theorem readNumber_whole {whole rest : List Char} (hwhole : ∀ c ∈ whole, c.isDigit = true)
    (hrest : Ends Char.isDigit rest)
    (hpoint : ∀ after, rest = '.' :: after → after.head? = some '.') :
    readNumber (whole ++ rest) = (Decimal.nearest whole [], rest) := by
  unfold readNumber
  rw [takeWhile_append hwhole hrest, dropWhile_append hwhole hrest]
  dsimp only
  split
  · rfl
  · next after hpoints =>
    obtain ⟨more, rfl⟩ := List.head?_eq_some_iff.1 (hpoint after rfl)
    exact (hpoints more rfl).elim
  · rfl

theorem readNumber_fraction {whole fraction : List Char} (hwhole : ∀ c ∈ whole, c.isDigit = true)
    (hfraction : ∀ c ∈ fraction, c.isDigit = true) (hy : Ends Char.isDigit y)
    (hpoint : Ends (· == '.') (fraction ++ y)) :
    readNumber (whole ++ '.' :: (fraction ++ y)) = (Decimal.nearest whole fraction, y) := by
  unfold readNumber
  have hends : Ends Char.isDigit ('.' :: (fraction ++ y)) := ends_cons.2 (by decide)
  rw [takeWhile_append hwhole hends, dropWhile_append hwhole hends]
  dsimp only
  split
  · next more h => exact (ends_mark_iff.1 hpoint more (List.cons.inj h).2).elim
  · next after _ h =>
    obtain rfl := (List.cons.inj h).2
    rw [takeWhile_append hfraction hy, dropWhile_append hfraction hy]
  · next h => exact (h _ rfl).elim

/-- **A number is taken off** with its point, if no second one follows the point. -/
theorem takes_readNumber (cs : List Char) :
    Takes readNumber (fun y => ((readNumber cs).1, y)) cs (readNumber cs).2 := by
  have hwhole : ∀ c ∈ cs.takeWhile Char.isDigit, c.isDigit = true :=
    fun c hc => List.mem_takeWhile_imp hc
  have hrest : Ends Char.isDigit (cs.dropWhile Char.isDigit) := ends_dropWhile _ cs
  generalize hw : cs.takeWhile Char.isDigit = whole at hwhole
  generalize hr : cs.dropWhile Char.isDigit = rest at hrest
  obtain rfl : whole ++ rest = cs := by rw [← hw, ← hr, List.takeWhile_append_dropWhile]
  clear hw hr
  by_cases hpoint : ∃ after, rest = '.' :: after ∧ Ends (· == '.') after
  · obtain ⟨after, rfl, hafter⟩ := hpoint
    have hfraction : ∀ c ∈ after.takeWhile Char.isDigit, c.isDigit = true :=
      fun c hc => List.mem_takeWhile_imp hc
    have hend : Ends Char.isDigit (after.dropWhile Char.isDigit) := ends_dropWhile _ after
    generalize hf : after.takeWhile Char.isDigit = fraction at hfraction
    generalize he : after.dropWhile Char.isDigit = x at hend
    obtain rfl : fraction ++ x = after := by rw [← hf, ← he, List.takeWhile_append_dropWhile]
    rw [readNumber_fraction hwhole hfraction hend hafter]
    refine ⟨whole ++ '.' :: fraction, by simp, fun y hy => ?_⟩
    have hpoint : Ends (· == '.') (fraction ++ y) := by
      cases fraction with
      | nil => exact hy.ends (inner_mark (by decide)) hafter
      | cons c fraction => exact hafter
    rw [List.append_assoc]
    exact readNumber_fraction hwhole hfraction (hy.ends inner_isDigit hend) hpoint
  · have hpoints : ∀ after, rest = '.' :: after → after.head? = some '.' := by
      intro after hafter
      by_contra hne
      refine hpoint ⟨after, hafter, fun c hc => beq_eq_false_iff_ne.2 fun heq => hne ?_⟩
      exact heq ▸ hc
    rw [readNumber_whole hwhole hrest hpoints]
    refine ⟨whole, rfl, fun y hy => readNumber_whole hwhole (hy.ends inner_isDigit hrest) ?_⟩
    rintro after rfl
    obtain ⟨rest', rfl, hiff⟩ := hy.of_point
    exact hiff.1 (hpoints rest' rfl)

theorem readLiteral_close {quote : Char} (hy : Ends (· == quote) y) :
    readLiteral quote (quote :: y) = some ([], y) := by
  cases y with
  | nil => simp [readLiteral]
  | cons d y =>
    have hd := ends_cons (p := (· == quote)).1 hy
    simp [readLiteral, hd]

theorem readLiteral_doubled (quote : Char) (cs : List Char) :
    readLiteral quote (quote :: quote :: cs) =
      (readLiteral quote cs).map fun (text, rest) => (quote :: text, rest) := by
  simp [readLiteral]

theorem readLiteral_other {quote c : Char} (hc : c ≠ quote) (cs : List Char) :
    readLiteral quote (c :: cs) =
      (readLiteral quote cs).map fun (text, rest) => (c :: text, rest) := by
  cases cs <;> simp [readLiteral, hc]

/-- **A literal is taken off** up to a quote behind which there is no other one. -/
theorem readLiteral_eq_some {quote : Char} {text : List Char}
    (h : readLiteral quote cs = some (text, x)) : ∃ lexeme, cs = lexeme ++ x ∧ Ends (· == quote) x ∧
      ∀ y, Ends (· == quote) y → readLiteral quote (lexeme ++ y) = some (text, y) := by
  fun_induction readLiteral quote cs generalizing text x with
  | case1 => cases h
  | case2 c hc =>
    cases h
    obtain rfl := eq_of_beq hc
    exact ⟨[c], rfl, ends_nil, fun y hy => readLiteral_close hy⟩
  | case3 c hc => cases h
  | case4 c d more hc hd ih =>
    obtain ⟨⟨rest, after⟩, hrest, he⟩ := Option.map_eq_some_iff.1 h
    cases he
    obtain rfl := eq_of_beq hc
    obtain rfl := eq_of_beq hd
    obtain ⟨lexeme, rfl, hx, hread⟩ := ih hrest
    refine ⟨d :: d :: lexeme, rfl, hx, fun y hy => ?_⟩
    rw [List.cons_append, List.cons_append, readLiteral_doubled, hread y hy]
    rfl
  | case5 c d more hc hd =>
    cases h
    obtain rfl := eq_of_beq hc
    exact ⟨[c], rfl, ends_cons.2 (Bool.eq_false_iff.2 hd), fun y hy => readLiteral_close hy⟩
  | case6 c d more hc ih =>
    obtain ⟨⟨rest, after⟩, hrest, he⟩ := Option.map_eq_some_iff.1 h
    cases he
    obtain ⟨lexeme, hlexeme, hx, hread⟩ := ih hrest
    refine ⟨c :: lexeme, by rw [hlexeme, List.cons_append], hx, fun y hy => ?_⟩
    rw [List.cons_append, readLiteral_other (by simpa using hc), hread y hy]
    rfl

/-! ### Names and operators -/

/-- The operator that a name stands for, if no operand is expected. -/
def operatorOf (expected : Bool) (name : List Char) : Option Token :=
  if expected then none else Token.operator? (String.ofList name)

section Named

variable {expected : Bool} {name part rest : List Char} {t : Token}

theorem readNamed_operator (hname : IsName name) (hrest : Ends isNameChar rest)
    (h : operatorOf expected name = some t) :
    readNamed expected (name ++ rest) = .ok (t, rest) := by
  unfold operatorOf at h
  simp only [readNamed, readName_append hname hrest, h]

theorem readNamed_plain (hname : IsName name) (hrest : Ends isNameChar rest)
    (h : operatorOf expected name = none)
    (hcolon : ∀ after, rest = ':' :: after → after.head? = some ':') :
    readNamed expected (name ++ rest) = .ok (.name (String.ofList name), rest) := by
  unfold operatorOf at h
  simp only [readNamed, readName_append hname hrest, h]
  split
  · rfl
  · exact nomatch hcolon _ rfl
  · next after hcolons _ =>
    obtain ⟨more, rfl⟩ := List.head?_eq_some_iff.1 (hcolon after rfl)
    exact (hcolons more rfl).elim
  · rfl

theorem readNamed_wildcard (hname : IsName name) (h : operatorOf expected name = none)
    (y : List Char) : readNamed expected (name ++ ':' :: '*' :: y) =
      .ok (.namespaceWildcard (String.ofList name), y) := by
  unfold operatorOf at h
  simp only [readNamed, readName_append hname (ends_colon _), h]

theorem readNamed_joined (hname : IsName name) (h : operatorOf expected name = none)
    (hpart : IsName part) (hy : Ends isNameChar y) :
    readNamed expected (name ++ ':' :: (part ++ y)) =
      .ok (.name (String.ofList name ++ ":" ++ String.ofList part), y) := by
  have hstart := startsName_append hpart y
  unfold operatorOf at h
  simp only [readNamed, readName_append hname (ends_colon _), h]
  split
  · next heq =>
    rw [(List.cons.inj heq).2] at hstart
    exact absurd (show isNameStart ':' = true from hstart) (by decide)
  · next heq =>
    rw [(List.cons.inj heq).2] at hstart
    exact absurd (show isNameStart '*' = true from hstart) (by decide)
  · next after _ _ heq =>
    obtain rfl := (List.cons.inj heq).2
    rw [hstart, readName_append hpart hy]
    rfl
  · next hcolon => exact (hcolon _ rfl).elim

/-- Behind a single colon there must be a star or a name. -/
theorem readNamed_stray (hname : IsName name) (h : operatorOf expected name = none)
    (hcolon : rest.head? ≠ some ':') (hstar : rest.head? ≠ some '*')
    (hstart : startsName rest = false) :
    readNamed expected (name ++ ':' :: rest) = .error (.strayColon (String.ofList name)) := by
  unfold operatorOf at h
  simp only [readNamed, readName_append hname (ends_colon _), h]
  split
  · next heq => exact absurd (congrArg List.head? (List.cons.inj heq).2) hcolon
  · next heq => exact absurd (congrArg List.head? (List.cons.inj heq).2) hstar
  · next heq =>
    obtain rfl := (List.cons.inj heq).2
    rw [hstart]
    rfl
  · next hne => exact (hne _ rfl).elim

/-- **A name or an operator is taken off**, a name with what belongs to it behind a single colon. -/
theorem takes_readNamed (hstart : startsName cs = true) (h : readNamed expected cs = .ok (t, x)) :
    Takes (readNamed expected) (fun y => .ok (t, y)) cs x := by
  obtain ⟨name, rest, rfl, hname, hrest, -⟩ := exists_of_startsName hstart
  cases hop : operatorOf expected name with
  | some operator =>
    rw [readNamed_operator hname hrest hop] at h
    cases h
    exact ⟨name, rfl, fun y hy =>
      readNamed_operator hname (hy.ends inner_isNameChar hrest) hop⟩
  | none =>
    by_cases hcolon : ∃ after, rest = ':' :: after ∧ after.head? ≠ some ':'
    · obtain ⟨after, rfl, hafter⟩ := hcolon
      by_cases hstar : after.head? = some '*'
      · obtain ⟨more, rfl⟩ := List.head?_eq_some_iff.1 hstar
        rw [readNamed_wildcard hname hop] at h
        cases h
        refine ⟨name ++ [':', '*'], by simp, fun y _ => ?_⟩
        rw [List.append_assoc]
        exact readNamed_wildcard hname hop y
      · cases hlocal : startsName after with
        | false =>
          rw [readNamed_stray hname hop hafter hstar hlocal] at h
          cases h
        | true =>
          obtain ⟨part, more, rfl, hpart, hmore, -⟩ := exists_of_startsName hlocal
          rw [readNamed_joined hname hop hpart hmore] at h
          cases h
          refine ⟨name ++ ':' :: part, by simp, fun y hy => ?_⟩
          rw [List.append_assoc]
          exact readNamed_joined hname hop hpart (hy.ends inner_isNameChar hmore)
    · have hcolons : ∀ after, rest = ':' :: after → after.head? = some ':' :=
        fun after hafter => not_not.1 fun hne => hcolon ⟨after, hafter, hne⟩
      rw [readNamed_plain hname hrest hop hcolons] at h
      cases h
      refine ⟨name, rfl, fun y hy =>
        readNamed_plain hname (hy.ends inner_isNameChar hrest) hop ?_⟩
      rintro after rfl
      obtain ⟨rest', rfl, hhead⟩ := hy.of_colon
      exact hhead ▸ hcolons rest' rfl

end Named

/-! ## Tokens -/

section Read

variable {expected : Bool} {c d : Char} {t single pair : Token} {rest digits name : List Char}

/-- The characters that begin tokens without a name, a number or a literal in front. -/
def marks : List Char :=
  ['(', ')', '[', ']', '@', ',', '|', '+', '-', '=', '!', '<', '>', ':', '/', '.', '$', '*']

theorem read_of_not_mark (expected : Bool) (hc : c ∉ marks) (rest : List Char) :
    read expected (c :: rest) =
      if c == '\"' || c == '\'' then
        match readLiteral c rest with
        | some (text, rest) => .ok (some (.literal (String.ofList text), rest))
        | none => .error .unterminatedLiteral
      else if c.isDigit then
        .ok (some (.number (readNumber (c :: rest)).1, (readNumber (c :: rest)).2))
      else if isNameStart c then (readNamed expected (c :: rest)).map some
      else .error (.unexpectedCharacter c) := by
  have hne : ∀ d ∈ marks, c ≠ d := fun d hd h => hc (h ▸ hd)
  rw [read]
  all_goals first
    | rfl
    | exact hne _ (by decide)
    | exact fun _ h _ => absurd h (hne _ (by decide))

/-- **What a mark is read as that stands alone**, without the second mark that makes another token
of both. -/
theorem read_alone (expected : Bool) (rest : List Char) :
    (Ends (· == '=') rest → read expected ('<' :: rest) = .ok (some (.lt, rest))) ∧
      (Ends (· == '=') rest → read expected ('>' :: rest) = .ok (some (.gt, rest))) ∧
      (Ends (· == '/') rest → read expected ('/' :: rest) = .ok (some (.slash, rest))) ∧
      (Ends (· == '.') rest → read expected ('.' :: rest) =
        if (rest.takeWhile Char.isDigit).isEmpty then .ok (some (.dot, rest))
        else .ok (some (.number (Decimal.nearest [] (rest.takeWhile Char.isDigit)),
          rest.dropWhile Char.isDigit))) ∧
      (Ends (· == '=') rest → read expected ('!' :: rest) = .error (.unexpectedCharacter '!')) ∧
      (Ends (· == ':') rest → read expected (':' :: rest) = .error (.unexpectedCharacter ':')) := by
  refine ⟨fun hrest => ?_, fun hrest => ?_, fun hrest => ?_, fun hrest => ?_, fun hrest => ?_,
    fun hrest => ?_⟩
  all_goals rw [read]
  all_goals first
    | rfl
    | decide
    | exact ends_mark_iff.1 hrest
    | exact fun rest' _ h => ends_mark_iff.1 hrest rest' h
    | exact fun _ h => absurd h (by decide)

theorem read_slash (hrest : Ends (· == '/') rest) :
    read expected ('/' :: rest) = .ok (some (.slash, rest)) :=
  (read_alone expected rest).2.2.1 hrest

theorem read_colon (hrest : Ends (· == ':') rest) :
    read expected (':' :: rest) = .error (.unexpectedCharacter ':') :=
  (read_alone expected rest).2.2.2.2.2 hrest

/-- A mark that is a token whatever follows. -/
theorem takes_mark (hread : ∀ rest, read expected (c :: rest) = .ok (some (single, rest)))
    (h : read expected (c :: rest) = .ok (some (t, x))) :
    Takes (read expected) (fun y => .ok (some (t, y))) (c :: rest) x := by
  rw [hread] at h
  cases h
  exact ⟨[c], rfl, fun y _ => hread y⟩

/-- A mark that is another token with a second one behind it. -/
theorem takes_marks (hd : d ∈ "=/.:*\"'".toList)
    (hpair : ∀ rest, read expected (c :: d :: rest) = .ok (some (pair, rest)))
    (hsingle : ∀ rest, Ends (· == d) rest → read expected (c :: rest) = .ok (some (single, rest)))
    (h : read expected (c :: rest) = .ok (some (t, x))) :
    Takes (read expected) (fun y => .ok (some (t, y))) (c :: rest) x := by
  by_cases hrest : Ends (· == d) rest
  · rw [hsingle rest hrest] at h
    cases h
    exact ⟨[c], rfl, fun y hy => hsingle y (hy.ends (inner_mark hd) hrest)⟩
  · obtain ⟨more, rfl⟩ : ∃ more, rest = d :: more := by simpa [ends_mark_iff] using hrest
    rw [hpair] at h
    cases h
    exact ⟨[c, d], rfl, fun y _ => hpair y⟩

/-- A mark that is a token only with a second one behind it. -/
theorem takes_both (hpair : ∀ rest, read expected (c :: d :: rest) = .ok (some (pair, rest)))
    (hsingle : ∀ rest, Ends (· == d) rest →
      read expected (c :: rest) = .error (.unexpectedCharacter c))
    (h : read expected (c :: rest) = .ok (some (t, x))) :
    Takes (read expected) (fun y => .ok (some (t, y))) (c :: rest) x := by
  by_cases hrest : Ends (· == d) rest
  · rw [hsingle rest hrest] at h
    cases h
  · obtain ⟨more, rfl⟩ : ∃ more, rest = d :: more := by simpa [ends_mark_iff] using hrest
    rw [hpair] at h
    cases h
    exact ⟨[c, d], rfl, fun y _ => hpair y⟩

theorem read_dot (hpoint : Ends (· == '.') rest) (hrest : Ends Char.isDigit rest) :
    read expected ('.' :: rest) = .ok (some (.dot, rest)) := by
  have hnone : rest.takeWhile Char.isDigit = [] := takeWhile_append (l := []) nofun hrest
  rw [(read_alone expected rest).2.2.2.1 hpoint, hnone]
  rfl

theorem read_point (hdigits : ∀ c ∈ d :: digits, c.isDigit = true) (hy : Ends Char.isDigit y) :
    read expected ('.' :: (d :: digits ++ y)) =
      .ok (some (.number (Decimal.nearest [] (d :: digits)), y)) := by
  have hpoint : Ends (· == '.') (d :: digits ++ y) := by
    refine ends_cons.2 (beq_eq_false_iff_ne.2 ?_)
    rintro rfl
    exact absurd (hdigits '.' List.mem_cons_self) (by decide)
  rw [(read_alone expected _).2.2.2.1 hpoint, takeWhile_append hdigits hy,
    dropWhile_append hdigits hy]
  rfl

/-- **A point is taken off** with a second one or with the digits behind it. -/
theorem takes_point (h : read expected ('.' :: rest) = .ok (some (t, x))) :
    Takes (read expected) (fun y => .ok (some (t, y))) ('.' :: rest) x := by
  by_cases hpoint : Ends (· == '.') rest
  · have hdigits : ∀ c ∈ rest.takeWhile Char.isDigit, c.isDigit = true :=
      fun c hc => List.mem_takeWhile_imp hc
    have hend : Ends Char.isDigit (rest.dropWhile Char.isDigit) := ends_dropWhile _ rest
    have hsplit := List.takeWhile_append_dropWhile (p := Char.isDigit) (l := rest)
    match hd : rest.takeWhile Char.isDigit with
    | [] =>
      rw [hd, List.nil_append] at hsplit
      rw [hsplit] at hend
      rw [read_dot hpoint hend] at h
      cases h
      exact ⟨['.'], rfl, fun y hy =>
        read_dot (hy.ends (inner_mark (by decide)) hpoint) (hy.ends inner_isDigit hend)⟩
    | d :: digits =>
      rw [hd] at hsplit hdigits
      rw [← hsplit, read_point hdigits hend] at h
      cases h
      refine ⟨'.' :: d :: digits, by rw [List.cons_append, hsplit], fun y hy => ?_⟩
      exact read_point hdigits (hy.ends inner_isDigit hend)
  · obtain ⟨more, rfl⟩ : ∃ more, rest = '.' :: more := by simpa [ends_mark_iff] using hpoint
    cases h
    exact ⟨['.', '.'], rfl, fun y _ => rfl⟩

theorem takes_dollar (h : read expected ('$' :: rest) = .ok (some (t, x))) :
    Takes (read expected) (fun y => .ok (some (t, y))) ('$' :: rest) x := by
  obtain ⟨name, after, hname⟩ : ∃ name after, readQualifiedName rest = (name, after) := ⟨_, _, rfl⟩
  cases name with
  | nil =>
    rw [read, hname] at h
    cases h
  | cons c name =>
    rw [read, hname] at h
    cases h
    obtain ⟨lexeme, rfl, hread⟩ := takes_readQualifiedName (List.cons_ne_nil c name) hname
    refine ⟨'$' :: lexeme, rfl, fun y hy => ?_⟩
    rw [List.cons_append, read, hread y hy]

theorem read_star_colon (after : List Char) : read true ('*' :: ':' :: after) =
    if startsName after then
      .ok (some (.localWildcard (String.ofList (readName after).1), (readName after).2))
    else .ok (some (.star, ':' :: after)) :=
  rfl

theorem read_star (h : ∀ after, rest = ':' :: after → startsName after = false) :
    read true ('*' :: rest) = .ok (some (.star, rest)) := by
  by_cases hrest : Ends (· == ':') rest
  · rw [read]
    all_goals first
      | rfl
      | exact ends_mark_iff.1 hrest
  · obtain ⟨after, rfl⟩ : ∃ after, rest = ':' :: after := by simpa [ends_mark_iff] using hrest
    rw [read_star_colon, h after rfl]
    rfl

theorem read_localWildcard {name : List Char} (hname : IsName name) (hy : Ends isNameChar y) :
    read true ('*' :: ':' :: (name ++ y)) =
      .ok (some (.localWildcard (String.ofList name), y)) := by
  rw [read_star_colon, startsName_append hname, readName_append hname hy]
  rfl

/-- **A star is taken off** with what stands behind a colon if a name begins there and no operator
is expected. -/
theorem takes_star (h : read expected ('*' :: rest) = .ok (some (t, x))) :
    Takes (read expected) (fun y => .ok (some (t, y))) ('*' :: rest) x := by
  cases expected with
  | false =>
    cases h
    exact ⟨['*'], rfl, fun y _ => rfl⟩
  | true =>
    by_cases hcolon : ∃ after, rest = ':' :: after ∧ startsName after = true
    · obtain ⟨after, rfl, hafter⟩ := hcolon
      obtain ⟨name, more, rfl, hname, hmore, -⟩ := exists_of_startsName hafter
      rw [read_localWildcard hname hmore] at h
      cases h
      exact ⟨'*' :: ':' :: name, rfl, fun y hy =>
        read_localWildcard hname (hy.ends inner_isNameChar hmore)⟩
    · have hplain : ∀ after, rest = ':' :: after → startsName after = false :=
        fun after hafter => Bool.eq_false_iff.2 fun hs => hcolon ⟨after, hafter, hs⟩
      rw [read_star hplain] at h
      cases h
      refine ⟨['*'], rfl, fun y hy => read_star ?_⟩
      rintro after rfl
      obtain ⟨rest', rfl, hhead⟩ := hy.of_colon
      rw [← startsName_eq_of_head? hhead]
      exact hplain rest' rfl

theorem takes_quote (hc : c ∉ marks) (hquote : (c == '\"' || c == '\'') = true)
    (h : read expected (c :: rest) = .ok (some (t, x))) :
    Takes (read expected) (fun y => .ok (some (t, y))) (c :: rest) x := by
  have hread := read_of_not_mark expected hc
  simp only [hquote, if_true] at hread
  have hinner : Inner (· == c) := inner_mark (by
    rw [Bool.or_eq_true, beq_iff_eq, beq_iff_eq] at hquote
    rcases hquote with rfl | rfl <;> decide)
  rw [hread] at h
  cases hl : readLiteral c rest with
  | none =>
    rw [hl] at h
    cases h
  | some p =>
    obtain ⟨text, after⟩ := p
    rw [hl] at h
    cases h
    obtain ⟨lexeme, rfl, hend, hlexeme⟩ := readLiteral_eq_some hl
    refine ⟨c :: lexeme, rfl, fun y hy => ?_⟩
    rw [List.cons_append, hread, hlexeme y (hy.ends hinner hend)]

theorem takes_digit (hc : c ∉ marks) (hquote : (c == '\"' || c == '\'') = false)
    (hdigit : c.isDigit = true) (h : read expected (c :: rest) = .ok (some (t, x))) :
    Takes (read expected) (fun y => .ok (some (t, y))) (c :: rest) x := by
  have hread := read_of_not_mark expected hc
  simp only [hquote, hdigit, if_true, Bool.false_eq_true, if_false] at hread
  rw [hread] at h
  cases h
  obtain ⟨lexeme, hrest, hnumber⟩ :=
    (takes_readNumber (c :: rest)).exists_cons (length_readNumber_lt rest hdigit)
  refine ⟨c :: lexeme, congrArg (c :: ·) hrest, fun y hy => ?_⟩
  rw [List.cons_append, hread, hnumber y hy]

theorem takes_letter (hc : c ∉ marks) (hquote : (c == '\"' || c == '\'') = false)
    (hdigit : c.isDigit = false) (h : read expected (c :: rest) = .ok (some (t, x))) :
    Takes (read expected) (fun y => .ok (some (t, y))) (c :: rest) x := by
  have hread := read_of_not_mark expected hc
  simp only [hquote, hdigit, Bool.false_eq_true, if_false] at hread
  cases hstart : isNameStart c with
  | false =>
    rw [hread, hstart] at h
    cases h
  | true =>
    simp only [hstart, if_true] at hread
    rw [hread] at h
    obtain ⟨named, hnamed, heq⟩ := map_eq_ok.1 h
    obtain rfl := Option.some.inj heq
    have htakes := takes_readNamed (show startsName (c :: rest) = true from hstart) hnamed
    obtain ⟨lexeme, hrest, htakes⟩ := htakes.exists_cons (length_of_readNamed hstart hnamed)
    refine ⟨c :: lexeme, congrArg (c :: ·) hrest, fun y hy => ?_⟩
    rw [List.cons_append, hread, htakes y hy]
    rfl

/-- **A token is taken off the front of a text.** -/
theorem takes_read (h : read expected cs = .ok (some (t, x))) :
    Takes (read expected) (fun y => .ok (some (t, y))) cs x := by
  cases cs with
  | nil => cases h
  | cons c rest =>
    by_cases hc : c ∈ marks
    · simp only [marks, List.mem_cons, List.not_mem_nil, or_false] at hc
      rcases hc with rfl | rfl | rfl | rfl | rfl | rfl | rfl | rfl | rfl | rfl | hc
      iterate 10 exact takes_mark (fun _ => rfl) h
      rcases hc with rfl | rfl | rfl | rfl | rfl | rfl | rfl | rfl
      · exact takes_both (d := '=') (fun _ => rfl) (fun _ => (read_alone _ _).2.2.2.2.1) h
      · exact takes_marks (d := '=') (by decide) (fun _ => rfl) (fun _ => (read_alone _ _).1) h
      · exact takes_marks (d := '=') (by decide) (fun _ => rfl) (fun _ => (read_alone _ _).2.1) h
      · exact takes_both (d := ':') (fun _ => rfl) (fun _ => read_colon) h
      · exact takes_marks (d := '/') (by decide) (fun _ => rfl) (fun _ => read_slash) h
      · exact takes_point h
      · exact takes_dollar h
      · exact takes_star h
    · cases hquote : (c == '\"' || c == '\'') with
      | true => exact takes_quote hc hquote h
      | false =>
        cases hdigit : c.isDigit with
        | true => exact takes_digit hc hquote hdigit h
        | false => exact takes_letter hc hquote hdigit h

end Read

end XmlConformance.Path.Lexer
