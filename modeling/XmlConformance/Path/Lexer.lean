import XmlConformance.Path.Token
import XmlConformance.Text.Property

/-!
# Path/Lexer — from text to tokens

`Token.ofText` splits the text of a path expression into tokens. Blanks and comments, which nest,
only separate (`skipLayout`). The names of operators (`and`, `div`, …) and `*` are operators exactly
when they follow an operand, so one bit of the previous token decides how a name is read. `read`
reads one token; a token is never empty (`length_of_read`), which is why the splitting ends.
-/

namespace XmlConformance.Path

/-- Why a text has no tokens. -/
inductive LexError where
  | unterminatedComment
  | unterminatedLiteral
  | missingVariableName
  /-- A colon after a name that starts neither an axis nor a local name. -/
  | strayColon (name : String)
  | unexpectedCharacter (c : Char)
deriving DecidableEq, Repr

def LexError.message : LexError → String
  | .unterminatedComment => "unterminated comment"
  | .unterminatedLiteral => "unterminated string literal"
  | .missingVariableName => "expected a variable name after '$'"
  | .strayColon name => "unexpected ':' after '" ++ name ++ "'"
  | .unexpectedCharacter c => "unexpected character '" ++ c.toString ++ "'"

namespace Lexer

/-- Characters that begin a name. -/
def isNameStart (c : Char) : Bool :=
  Text.isAlphabetic c || c == '_'

/-- Characters that continue a name. -/
def isNameChar (c : Char) : Bool :=
  Text.isAlphanumeric c || c == '_' || c == '-' || c == '.' || c.toNat == 0xb7

/-- Characters that only separate tokens. -/
def isLayout (c : Char) : Bool :=
  c == ' ' || c == '\t' || c == '\r' || c == '\n'

/-- Whether a text begins with a name. -/
def startsName : List Char → Bool
  | c :: _ => isNameStart c
  | [] => false

/-- The longest name at the front, empty if there is none, and what follows it. -/
def readName : List Char → List Char × List Char
  | c :: rest =>
    if isNameStart c then (c :: rest.takeWhile isNameChar, rest.dropWhile isNameChar)
    else ([], c :: rest)
  | [] => ([], [])

/-- A name, or two names joined by a colon. -/
def readQualifiedName (cs : List Char) : List Char × List Char :=
  match readName cs with
  | ([], rest) => ([], rest)
  | (label, ':' :: rest) =>
    if startsName rest then
      (label ++ ':' :: (readName rest).1, (readName rest).2)
    else (label, ':' :: rest)
  | (label, rest) => (label, rest)

/-- A number: digits with at most one point, which no second point may follow. -/
def readNumber (cs : List Char) : Float × List Char :=
  let whole := cs.takeWhile Char.isDigit
  match cs.dropWhile Char.isDigit with
  | '.' :: '.' :: rest => (Decimal.nearest whole [], '.' :: '.' :: rest)
  | '.' :: rest =>
    (Decimal.nearest whole (rest.takeWhile Char.isDigit), rest.dropWhile Char.isDigit)
  | rest => (Decimal.nearest whole [], rest)

/-- The rest of a literal after its opening quote; a doubled quote stands for one. -/
def readLiteral (quote : Char) : List Char → Option (List Char × List Char)
  | [] => none
  | [c] => if c == quote then some ([], []) else none
  | c :: d :: rest =>
    if c == quote then
      if d == quote then (readLiteral quote rest).map fun (text, rest) => (quote :: text, rest)
      else some ([], d :: rest)
    else (readLiteral quote (d :: rest)).map fun (text, rest) => (c :: text, rest)

/-- What follows a comment of which `depth` further comments are open. -/
def skipComment : Nat → List Char → Option (List Char)
  | depth, '(' :: ':' :: rest => skipComment (depth + 1) rest
  | 0, ':' :: ')' :: rest => some rest
  | depth + 1, ':' :: ')' :: rest => skipComment depth rest
  | depth, _ :: rest => skipComment depth rest
  | _, [] => none

theorem length_of_skipComment {depth : Nat} {cs rest : List Char}
    (h : skipComment depth cs = some rest) : rest.length < cs.length := by
  induction depth, cs using skipComment.induct with
  | case1 depth cs ih => rw [skipComment] at h; have := ih h; simp only [List.length_cons]; omega
  | case2 cs => rw [skipComment] at h; cases h; simp only [List.length_cons]; omega
  | case3 cs depth ih => rw [skipComment] at h; have := ih h; simp only [List.length_cons]; omega
  | case4 depth c cs h1 h2 h3 ih =>
    rw [skipComment] at h
    · have := ih h; simp only [List.length_cons]; omega
    · exact h1
    · exact h2
    · exact h3
  | case5 depth => simp [skipComment] at h

/-- What follows blanks and comments. -/
def skipLayout (cs : List Char) : Except LexError (List Char) :=
  match cs with
  | '(' :: ':' :: rest =>
    match h : skipComment 0 rest with
    | some rest =>
      have := length_of_skipComment h
      skipLayout rest
    | none => .error .unterminatedComment
  | c :: rest => if isLayout c then skipLayout rest else .ok (c :: rest)
  | [] => .ok []
termination_by cs.length

/-- Reads a name that stands where an operand may stand, or an operator behind an operand. -/
def readNamed (operandExpected : Bool) (cs : List Char) : Except LexError (Token × List Char) :=
  let (name, rest) := readName cs
  let text := String.ofList name
  match (if operandExpected then none else Token.operator? text) with
  | some operator => .ok (operator, rest)
  | none =>
    match rest with
    | ':' :: ':' :: _ => .ok (.name text, rest)
    | ':' :: '*' :: rest => .ok (.namespaceWildcard text, rest)
    | ':' :: rest =>
      if startsName rest then
        .ok (.name (text ++ ":" ++ String.ofList (readName rest).1), (readName rest).2)
      else .error (.strayColon text)
    | _ => .ok (.name text, rest)

/-- Reads the token at the front of a text that begins with neither a blank nor a comment. -/
def read (operandExpected : Bool) : List Char → Except LexError (Option (Token × List Char))
  | [] => .ok none
  | '(' :: rest => .ok (some (.leftParen, rest))
  | ')' :: rest => .ok (some (.rightParen, rest))
  | '[' :: rest => .ok (some (.leftBracket, rest))
  | ']' :: rest => .ok (some (.rightBracket, rest))
  | '@' :: rest => .ok (some (.at, rest))
  | ',' :: rest => .ok (some (.comma, rest))
  | '|' :: rest => .ok (some (.pipe, rest))
  | '+' :: rest => .ok (some (.plus, rest))
  | '-' :: rest => .ok (some (.minus, rest))
  | '=' :: rest => .ok (some (.eq, rest))
  | '!' :: '=' :: rest => .ok (some (.notEq, rest))
  | '<' :: '=' :: rest => .ok (some (.ltEq, rest))
  | '<' :: rest => .ok (some (.lt, rest))
  | '>' :: '=' :: rest => .ok (some (.gtEq, rest))
  | '>' :: rest => .ok (some (.gt, rest))
  | ':' :: ':' :: rest => .ok (some (.colonColon, rest))
  | '/' :: '/' :: rest => .ok (some (.doubleSlash, rest))
  | '/' :: rest => .ok (some (.slash, rest))
  | '.' :: '.' :: rest => .ok (some (.dotDot, rest))
  | '.' :: rest =>
    if (rest.takeWhile Char.isDigit).isEmpty then .ok (some (.dot, rest))
    else
      .ok (some (.number (Decimal.nearest [] (rest.takeWhile Char.isDigit)),
        rest.dropWhile Char.isDigit))
  | '$' :: rest =>
    match readQualifiedName rest with
    | ([], _) => .error .missingVariableName
    | (name, after) => .ok (some (.var (String.ofList name), after))
  | '*' :: rest =>
    if !operandExpected then .ok (some (.multiply, rest))
    else
      match rest with
      | ':' :: after =>
        if startsName after then
          .ok (some (.localWildcard (String.ofList (readName after).1), (readName after).2))
        else .ok (some (.star, rest))
      | _ => .ok (some (.star, rest))
  | c :: rest =>
    if c == '\"' || c == '\'' then
      match readLiteral c rest with
      | some (text, rest) => .ok (some (.literal (String.ofList text), rest))
      | none => .error .unterminatedLiteral
    else if c.isDigit then
      .ok (some (.number (readNumber (c :: rest)).1, (readNumber (c :: rest)).2))
    else if isNameStart c then (readNamed operandExpected (c :: rest)).map some
    else .error (.unexpectedCharacter c)

/-! ## A token is never empty -/

theorem length_dropWhile_le (p : Char → Bool) (cs : List Char) :
    (cs.dropWhile p).length ≤ cs.length :=
  (List.dropWhile_suffix p).length_le

theorem length_readName_le (cs : List Char) : (readName cs).2.length ≤ cs.length := by
  cases cs with
  | nil => simp [readName]
  | cons c rest =>
    have := length_dropWhile_le isNameChar rest
    by_cases h : isNameStart c
    · simp only [readName, h, if_true, List.length_cons]; omega
    · simp [readName, h]

theorem length_readName_lt {c : Char} (rest : List Char) (h : isNameStart c = true) :
    (readName (c :: rest)).2.length < (c :: rest).length := by
  have := length_dropWhile_le isNameChar rest
  simp only [readName, h, if_true, List.length_cons]; omega

theorem length_readQualifiedName_le (cs : List Char) :
    (readQualifiedName cs).2.length ≤ cs.length := by
  have h := length_readName_le cs
  unfold readQualifiedName
  split
  · simp_all
  · rename_i label rest _ heq
    rw [heq] at h
    split
    · have := length_readName_le rest
      simp only [List.length_cons] at *; omega
    · exact h
  · simp_all

theorem length_readNumber_lt {c : Char} (rest : List Char) (h : c.isDigit = true) :
    (readNumber (c :: rest)).2.length < (c :: rest).length := by
  have h1 := length_dropWhile_le Char.isDigit rest
  have h2 : (c :: rest).dropWhile Char.isDigit = rest.dropWhile Char.isDigit := by
    rw [List.dropWhile_cons, if_pos h]
  unfold readNumber
  rw [h2]
  split
  · rename_i heq
    rw [heq] at h1
    simp only [List.length_cons] at *; omega
  · rename_i more _ heq
    have h3 := length_dropWhile_le Char.isDigit more
    rw [heq] at h1
    simp only [List.length_cons] at *; omega
  · simp only [List.length_cons]; omega

theorem length_of_readLiteral {quote : Char} {cs text rest : List Char}
    (h : readLiteral quote cs = some (text, rest)) : rest.length < cs.length := by
  fun_induction readLiteral quote cs generalizing text rest with
  | case1 => simp at h
  | case2 c hc => simp at h; simp [← h.2]
  | case3 c hc => simp at h
  | case4 c d more hc hd ih =>
    obtain ⟨⟨t, r⟩, hr, he⟩ := Option.map_eq_some_iff.1 h
    cases he
    have := ih hr
    simp only [List.length_cons]; omega
  | case5 c d more hc hd => simp at h; simp [← h.2]
  | case6 c d more hc ih =>
    obtain ⟨⟨t, r⟩, hr, he⟩ := Option.map_eq_some_iff.1 h
    cases he
    have := ih hr
    simp only [List.length_cons] at *; omega

theorem length_of_readNamed {b : Bool} {c : Char} {cs rest : List Char} {t : Token}
    (hc : isNameStart c = true) (h : readNamed b (c :: cs) = .ok (t, rest)) :
    rest.length < (c :: cs).length := by
  have h1 := length_readName_lt cs hc
  unfold readNamed at h
  simp only at h
  split at h
  · cases h; exact h1
  · split at h
    · cases h; exact h1
    · rename_i heq
      cases h
      rw [heq] at h1
      simp only [List.length_cons] at *; omega
    · rename_i more _ _ heq
      have h2 := length_readName_le more
      rw [heq] at h1
      split at h
      · cases h
        simp only [List.length_cons] at *; omega
      · cases h
    · cases h; exact h1

/-- **A token is never empty.** -/
theorem length_of_read {b : Bool} {cs rest : List Char} {t : Token}
    (h : read b cs = .ok (some (t, rest))) : rest.length < cs.length := by
  unfold read at h
  split at h
  all_goals first
    | (cases h; simp only [List.length_cons]; omega)
    | skip
  · cases h
  · rename_i more _
    have := length_dropWhile_le Char.isDigit more
    split at h <;> cases h <;> simp only [List.length_cons] <;> omega
  · rename_i more
    have := length_readQualifiedName_le more
    split at h
    · cases h
    · rename_i name after _ heq
      rw [heq] at this
      cases h
      simp only [List.length_cons] at *; omega
  · rename_i more
    split at h
    · cases h; simp
    · split at h
      · rename_i after
        have := length_readName_le after
        split at h <;> cases h <;> simp only [List.length_cons] <;> omega
      · cases h; simp
  · rename_i c more _ _ _ _ _ _ _ _ _ _ _ _ _ _ _ _ _ _ _ _ _ _
    split at h
    · split at h
      · rename_i heq
        have := length_of_readLiteral heq
        cases h
        simp only [List.length_cons]; omega
      · cases h
    · split at h
      · rename_i hd
        cases h
        exact length_readNumber_lt more hd
      · split at h
        · rename_i hn
          cases hr : readNamed b (c :: more) with
          | error e => rw [hr] at h; cases h
          | ok p =>
            obtain ⟨t', r'⟩ := p
            rw [hr] at h
            cases h
            exact length_of_readNamed hn hr
        · cases h

theorem length_of_skipLayout {cs rest : List Char} (h : skipLayout cs = .ok rest) :
    rest.length ≤ cs.length := by
  fun_induction skipLayout cs with
  | case1 more r hr hlt ih => have := ih h; simp only [List.length_cons]; omega
  | case2 => cases h
  | case3 c more _ _ ih => have := ih h; simp only [List.length_cons]; omega
  | case4 => cases h; simp
  | case5 => cases h; simp

/-- The tokens of a text, where `expected` says whether an operand may come first. -/
def tokens (expected : Bool) (cs : List Char) : Except LexError (List Token) :=
  match h : skipLayout cs with
  | .error e => .error e
  | .ok cs' =>
    match h' : read expected cs' with
    | .error e => .error e
    | .ok none => .ok []
    | .ok (some (t, rest)) =>
      have := length_of_skipLayout h
      have := length_of_read h'
      (tokens t.expectsOperand rest).map (t :: ·)
termination_by cs.length

end Lexer

/-- Splits a text into tokens. -/
def Token.ofText (text : String) : Except LexError (List Token) :=
  Lexer.tokens true text.toList

end XmlConformance.Path
