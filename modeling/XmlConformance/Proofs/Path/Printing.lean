import Mathlib.Tactic.Common
import XmlConformance.Path.Syntax

/-!
# Proofs/Path/Printing — expressions as tokens

The tokens that stand for an expression (`Expr.tokens`). Every expression has a level, the higher
the tighter it binds, and every place where an operand may stand asks for one. An operand stands in
parentheses exactly where its level is too low for its place (`Expr.tokensAt`). Steps are written
out with their axis, and namespaces by a label that is given for each.

Not every expression has tokens that stand for it: `Expr.Printable` says which do.
-/

namespace XmlConformance.Path

/-! ## Operators -/

/-- The operator of a comparison that asks for some pair of items. -/
def Comparison.generalToken : Comparison → Token
  | .eq => .eq
  | .ne => .notEq
  | .lt => .lt
  | .le => .ltEq
  | .gt => .gt
  | .ge => .gtEq

/-- The operator of a comparison of single items. -/
def Comparison.valueToken : Comparison → Token
  | .eq => .valueEq
  | .ne => .valueNe
  | .lt => .valueLt
  | .le => .valueLe
  | .gt => .valueGt
  | .ge => .valueGe

/-- The token of an operator. -/
def Arithmetic.token : Arithmetic → Token
  | .add => .plus
  | .subtract => .minus
  | .multiply => .multiply
  | .divide => .div
  | .modulo => .mod

/-- How tight an operator binds. -/
def Arithmetic.level : Arithmetic → ℕ
  | .add | .subtract => 4
  | .multiply | .divide | .modulo => 5

theorem Arithmetic.level_eq (operator : Arithmetic) : operator.level = 4 ∨ operator.level = 5 := by
  cases operator <;> decide

/-! ## Node tests -/

/-- The tokens of a node test, where `label` gives a label for each namespace. -/
def NodeTest.tokens (label : String → String) : NodeTest → List Token
  | .name none part => [.name part]
  | .name (some uri) part => [.name (label uri ++ ":" ++ part)]
  | .namespaceOf uri => [.namespaceWildcard (label uri)]
  | .localName part => [.localWildcard part]
  | .any => [.star]
  | .node => [.name "node", .leftParen, .rightParen]
  | .text => [.name "text", .leftParen, .rightParen]
  | .comment => [.name "comment", .leftParen, .rightParen]
  | .instruction => [.name "processing-instruction", .leftParen, .rightParen]

/-- Which node tests have tokens: local names are without a colon, and the labels stand for their
namespaces. In a qualified name the label ends at the first colon, so it is without one too. -/
def NodeTest.Printable (ns : Namespaces) (label : String → String) : NodeTest → Prop
  | .name none part => ':' ∉ part.toList
  | .name (some uri) part =>
    ':' ∉ part.toList ∧ ns.lookup? (label uri) = some uri ∧ ':' ∉ (label uri).toList
  | .namespaceOf uri => ns.lookup? (label uri) = some uri
  | .localName part => ':' ∉ part.toList
  | _ => True

/-! ## Expressions -/

/-- Tokens at a place that asks for a level, where `own` is the level of what they stand for. -/
def place (level own : ℕ) (ts : List Token) : List Token :=
  if level ≤ own then ts else .leftParen :: (ts ++ [.rightParen])

namespace Expr

/-- **How tight an expression binds.** -/
def level : Expr → ℕ
  | .sequence parts => if parts.isEmpty then 10 else 0
  | .or .. => 1
  | .and .. => 2
  | .general _ _ _ | .value _ _ _ => 3
  | .arithmetic operator .. => operator.level
  | .negate _ => 6
  | .union .. => 7
  | .root => 8
  | .slash .. => 9
  | .step .. | .filter .. => 10
  | .literal _ | .number _ | .var _ | .call .. => 11

def isRoot : Expr → Bool
  | .root => true
  | _ => false

def isStep : Expr → Bool
  | .step .. => true
  | _ => false

mutual

/-- **The tokens of an expression**, where `label` gives a label for each namespace. Only a step may
stand behind the slash of the root. -/
def tokens (label : String → String) : Expr → List Token
  | .literal text => [.literal text]
  | .number x => [.number x]
  | .var name => [.var name]
  | .root => [.slash]
  | .step axis test predicates =>
    .name axis.name :: .colonColon :: (test.tokens label ++ bracketed label predicates)
  | .slash base next =>
    if base.isRoot && next.isStep then .slash :: next.tokens label
    else place 9 base.level (base.tokens label) ++ .slash :: place 10 next.level (next.tokens label)
  | .filter primary predicates =>
    place 11 primary.level (primary.tokens label) ++ bracketed label predicates
  | .sequence [] => [.leftParen, .rightParen]
  | .sequence (part :: parts) => place 1 part.level (part.tokens label) ++ further label parts
  | .union left right =>
    place 7 left.level (left.tokens label) ++ .pipe :: place 8 right.level (right.tokens label)
  | .or left right =>
    place 1 left.level (left.tokens label) ++ .or :: place 2 right.level (right.tokens label)
  | .and left right =>
    place 2 left.level (left.tokens label) ++ .and :: place 3 right.level (right.tokens label)
  | .general relation left right =>
    place 4 left.level (left.tokens label) ++
      relation.generalToken :: place 4 right.level (right.tokens label)
  | .value relation left right =>
    place 4 left.level (left.tokens label) ++
      relation.valueToken :: place 4 right.level (right.tokens label)
  | .arithmetic operator left right =>
    place operator.level left.level (left.tokens label) ++
      operator.token :: place (operator.level + 1) right.level (right.tokens label)
  | .negate operand => .minus :: place 6 operand.level (operand.tokens label)
  | .call function [] => [.name function.plainName, .leftParen, .rightParen]
  | .call function (argument :: arguments) =>
    .name function.plainName :: .leftParen ::
      (place 1 argument.level (argument.tokens label) ++
        (further label arguments ++ [.rightParen]))

/-- The tokens of predicates. -/
def bracketed (label : String → String) : List Expr → List Token
  | [] => []
  | e :: es => .leftBracket :: (e.tokens label ++ .rightBracket :: bracketed label es)

/-- The tokens of what stands in a list behind its first part. -/
def further (label : String → String) : List Expr → List Token
  | [] => []
  | e :: es => .comma :: (place 1 e.level (e.tokens label) ++ further label es)

end

/-- **The tokens of an expression at a place** that asks for a level. -/
def tokensAt (label : String → String) (level : ℕ) (e : Expr) : List Token :=
  place level e.level (e.tokens label)

mutual

/-- **Which expressions have tokens**: calls with a legal number of arguments, lists of no or
several parts, filters with a predicate, and node tests that have tokens. -/
def Printable (ns : Namespaces) (label : String → String) : Expr → Prop
  | .literal _ | .number _ | .var _ | .root => True
  | .step _ test predicates => test.Printable ns label ∧ AllPrintable ns label predicates
  | .slash base next => base.Printable ns label ∧ next.Printable ns label
  | .filter primary predicates =>
    predicates ≠ [] ∧ primary.Printable ns label ∧ AllPrintable ns label predicates
  | .sequence parts => parts.length ≠ 1 ∧ AllPrintable ns label parts
  | .union left right | .or left right | .and left right =>
    left.Printable ns label ∧ right.Printable ns label
  | .general _ left right | .value _ left right | .arithmetic _ left right =>
    left.Printable ns label ∧ right.Printable ns label
  | .negate operand => operand.Printable ns label
  | .call function arguments =>
    function.arity.admits arguments.length = true ∧ AllPrintable ns label arguments

/-- Whether all of some expressions have tokens. -/
def AllPrintable (ns : Namespaces) (label : String → String) : List Expr → Prop
  | [] => True
  | e :: es => e.Printable ns label ∧ AllPrintable ns label es

end

variable {label : String → String} {e : Expr} {level : ℕ}

theorem exists_negate_of_level (h : e.level = 6) : ∃ operand, e = .negate operand := by
  cases e <;> grind [Expr.level, Arithmetic.level_eq]

theorem eq_root_of_level (h : e.level = 8) : e = .root := by
  cases e <;> grind [Expr.level, Arithmetic.level_eq]

theorem exists_slash_of_level (h : e.level = 9) : ∃ base next, e = .slash base next := by
  cases e <;> grind [Expr.level, Arithmetic.level_eq]

theorem tokensAt_of_le (h : level ≤ e.level) : e.tokensAt label level = e.tokens label :=
  if_pos h

theorem tokensAt_of_lt (h : e.level < level) :
    e.tokensAt label level = .leftParen :: (e.tokens label ++ [.rightParen]) :=
  if_neg (Nat.not_le.2 h)

/-- No expression needs parentheses where a list may stand. -/
@[simp] theorem tokensAt_zero : e.tokensAt label 0 = e.tokens label :=
  tokensAt_of_le (Nat.zero_le _)

/-- **Only at the places between two levels does an expression of the lower one differ.** -/
theorem tokensAt_succ (h : e.level ≠ level) :
    e.tokensAt label (level + 1) = e.tokensAt label level := by
  unfold tokensAt place
  split <;> split <;> first | rfl | omega

theorem further_cons (label : String → String) (e : Expr) (es : List Expr) :
    further label (e :: es) = .comma :: (e.tokensAt label 1 ++ further label es) :=
  rfl

/-- **Only a step behind the root stands there without its base.** -/
theorem tokens_slash (label : String → String) (base next : Expr) :
    (base = .root ∧ ∃ axis test predicates, next = .step axis test predicates) ∨
      (slash base next).tokens label =
        base.tokensAt label 9 ++ .slash :: next.tokensAt label 10 := by
  by_cases h : (base.isRoot && next.isStep) = true
  · obtain ⟨hbase, hnext⟩ := Bool.and_eq_true_iff.1 h
    left
    constructor
    · cases base <;> first | rfl | cases hbase
    · cases next <;> first | exact ⟨_, _, _, rfl⟩ | cases hnext
  · right
    rw [tokens, if_neg h]
    rfl

/-! ## How tokens begin -/

end Expr

/-- The tightest level of the expressions that a token can begin. -/
def Token.opens : Token → ℕ
  | .minus => 6
  | .slash => 9
  | .name _ | .literal _ | .number _ | .var _ | .leftParen => 11
  | _ => 0

/-- Tokens begin as those of an expression at a place that asks for a level. -/
def Begins (level : ℕ) (ts : List Token) : Prop :=
  ∃ t rest, ts = t :: rest ∧ 6 ≤ t.opens ∧ level ≤ t.opens

namespace Begins

variable {level own : ℕ} {ts : List Token}

theorem mono (h : Begins own ts) (hle : level ≤ own) : Begins level ts := by
  obtain ⟨t, rest, hts, h6, ht⟩ := h
  exact ⟨t, rest, hts, h6, Nat.le_trans hle ht⟩

/-- An operand at the front of tokens. -/
theorem operand (h : Begins own ts) (hle : level ≤ 11) (rest : List Token) :
    Begins level (place level own ts ++ rest) := by
  obtain ⟨t, more, rfl, h6, ht⟩ := h
  unfold place
  split
  next hown => exact ⟨t, more ++ rest, rfl, h6, Nat.le_trans hown ht⟩
  next => exact ⟨.leftParen, _, rfl, by decide, hle⟩

end Begins

namespace Expr

variable (label : String → String)

/-- **An expression begins with a token that begins expressions of its level.** -/
theorem begins_tokens : ∀ e : Expr, Begins e.level (e.tokens label)
  | .literal _ | .number _ | .var _ | .root | .sequence [] | .negate _ =>
    ⟨_, _, rfl, by simp [Token.opens], by simp [Token.opens, level]⟩
  | .step .. | .call _ [] | .call _ (_ :: _) =>
    ⟨_, _, rfl, by simp [Token.opens], by simp [Token.opens, level]⟩
  | .slash base next => by
    rw [tokens]
    split
    · exact ⟨_, _, rfl, by simp [Token.opens], by simp [Token.opens, level]⟩
    · exact (begins_tokens base).operand (by simp [level]) _
  | .filter primary _ => ((begins_tokens primary).operand (by decide) _).mono (by simp [level])
  | .sequence (part :: _) => ((begins_tokens part).operand (by decide) _).mono (Nat.zero_le _)
  | .union left _ | .or left _ | .and left _ => (begins_tokens left).operand (by simp [level]) _
  | .general _ left _ | .value _ left _ =>
    ((begins_tokens left).operand (by decide) _).mono (by simp [level])
  | .arithmetic operator left _ =>
    (begins_tokens left).operand (by cases operator <;> simp [level, Arithmetic.level]) _

theorem begins_tokensAt (e : Expr) (level : ℕ) (h : level ≤ 11) (rest : List Token) :
    Begins level (e.tokensAt label level ++ rest) :=
  (begins_tokens label e).operand h rest

end Expr

end XmlConformance.Path
