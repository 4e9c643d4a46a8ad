import Lox.Proofs.Grammar.Acceptance
import Lox.Proofs.Grammar.ReadingBack
import Lox.Proofs.Grammar.Restoring
import Lox.Proofs.Tokens.Shapes

/-!
Reading an expression and reading its tree back undo each other. What a tree does
not keep of a token is settled by the kind of the token, except that a number can
be written in more than one way.
-/

namespace Lox

mutual

/-- A tree keeps its names. -/
theorem Expression.reading_keeps_names (tree : Expression) :
    Trace.plain .identifier ∉ tree.reading := by
  cases tree with
  | literal value =>
      cases value with
      | boolean value => cases value <;> simp [reading, Literal.kind]
      | _ => simp [reading, Literal.kind]
  | reference | receiver | inherited | lambda => simp [reading]
  | grouping inner => simp [reading, inner.reading_keeps_names]
  | unary operator operand => simp [reading, operand.reading_keeps_names]
  | binary left operator right | logical left operator right =>
      simp [reading, left.reading_keeps_names, right.reading_keeps_names]
  | conditional condition thenBranch elseBranch =>
      simp [reading, condition.reading_keeps_names, thenBranch.reading_keeps_names,
        elseBranch.reading_keeps_names]
  | assign place value => simp [reading, value.reading_keeps_names]
  | call callee closing arguments =>
      simp [reading, callee.reading_keeps_names, Expression.listing_keeps_names arguments]
  | get object name => simp [reading, object.reading_keeps_names]
  | set object name value =>
      simp [reading, object.reading_keeps_names, value.reading_keeps_names]

theorem Expression.listing_keeps_names (trees : List Expression) :
    Trace.plain .identifier ∉ Expression.listing trees := by
  match trees with
  | [] => simp [listing]
  | [only] => simp [listing, only.reading_keeps_names]
  | first :: second :: rest =>
      simp [listing, first.reading_keeps_names, Expression.listing_keeps_names (second :: rest)]

end

/-- Tokens that a source text can have. -/
def Spelled (tokens : List Token) : Prop :=
  ∀ token ∈ tokens, IsLexeme token.lexeme.toList token.kind

theorem take_while_inner {read rest : List Token} (inner : ∀ token ∈ read, token.kind ≠ .endOfInput)
    (stops : leading rest = .endOfInput) :
    (read ++ rest).takeWhile (·.kind ≠ .endOfInput) = read := by
  rw [List.takeWhile_append_of_pos fun token member => decide_eq_true (inner token member)]
  cases rest with
  | nil => simp
  | cons first others =>
      have ends : first.kind = .endOfInput := stops
      simp [ends]

/-- An accepted expression is in normal form, and the tokens that are read back from
it are those that stand before the end of the input. -/
theorem expression_reads_back (tokens : List Token) (firstId : Nat) (value : Expression)
    (accepted : (parseExpression tokens firstId).outcome = .ok value)
    (free : (Node.expression value).LambdaFree) :
    value.ReadsAs 1 (tokens.takeWhile (·.kind ≠ .endOfInput)) := by
  have reads := (Rule.gives_back (nesting tokens)).expression.both
    (Rule.accounts (nesting tokens)).expression (.start tokens firstId)
  unfold parseExpression at accepted
  revert accepted reads
  cases Rule.expression (nesting tokens) (.start tokens firstId) with
  | error complaint after => exact nofun
  | ok tree after =>
      intro accepted reads
      dsimp only at accepted reads
      split at accepted
      case isTrue ends =>
        obtain ⟨quiet, rfl⟩ := finish_ok accepted
        obtain ⟨read, split, means, derived, -⟩ := reads.2 quiet
        rw [show tokens = read ++ after.rest from split,
          take_while_inner (derives_inner derived rfl) (of_decide_eq_true ends)]
        exact means free
      case isFalse =>
        have noted := (finish_ok accepted).1
        simp [Reading.note] at noted

end Lox
