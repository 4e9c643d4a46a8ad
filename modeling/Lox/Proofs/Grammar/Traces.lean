import Lox.Proofs.Grammar.Handles
import Lox.Proofs.Renaming.Relabel
import Mathlib.Data.List.Forall2

/-!
Expressions read back. A tree gives the tokens it was read from in their order,
each as far as the tree still knows it: names, operators and the closing
parentheses of calls are kept as they were, of all other tokens the kind is left,
with the value of a literal in it. A tree is in normal form if every operand
binds as tightly as the place where it stands asks for.
-/

namespace Lox

/-- What a tree knows of a token that it was read from. -/
inductive Trace where
  | kept (token : Token)
  | plain (kind : Kind)

def Trace.kind : Trace → Kind
  | .kept token => token.kind
  | .plain kind => kind

/-- The token is as the tree knows it, on whatever line it stands. -/
def Trace.Describes : Trace → Token → Prop
  | .kept own, token => token.kind = own.kind ∧ token.lexeme = own.lexeme
  | .plain kind, token => token.kind = kind

theorem Trace.Describes.kind {trace : Trace} {token : Token} (describes : trace.Describes token) :
    token.kind = trace.kind := by
  cases trace with
  | kept own => exact describes.1
  | plain kind => exact describes

theorem Trace.describes_kept (token : Token) : (Trace.kept token).Describes token := ⟨rfl, rfl⟩

def Literal.kind : Literal → Kind
  | .number value => .number value
  | .string text => .string text
  | .boolean true => .trueWord
  | .boolean false => .falseWord
  | .nil => .nilWord

mutual

/-- The tokens of an expression, from left to right. Of a function expression only
the keyword is read back. -/
def Expression.reading : Expression → List Trace
  | .literal value => [.plain value.kind]
  | .grouping inner => .plain .leftParen :: (inner.reading ++ [.plain .rightParen])
  | .unary operator operand => .kept operator :: operand.reading
  | .binary left operator right | .logical left operator right =>
      left.reading ++ .kept operator :: right.reading
  | .conditional condition thenBranch elseBranch =>
      condition.reading ++ .plain .question ::
        (thenBranch.reading ++ .plain .colon :: elseBranch.reading)
  | .reference place | .receiver place => [.kept place.name]
  | .assign place value => .kept place.name :: .plain .equal :: value.reading
  | .call callee closing arguments =>
      callee.reading ++ .plain .leftParen ::
        (Expression.listing arguments ++ [.kept closing])
  | .get object name => object.reading ++ [.plain .dot, .kept name]
  | .set object name value =>
      object.reading ++ .plain .dot :: .kept name :: .plain .equal :: value.reading
  | .lambda _ => [.plain .funWord]
  | .inherited place method => [.kept place.name, .plain .dot, .kept method]

/-- Expressions with commas between them. -/
def Expression.listing : List Expression → List Trace
  | [] => []
  | [only] => only.reading
  | first :: rest => first.reading ++ .plain .comma :: Expression.listing rest

end

/-- How tightly a tree holds together: as its outermost operator binds, and
tightest of all if it has none. -/
def Expression.tightness : Expression → Nat
  | .assign _ _ | .set _ _ _ => 1
  | .conditional _ _ _ => 2
  | .binary _ operator _ | .logical _ operator _ => operator.kind.tightness
  | .unary _ _ => 9
  | _ => 10

def unaryOperators : List Kind := [.bang, .minus]

def logicalOperators : List Kind := [.orWord, .andWord]

def binaryOperators : List Kind :=
  [.bangEqual, .equalEqual, .greater, .greaterEqual, .less, .lessEqual, .minus, .plus, .star,
    .slash]

mutual

/-- No operand binds more loosely than its place allows, every token that the
tree keeps is of the kind that stands there, and no call has too many arguments.
Function expressions are left out. -/
def Expression.IsNormal : Expression → Prop
  | .literal _ => True
  | .grouping inner => inner.IsNormal
  | .unary operator operand =>
      operator.kind ∈ unaryOperators ∧ 9 ≤ operand.tightness ∧ operand.IsNormal
  | .binary left operator right =>
      operator.kind ∈ binaryOperators ∧
        (operator.kind.tightness ≤ left.tightness ∧ left.IsNormal) ∧
          operator.kind.tightness < right.tightness ∧ right.IsNormal
  | .logical left operator right =>
      operator.kind ∈ logicalOperators ∧
        (operator.kind.tightness ≤ left.tightness ∧ left.IsNormal) ∧
          operator.kind.tightness < right.tightness ∧ right.IsNormal
  | .conditional condition thenBranch elseBranch =>
      (3 ≤ condition.tightness ∧ condition.IsNormal) ∧ thenBranch.IsNormal ∧
        2 ≤ elseBranch.tightness ∧ elseBranch.IsNormal
  | .reference place => place.name.kind = .identifier
  | .assign place value => place.name.kind = .identifier ∧ value.IsNormal
  | .call callee closing arguments =>
      (10 ≤ callee.tightness ∧ callee.IsNormal) ∧ closing.kind = .rightParen ∧
        arguments.length ≤ listLimit ∧ Expression.AllNormal arguments
  | .get object name => (10 ≤ object.tightness ∧ object.IsNormal) ∧ name.kind = .identifier
  | .set object name value =>
      (10 ≤ object.tightness ∧ object.IsNormal) ∧ name.kind = .identifier ∧ value.IsNormal
  | .lambda _ => False
  | .receiver place => place.name.kind = .selfWord
  | .inherited place method => place.name.kind = .superWord ∧ method.kind = .identifier

def Expression.AllNormal : List Expression → Prop
  | [] => True
  | first :: rest => first.IsNormal ∧ Expression.AllNormal rest

end

/-- The tree in normal form holds together as tightly as that, and these are its
tokens. -/
structure Expression.ReadsAs (tree : Expression) (tight : Nat) (tokens : List Token) : Prop where
  normal : tree.IsNormal
  tight : tight ≤ tree.tightness
  reading : List.Forall₂ Trace.Describes tree.reading tokens

structure Expression.AllReadAs (trees : List Expression) (tokens : List Token) : Prop where
  normal : Expression.AllNormal trees
  reading : List.Forall₂ Trace.Describes (Expression.listing trees) tokens

/-- Labels that leave neither numbers nor lines. -/
def Labels.bare : Labels := ⟨fun token => { token with line := 0 }, fun _ => 0⟩

/-- The trees differ in numbers and lines at most. -/
def Expression.SameUpToPlaces (tree other : Expression) : Prop :=
  tree.relabel .bare = other.relabel .bare

/-- No function expression is part of the node. -/
def Node.LambdaFree (node : Node) : Prop :=
  ∀ routine, ¬node.Contains (.expression (.lambda routine))

theorem Node.LambdaFree.part {node part : Node} (free : node.LambdaFree)
    (member : part ∈ node.parts) : part.LambdaFree :=
  fun routine below => free routine (Node.contains_iff.mpr (.inr ⟨part, member, below⟩))

/-- A level joins its operands with all operators of one sort that bind so
tightly, and operators of the other sort do not. -/
structure Rung (level : Level) (tight : Nat) (sort other : List Kind) : Prop where
  known : ∀ kind ∈ level.operators, kind ∈ sort ∧ kind.tightness = tight
  all : ∀ kind ∈ sort, kind.tightness = tight → kind ∈ level.operators
  apart : ∀ kind ∈ other, kind.tightness ≠ tight

def Level.Joins (level : Level) (tight : Nat) : Prop :=
  (level.node = .binary ∧ Rung level tight binaryOperators logicalOperators) ∨
    (level.node = .logical ∧ Rung level tight logicalOperators binaryOperators)

/-- The levels in their order, up to the operands of the tightest operators. -/
def Ladder : Nat → List Level → Prop
  | tight, [] => tight = 9
  | tight, level :: tighter => level.Joins tight ∧ Ladder (tight + 1) tighter

theorem levels_ladder : Ladder 3 levels := by
  refine ⟨.inr ⟨rfl, ?_, ?_, ?_⟩, .inr ⟨rfl, ?_, ?_, ?_⟩, .inl ⟨rfl, ?_, ?_, ?_⟩,
    .inl ⟨rfl, ?_, ?_, ?_⟩, .inl ⟨rfl, ?_, ?_, ?_⟩, .inl ⟨rfl, ?_, ?_, ?_⟩, rfl⟩
  all_goals decide

theorem Level.Joins.binds {level : Level} {tight : Nat} (joins : level.Joins tight) :
    ∀ kind ∈ level.operators, kind.tightness = tight := by
  intro kind member
  rcases joins with ⟨-, rung⟩ | ⟨-, rung⟩
  · exact (rung.known kind member).2
  · exact (rung.known kind member).2

/-- The operands of a normal tree may be joined if they bind tightly enough. -/
theorem Level.Joins.normal {level : Level} {tight : Nat} (joins : level.Joins tight)
    {left right : Expression} {operator : Token} (member : operator.kind ∈ level.operators)
    {front back : List Token} (first : left.ReadsAs tight front)
    (second : right.ReadsAs (tight + 1) back) :
    (level.node left operator right).ReadsAs tight (front ++ operator :: back) := by
  have binds := joins.binds _ member
  have reading : List.Forall₂ Trace.Describes (left.reading ++ .kept operator :: right.reading)
      (front ++ operator :: back) :=
    List.rel_append first.reading (.cons (Trace.describes_kept operator) second.reading)
  rcases joins with ⟨same, rung⟩ | ⟨same, rung⟩
  all_goals
    rw [same]
    refine ⟨⟨(rung.known _ member).1, ⟨?_, first.normal⟩, ?_, second.normal⟩, ?_, reading⟩
    · exact Nat.le_trans (Nat.le_of_eq binds) first.tight
    · exact Nat.lt_of_le_of_lt (Nat.le_of_eq binds) second.tight
    · exact Nat.le_of_eq binds.symm

/-- A normal tree that holds together just as tightly as a level binds was joined
on it. -/
theorem Level.Joins.split {level : Level} {tight : Nat} (joins : level.Joins tight)
    (above : 3 ≤ tight) (below : tight < 9) {tree : Expression} (normal : tree.IsNormal)
    (same : tree.tightness = tight) :
    ∃ left operator right, tree = level.node left operator right ∧
      operator.kind ∈ level.operators ∧ (tight ≤ left.tightness ∧ left.IsNormal) ∧
        tight < right.tightness ∧ right.IsNormal := by
  cases tree with
  | binary left operator right =>
      obtain ⟨known, first, second⟩ := normal
      rw [show operator.kind.tightness = tight from same] at first second
      rcases joins with ⟨node, rung⟩ | ⟨node, rung⟩
      · rw [node]
        exact ⟨left, operator, right, rfl, rung.all _ known same, first, second⟩
      · exact absurd same (rung.apart _ known)
  | logical left operator right =>
      obtain ⟨known, first, second⟩ := normal
      rw [show operator.kind.tightness = tight from same] at first second
      rcases joins with ⟨node, rung⟩ | ⟨node, rung⟩
      · exact absurd same (rung.apart _ known)
      · rw [node]
        exact ⟨left, operator, right, rfl, rung.all _ known same, first, second⟩
  | _ =>
      simp only [Expression.tightness] at same
      omega

section

variable {tree : Expression}

end

/-- The first token is of an allowed kind. -/
def Trace.Lead (allowed : Kind → Bool) (traces : List Trace) : Prop :=
  ∃ first rest, traces = first :: rest ∧ allowed first.kind = true

theorem Trace.Lead.append {allowed : Kind → Bool} {traces : List Trace}
    (lead : Trace.Lead allowed traces) (more : List Trace) :
    Trace.Lead allowed (traces ++ more) := by
  obtain ⟨first, rest, rfl, fits⟩ := lead
  exact ⟨first, rest ++ more, rfl, fits⟩

/-- The tokens that are read back from traces lead with the same kind. -/
theorem Trace.Lead.leading {allowed : Kind → Bool} {traces : List Trace} {tokens : List Token}
    (lead : Trace.Lead allowed traces) (reading : List.Forall₂ Trace.Describes traces tokens)
    (rest : List Token) : allowed (leading (tokens ++ rest)) = true := by
  obtain ⟨first, others, rfl, fits⟩ := lead
  cases reading with
  | cons describes _ =>
      rw [← describes.kind] at fits
      exact fits

theorem Trace.Lead.nonempty {allowed : Kind → Bool} {traces : List Trace} {tokens : List Token}
    (lead : Trace.Lead allowed traces) (reading : List.Forall₂ Trace.Describes traces tokens) :
    0 < tokens.length := by
  obtain ⟨first, rest, rfl, -⟩ := lead
  cases reading
  exact Nat.succ_pos _

end Lox
