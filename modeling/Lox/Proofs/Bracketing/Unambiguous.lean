import Lox.Proofs.Bracketing.Expressions
import Lox.Proofs.Grammar.RoundTrip
import Mathlib.Data.Set.Function

/-!
The prefix form tells expressions apart. What is read from tokens of a source text is legible if it
has no strings and no functions and all its numbers are finite; so its prefix form is a bracketed
text that stands for nothing else. Finite numbers are told apart by how literals write them, and
are never written like names.
-/

namespace Lox

/-- The node is no string and no function, and no number without digits. -/
def Node.Plain : Node → Prop
  | .expression (.literal (.string _)) | .expression (.lambda _) => False
  | .expression (.literal (.number value)) => value.isFinite = true
  | _ => True

/-- What is read back as an expression, or as expressions with commas between them. -/
def Node.traces : Node → List Trace
  | .expression value => value.reading
  | .expressions values => Expression.listing values
  | _ => []

theorem Expression.part_traces (value : Expression) :
    ∀ part ∈ (Node.expression value).parts, part.traces ⊆ value.reading := by
  intro part isPart trace member
  cases value with
  | literal | reference | receiver | inherited => exact absurd isPart List.not_mem_nil
  | lambda routine =>
      cases List.mem_singleton.mp isPart
      exact absurd member List.not_mem_nil
  | grouping | unary | assign | get =>
      cases List.mem_singleton.mp isPart
      rw [Node.traces] at member
      simp [reading, member]
  | binary | logical | set | call =>
      rcases List.mem_pair.mp isPart with rfl | rfl <;>
        rw [Node.traces] at member <;> simp [reading, member]
  | conditional =>
      simp only [Node.parts, List.mem_cons, List.not_mem_nil, or_false] at isPart
      rcases isPart with rfl | rfl | rfl <;>
        rw [Node.traces] at member <;> simp [reading, member]

theorem Expression.listing_traces (values : List Expression) :
    ∀ part ∈ (Node.expressions values).parts, part.traces ⊆ Expression.listing values := by
  intro part isPart trace member
  match values with
  | [] => exact absurd isPart List.not_mem_nil
  | [only] =>
      rcases List.mem_pair.mp isPart with rfl | rfl
      · exact member
      · exact absurd member List.not_mem_nil
  | first :: second :: rest =>
      rw [listing]
      · rcases List.mem_pair.mp isPart with rfl | rfl
        · exact List.mem_append_left _ member
        · exact List.mem_append_right _ (List.mem_cons_of_mem _ member)
      · exact List.cons_ne_nil second rest

/-- All names and operators are as a source text has them, and no part is left out of the prefix
form. -/
structure Node.Shown (node : Node) : Prop where
  spelled : ∀ own, Trace.kept own ∈ node.traces → IsLexeme own.lexeme.toList own.kind
  plain : node.Everywhere Node.Plain

theorem Node.Shown.part {node part : Node} (shown : node.Shown) (isPart : part ∈ node.parts)
    (inside : part.traces ⊆ node.traces) : part.Shown :=
  ⟨fun own member => shown.spelled own (inside member),
    (Node.everywhere_iff.mp shown.plain).2 part isPart⟩

section Legibility

variable {token : Token} {kind : Kind}

theorem Token.Spells.of_kind (isKind : token.kind = kind)
    (lexeme : IsLexeme token.lexeme.toList token.kind) : token.Spells [kind] :=
  ⟨List.mem_singleton.mpr isKind, lexeme⟩

mutual

/-- A normal tree is legible if its tokens, strings, functions and numbers allow it. -/
theorem Expression.legible (value : Expression) (normal : value.IsNormal)
    (shown : (Node.expression value).Shown) : value.Legible := by
  have here : (Node.expression value).Plain := (Node.everywhere_iff.mp shown.plain).1
  have spelled : ∀ own, Trace.kept own ∈ value.reading → IsLexeme own.lexeme.toList own.kind :=
    shown.spelled
  have parts : ∀ part ∈ (Node.expression value).parts, part.Shown :=
    fun part isPart => shown.part isPart (value.part_traces part isPart)
  match value with
  | .literal (.number value) => exact here
  | .literal (.string text) => exact here
  | .literal (.boolean value) => trivial
  | .literal .nil => trivial
  | .lambda routine => exact here
  | .grouping inner => exact inner.legible normal (parts _ (by simp [Node.parts]))
  | .unary operator operand =>
      exact ⟨⟨normal.1, spelled operator (by simp [reading])⟩,
        operand.legible normal.2.2 (parts _ (by simp [Node.parts]))⟩
  | .binary left operator right | .logical left operator right =>
      exact ⟨⟨normal.1, spelled operator (by simp [reading])⟩,
        left.legible normal.2.1.2 (parts _ (by simp [Node.parts])),
        right.legible normal.2.2.2 (parts _ (by simp [Node.parts]))⟩
  | .conditional condition thenBranch elseBranch =>
      exact ⟨condition.legible normal.1.2 (parts _ (by simp [Node.parts])),
        thenBranch.legible normal.2.1 (parts _ (by simp [Node.parts])),
        elseBranch.legible normal.2.2.2 (parts _ (by simp [Node.parts]))⟩
  | .reference place | .receiver place => exact .of_kind normal (spelled _ (by simp [reading]))
  | .inherited place method =>
      exact ⟨.of_kind normal.1 (spelled _ (by simp [reading])),
        .of_kind normal.2 (spelled _ (by simp [reading]))⟩
  | .assign place value =>
      exact ⟨.of_kind normal.1 (spelled _ (by simp [reading])),
        value.legible normal.2 (parts _ (by simp [Node.parts]))⟩
  | .call callee closing arguments =>
      exact ⟨.of_kind normal.2.1 (spelled _ (by simp [reading])),
        callee.legible normal.1.2 (parts _ (by simp [Node.parts])),
        Expression.all_legible arguments normal.2.2.2 (parts _ (by simp [Node.parts]))⟩
  | .get object name =>
      exact ⟨.of_kind normal.2 (spelled _ (by simp [reading])),
        object.legible normal.1.2 (parts _ (by simp [Node.parts]))⟩
  | .set object name value =>
      exact ⟨.of_kind normal.2.1 (spelled _ (by simp [reading])),
        object.legible normal.1.2 (parts _ (by simp [Node.parts])),
        value.legible normal.2.2 (parts _ (by simp [Node.parts]))⟩

theorem Expression.all_legible (values : List Expression) (normal : Expression.AllNormal values)
    (shown : (Node.expressions values).Shown) : Expression.AllLegible values := by
  have parts : ∀ part ∈ (Node.expressions values).parts, part.Shown :=
    fun part isPart => shown.part isPart (Expression.listing_traces values part isPart)
  match values with
  | [] => trivial
  | first :: rest =>
      exact ⟨first.legible normal.1 (parts _ (by simp [Node.parts])),
        Expression.all_legible rest normal.2 (parts _ (by simp [Node.parts]))⟩

end

end Legibility

/-- Legible expressions with the same prefix form are the same up to numbers and lines. -/
theorem Expression.same_of_prefix_form {value other : Expression} (legible : value.Legible)
    (alsoLegible : other.Legible) (same : value.prefixForm = other.prefixForm) :
    value.SameUpToPlaces other := by
  -- Some way to read numbers again, which there is as no two of them are written alike.
  let number := Function.invFunOn Number.literal.render {value | value.isFinite = true}
  have reads : ReadsLiterals number := by
    have injective : Set.InjOn Number.literal.render {value | value.isFinite = true} :=
      fun _ finite _ alsoFinite written =>
        Number.render_injective (.inr rfl) finite alsoFinite written
    exact fun value finite => injective.leftInvOn_invFunOn finite
  have texts : value.bracketed.text ++ [] = other.bracketed.text ++ [] := by
    rw [← value.prefix_form_bracketed, ← other.prefix_form_bracketed, same]
  obtain ⟨forms, -⟩ := Bracketed.text_apart _ _ (value.bracketed_proper legible)
    (other.bracketed_proper alsoLegible) Bracketed.ends_nothing Bracketed.ends_nothing texts
  calc value.relabel .bare
    _ = value.bracketed.expression number := (value.read_back reads legible).symm
    _ = other.bracketed.expression number := by rw [forms]
    _ = other.relabel .bare := other.read_back reads alsoLegible

/-- Tokens of a source text. -/
def Lexed (tokens : List Token) : Prop :=
  ∀ token ∈ tokens, token.kind = .endOfInput ∨ IsLexeme token.lexeme.toList token.kind

theorem scan_lexed (source : String) : Lexed (tokensOf (scan source)) :=
  fun _ member => (token_lexeme member).imp_left And.left

theorem Lexed.spelled {tokens : List Token} (lexed : Lexed tokens) :
    Spelled (tokens.takeWhile (·.kind ≠ .endOfInput)) := by
  intro token member
  have inner : token.kind ≠ .endOfInput := by simpa using List.mem_takeWhile_imp member
  exact (lexed token ((List.takeWhile_prefix _).mem member)).resolve_left inner

/-- Whatever a tree keeps is spelled as the token that it was read from. -/
theorem kept_spelled {traces : List Trace} {tokens : List Token}
    (reading : List.Forall₂ Trace.Describes traces tokens) (spelled : Spelled tokens) :
    ∀ own, Trace.kept own ∈ traces → IsLexeme own.lexeme.toList own.kind := by
  induction reading with
  | nil => exact fun own member => absurd member List.not_mem_nil
  | @cons trace token _ _ describes _ induction =>
      obtain ⟨lexeme, spelled⟩ := List.forall_mem_cons.mp spelled
      intro own member
      rcases List.mem_cons.mp member with rfl | later
      · rwa [describes.1, describes.2] at lexeme
      · exact induction spelled own later

theorem legible_of_accepted {tokens : List Token} {firstId : Nat} {value : Expression}
    (lexed : Lexed tokens) (accepted : (parseExpression tokens firstId).outcome = .ok value)
    (plain : (Node.expression value).Everywhere Node.Plain) : value.Legible := by
  have free : (Node.expression value).LambdaFree := fun _ below => plain _ below
  have reads := expression_reads_back tokens firstId value accepted free
  exact value.legible reads.normal ⟨kept_spelled reads.reading lexed.spelled, plain⟩

/-- Two expressions without strings and functions, with finite numbers only, that are read from
tokens of source texts and have the same prefix form, differ in numbers of occurrences and in lines
at most. -/
theorem prefix_form_tells_expressions_apart (tokens others : List Token) (firstId otherId : Nat)
    (value other : Expression) (lexed : Lexed tokens) (alsoLexed : Lexed others)
    (accepted : (parseExpression tokens firstId).outcome = .ok value)
    (alsoAccepted : (parseExpression others otherId).outcome = .ok other)
    (plain : (Node.expression value).Everywhere Node.Plain)
    (alsoPlain : (Node.expression other).Everywhere Node.Plain)
    (same : value.prefixForm = other.prefixForm) : value.SameUpToPlaces other :=
  Expression.same_of_prefix_form (legible_of_accepted lexed accepted plain)
    (legible_of_accepted alsoLexed alsoAccepted alsoPlain) same

/-- In `call(-a - group, 1.50)` two names are spelled like heads of lists, and the sign of `a` like
that of the difference. -/
theorem prefix_form_tells_calls_apart :
    let tokens := tokensOf (scan "call(-a - group, 1.50)")
    let others := tokensOf (scan "call(\n-a - group,\n1.5)")
    let tree (firstId firstLine lastLine : Nat) (numeral : String) : Expression :=
      .call (.reference ⟨firstId, ⟨.identifier, "call", 1⟩⟩) ⟨.rightParen, ")", lastLine⟩
        [.binary (.unary ⟨.minus, "-", firstLine⟩
            (.reference ⟨firstId + 1, ⟨.identifier, "a", firstLine⟩⟩)) ⟨.minus, "-", firstLine⟩
          (.reference ⟨firstId + 2, ⟨.identifier, "group", firstLine⟩⟩),
        .literal (.number (numeralValue numeral.toList))]
    Lexed tokens ∧ Lexed others ∧
      (parseExpression tokens 0).outcome = .ok (tree 0 1 1 "1.50") ∧
      (parseExpression others 7).outcome = .ok (tree 7 2 3 "1.5") ∧
      (Node.expression (tree 0 1 1 "1.50")).Everywhere Node.Plain ∧
      (Node.expression (tree 7 2 3 "1.5")).Everywhere Node.Plain ∧
      (tree 0 1 1 "1.50").prefixForm = (tree 7 2 3 "1.5").prefixForm ∧
      (tree 0 1 1 "1.50").prefixForm = "(call call (- (- a) group) 1.5)" ∧
      (tree 0 1 1 "1.50").SameUpToPlaces (tree 7 2 3 "1.5") := by
  intro tokens others tree
  have lexed : tokens = [⟨.identifier, "call", 1⟩, ⟨.leftParen, "(", 1⟩, ⟨.minus, "-", 1⟩,
      ⟨.identifier, "a", 1⟩, ⟨.minus, "-", 1⟩, ⟨.identifier, "group", 1⟩, ⟨.comma, ",", 1⟩,
      ⟨.number (numeralValue "1.50".toList), "1.50", 1⟩, ⟨.rightParen, ")", 1⟩,
      ⟨.endOfInput, "", 1⟩] := by rfl
  have alsoLexed : others = [⟨.identifier, "call", 1⟩, ⟨.leftParen, "(", 1⟩, ⟨.minus, "-", 2⟩,
      ⟨.identifier, "a", 2⟩, ⟨.minus, "-", 2⟩, ⟨.identifier, "group", 2⟩, ⟨.comma, ",", 2⟩,
      ⟨.number (numeralValue "1.5".toList), "1.5", 3⟩, ⟨.rightParen, ")", 3⟩,
      ⟨.endOfInput, "", 3⟩] := by rfl
  have accepted : (parseExpression tokens 0).outcome = .ok (tree 0 1 1 "1.50") := by
    rw [lexed]
    rfl
  have alsoAccepted : (parseExpression others 7).outcome = .ok (tree 7 2 3 "1.5") := by
    rw [alsoLexed]
    rfl
  have printed : (tree 0 1 1 "1.50").prefixForm = "(call call (- (- a) group) 1.5)" := by
    decide +kernel
  have alsoPrinted : (tree 7 2 3 "1.5").prefixForm = "(call call (- (- a) group) 1.5)" := by
    decide +kernel
  have plain (firstId firstLine lastLine : Nat) (numeral : String)
      (finite : (numeralValue numeral.toList).isFinite = true) :
      (Node.expression (tree firstId firstLine lastLine numeral)).Everywhere Node.Plain := by
    intro inner below
    simp only [tree, Node.contains_iff_mem, Node.all_eq, Node.parts, List.flatMap_cons,
      List.flatMap_nil, List.append_nil, List.cons_append, List.nil_append, List.mem_cons,
      List.not_mem_nil, or_false] at below
    rcases below with rfl | rfl | rfl | rfl | rfl | rfl | rfl | rfl | rfl | rfl <;>
      simp only [Node.Plain, finite]
  have first := plain 0 1 1 "1.50" (by decide +kernel)
  have second := plain 7 2 3 "1.5" (by decide +kernel)
  exact ⟨scan_lexed _, scan_lexed _, accepted, alsoAccepted, first, second,
    printed.trans alsoPrinted.symm, printed,
    prefix_form_tells_expressions_apart tokens others 0 7 _ _ (scan_lexed _) (scan_lexed _) accepted
      alsoAccepted first second (printed.trans alsoPrinted.symm)⟩

end Lox
