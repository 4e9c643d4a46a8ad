import Lox.Proofs.Joining.Origins
import Lox.Syntax.Parse

/-!
What the grammar rules draw. Every token in the tree of a program, wherever it stands
in the tree, is one of the tokens that the program was read from.
-/

namespace Lox

namespace Rule

variable {origin : Token → Prop}

section Rules

variable {expression : Rule Expression} {statement declaration : Rule Statement} {bound : Nat}
  (values : expression.Draws origin fun tree => (Node.expression tree).From origin)
  (orders : statement.Draws origin fun tree => (Node.statement tree).From origin)
  (declared : declaration.Draws origin fun tree => (Node.statement tree).From origin)

theorem parameters_draw (bound : Nat) :
    (parameters bound).Draws origin fun names => ∀ name ∈ names, origin name := by
  have names : Draws origin (commaSeparated (expect .identifier .parameterName)
      .tooManyParameters bound 0) fun names => ∀ name ∈ names, origin name :=
    comma_separated_draws (expect_draws _ (by decide)) _ bound 0
  exact after_draws next_draws fun token => either_draws (pure_draws (List.forall_mem_nil _)) names
    fun _ drawn => after_draws (expect_draws _ (by decide)) fun _ => pure_draws drawn

section

include declared

theorem block_draws (bound : Nat) : (block declaration bound).Draws origin
    fun orders => (Node.statements orders).From origin :=
  bind_draws (declarations_draws declared _ bound) fun _ drawn =>
    after_draws (expect_draws _ (by decide)) fun _ => pure_draws (Node.statements_from drawn)

theorem lambda_draws (bound : Nat) :
    (lambda declaration bound).Draws origin fun tree => (Node.expression tree).From origin := by
  refine after_draws (expect_draws _ (by decide)) fun _ => bind_draws (parameters_draw bound)
    fun names drawn => after_draws (expect_draws _ (by decide)) fun _ =>
      bind_draws (block_draws declared bound) fun body inside => pure_draws ?_
  refine .build (List.forall_mem_nil _) ?_
  simp only [Node.parts, List.forall_mem_singleton]
  exact .build (by simpa [Node.ownTokens] using drawn) (by simpa [Node.parts] using inside)

theorem function_draws (bound : Nat) :
    (function declaration bound).Draws origin fun tree => (Node.routine tree).From origin := by
  refine bind_draws (expect_draws _ (by decide)) fun name named =>
    after_draws (expect_draws _ (by decide)) fun _ => bind_draws (parameters_draw bound)
    fun names drawn => after_draws (expect_draws _ (by decide)) fun _ =>
      bind_draws (block_draws declared bound) fun body inside => pure_draws ?_
  exact .build (by simpa [Node.ownTokens] using ⟨named, drawn⟩) (by simpa [Node.parts] using inside)

theorem method_draws (bound : Nat) :
    (method declaration bound).Draws origin fun tree => (Node.routine tree).From origin := by
  refine bind_draws (expect_draws _ (by decide)) fun name named =>
    bind_draws (following_draws (parameters_draw bound) (by decide))
    fun names drawn => after_draws (expect_draws _ (by decide)) fun _ =>
      bind_draws (block_draws declared bound) fun body inside => pure_draws ?_
  refine .build ?_ (by simpa [Node.parts] using inside)
  cases names with
  | none => simpa [Node.ownTokens] using named
  | some names => simpa [Node.ownTokens] using ⟨named, drawn names rfl⟩

theorem members_draw (bound count : Nat) : (members (method declaration bound) count).Draws origin
    fun all => ∀ member ∈ all, (Node.routine member.2).From origin := by
  induction count with
  | zero => exact pure_draws (List.forall_mem_nil _)
  | succ count induction =>
      refine after_draws next_draws fun token => ?_
      dsimp only
      refine draws_when (pure_draws (List.forall_mem_nil _)) <|
        after_draws (accept_draws (by decide)) fun _ =>
          bind_draws (method_draws declared bound) fun first drawn =>
            bind_draws induction fun rest others => pure_draws ?_
      exact List.forall_mem_cons.mpr ⟨drawn, others⟩

theorem class_declaration_draws (bound : Nat) : (classDeclaration declaration bound).Draws origin
    fun tree => (Node.statement tree).From origin := by
  have above : superclass.Draws origin fun place => origin place.name :=
    bind_draws (expect_draws _ (by decide)) fun name named =>
      after_draws fresh_draws fun id => pure_draws named
  refine bind_draws (expect_draws _ (by decide)) fun name named =>
    bind_draws (following_draws above (by decide)) fun place placed =>
    after_draws (expect_draws _ (by decide)) fun _ => bind_draws (members_draw declared bound bound)
      fun all drawn => after_draws (expect_draws _ (by decide)) fun _ => pure_draws ?_
  have sorted (chosen : Bool × Routine → Bool) :
      (Node.routines ((all.filter chosen).map (·.2))).From origin := by
    refine Node.routines_from fun routine member => ?_
    obtain ⟨listed, isListed, rfl⟩ := List.mem_map.mp member
    exact drawn listed (List.mem_of_mem_filter isListed)
  refine .build (by simpa [Node.ownTokens] using named) ?_
  cases place with
  | none => simpa [Node.parts] using ⟨sorted _, sorted _⟩
  | some place =>
      have reference : (Node.expression (.reference place)).From origin :=
        .build (by simpa [Node.ownTokens] using placed place rfl) (List.forall_mem_nil _)
      simpa [Node.parts] using ⟨reference, sorted _, sorted _⟩

end

section

include values

theorem chain_draws {level : Level} (inner : Kind.endOfInput ∉ level.operators)
    (node : level.node = .binary ∨ level.node = .logical) (bound : Nat) {left : Expression}
    (isLeft : (Node.expression left).From origin) : (chain level expression bound left).Draws origin
      fun tree => (Node.expression tree).From origin := by
  induction bound generalizing left with
  | zero => exact pure_draws isLeft
  | succ bound induction =>
      refine bind_draws (accept_any_draws inner) fun found drawn => ?_
      cases found with
      | none => exact pure_draws isLeft
      | some operator =>
          refine bind_draws values fun right isRight => induction ?_
          have sign := drawn operator rfl
          rcases node with same | same
          all_goals
            rw [same]
            refine .build ?_ ?_
            · simpa [Node.ownTokens] using sign
            · simpa [Node.parts] using ⟨isLeft, isRight⟩

theorem operations_draw (bound : Nat) : (operations bound expression).Draws origin
    fun tree => (Node.expression tree).From origin := by
  have all : ∀ level ∈ levels, Kind.endOfInput ∉ level.operators ∧
      (level.node = .binary ∨ level.node = .logical) := by
    simp [levels]
  unfold operations
  generalize levels = wanted at all
  induction wanted with
  | nil => exact values
  | cons level rest induction =>
      obtain ⟨⟨inner, node⟩, others⟩ := List.forall_mem_cons.mp all
      exact bind_draws (induction others) fun left isLeft =>
        chain_draws (induction others) inner node bound isLeft

theorem trailers_draw (bound : Nat) {target : Expression}
    (isTarget : (Node.expression target).From origin) :
    (trailers expression bound target).Draws origin
      fun tree => (Node.expression tree).From origin := by
  induction bound generalizing target with
  | zero => exact pure_draws isTarget
  | succ bound induction =>
      have called {arguments : List Expression}
          (given : ∀ value ∈ arguments, (Node.expression value).From origin) :
          Draws origin (do
            let closing ← expect .rightParen .argumentsEnd
            trailers expression bound (.call target closing arguments))
            fun tree => (Node.expression tree).From origin := by
        refine bind_draws (expect_draws _ (by decide)) fun closing closes => induction ?_
        exact .build (by simpa [Node.ownTokens] using closes)
          (by simpa [Node.parts] using ⟨isTarget, Node.expressions_from given⟩)
      refine after_draws (accept_draws (by decide)) fun _ => draws_when ?_
        (after_draws (accept_draws (by decide)) fun _ => draws_when ?_ (pure_draws isTarget))
      · exact after_draws next_draws fun token => either_draws (pure_draws (List.forall_mem_nil _))
          (comma_separated_draws values _ (bound + 1) 0) fun _ => called
      · refine bind_draws (expect_draws _ (by decide)) fun name named => induction ?_
        exact .build (by simpa [Node.ownTokens] using named) (by simpa [Node.parts] using isTarget)

include declared

theorem primary_draws (bound : Nat) : (primary expression declaration bound).Draws origin
    fun tree => (Node.expression tree).From origin := by
  refine bind_draws next_draws fun token drawn => ?_
  have written {kind : Kind} (isKind : token.kind = kind) (inner : kind ≠ .endOfInput) :
      origin token := drawn (isKind ▸ inner)
  split
  case h_1 | h_2 | h_3 | h_4 | h_5 =>
    exact after_draws skip_draws fun _ =>
      pure_draws (.build (List.forall_mem_nil _) (List.forall_mem_nil _))
  case h_6 isKind | h_8 isKind =>
    refine after_draws skip_draws fun _ => after_draws fresh_draws fun id => pure_draws ?_
    exact .build (by simpa [Node.ownTokens] using written isKind nofun) (List.forall_mem_nil _)
  case h_7 isKind =>
    refine after_draws skip_draws fun _ => after_draws (expect_draws _ (by decide)) fun _ =>
      bind_draws (expect_draws _ (by decide)) fun method named =>
        after_draws fresh_draws fun id => pure_draws ?_
    exact .build (by simpa [Node.ownTokens] using ⟨written isKind nofun, named⟩)
      (List.forall_mem_nil _)
  case h_9 => exact after_draws skip_draws fun _ => lambda_draws declared bound
  case h_10 =>
    refine after_draws skip_draws fun _ => bind_draws values fun inner inside =>
      after_draws (expect_draws _ (by decide)) fun _ => pure_draws ?_
    exact .build (List.forall_mem_nil _) (by simpa [Node.parts] using inside)
  case h_11 => exact missing_draws _

omit declared values in
theorem assignment_draws {target value : Expression} {equals : Token}
    (isTarget : (Node.expression target).From origin)
    (isValue : (Node.expression value).From origin) :
    (assignment target equals value).Draws origin
      fun tree => (Node.expression tree).From origin := by
  have own := (Node.from_iff.mp isTarget).1
  have parts := (Node.from_iff.mp isTarget).2
  unfold assignment
  split
  case h_1 place =>
    refine after_draws fresh_draws fun id => pure_draws ?_
    exact .build (by simpa [Node.ownTokens] using own) (by simpa [Node.parts] using isValue)
  case h_2 object name =>
    simp only [Node.parts, List.forall_mem_singleton] at parts
    exact pure_draws (.build (by simpa [Node.ownTokens] using own)
      (by simpa [Node.parts] using ⟨isValue, parts⟩))
  case h_3 => exact after_draws (note_draws _ _) fun _ => pure_draws isTarget

end

section

include values

theorem optional_draws (closing : Kind) : (optional closing expression).Draws origin
    fun found => ∀ tree ∈ found, (Node.expression tree).From origin := by
  refine after_draws next_draws fun token => draws_when (pure_draws nofun) ?_
  exact map_draws values fun tree isGood found same => Option.some.inj same ▸ isGood

theorem variable_declaration_draws : (variableDeclaration expression).Draws origin
    fun tree => (Node.statement tree).From origin := by
  refine bind_draws (expect_draws _ (by decide)) fun name named =>
    bind_draws (following_draws values (by decide)) fun initializer inside =>
      after_draws (expect_draws _ (by decide)) fun _ => pure_draws ?_
  refine .build (by simpa [Node.ownTokens] using named) ?_
  cases initializer with
  | none => exact nofun
  | some value => simpa [Node.parts] using inside value rfl

theorem expression_statement_draws : (expressionStatement expression).Draws origin
    fun tree => (Node.statement tree).From origin :=
  bind_draws values fun value inside => after_draws (expect_draws _ (by decide)) fun _ =>
    pure_draws (.build (List.forall_mem_nil _) (by simpa [Node.parts] using inside))

theorem print_statement_draws : (printStatement expression).Draws origin
    fun tree => (Node.statement tree).From origin :=
  bind_draws values fun value inside => after_draws (expect_draws _ (by decide)) fun _ =>
    pure_draws (.build (List.forall_mem_nil _) (by simpa [Node.parts] using inside))

theorem exit_statement_draws {keyword : Token} (written : origin keyword) :
    (exitStatement keyword expression).Draws origin
      fun tree => (Node.statement tree).From origin := by
  refine bind_draws (optional_draws values _) fun value inside =>
    after_draws (expect_draws _ (by decide)) fun _ => pure_draws ?_
  refine .build (by simpa [Node.ownTokens] using written) ?_
  cases value with
  | none => exact nofun
  | some value => simpa [Node.parts] using inside value rfl

theorem for_initializer_draws : (forInitializer expression).Draws origin
    fun found => ∀ tree ∈ found, (Node.statement tree).From origin := by
  refine after_draws (accept_draws (by decide)) fun _ => draws_when (pure_draws nofun)
    (after_draws (accept_draws (by decide)) fun _ => draws_when ?_ ?_)
  · exact map_draws (variable_declaration_draws values) fun tree drawn found same =>
      Option.some.inj same ▸ drawn
  · exact map_draws (expression_statement_draws values) fun tree drawn found same =>
      Option.some.inj same ▸ drawn

omit values in
theorem desugared_from {initializer : Option Statement} {condition increment : Option Expression}
    {body : Statement} (first : ∀ tree ∈ initializer, (Node.statement tree).From origin)
    (test : ∀ tree ∈ condition, (Node.expression tree).From origin)
    (update : ∀ tree ∈ increment, (Node.expression tree).From origin)
    (inside : (Node.statement body).From origin) :
    (Node.statement (desugared initializer condition increment body)).From origin := by
  have block {one other : Statement} (head : (Node.statement one).From origin)
      (tail : (Node.statement other).From origin) :
      (Node.statement (.block [one, other])).From origin := by
    have both : (Node.statements [one, other]).From origin :=
      Node.statements_from (by simpa using ⟨head, tail⟩)
    exact .build (List.forall_mem_nil _) (by simpa [Node.parts] using both)
  have round : (Node.statement (stepped increment body)).From origin := by
    cases increment with
    | none => exact inside
    | some value =>
        exact block inside
          (.build (List.forall_mem_nil _) (by simpa [Node.parts] using update value rfl))
  have tested : (Node.expression (condition.getD (.literal (.boolean true)))).From origin := by
    cases condition with
    | none => exact .build (List.forall_mem_nil _) (List.forall_mem_nil _)
    | some value => exact test value rfl
  have loop : (Node.statement (.loop (condition.getD (.literal (.boolean true)))
      (stepped increment body))).From origin :=
    .build (List.forall_mem_nil _) (by simpa [Node.parts] using ⟨tested, round⟩)
  cases initializer with
  | none => exact loop
  | some initial => exact block (first initial rfl) loop

include orders

theorem for_statement_draws : (forStatement expression statement).Draws origin
    fun tree => (Node.statement tree).From origin :=
  after_draws (expect_draws _ (by decide)) fun _ => bind_draws (for_initializer_draws values)
    fun _ first => bind_draws (optional_draws values _) fun _ test =>
    after_draws (expect_draws _ (by decide)) fun _ => bind_draws (optional_draws values _)
    fun _ update => after_draws (expect_draws _ (by decide)) fun _ => bind_draws orders
    fun _ inside => pure_draws (desugared_from first test update inside)

theorem if_statement_draws : (ifStatement expression statement).Draws origin
    fun tree => (Node.statement tree).From origin := by
  refine after_draws (expect_draws _ (by decide)) fun _ => bind_draws values fun condition test =>
    after_draws (expect_draws _ (by decide)) fun _ => bind_draws orders fun thenBranch taken =>
    bind_draws (following_draws orders (by decide)) fun elseBranch others => pure_draws ?_
  refine .build (List.forall_mem_nil _) ?_
  cases elseBranch with
  | none => simpa [Node.parts] using ⟨test, taken⟩
  | some branch => simpa [Node.parts] using ⟨test, taken, others branch rfl⟩

theorem while_statement_draws : (whileStatement expression statement).Draws origin
    fun tree => (Node.statement tree).From origin :=
  after_draws (expect_draws _ (by decide)) fun _ => bind_draws values fun _ test =>
    after_draws (expect_draws _ (by decide)) fun _ => bind_draws orders fun _ inside =>
      pure_draws (.build (List.forall_mem_nil _) (by simpa [Node.parts] using ⟨test, inside⟩))

end

end Rules

theorem at_function_draws : atFunctionDeclaration.Draws origin fun _ => True := by
  intro reading offers
  obtain ⟨rest, nextId, complaints⟩ := reading
  rcases rest with - | ⟨first, - | ⟨second, rest⟩⟩ <;> exact ⟨offers, trivial⟩

/-- What the rules that call themselves draw, up to a bound. -/
structure AllDraw (origin : Token → Prop) (bound : Nat) : Prop where
  expression : (expression bound).Draws origin fun tree => (Node.expression tree).From origin
  conditional : (conditional bound).Draws origin fun tree => (Node.expression tree).From origin
  unary : (unary bound).Draws origin fun tree => (Node.expression tree).From origin
  statement : (statement bound).Draws origin fun tree => (Node.statement tree).From origin
  declaration : (declaration bound).Draws origin fun tree => (Node.statement tree).From origin

theorem all_draw (bound : Nat) : AllDraw origin bound := by
  induction bound with
  | zero =>
      exact ⟨missing_draws _, missing_draws _, missing_draws _, missing_draws _, missing_draws _⟩
  | succ bound all =>
      refine ⟨?_, ?_, ?_, ?_, ?_⟩
      · refine bind_draws all.conditional fun target isTarget =>
          after_draws (accept_draws (by decide)) fun found => ?_
        cases found with
        | none => exact pure_draws isTarget
        | some equals =>
            exact bind_draws all.expression fun value => assignment_draws isTarget
      · refine bind_draws (operations_draw all.unary bound) fun condition test =>
          after_draws (accept_draws (by decide)) fun found => ?_
        cases found with
        | none => exact pure_draws test
        | some question =>
            refine bind_draws all.expression fun thenBranch taken =>
              after_draws (expect_draws _ (by decide)) fun _ =>
              bind_draws all.conditional fun elseBranch others => pure_draws ?_
            exact .build (List.forall_mem_nil _) (by simpa [Node.parts] using ⟨test, taken, others⟩)
      · refine bind_draws (accept_any_draws (by decide)) fun found drawn => ?_
        cases found with
        | none =>
            exact bind_draws (primary_draws all.expression all.declaration bound)
              fun head => trailers_draw all.expression bound
        | some operator =>
            refine bind_draws all.unary fun operand inside => pure_draws ?_
            exact .build (by simpa [Node.ownTokens] using drawn operator rfl)
              (by simpa [Node.parts] using inside)
      · refine bind_draws next_draws fun token drawn => ?_
        split
        case h_1 =>
          exact after_draws skip_draws fun _ => for_statement_draws all.expression all.statement
        case h_2 =>
          exact after_draws skip_draws fun _ => if_statement_draws all.expression all.statement
        case h_3 =>
          exact after_draws skip_draws fun _ => while_statement_draws all.expression all.statement
        case h_4 isKind =>
          exact after_draws skip_draws fun _ =>
            exit_statement_draws all.expression (drawn (by rw [isKind]; decide))
        case h_5 =>
          refine after_draws skip_draws fun _ =>
            bind_draws (block_draws all.declaration bound) fun orders inside => pure_draws ?_
          exact .build (List.forall_mem_nil _) (by simpa [Node.parts] using inside)
        case h_6 => exact after_draws skip_draws fun _ => print_statement_draws all.expression
        case h_7 => exact expression_statement_draws all.expression
      · refine after_draws (accept_draws (by decide)) fun _ =>
          draws_when (class_declaration_draws all.declaration bound)
          (after_draws at_function_draws fun _ => draws_when ?_
            (after_draws (accept_draws (by decide)) fun _ =>
              draws_when (variable_declaration_draws all.expression) all.statement))
        refine after_draws skip_draws fun _ =>
          bind_draws (function_draws all.declaration bound) fun declared inside => pure_draws ?_
        exact .build (List.forall_mem_nil _) (by simpa [Node.parts] using inside)

end Rule

section Programs

variable {origin : Token → Prop} {tokens : List Token} {firstId : Nat}
  (offered : ∀ token ∈ tokens, token.kind ≠ .endOfInput → origin token)

include offered

/-- A program is made of tokens of the list that it is read from. -/
theorem program_from {statements : List Statement}
    (parsed : (parseProgram tokens firstId).outcome = .ok statements) :
    (Node.statements statements).From origin := by
  have drawn := Rule.declarations_draws (Rule.all_draw (nesting tokens)).declaration
    (· = .endOfInput) (nesting tokens) (.start tokens firstId) offered
  unfold parseProgram at parsed
  dsimp only at parsed
  generalize Rule.declarations _ _ _ _ = ended at drawn parsed
  cases ended with
  | error complaint after => cases parsed
  | ok tree after =>
      unfold Reading.finish at parsed
      dsimp only at parsed
      split_ifs at parsed
      cases parsed
      exact Node.statements_from drawn.2

end Programs

end Lox
