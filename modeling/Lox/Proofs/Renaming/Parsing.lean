import Lox.Proofs.Renaming.Natural
import Lox.Syntax.Parse

/-!
Parsing among other labels. Every rule of the grammar is natural, those that call
each other by induction on how deep they may nest; so a token list with new labels
is accepted or refused like the old one, with the new labels in the tree or in the
complaints.
-/

namespace Lox

/-- The nodes of a level have new labels where their parts do. -/
def Level.Uniform (labels : Labels) (level : Level) : Prop :=
  ∀ left operator right, (level.node left operator right).relabel labels =
    level.node (left.relabel labels) (labels.token operator) (right.relabel labels)

namespace Rule

variable {labels : Labels} (silent : labels.Silent)

include silent

section Expressions

variable {operand expression : Rule Expression} {declaration : Rule Statement}

theorem chain_natural {level : Level} (uniform : level.Uniform labels)
    (each : Natural labels (Expression.relabel labels) operand operand) (bound : Nat)
    (left : Expression) :
    Natural labels (Expression.relabel labels) (chain level operand bound left)
      (chain level operand bound (left.relabel labels)) := by
  induction bound generalizing left with
  | zero => exact pure_natural rfl
  | succ bound induction =>
      apply bind_natural (accept_any_natural silent level.operators)
      intro found
      cases found with
      | none => exact pure_natural rfl
      | some operator =>
          apply bind_natural each
          intro right
          rw [← uniform]
          exact induction _

theorem operations_natural (each : Natural labels (Expression.relabel labels) operand operand)
    (bound : Nat) : Natural labels (Expression.relabel labels) (operations bound operand)
      (operations bound operand) := by
  have uniform : ∀ level ∈ levels, level.Uniform labels := by
    simp [levels, Level.Uniform, Expression.relabel]
  unfold operations
  generalize levels = all at uniform ⊢
  induction all with
  | nil => exact each
  | cons level rest induction =>
      rw [List.forall_mem_cons] at uniform
      have tighter := induction uniform.2
      exact bind_natural tighter fun left => chain_natural silent uniform.1 tighter bound left

theorem parameters_natural (bound : Nat) :
    Natural labels (List.map labels.token) (parameters bound) (parameters bound) := by
  apply bind_natural (next_natural silent)
  intro token
  rw [silent.kind]
  have closed (names : List Token) : Natural labels (List.map labels.token)
      (do let _ ← expect .rightParen .parametersEnd; return names)
      (do let _ ← expect .rightParen .parametersEnd; return names.map labels.token) :=
    bind_natural (expect_natural silent _ _) fun _ => pure_natural rfl
  split_ifs
  · exact closed []
  · exact bind_natural (comma_separated_natural silent (expect_natural silent _ _) _ bound 0) closed

theorem trailers_natural
    (each : Natural labels (Expression.relabel labels) expression expression) (bound : Nat)
    (target : Expression) :
    Natural labels (Expression.relabel labels) (trailers expression bound target)
      (trailers expression bound (target.relabel labels)) := by
  induction bound generalizing target with
  | zero => exact pure_natural rfl
  | succ bound induction =>
      apply bind_natural (accept_natural silent .leftParen)
      intro parenthesis
      rw [Option.isSome_map]
      split_ifs
      · apply bind_natural (next_natural silent)
        intro token
        rw [silent.kind]
        have closed (arguments : List Expression) : Natural labels (Expression.relabel labels)
            (do
              let closing ← expect .rightParen .argumentsEnd
              trailers expression bound (.call target closing arguments))
            (do
              let closing ← expect .rightParen .argumentsEnd
              trailers expression bound (.call (target.relabel labels) closing
                (arguments.map (Expression.relabel labels)))) := by
          apply bind_natural (expect_natural silent _ _)
          intro closing
          rw [← Expression.relabel_all_eq]
          exact induction _
        split_ifs
        · exact closed []
        · exact bind_natural (comma_separated_natural silent each _ _ 0) closed
      · apply bind_natural (accept_natural silent .dot)
        intro dot
        rw [Option.isSome_map]
        split_ifs
        · exact bind_natural (expect_natural silent _ _) fun name => induction _
        · exact pure_natural rfl

theorem block_natural
    (each : Natural labels (Statement.relabel labels) declaration declaration) (bound : Nat) :
    Natural labels (Statement.relabelAll labels) (block declaration bound)
      (block declaration bound) := by
  apply bind_natural (declarations_natural silent each _ bound)
  intro statements
  refine bind_natural (expect_natural silent _ _) fun _ => pure_natural ?_
  exact (Statement.relabel_all_eq labels statements).symm

theorem lambda_natural
    (each : Natural labels (Statement.relabel labels) declaration declaration) (bound : Nat) :
    Natural labels (Expression.relabel labels) (lambda declaration bound)
      (lambda declaration bound) := by
  apply bind_natural (expect_natural silent _ _)
  intro _
  apply bind_natural (parameters_natural silent bound)
  intro names
  apply bind_natural (expect_natural silent _ _)
  intro _
  exact bind_natural (block_natural silent each bound) fun body => pure_natural rfl

theorem primary_natural
    (each : Natural labels (Expression.relabel labels) expression expression)
    (written : Natural labels (Statement.relabel labels) declaration declaration) (bound : Nat) :
    Natural labels (Expression.relabel labels) (primary expression declaration bound)
      (primary expression declaration bound) := by
  apply bind_natural (next_natural silent)
  intro token
  rw [silent.kind]
  split
  case h_1 | h_2 | h_3 | h_4 | h_5 => exact bind_natural skip_natural fun _ => pure_natural rfl
  case h_6 | h_8 =>
    apply bind_natural skip_natural
    intro _
    exact bind_natural (fresh_natural silent) fun id => pure_natural rfl
  case h_7 =>
    apply bind_natural skip_natural
    intro _
    apply bind_natural (expect_natural silent _ _)
    intro _
    apply bind_natural (expect_natural silent _ _)
    intro method
    exact bind_natural (fresh_natural silent) fun id => pure_natural rfl
  case h_9 => exact bind_natural skip_natural fun _ => lambda_natural silent written bound
  case h_10 =>
    apply bind_natural skip_natural
    intro _
    apply bind_natural each
    intro inner
    exact bind_natural (expect_natural silent _ _) fun _ => pure_natural rfl
  case h_11 => exact missing_natural silent _ _

theorem assignment_natural (target value : Expression) (equals : Token) :
    Natural labels (Expression.relabel labels) (assignment target equals value)
      (assignment (target.relabel labels) (labels.token equals) (value.relabel labels)) := by
  cases target with
  | reference place => exact bind_natural (fresh_natural silent) fun id => pure_natural rfl
  | get object name => exact pure_natural rfl
  | _ => exact bind_natural (note_natural equals .invalidTarget) fun _ => pure_natural rfl

end Expressions

theorem following_natural {α β : Type} {change : α → β} {rule : Rule α} {rule' : Rule β}
    (kind : Kind) (natural : Natural labels change rule rule') :
    Natural labels (Option.map change) (following kind rule) (following kind rule') := by
  apply bind_natural (accept_natural silent kind)
  intro found
  rw [Option.isSome_map]
  split_ifs
  · exact map_natural natural fun _ => rfl
  · exact pure_natural rfl

section Statements

variable {expression : Rule Expression} {statement declaration : Rule Statement}
  (each : Natural labels (Expression.relabel labels) expression expression)
  (inner : Natural labels (Statement.relabel labels) statement statement)
  (written : Natural labels (Statement.relabel labels) declaration declaration)

include each in
theorem variable_declaration_natural : Natural labels (Statement.relabel labels)
    (variableDeclaration expression) (variableDeclaration expression) := by
  apply bind_natural (expect_natural silent _ _)
  intro name
  apply bind_natural (following_natural silent .equal each)
  intro initializer
  refine bind_natural (expect_natural silent _ _) fun _ => pure_natural ?_
  cases initializer <;> rfl

include each in
theorem expression_statement_natural : Natural labels (Statement.relabel labels)
    (expressionStatement expression) (expressionStatement expression) := by
  apply bind_natural each
  intro value
  exact bind_natural (expect_natural silent _ _) fun _ => pure_natural rfl

include each in
theorem print_statement_natural : Natural labels (Statement.relabel labels)
    (printStatement expression) (printStatement expression) := by
  apply bind_natural each
  intro value
  exact bind_natural (expect_natural silent _ _) fun _ => pure_natural rfl

include each in
theorem optional_natural (closing : Kind) : Natural labels
    (Option.map (Expression.relabel labels)) (optional closing expression)
    (optional closing expression) := by
  apply bind_natural (next_natural silent)
  intro token
  rw [silent.kind]
  split_ifs
  · exact pure_natural rfl
  · exact map_natural each fun _ => rfl

include each in
theorem exit_statement_natural (keyword : Token) : Natural labels (Statement.relabel labels)
    (exitStatement keyword expression) (exitStatement (labels.token keyword) expression) := by
  apply bind_natural (optional_natural silent each _)
  intro value
  refine bind_natural (expect_natural silent _ _) fun _ => pure_natural ?_
  cases value <;> rfl

include each in
theorem for_initializer_natural : Natural labels (Option.map (Statement.relabel labels))
    (forInitializer expression) (forInitializer expression) := by
  apply bind_natural (accept_natural silent .semicolon)
  intro semicolon
  rw [Option.isSome_map]
  split_ifs
  · exact pure_natural rfl
  · apply bind_natural (accept_natural silent .varWord)
    intro keyword
    rw [Option.isSome_map]
    split_ifs
    · exact map_natural (variable_declaration_natural silent each) fun _ => rfl
    · exact map_natural (expression_statement_natural silent each) fun _ => rfl

omit silent in
theorem desugared_relabel (initializer : Option Statement) (condition increment : Option Expression)
    (body : Statement) :
    desugared (initializer.map (Statement.relabel labels))
        (condition.map (Expression.relabel labels)) (increment.map (Expression.relabel labels))
        (body.relabel labels) =
      (desugared initializer condition increment body).relabel labels := by
  cases initializer <;> cases condition <;> cases increment <;> rfl

include each inner in
theorem for_statement_natural : Natural labels (Statement.relabel labels)
    (forStatement expression statement) (forStatement expression statement) := by
  apply bind_natural (expect_natural silent _ _)
  intro _
  apply bind_natural (for_initializer_natural silent each)
  intro initializer
  apply bind_natural (optional_natural silent each _)
  intro condition
  apply bind_natural (expect_natural silent _ _)
  intro _
  apply bind_natural (optional_natural silent each _)
  intro increment
  apply bind_natural (expect_natural silent _ _)
  intro _
  exact bind_natural inner fun body => pure_natural (desugared_relabel _ _ _ _)

include each inner in
theorem if_statement_natural : Natural labels (Statement.relabel labels)
    (ifStatement expression statement) (ifStatement expression statement) := by
  apply bind_natural (expect_natural silent _ _)
  intro _
  apply bind_natural each
  intro condition
  apply bind_natural (expect_natural silent _ _)
  intro _
  apply bind_natural inner
  intro thenBranch
  refine bind_natural (following_natural silent _ inner) fun elseBranch => pure_natural ?_
  cases elseBranch <;> rfl

include each inner in
theorem while_statement_natural : Natural labels (Statement.relabel labels)
    (whileStatement expression statement) (whileStatement expression statement) := by
  apply bind_natural (expect_natural silent _ _)
  intro _
  apply bind_natural each
  intro condition
  apply bind_natural (expect_natural silent _ _)
  intro _
  exact bind_natural inner fun body => pure_natural rfl

include written

theorem function_natural (bound : Nat) : Natural labels (Routine.relabel labels)
    (function declaration bound) (function declaration bound) := by
  apply bind_natural (expect_natural silent _ _)
  intro name
  apply bind_natural (expect_natural silent _ _)
  intro _
  apply bind_natural (parameters_natural silent bound)
  intro names
  apply bind_natural (expect_natural silent _ _)
  intro _
  exact bind_natural (block_natural silent written bound) fun body => pure_natural rfl

theorem method_natural (bound : Nat) : Natural labels (Routine.relabel labels)
    (method declaration bound) (method declaration bound) := by
  apply bind_natural (expect_natural silent _ _)
  intro name
  apply bind_natural (following_natural silent .leftParen (parameters_natural silent bound))
  intro names
  apply bind_natural (expect_natural silent _ _)
  intro _
  exact bind_natural (block_natural silent written bound) fun body => pure_natural rfl

omit written in
theorem members_natural {method : Rule Routine}
    (natural : Natural labels (Routine.relabel labels) method method) (bound : Nat) :
    Natural labels (List.map (Prod.map id (Routine.relabel labels))) (members method bound)
      (members method bound) := by
  induction bound with
  | zero => exact pure_natural rfl
  | succ bound induction =>
      apply bind_natural (next_natural silent)
      intro token
      rw [silent.kind]
      dsimp only
      split_ifs
      · exact pure_natural rfl
      · apply bind_natural (accept_natural silent .classWord)
        intro keyword
        rw [Option.isSome_map]
        apply bind_natural natural
        intro first
        exact bind_natural induction fun rest => pure_natural rfl

omit written in
theorem superclass_natural :
    Natural labels (Occurrence.relabel labels) superclass superclass := by
  apply bind_natural (expect_natural silent _ _)
  intro name
  exact bind_natural (fresh_natural silent) fun id => pure_natural rfl

omit silent written in
theorem sorted_relabel (chosen : Bool × Routine → Bool)
    (same : ∀ member, chosen (Prod.map id (Routine.relabel labels) member) = chosen member)
    (all : List (Bool × Routine)) :
    ((all.map (Prod.map id (Routine.relabel labels))).filter chosen).map (·.2) =
      Routine.relabelAll labels ((all.filter chosen).map (·.2)) := by
  rw [Routine.relabel_all_eq, List.filter_map, List.map_map, List.map_map]
  have filters : chosen ∘ Prod.map id (Routine.relabel labels) = chosen := funext same
  rw [filters]
  rfl

theorem class_declaration_natural (bound : Nat) : Natural labels (Statement.relabel labels)
    (classDeclaration declaration bound) (classDeclaration declaration bound) := by
  apply bind_natural (expect_natural silent _ _)
  intro name
  apply bind_natural (following_natural silent .less (superclass_natural silent))
  intro above
  apply bind_natural (expect_natural silent _ _)
  intro _
  apply bind_natural (members_natural silent (method_natural silent written bound) bound)
  intro all
  refine bind_natural (expect_natural silent _ _) fun _ => pure_natural ?_
  rw [Statement.relabel, sorted_relabel _ fun _ => rfl, sorted_relabel _ fun _ => rfl]

omit written in
theorem at_function_declaration_natural :
    Natural labels id atFunctionDeclaration atFunctionDeclaration := by
  rintro ⟨rest, nextId, complaints⟩
  rcases rest with - | ⟨first, - | ⟨second, rest⟩⟩
  · rfl
  · rfl
  · refine congrArg (EStateM.Result.ok · _) ?_
    rw [silent.kind, silent.kind]
    rfl

end Statements

/-- The rules that call each other are natural. -/
structure AllNatural (labels : Labels) (bound : Nat) : Prop where
  expression : Natural labels (Expression.relabel labels) (expression bound) (expression bound)
  conditional : Natural labels (Expression.relabel labels) (conditional bound) (conditional bound)
  unary : Natural labels (Expression.relabel labels) (unary bound) (unary bound)
  statement : Natural labels (Statement.relabel labels) (statement bound) (statement bound)
  declaration : Natural labels (Statement.relabel labels) (declaration bound) (declaration bound)

variable {bound : Nat} (inner : AllNatural labels bound)

include inner

theorem unary_natural :
    Natural labels (Expression.relabel labels) (unary (bound + 1)) (unary (bound + 1)) := by
  apply bind_natural (accept_any_natural silent _)
  intro found
  cases found with
  | some operator => exact bind_natural inner.unary fun operand => pure_natural rfl
  | none =>
      apply bind_natural (primary_natural silent inner.expression inner.declaration bound)
      exact trailers_natural silent inner.expression bound

theorem conditional_natural : Natural labels (Expression.relabel labels) (conditional (bound + 1))
    (conditional (bound + 1)) := by
  apply bind_natural (operations_natural silent inner.unary bound)
  intro condition
  apply bind_natural (accept_natural silent .question)
  intro question
  cases question with
  | none => exact pure_natural rfl
  | some question =>
      apply bind_natural inner.expression
      intro thenBranch
      apply bind_natural (expect_natural silent _ _)
      intro _
      exact bind_natural inner.conditional fun elseBranch => pure_natural rfl

theorem expression_natural : Natural labels (Expression.relabel labels) (expression (bound + 1))
    (expression (bound + 1)) := by
  apply bind_natural inner.conditional
  intro target
  apply bind_natural (accept_natural silent .equal)
  intro equals
  cases equals with
  | none => exact pure_natural rfl
  | some equals =>
      exact bind_natural inner.expression fun value => assignment_natural silent target value equals

theorem statement_natural : Natural labels (Statement.relabel labels) (statement (bound + 1))
    (statement (bound + 1)) := by
  apply bind_natural (next_natural silent)
  intro token
  rw [silent.kind]
  split
  case h_1 =>
    exact bind_natural skip_natural fun _ =>
      for_statement_natural silent inner.expression inner.statement
  case h_2 =>
    exact bind_natural skip_natural fun _ =>
      if_statement_natural silent inner.expression inner.statement
  case h_3 =>
    exact bind_natural skip_natural fun _ =>
      while_statement_natural silent inner.expression inner.statement
  case h_4 =>
    exact bind_natural skip_natural fun _ => exit_statement_natural silent inner.expression token
  case h_5 =>
    apply bind_natural skip_natural
    intro _
    exact bind_natural (block_natural silent inner.declaration bound) fun body => pure_natural rfl
  case h_6 =>
    exact bind_natural skip_natural fun _ => print_statement_natural silent inner.expression
  case h_7 => exact expression_statement_natural silent inner.expression

theorem declaration_natural : Natural labels (Statement.relabel labels) (declaration (bound + 1))
    (declaration (bound + 1)) := by
  apply bind_natural (accept_natural silent .classWord)
  intro keyword
  rw [Option.isSome_map]
  split_ifs
  · exact class_declaration_natural silent inner.declaration bound
  · apply bind_natural (at_function_declaration_natural silent)
    intro named
    rw [id_eq]
    split_ifs
    · apply bind_natural skip_natural
      intro _
      exact bind_natural (function_natural silent inner.declaration bound) fun routine =>
        pure_natural rfl
    · apply bind_natural (accept_natural silent .varWord)
      intro found
      rw [Option.isSome_map]
      split_ifs
      · exact variable_declaration_natural silent inner.expression
      · exact inner.statement

omit inner in
theorem all_natural (bound : Nat) : AllNatural labels bound := by
  induction bound with
  | zero =>
      have missing {α : Type} (change : α → α) :
          Natural labels change (Rule.missing .expression) (Rule.missing .expression) :=
        missing_natural silent change _
      exact ⟨missing _, missing _, missing _, missing _, missing _⟩
  | succ bound inner =>
      exact ⟨expression_natural silent inner, conditional_natural silent inner,
        unary_natural silent inner, statement_natural silent inner,
        declaration_natural silent inner⟩

end Rule

/-- What a token list is read as, with other labels in it. -/
def Parsed.relabel {α β : Type} (labels : Labels) (change : α → β) (parsed : Parsed α) :
    Parsed β where
  outcome := match parsed.outcome with
    | .ok tree => .ok (change tree)
    | .error complaints => .error (complaints.map (Complaint.relabel labels))
  nextId := labels.number parsed.nextId

def Line.relabel (labels : Labels) : Line → Line
  | .statements orders => .statements (Statement.relabelAll labels orders)
  | .expression value => .expression (value.relabel labels)

section Parsing

open Rule

variable {labels : Labels} (silent : labels.Silent) (tokens : List Token) (firstId : Nat)

theorem finish_relabel {α β : Type} (change : α → β) (reading : Reading) (tree : α) :
    (reading.relabel labels).finish (change tree) =
      (reading.finish tree).relabel labels change := by
  unfold Reading.finish Parsed.relabel Reading.relabel
  rw [List.isEmpty_map]
  cases reading.complaints.isEmpty <;> rfl

theorem noted_relabel (reading : Reading) (complaint : Complaint) :
    (reading.relabel labels).note (complaint.relabel labels) =
      (reading.note complaint).relabel labels := by
  simp only [Reading.note, Reading.relabel, List.map_append, List.map_singleton]

theorem nesting_map (change : Token → Token) : nesting (tokens.map change) = nesting tokens := by
  rw [nesting, nesting, List.length_map]

theorem start_relabel : (Reading.start tokens firstId).relabel labels =
    .start (tokens.map labels.token) (labels.number firstId) := rfl

include silent

theorem parse_program_relabel :
    parseProgram (tokens.map labels.token) (labels.number firstId) =
      (parseProgram tokens firstId).relabel labels (Statement.relabelAll labels) := by
  have natural := declarations_natural silent (all_natural silent (nesting tokens)).declaration
    (· = .endOfInput) (nesting tokens) (.start tokens firstId)
  unfold parseProgram
  rw [nesting_map, ← start_relabel]
  dsimp only
  rw [natural]
  cases declarations (declaration (nesting tokens)) (· = .endOfInput) (nesting tokens)
      (.start tokens firstId) with
  | ok statements after =>
      simp only [relabelled, ← Statement.relabel_all_eq]
      exact finish_relabel _ after statements
  | error complaint after =>
      simp only [relabelled, noted_relabel]
      rfl

theorem at_end_relabel (reading : Reading) : (reading.relabel labels).atEnd = reading.atEnd := by
  rw [Reading.atEnd, Reading.atEnd, next_relabel silent, silent.kind]

theorem parse_expression_relabel :
    parseExpression (tokens.map labels.token) (labels.number firstId) =
      (parseExpression tokens firstId).relabel labels (Expression.relabel labels) := by
  have natural := (all_natural silent (nesting tokens)).expression (.start tokens firstId)
  unfold parseExpression
  rw [nesting_map, ← start_relabel, natural]
  cases expression (nesting tokens) (.start tokens firstId) with
  | error complaint after =>
      simp only [relabelled, noted_relabel]
      rfl
  | ok tree after =>
      dsimp only [relabelled]
      rw [at_end_relabel silent]
      split_ifs
      · exact finish_relabel (Expression.relabel labels) after tree
      · rw [← finish_relabel, ← noted_relabel, next_relabel silent]
        rfl

theorem parse_line_relabel :
    parseLine (tokens.map labels.token) (labels.number firstId) =
      (parseLine tokens firstId).relabel labels (Line.relabel labels) := by
  have asProgram (nextId : Nat) :
      (⟨(parseProgram (tokens.map labels.token) (labels.number nextId)).outcome.map .statements,
        (parseProgram (tokens.map labels.token) (labels.number nextId)).nextId⟩ : Parsed Line) =
      Parsed.relabel labels (Line.relabel labels)
        ⟨(parseProgram tokens nextId).outcome.map .statements,
          (parseProgram tokens nextId).nextId⟩ := by
    rw [parse_program_relabel silent]
    unfold Parsed.relabel
    cases (parseProgram tokens nextId).outcome <;> rfl
  have natural := (all_natural silent (nesting tokens)).expression (.start tokens firstId)
  unfold parseLine
  rw [nesting_map, ← start_relabel, natural]
  dsimp only
  cases expression (nesting tokens) (.start tokens firstId) with
  | error complaint after => exact asProgram after.nextId
  | ok tree after =>
      dsimp only [relabelled]
      rw [at_end_relabel silent]
      split_ifs
      · exact finish_relabel (Line.relabel labels) after (.expression tree)
      · exact asProgram after.nextId

end Parsing

end Lox
