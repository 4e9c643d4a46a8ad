import Lox.Proofs.Renaming.Words
import Lox.Syntax.Parse

/-!
Every rule of the grammar spends words: no token becomes a name in two places of a
tree.
-/

namespace Lox

def Expression.weight (value : Expression) : Multiset Word := (Node.expression value).weight

def Statement.weight (order : Statement) : Multiset Word := (Node.statement order).weight

def Routine.weight (declared : Routine) : Multiset Word := (Node.routine declared).weight

/-- The words that parameters are. -/
def parameterWeight (names : List Token) : Multiset Word :=
  (names.map fun name => ({(Kind.identifier, name)} : Multiset Word)).sum

theorem expressions_weight (values : List Expression) :
    (Node.expressions values).weight = (values.map Expression.weight).sum := by
  induction values with
  | nil => rw [Node.weight_eq]; rfl
  | cons first rest induction =>
      rw [Node.weight_eq, List.map_cons, List.sum_cons, ← induction]
      simp [Node.parts, Node.ownWords, Expression.weight]

theorem statements_weight (orders : List Statement) :
    (Node.statements orders).weight = (orders.map Statement.weight).sum := by
  induction orders with
  | nil => rw [Node.weight_eq]; rfl
  | cons first rest induction =>
      rw [Node.weight_eq, List.map_cons, List.sum_cons, ← induction]
      simp [Node.parts, Node.ownWords, Statement.weight]

theorem routines_weight (declared : List Routine) :
    (Node.routines declared).weight = (declared.map Routine.weight).sum := by
  induction declared with
  | nil => rw [Node.weight_eq]; rfl
  | cons first rest induction =>
      rw [Node.weight_eq, List.map_cons, List.sum_cons, ← induction]
      simp [Node.parts, Node.ownWords, Routine.weight]

theorem routine_weight (name : Option Token) (parameters : Option (List Token))
    (body : List Statement) : Routine.weight ⟨name, parameters, body⟩ =
      (body.map Statement.weight).sum + (parameterWeight name.toList +
        parameterWeight (parameters.getD [])) := by
  have words (names : List Token) : parameterWeight names =
      ((names.map (Kind.identifier, ·) : List Word) : Multiset Word) := by
    induction names with
    | nil => rfl
    | cons first rest induction =>
        rw [parameterWeight, List.map_cons, List.sum_cons, ← parameterWeight, induction]
        rfl
  rw [Routine.weight, Node.weight_eq, words, words, Multiset.coe_add, ← List.map_append]
  simp [Node.parts, Node.ownWords, statements_weight]

/-- The nodes of a level hold what their operands hold. -/
def Level.Plain (level : Level) : Prop :=
  ∀ left operator right,
    (level.node left operator right).weight = left.weight + right.weight

namespace Rule

section Expressions

variable {operand expression : Rule Expression} {declaration : Rule Statement}

theorem chain_spends {level : Level} (plain : level.Plain)
    (each : operand.Spends 0 Expression.weight) (bound : Nat) (left : Expression) :
    (chain level operand bound left).Spends left.weight Expression.weight := by
  induction bound generalizing left with
  | zero => exact pure_spends le_rfl
  | succ bound induction =>
      refine idle_spends (accept_any_spends _) fun found => ?_
      cases found with
      | none => exact pure_spends le_rfl
      | some operator =>
          refine bind_spends each fun right => ?_
          rw [← plain]
          exact induction _

theorem operations_spends (each : operand.Spends 0 Expression.weight) (bound : Nat) :
    (operations bound operand).Spends 0 Expression.weight := by
  have plain : ∀ level ∈ levels, level.Plain := by
    have binary (left right : Expression) (operator : Token) :
        (Expression.binary left operator right).weight = left.weight + right.weight := by
      rw [Expression.weight, Node.weight_eq]
      simp [Node.parts, Node.ownWords, Expression.weight]
    have logical (left right : Expression) (operator : Token) :
        (Expression.logical left operator right).weight = left.weight + right.weight := by
      rw [Expression.weight, Node.weight_eq]
      simp [Node.parts, Node.ownWords, Expression.weight]
    simp [levels, Level.Plain, binary, logical]
  unfold operations
  generalize levels = all at plain ⊢
  induction all with
  | nil => exact each
  | cons level rest induction =>
      rw [List.forall_mem_cons] at plain
      have tighter := induction plain.2
      refine bind_spends tighter fun left => ?_
      rw [zero_add]
      exact chain_spends plain.1 tighter bound left

theorem parameters_spends (bound : Nat) : (parameters bound).Spends 0 parameterWeight := by
  have closed (names : List Token) : Spends (parameterWeight names) parameterWeight (do
      let _ ← expect .rightParen .parametersEnd
      return names) :=
    idle_spends (expect_spends _ _) fun _ => pure_spends le_rfl
  refine idle_spends next_spends fun token => ?_
  split_ifs
  · exact closed []
  · refine bind_spends (comma_separated_spends (expect_name_spends _) _ bound 0) fun names => ?_
    rw [zero_add]
    exact closed names

theorem trailers_spends (each : expression.Spends 0 Expression.weight) (bound : Nat)
    (target : Expression) :
    (trailers expression bound target).Spends target.weight Expression.weight := by
  induction bound generalizing target with
  | zero => exact pure_spends le_rfl
  | succ bound induction =>
      refine idle_spends (accept_spends _) fun parenthesis => ?_
      split_ifs
      · have closed (arguments : List Expression) :
            Spends (target.weight + (arguments.map Expression.weight).sum) Expression.weight (do
              let closing ← expect .rightParen .argumentsEnd
              trailers expression bound (.call target closing arguments)) := by
          refine idle_spends (expect_spends _ _) fun closing => ?_
          have call : (Expression.call target closing arguments).weight =
              target.weight + (arguments.map Expression.weight).sum := by
            rw [Expression.weight, Node.weight_eq]
            simp [Node.parts, Node.ownWords, Expression.weight, expressions_weight]
          rw [← call]
          exact induction _
        refine idle_spends next_spends fun token => ?_
        split_ifs
        · have none := closed []
          rwa [List.map_nil, List.sum_nil, add_zero] at none
        · exact bind_spends (comma_separated_spends each _ _ 0) closed
      · refine idle_spends (accept_spends _) fun dot => ?_
        split_ifs
        · refine bind_spends (expect_name_spends _) fun name => ?_
          have get : (Expression.get target name).weight =
              target.weight + {(Kind.identifier, name)} := by
            rw [Expression.weight, Node.weight_eq]
            simp [Node.parts, Node.ownWords, Expression.weight]
          rw [← get]
          exact induction _
        · exact pure_spends le_rfl

theorem block_spends (each : declaration.Spends 0 Statement.weight) (bound : Nat) :
    (block declaration bound).Spends 0 fun orders => (orders.map Statement.weight).sum := by
  refine bind_spends (declarations_spends each _ bound) fun statements => ?_
  refine idle_spends (expect_spends _ _) fun _ => pure_spends ?_
  rw [zero_add]

theorem lambda_spends (each : declaration.Spends 0 Statement.weight) (bound : Nat) :
    (lambda declaration bound).Spends 0 Expression.weight := by
  refine idle_spends (expect_spends _ _) fun _ => ?_
  refine bind_spends (parameters_spends bound) fun names => ?_
  refine idle_spends (expect_spends _ _) fun _ => ?_
  refine bind_spends (block_spends each bound) fun body => pure_spends (le_of_eq ?_)
  rw [Expression.weight, Node.weight_eq]
  have inner := routine_weight none (some names) body
  simp only [Routine.weight] at inner
  simp [Node.parts, Node.ownWords, inner, parameterWeight]
  abel

theorem primary_spends (each : expression.Spends 0 Expression.weight)
    (written : declaration.Spends 0 Statement.weight) (bound : Nat) :
    (primary expression declaration bound).Spends 0 Expression.weight := by
  have leaf (literal : Literal) : Spends 0 Expression.weight (do
      skip
      return .literal literal) := by
    refine idle_spends skip_spends fun _ => pure_spends (le_of_eq ?_)
    rw [Expression.weight, Node.weight_eq]
    rfl
  refine peek_spends fun reading => ?_
  split
  case h_1 | h_2 | h_3 | h_4 | h_5 => exact leaf _ reading
  case h_6 isKind =>
    refine skip_name_spends isKind (by simp) (idle_spends fresh_spends fun id => pure_spends ?_)
    rw [Expression.weight, Node.weight_eq]
    exact le_rfl
  case h_7 isKind =>
    refine skip_name_spends isKind (by simp) (idle_spends (expect_spends _ _) fun _ => ?_)
    refine bind_spends (expect_name_spends _) fun method => ?_
    refine idle_spends fresh_spends fun id => pure_spends ?_
    rw [Expression.weight, Node.weight_eq]
    exact le_rfl
  case h_8 isKind =>
    refine skip_name_spends isKind (by simp) (idle_spends fresh_spends fun id => pure_spends ?_)
    rw [Expression.weight, Node.weight_eq]
    exact le_rfl
  case h_9 => exact idle_spends skip_spends (fun _ => lambda_spends written bound) reading
  case h_10 =>
    have grouped : Spends 0 Expression.weight (do
        skip
        let inner ← expression
        let _ ← expect .rightParen .groupingEnd
        return .grouping inner) := by
      refine idle_spends skip_spends fun _ => bind_spends each fun inner => ?_
      refine idle_spends (expect_spends _ _) fun _ => pure_spends (le_of_eq ?_)
      rw [Expression.weight, Node.weight_eq]
      simp [Node.parts, Node.ownWords, Expression.weight]
    exact grouped reading
  case h_11 => exact missing_spends _ reading

theorem assignment_spends (target value : Expression) (equals : Token) :
    (assignment target equals value).Spends (target.weight + value.weight) Expression.weight := by
  have noted : Spends (target.weight + value.weight) Expression.weight (do
      note equals .invalidTarget
      return target) :=
    idle_spends (note_spends _ _) fun _ => pure_spends (Multiset.le_add_right _ _)
  cases target with
  | reference place =>
      refine idle_spends fresh_spends fun id => pure_spends (le_of_eq ?_)
      rw [Expression.weight, Expression.weight, Node.weight_eq, Node.weight_eq]
      simp [Node.parts, Node.ownWords, Expression.weight, add_comm]
  | get object name =>
      refine pure_spends (le_of_eq ?_)
      rw [Expression.weight, Expression.weight, Node.weight_eq, Node.weight_eq]
      simp only [Node.parts, Node.ownWords, Expression.weight, List.map_cons, List.map_nil,
        List.sum_cons, List.sum_nil, add_zero]
      abel
  | _ => exact noted

end Expressions

theorem following_spends {α : Type} {value : α → Multiset Word} {rule : Rule α} (kind : Kind)
    (spends : rule.Spends 0 value) :
    (following kind rule).Spends 0 fun found => found.elim 0 value := by
  refine idle_spends (accept_spends kind) fun found => ?_
  split_ifs
  · exact map_spends spends fun _ => le_rfl
  · exact pure_spends le_rfl

section Statements

variable {expression : Rule Expression} {statement declaration : Rule Statement}
  (each : expression.Spends 0 Expression.weight) (inner : statement.Spends 0 Statement.weight)
  (written : declaration.Spends 0 Statement.weight)

include each in
theorem variable_declaration_spends :
    (variableDeclaration expression).Spends 0 Statement.weight := by
  refine bind_spends (expect_name_spends _) fun name => ?_
  refine bind_spends (following_spends .equal each) fun initializer => ?_
  refine idle_spends (expect_spends _ _) fun _ => pure_spends (le_of_eq ?_)
  rw [Statement.weight, Node.weight_eq]
  cases initializer <;> simp [Node.parts, Node.ownWords, Expression.weight, add_comm]

include each in
theorem expression_statement_spends :
    (expressionStatement expression).Spends 0 Statement.weight := by
  refine bind_spends each fun value => ?_
  refine idle_spends (expect_spends _ _) fun _ => pure_spends (le_of_eq ?_)
  rw [Statement.weight, Node.weight_eq]
  simp [Node.parts, Node.ownWords, Expression.weight]

include each in
theorem print_statement_spends : (printStatement expression).Spends 0 Statement.weight := by
  refine bind_spends each fun value => ?_
  refine idle_spends (expect_spends _ _) fun _ => pure_spends (le_of_eq ?_)
  rw [Statement.weight, Node.weight_eq]
  simp [Node.parts, Node.ownWords, Expression.weight]

include each in
theorem optional_spends (closing : Kind) :
    (optional closing expression).Spends 0 fun found => found.elim 0 Expression.weight := by
  refine idle_spends next_spends fun token => ?_
  split_ifs
  · exact pure_spends le_rfl
  · exact map_spends each fun _ => le_rfl

include each in
theorem exit_statement_spends (keyword : Token) :
    (exitStatement keyword expression).Spends 0 Statement.weight := by
  refine bind_spends (optional_spends each _) fun value => ?_
  refine idle_spends (expect_spends _ _) fun _ => pure_spends (le_of_eq ?_)
  rw [Statement.weight, Node.weight_eq]
  cases value <;> simp [Node.parts, Node.ownWords, Expression.weight]

include each in
theorem for_initializer_spends :
    (forInitializer expression).Spends 0 fun found => found.elim 0 Statement.weight := by
  refine idle_spends (accept_spends _) fun semicolon => ?_
  split_ifs
  · exact pure_spends le_rfl
  · refine idle_spends (accept_spends _) fun keyword => ?_
    split_ifs
    · exact map_spends (variable_declaration_spends each) fun _ => le_rfl
    · exact map_spends (expression_statement_spends each) fun _ => le_rfl

theorem desugared_weight (initializer : Option Statement) (condition increment : Option Expression)
    (body : Statement) : (desugared initializer condition increment body).weight =
      initializer.elim 0 Statement.weight + condition.elim 0 Expression.weight +
        increment.elim 0 Expression.weight + body.weight := by
  have block (orders : List Statement) :
      (Statement.block orders).weight = (orders.map Statement.weight).sum := by
    rw [Statement.weight, Node.weight_eq]
    simp [Node.parts, Node.ownWords, statements_weight]
  have evaluation (value : Expression) : (Statement.expression value).weight = value.weight := by
    rw [Statement.weight, Node.weight_eq]
    simp [Node.parts, Node.ownWords, Expression.weight]
  have step : (stepped increment body).weight =
      body.weight + increment.elim 0 Expression.weight := by
    cases increment with
    | none => exact (add_zero _).symm
    | some value => simp [stepped, block, evaluation]
  have always : (condition.getD (.literal (.boolean true))).weight =
      condition.elim 0 Expression.weight := by
    cases condition with
    | none => rw [Option.getD_none, Expression.weight, Node.weight_eq]; rfl
    | some value => rfl
  have loop : (Statement.loop (condition.getD (.literal (.boolean true)))
      (stepped increment body)).weight = condition.elim 0 Expression.weight +
        (body.weight + increment.elim 0 Expression.weight) := by
    rw [← always, ← step, Statement.weight, Node.weight_eq]
    simp [Node.parts, Node.ownWords, Expression.weight, Statement.weight]
  cases initializer with
  | none =>
      simp only [desugared, loop, Option.elim_none]
      abel
  | some first =>
      simp only [desugared, block, List.map_cons, List.map_nil, List.sum_cons, List.sum_nil, loop,
        Option.elim_some]
      abel

include each inner in
theorem for_statement_spends : (forStatement expression statement).Spends 0 Statement.weight := by
  refine idle_spends (expect_spends _ _) fun _ => ?_
  refine bind_spends (for_initializer_spends each) fun initializer => ?_
  refine bind_spends (optional_spends each _) fun condition => ?_
  refine idle_spends (expect_spends _ _) fun _ => ?_
  refine bind_spends (optional_spends each _) fun increment => ?_
  refine idle_spends (expect_spends _ _) fun _ => ?_
  refine bind_spends inner fun body => pure_spends (le_of_eq ?_)
  rw [desugared_weight, zero_add]

include each inner in
theorem if_statement_spends : (ifStatement expression statement).Spends 0 Statement.weight := by
  refine idle_spends (expect_spends _ _) fun _ => ?_
  refine bind_spends each fun condition => ?_
  refine idle_spends (expect_spends _ _) fun _ => ?_
  refine bind_spends inner fun thenBranch => ?_
  refine bind_spends (following_spends _ inner) fun elseBranch => pure_spends (le_of_eq ?_)
  rw [Statement.weight, Node.weight_eq]
  cases elseBranch <;>
    simp [Node.parts, Node.ownWords, Expression.weight, Statement.weight, add_assoc]

include each inner in
theorem while_statement_spends :
    (whileStatement expression statement).Spends 0 Statement.weight := by
  refine idle_spends (expect_spends _ _) fun _ => ?_
  refine bind_spends each fun condition => ?_
  refine idle_spends (expect_spends _ _) fun _ => ?_
  refine bind_spends inner fun body => pure_spends (le_of_eq ?_)
  rw [Statement.weight, Node.weight_eq]
  simp [Node.parts, Node.ownWords, Expression.weight, Statement.weight]

theorem superclass_spends : superclass.Spends 0 fun place => {(Kind.identifier, place.name)} := by
  refine bind_spends (expect_name_spends _) fun name => ?_
  exact idle_spends fresh_spends fun id => pure_spends (zero_add _).ge

include written

theorem function_spends (bound : Nat) : (function declaration bound).Spends 0 Routine.weight := by
  refine bind_spends (expect_name_spends _) fun name => ?_
  refine idle_spends (expect_spends _ _) fun _ => ?_
  refine bind_spends (parameters_spends bound) fun names => ?_
  refine idle_spends (expect_spends _ _) fun _ => ?_
  refine bind_spends (block_spends written bound) fun body => pure_spends (le_of_eq ?_)
  rw [routine_weight]
  simp only [Option.toList_some, parameterWeight, List.map_cons, List.map_nil, List.sum_cons,
    List.sum_nil, Option.getD_some]
  abel

theorem method_spends (bound : Nat) : (method declaration bound).Spends 0 Routine.weight := by
  refine bind_spends (expect_name_spends _) fun name => ?_
  refine bind_spends (following_spends .leftParen (parameters_spends bound)) fun names => ?_
  refine idle_spends (expect_spends _ _) fun _ => ?_
  refine bind_spends (block_spends written bound) fun body => pure_spends (le_of_eq ?_)
  rw [routine_weight]
  cases names <;>
  · simp only [Option.toList_some, parameterWeight, List.map_cons, List.map_nil, List.sum_cons,
      List.sum_nil, Option.getD_some, Option.getD_none, Option.elim_none, Option.elim_some]
    abel

omit written in
theorem members_spends {method : Rule Routine} (spends : method.Spends 0 Routine.weight)
    (bound : Nat) :
    (members method bound).Spends 0 fun all => (all.map fun member => member.2.weight).sum := by
  induction bound with
  | zero => exact pure_spends le_rfl
  | succ bound induction =>
      refine idle_spends next_spends fun token => ?_
      dsimp only
      split_ifs
      · exact pure_spends le_rfl
      · refine idle_spends (accept_spends _) fun keyword => ?_
        refine bind_spends spends fun first => bind_spends induction fun rest => pure_spends ?_
        simp

omit written in
/-- Which members are at class level makes no difference. -/
theorem members_weight (all : List (Bool × Routine)) :
    (Node.routines ((all.filter (!·.1)).map (·.2))).weight +
        (Node.routines ((all.filter (·.1)).map (·.2))).weight =
      (all.map fun member => member.2.weight).sum := by
  rw [routines_weight, routines_weight]
  induction all with
  | nil => rfl
  | cons first rest induction =>
      rw [List.map_cons, List.sum_cons, ← induction]
      obtain ⟨atClassLevel, declared⟩ := first
      cases atClassLevel <;> simp [add_assoc, add_left_comm]

theorem class_declaration_spends (bound : Nat) :
    (classDeclaration declaration bound).Spends 0 Statement.weight := by
  refine bind_spends (expect_name_spends _) fun name => ?_
  refine bind_spends (following_spends .less superclass_spends) fun parent => ?_
  refine idle_spends (expect_spends _ _) fun _ => ?_
  refine bind_spends (members_spends (method_spends written bound) bound) fun all => ?_
  refine idle_spends (expect_spends _ _) fun _ => pure_spends (le_of_eq ?_)
  rw [← members_weight, Statement.weight, Node.weight_eq]
  cases parent with
  | none =>
      simp only [Node.parts, Node.ownWords, List.map_cons, List.map_nil, List.sum_cons,
        List.sum_nil, Multiset.coe_singleton, Option.elim_none]
      abel
  | some place =>
      have above :
          (Node.expression (.reference place)).weight = {(Kind.identifier, place.name)} := by
        rw [Node.weight_eq]
        rfl
      simp only [Node.parts, Node.ownWords, List.map_cons, List.map_nil, List.sum_cons,
        List.sum_nil, Multiset.coe_singleton, Option.elim_some, above]
      abel

end Statements

/-- The rules that call each other spend words, as far down as they may nest. -/
structure AllSpend (bound : Nat) : Prop where
  expression : (expression bound).Spends 0 Expression.weight
  conditional : (conditional bound).Spends 0 Expression.weight
  unary : (unary bound).Spends 0 Expression.weight
  statement : (statement bound).Spends 0 Statement.weight
  declaration : (declaration bound).Spends 0 Statement.weight

section Recursion

variable {bound : Nat} (inner : AllSpend bound)

include inner

theorem expression_spends : (expression (bound + 1)).Spends 0 Expression.weight := by
  refine bind_spends inner.conditional fun target => ?_
  rw [zero_add]
  refine idle_spends (accept_spends _) fun found => ?_
  cases found with
  | none => exact pure_spends le_rfl
  | some equals =>
      exact bind_spends inner.expression fun value => assignment_spends target value equals

theorem conditional_spends : (conditional (bound + 1)).Spends 0 Expression.weight := by
  refine bind_spends (operations_spends inner.unary bound) fun condition => ?_
  refine idle_spends (accept_spends _) fun found => ?_
  cases found with
  | none => exact pure_spends (zero_add _).ge
  | some question =>
      refine bind_spends inner.expression fun thenBranch => ?_
      refine idle_spends (expect_spends _ _) fun _ => ?_
      refine bind_spends inner.conditional fun elseBranch => pure_spends (le_of_eq ?_)
      rw [Expression.weight, Node.weight_eq]
      simp [Node.parts, Node.ownWords, Expression.weight, add_assoc]

theorem unary_spends : (unary (bound + 1)).Spends 0 Expression.weight := by
  refine idle_spends (accept_any_spends _) fun found => ?_
  cases found with
  | none =>
      refine bind_spends (primary_spends inner.expression inner.declaration bound) fun head => ?_
      rw [zero_add]
      exact trailers_spends inner.expression bound head
  | some operator =>
      refine bind_spends inner.unary fun operand => pure_spends (le_of_eq ?_)
      rw [Expression.weight, Node.weight_eq]
      simp [Node.parts, Node.ownWords, Expression.weight]

theorem statement_spends : (statement (bound + 1)).Spends 0 Statement.weight := by
  refine idle_spends next_spends fun token => ?_
  split
  · exact idle_spends skip_spends fun _ => for_statement_spends inner.expression inner.statement
  · exact idle_spends skip_spends fun _ => if_statement_spends inner.expression inner.statement
  · exact idle_spends skip_spends fun _ => while_statement_spends inner.expression inner.statement
  · exact idle_spends skip_spends fun _ => exit_statement_spends inner.expression token
  · refine idle_spends skip_spends fun _ => ?_
    refine bind_spends (block_spends inner.declaration bound) fun orders =>
      pure_spends (le_of_eq ?_)
    rw [Statement.weight, Node.weight_eq]
    simp [Node.parts, Node.ownWords, statements_weight]
  · exact idle_spends skip_spends fun _ => print_statement_spends inner.expression
  · exact expression_statement_spends inner.expression

theorem declaration_spends : (declaration (bound + 1)).Spends 0 Statement.weight := by
  refine idle_spends (accept_spends _) fun classWord => ?_
  split_ifs
  · exact class_declaration_spends inner.declaration bound
  · have quiet : atFunctionDeclaration.Spends 0 fun _ => 0 := by
      refine idle_spends (fun _ => le_rfl) fun reading => ?_
      split <;> exact pure_spends le_rfl
    refine idle_spends quiet fun isFunction => ?_
    split_ifs
    · refine idle_spends skip_spends fun _ => ?_
      refine bind_spends (function_spends inner.declaration bound) fun declared =>
        pure_spends (le_of_eq ?_)
      rw [Statement.weight, Node.weight_eq]
      simp [Node.parts, Node.ownWords, Routine.weight]
    · refine idle_spends (accept_spends _) fun varWord => ?_
      split_ifs
      · exact variable_declaration_spends inner.expression
      · exact inner.statement

omit inner in
theorem all_spend (bound : Nat) : AllSpend bound := by
  induction bound with
  | zero => exact ⟨missing_spends _, missing_spends _, missing_spends _, missing_spends _,
      missing_spends _⟩
  | succ bound inner =>
      exact ⟨expression_spends inner, conditional_spends inner, unary_spends inner,
        statement_spends inner, declaration_spends inner⟩

end Recursion

end Rule

/-- The words of a program are tokens that were read, each of them once. -/
theorem program_words {tokens : List Token} {firstId : Nat} {statements : List Statement}
    (accepted : (parseProgram tokens firstId).outcome = .ok statements) :
    (Node.statements statements).weight ≤ (tokens.map Token.weight).sum := by
  have spent := Rule.declarations_spends (Rule.all_spend (nesting tokens)).declaration
    (· = .endOfInput) (nesting tokens) (.start tokens firstId)
  unfold Rule.SpendsAt at spent
  unfold parseProgram at accepted
  dsimp only at accepted
  cases read : Rule.declarations (Rule.declaration (nesting tokens)) (· = .endOfInput)
      (nesting tokens) (.start tokens firstId) with
  | error complaint after =>
      rw [read] at accepted
      cases accepted
  | ok found after =>
      rw [read] at accepted spent
      dsimp only [Reading.finish] at accepted spent
      split_ifs at accepted with quiet
      cases accepted
      rw [statements_weight]
      calc (statements.map Statement.weight).sum
        _ ≤ (statements.map Statement.weight).sum + after.weight := Multiset.le_add_right _ _
        _ ≤ 0 + (Reading.start tokens firstId).weight := spent
        _ = (tokens.map Token.weight).sum := zero_add _

end Lox
