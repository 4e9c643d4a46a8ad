import Lox.Proofs.Exchange.Runs
import Lox.Proofs.Renaming.Parsing

/-!
Every rule of the grammar makes the same tree with the one statement as with the other. Only the
rule for statements ever reads it; all others go on around it. The bounds are compared with the
number of tokens before the statement, so that enough of them is left when it is reached.
-/

namespace Lox

namespace Rule

variable {exchange : Exchange} {size : Nat}

/-- Trees that differ in their numbers alone. -/
abbrev SameExpression : Expression → Expression → Prop :=
  SameIn (Expression.relabel .unnumbered)

abbrev SameStatement : Statement → Statement → Prop := SameIn (Statement.relabel .unnumbered)

abbrev SameBody : List Statement → List Statement → Prop :=
  SameIn (List.map (Statement.relabel .unnumbered))

abbrev SameRoutine : Routine → Routine → Prop := SameIn (Routine.relabel .unnumbered)

section Expressions

variable {operand operand' expression expression' : Rule Expression}
  {declaration declaration' : Rule Statement}

theorem chain_exchanges {level : Level} (uniform : level.Uniform .unnumbered)
    (plain : .forWord ∉ level.operators ∧ .whileWord ∉ level.operators ∧
      .leftBrace ∉ level.operators)
    (each : Exchanges exchange size SameExpression operand operand') (bound : Nat)
    {left left' : Expression} (lefts : SameExpression left left') :
    Exchanges exchange size SameExpression (chain level operand bound left)
      (chain level operand' bound left') := by
  induction bound generalizing size left left' with
  | zero => exact .pure lefts
  | succ bound induction =>
      unfold chain
      refine .accept_any plain (fun operator => ?_) (.pure lefts)
      have right := each.smaller (Nat.sub_le size 1)
      refine right.bind fun tree tree' trees => induction right ?_
      rw [SameExpression, SameIn, uniform, uniform, lefts, trees]

theorem operations_exchange (each : Exchanges exchange size SameExpression operand operand')
    (bound : Nat) : Exchanges exchange size SameExpression (operations bound operand)
      (operations bound operand') := by
  have uniform : ∀ level ∈ levels, level.Uniform .unnumbered := by
    simp [levels, Level.Uniform, Expression.relabel]
  have plain : ∀ level ∈ levels, .forWord ∉ level.operators ∧ .whileWord ∉ level.operators ∧
      .leftBrace ∉ level.operators := by simp [levels]
  unfold operations
  generalize levels = all at uniform plain ⊢
  induction all with
  | nil => exact each
  | cons level rest induction =>
      rw [List.forall_mem_cons] at uniform plain
      have tighter := induction uniform.2 plain.2
      exact tighter.bind fun left left' lefts =>
        chain_exchanges uniform.1 plain.1 tighter bound lefts

theorem parameters_exchange (bound : Nat) :
    Exchanges exchange size (SameIn (List.map id)) (parameters bound) (parameters bound) := by
  have name : Exchanges exchange size (SameIn id) (expect .identifier .parameterName)
      (expect .identifier .parameterName) := by
    rw [← bind_pure (expect .identifier .parameterName)]
    exact .expect (by decide) fun name => .pure rfl
  refine .glance (· = .rightParen) (by decide) (.expect (by decide) fun _ => .pure rfl) ?_
  exact (Exchanges.comma_separated name _ bound 0).bind fun names names' same =>
    .expect (by decide) fun _ => .pure same

theorem trailers_exchange
    (each : Exchanges exchange (size - 1) SameExpression expression expression') (bound : Nat)
    {target target' : Expression} (targets : SameExpression target target') :
    Exchanges exchange size SameExpression (trailers expression bound target)
      (trailers expression' bound target') := by
  induction bound generalizing size target target' with
  | zero => exact .pure targets
  | succ bound induction =>
      have further {target target' : Expression} (targets : SameExpression target target') :
          Exchanges exchange (size - 1 - 1) SameExpression (trailers expression bound target)
            (trailers expression' bound target') :=
        induction (each.smaller (by omega)) targets
      unfold trailers
      refine .accept (by decide) (fun parenthesis => ?_)
        (.accept (by decide) (fun dot => ?_) (.pure targets))
      · have closed {arguments arguments' : List Expression}
            (same : SameIn (List.map (Expression.relabel .unnumbered)) arguments arguments') :
            Exchanges exchange (size - 1) SameExpression
              (do
                let closing ← expect .rightParen .argumentsEnd
                trailers expression bound (.call target closing arguments))
              (do
                let closing ← expect .rightParen .argumentsEnd
                trailers expression' bound (.call target' closing arguments')) := by
          refine .expect (by decide) fun closing => further ?_
          rw [SameExpression, SameIn, Expression.relabel, Expression.relabel,
            Expression.relabel_all_eq, Expression.relabel_all_eq, targets, same]
        refine .glance (· = .rightParen) (by decide) (closed rfl) ?_
        exact (Exchanges.comma_separated each .tooManyArguments (bound + 1) 0).bind
          fun _ _ => closed
      · refine .expect (by decide) fun name => further ?_
        rw [SameExpression, SameIn, Expression.relabel, Expression.relabel, targets]

theorem block_exchanges (each : Exchanges exchange size SameStatement declaration declaration')
    (bound : Nat) :
    Exchanges exchange size SameBody (block declaration bound) (block declaration' bound) :=
  (Exchanges.declarations each _ (by decide) bound).bind fun statements statements' same =>
    .expect (by decide) fun _ => .pure same

/-- The same, as the body of a routine. -/
theorem SameIn.body {name : Option Token} {names names' : Option (List Token)}
    {body body' : List Statement} (parameters : SameIn (Option.map (List.map id)) names names')
    (bodies : SameBody body body') : SameRoutine ⟨name, names, body⟩ ⟨name, names', body'⟩ := by
  have same : Statement.relabelAll .unnumbered body' = Statement.relabelAll .unnumbered body := by
    rw [Statement.relabel_all_eq, Statement.relabel_all_eq]
    exact bodies
  rw [SameRoutine, SameIn, Routine.relabel, Routine.relabel, same]
  exact congrArg (Routine.mk _ · _) parameters

theorem lambda_exchanges (each : Exchanges exchange size SameStatement declaration declaration')
    (bound : Nat) : Exchanges exchange size SameExpression (lambda declaration bound)
      (lambda declaration' bound) := by
  refine .expect (by decide) fun _ => ?_
  refine (parameters_exchange bound).bind fun names names' same => .expect (by decide) fun _ => ?_
  refine (block_exchanges (each.smaller (by omega)) bound).finish fun body body' bodies => ?_
  exact congrArg Expression.lambda (SameIn.body (congrArg some same) bodies)

theorem primary_exchanges
    (each : Exchanges exchange (size - 1) SameExpression expression expression')
    (written : Exchanges exchange (size - 1) SameStatement declaration declaration') (bound : Nat) :
    Exchanges exchange size SameExpression (primary expression declaration bound)
      (primary expression' declaration' bound) := by
  refine .peek (fun token => ?_) fun fewer isFewer one other starts tree after run _ => ?_
  · split
    case h_1 | h_2 | h_3 | h_4 | h_5 => exact .step (.pure rfl)
    case h_6 | h_8 =>
      exact .step (ExchangesWhen.fresh.finish fun _ _ _ => rfl)
    case h_7 =>
      refine .step <|
        .expect (by decide) fun _ => .expect (by decide) fun method => ?_
      exact ExchangesWhen.fresh.finish fun _ _ _ => rfl
    case h_9 => exact .step (lambda_exchanges written bound)
    case h_10 =>
      refine .step (each.bind fun inner inner' same => ?_)
      exact .expect (by decide) fun _ => .pure (congrArg Expression.grouping same)
    case h_11 => exact .missing _
  · -- no expression begins with the keyword of a loop
    rw [starts.next.1] at run
    cases run

theorem assignment_exchanges {target target' value value' : Expression} (equals : Token)
    (targets : SameExpression target target') (values : SameExpression value value') :
    Exchanges exchange size SameExpression (assignment target equals value)
      (assignment target' equals value') := by
  have noted (rule : Rule Expression) :
      Exchanges exchange size SameExpression (do note equals .invalidTarget; return target) rule :=
    .noted equals .invalidTarget (.pure fun _ => trivial)
  cases target with
  | reference place =>
      cases target' <;> simp only [SameIn, Expression.relabel, reduceCtorEq] at targets
      refine ExchangesWhen.fresh.finish fun _ _ _ => ?_
      have name := congrArg Occurrence.name (Expression.reference.inj targets)
      dsimp only [Occurrence.relabel, Labels.unnumbered, id_eq] at name
      rw [SameExpression, SameIn, Expression.relabel, Expression.relabel, values,
        Occurrence.relabel, Occurrence.relabel, name]
      rfl
  | get object name =>
      cases target' <;> simp only [SameIn, Expression.relabel, reduceCtorEq] at targets
      obtain ⟨objects, names⟩ := Expression.get.inj targets
      refine .pure ?_
      rw [SameExpression, SameIn, Expression.relabel, Expression.relabel, values, objects, names]
  | _ => exact noted _

end Expressions

section Statements

variable {expression expression' : Rule Expression}
  {statement statement' declaration declaration' : Rule Statement}
  (each : Exchanges exchange size SameExpression expression expression')
  (inner : Exchanges exchange size SameStatement statement statement')
  (written : Exchanges exchange size SameStatement declaration declaration')

section Expressions

include each

theorem variable_declaration_exchanges : Exchanges exchange size SameStatement
    (variableDeclaration expression) (variableDeclaration expression') := by
  refine .expect (by decide) fun name => ?_
  refine (Exchanges.following (by decide) (each.smaller (by omega))).bind
    fun value value' same => ?_
  refine .expect (by decide) fun _ => .pure ?_
  rw [SameStatement, SameIn, Statement.variable_declaration_relabel,
    Statement.variable_declaration_relabel, same]

theorem expression_statement_exchanges : Exchanges exchange size SameStatement
    (expressionStatement expression) (expressionStatement expression') :=
  each.bind fun value value' same =>
    .expect (by decide) fun _ => .pure (congrArg Statement.expression same)

theorem print_statement_exchanges : Exchanges exchange size SameStatement
    (printStatement expression) (printStatement expression') :=
  each.bind fun value value' same =>
    .expect (by decide) fun _ => .pure (congrArg Statement.print same)

theorem optional_exchanges {closing : Kind}
    (plain : Kind.forWord ≠ closing ∧ Kind.whileWord ≠ closing ∧ Kind.leftBrace ≠ closing) :
    Exchanges exchange size (SameIn (Option.map (Expression.relabel .unnumbered)))
      (optional closing expression) (optional closing expression') :=
  .glance (· = closing) plain (.pure rfl) (each.map fun _ _ same => congrArg some same)

theorem exit_statement_exchanges (keyword : Token) : Exchanges exchange size SameStatement
    (exitStatement keyword expression) (exitStatement keyword expression') := by
  refine (optional_exchanges each (by decide)).bind fun value value' same => ?_
  refine .expect (by decide) fun _ => .pure ?_
  rw [SameStatement, SameIn, Statement.exit_relabel, Statement.exit_relabel, same]

theorem for_initializer_exchanges : Exchanges exchange size
    (SameIn (Option.map (Statement.relabel .unnumbered))) (forInitializer expression)
      (forInitializer expression') := by
  refine .accept (by decide) (fun _ => .pure rfl) (.accept (by decide) (fun _ => ?_) ?_)
  · exact (variable_declaration_exchanges (each.smaller (Nat.sub_le size 1))).map
      fun _ _ same => congrArg some same
  · exact (expression_statement_exchanges each).map fun _ _ same => congrArg some same

end Expressions

section Statements

include each inner

theorem for_statement_exchanges : Exchanges exchange size SameStatement
    (forStatement expression statement) (forStatement expression' statement') := by
  refine .expect (by decide) fun _ => ?_
  refine (for_initializer_exchanges (each.smaller (by omega))).bind fun first first' firsts => ?_
  refine (optional_exchanges (each.smaller (by omega)) (by decide)).bind
    fun condition condition' conditions => .expect (by decide) fun _ => ?_
  refine (optional_exchanges (each.smaller (by omega)) (by decide)).bind
    fun increment increment' increments => .expect (by decide) fun _ => ?_
  refine (inner.smaller (by omega)).finish fun body body' bodies => ?_
  rw [SameStatement, SameIn, ← desugared_relabel, ← desugared_relabel, firsts, conditions,
    increments, bodies]

theorem if_statement_exchanges : Exchanges exchange size SameStatement
    (ifStatement expression statement) (ifStatement expression' statement') := by
  refine .expect (by decide) fun _ => ?_
  refine (each.smaller (by omega)).bind fun condition condition' conditions =>
    .expect (by decide) fun _ => ?_
  refine (inner.smaller (by omega)).bind fun thenBranch thenBranch' thenBranches => ?_
  refine (Exchanges.following (by decide) (inner.smaller (by omega))).finish
    fun elseBranch elseBranch' elseBranches => ?_
  rw [SameStatement, SameIn, Statement.conditional_relabel, Statement.conditional_relabel,
    conditions, thenBranches, elseBranches]

theorem while_statement_exchanges : Exchanges exchange size SameStatement
    (whileStatement expression statement) (whileStatement expression' statement') := by
  refine .expect (by decide) fun _ => ?_
  refine (each.smaller (by omega)).bind fun condition condition' conditions =>
    .expect (by decide) fun _ => ?_
  refine (inner.smaller (by omega)).finish fun body body' bodies => ?_
  rw [SameStatement, SameIn, Statement.relabel, Statement.relabel, conditions, bodies]

end Statements

section Declarations

include written

theorem function_exchanges (bound : Nat) : Exchanges exchange size SameRoutine
    (function declaration bound) (function declaration' bound) := by
  refine .expect (by decide) fun name => .expect (by decide) fun _ => ?_
  refine (parameters_exchange bound).bind fun names names' same => .expect (by decide) fun _ => ?_
  exact (block_exchanges (written.smaller (by omega)) bound).finish
    fun body body' => SameIn.body (congrArg some same)

theorem method_exchanges (bound : Nat) : Exchanges exchange size SameRoutine
    (method declaration bound) (method declaration' bound) := by
  refine .expect (by decide) fun name => ?_
  refine (Exchanges.following (by decide) (parameters_exchange bound)).bind
    fun names names' same => .expect (by decide) fun _ => ?_
  exact (block_exchanges (written.smaller (by omega)) bound).finish
    fun body body' => SameIn.body same

end Declarations

theorem members_exchange {method method' : Rule Routine}
    (each : Exchanges exchange size SameRoutine method method') (bound : Nat) :
    Exchanges exchange size (SameIn (List.map (Prod.map id (Routine.relabel .unnumbered))))
      (members method bound) (members method' bound) := by
  induction bound generalizing size with
  | zero => exact .pure rfl
  | succ bound induction =>
      have further {fewer : Nat} (isFewer : fewer ≤ size) (atClassLevel : Bool) :
          Exchanges exchange fewer (SameIn (List.map (Prod.map id (Routine.relabel .unnumbered))))
            (do
              let first ← method
              return (atClassLevel, first) :: (← members method bound))
            (do
              let first ← method'
              return (atClassLevel, first) :: (← members method' bound)) := by
        have fewerEach := each.smaller isFewer
        refine fewerEach.bind fun first first' firsts => (induction fewerEach).finish ?_
        intro rest rest' rests
        rw [SameIn, List.map_cons, List.map_cons, rests, Prod.map_apply, Prod.map_apply, firsts]
      unfold members
      refine .glance
        (fun kind => (decide (kind = .rightBrace) || decide (kind = .endOfInput)) = true)
        (by decide) (.pure rfl) ?_
      exact .accept (by decide) (fun _ => further (Nat.sub_le size 1) true)
        (further (Nat.le_refl size) false)

theorem superclass_exchanges : Exchanges exchange size (SameIn (Occurrence.relabel .unnumbered))
    superclass superclass :=
  .expect (by decide) fun name => ExchangesWhen.fresh.finish fun _ _ _ => rfl

include written in
theorem class_declaration_exchanges (bound : Nat) : Exchanges exchange size SameStatement
    (classDeclaration declaration bound) (classDeclaration declaration' bound) := by
  refine .expect (by decide) fun name => ?_
  refine (Exchanges.following (by decide) superclass_exchanges).bind fun above above' aboves =>
    .expect (by decide) fun _ => ?_
  refine (members_exchange (method_exchanges (written.smaller (by omega)) bound) bound).bind
    fun all all' same => .expect (by decide) fun _ => .pure ?_
  rw [SameStatement, SameIn, Statement.relabel, Statement.relabel, ← sorted_relabel _ fun _ => rfl,
    ← sorted_relabel _ fun _ => rfl, ← sorted_relabel _ fun _ => rfl,
    ← sorted_relabel _ fun _ => rfl, same]
  exact congrArg (Statement.classDeclaration _ · _ _) aboves

end Statements

/-- The bound is not used up by so many tokens before the statement is reached. -/
def Clearance (exchange : Exchange) (levels size bound : Nat) : Prop :=
  size = 0 ∨ 8 * size + levels + exchange.bound ≤ bound + 8

/-- A token further on, every rule can be entered again. -/
theorem Clearance.further {levels size bound : Nat}
    (room : Clearance exchange levels size (bound + 1)) (some : 0 < levels) {others fewer : Nat}
    (isLevel : others ≤ 5) (isFewer : fewer ≤ size - 1) :
    Clearance exchange others fewer bound := by
  unfold Clearance at room ⊢
  omega

theorem Clearance.lower {levels size bound : Nat}
    (room : Clearance exchange (levels + 1) size (bound + 1)) :
    Clearance exchange levels size bound := by
  unfold Clearance at room ⊢
  omega

/-- The rules that call each other, with bounds that are large enough. -/
structure AllExchange (exchange : Exchange) (bound : Nat) : Prop where
  expression : ∀ size, Clearance exchange 3 size bound →
    Exchanges exchange size SameExpression (expression bound) (expression bound)
  conditional : ∀ size, Clearance exchange 2 size bound →
    Exchanges exchange size SameExpression (conditional bound) (conditional bound)
  unary : ∀ size, Clearance exchange 1 size bound →
    Exchanges exchange size SameExpression (unary bound) (unary bound)
  statement : ∀ size, Clearance exchange 4 size bound →
    Exchanges exchange size SameStatement (statement bound) (statement bound)
  declaration : ∀ size, Clearance exchange 5 size bound →
    Exchanges exchange size SameStatement (declaration bound) (declaration bound)

section Cycle

variable {bound : Nat} (smaller : AllExchange exchange bound)

include smaller

theorem unary_exchanges (room : Clearance exchange 1 size (bound + 1)) :
    Exchanges exchange size SameExpression (unary (bound + 1)) (unary (bound + 1)) := by
  have expressions := smaller.expression (size - 1) (room.further (by decide) (by decide) le_rfl)
  have written := smaller.declaration (size - 1) (room.further (by decide) (by decide) le_rfl)
  have operands := smaller.unary (size - 1) (room.further (by decide) (by decide) le_rfl)
  unfold unary
  refine .accept_any (by decide) (fun operator => ?_) ?_
  · exact operands.finish fun _ _ same => congrArg (Expression.unary operator) same
  · exact (primary_exchanges expressions written bound).bind
      fun head head' => trailers_exchange expressions bound

theorem conditional_exchanges (room : Clearance exchange 2 size (bound + 1)) :
    Exchanges exchange size SameExpression (conditional (bound + 1)) (conditional (bound + 1)) := by
  have branches := smaller.expression (size - 1) (room.further (by decide) (by decide) le_rfl)
  have further := smaller.conditional (size - 1 - 1)
    (room.further (by decide) (by decide) (Nat.sub_le _ 1))
  unfold conditional
  refine (operations_exchange (smaller.unary size room.lower) bound).bind
    fun condition condition' conditions => .accept (by decide) (fun _ => ?_) (.pure conditions)
  refine branches.bind fun thenBranch thenBranch' thenBranches => .expect (by decide) fun _ => ?_
  refine further.finish fun elseBranch elseBranch' elseBranches => ?_
  rw [SameExpression, SameIn, Expression.relabel, Expression.relabel, conditions, thenBranches,
    elseBranches]

theorem expression_exchanges (room : Clearance exchange 3 size (bound + 1)) :
    Exchanges exchange size SameExpression (expression (bound + 1)) (expression (bound + 1)) := by
  have values := smaller.expression (size - 1) (room.further (by decide) (by decide) le_rfl)
  unfold expression
  refine (smaller.conditional size room.lower).bind fun target target' targets =>
    .accept (by decide) (fun equals => ?_) (.pure targets)
  exact values.bind fun value value' => assignment_exchanges equals targets

theorem statement_exchanges (room : Clearance exchange 4 size (bound + 1)) :
    Exchanges exchange size SameStatement (statement (bound + 1)) (statement (bound + 1)) := by
  have expressions := smaller.expression size room.lower
  have fewer := smaller.expression (size - 1) (room.further (by decide) (by decide) le_rfl)
  have inner := smaller.statement (size - 1) (room.further (by decide) (by decide) le_rfl)
  have written := smaller.declaration (size - 1) (room.further (by decide) (by decide) le_rfl)
  unfold statement
  refine .peek (fun token => ?_) fun size' isSmaller one other starts tree after run quiet => ?_
  · split
    case h_1 => exact .step (for_statement_exchanges fewer inner)
    case h_2 => exact .step (if_statement_exchanges fewer inner)
    case h_3 => exact .step (while_statement_exchanges fewer inner)
    case h_4 => exact .step (exit_statement_exchanges fewer token)
    case h_5 =>
      refine .step ((block_exchanges written bound).finish fun body body' bodies => ?_)
      rw [SameStatement, SameIn, Statement.relabel, Statement.relabel, Statement.relabel_all_eq,
        Statement.relabel_all_eq, bodies]
    case h_6 => exact .step (print_statement_exchanges fewer)
    case h_7 => exact .anywhere (expression_statement_exchanges expressions)
  · -- the statement itself
    have enough : exchange.bound ≤ bound + 1 := by
      have some := starts.some
      unfold Clearance at room
      omega
    obtain ⟨tree', twin, next, next', ran, ranToo, trees, numbers⟩ :=
      exchange.reads (bound + 1) enough one.nextId other.nextId
    change statement (bound + 1) one = _ at run
    change exchange.Ends size' SameStatement one other tree after (statement (bound + 1) other)
    rw [starts.one, ran] at run
    cases run
    rw [starts.other, ranToo]
    exact ⟨twin, _, rfl, trees, .behind _ _ _, numbers⟩

theorem declaration_exchanges (room : Clearance exchange 5 size (bound + 1)) :
    Exchanges exchange size SameStatement (declaration (bound + 1)) (declaration (bound + 1)) := by
  have values := smaller.expression (size - 1) (room.further (by decide) (by decide) le_rfl)
  have written := smaller.declaration (size - 1) (room.further (by decide) (by decide) le_rfl)
  unfold declaration
  refine .accept (by decide) (fun _ => class_declaration_exchanges written bound)
    (.at_function ?_ (.accept (by decide) (fun _ => ?_) (smaller.statement size room.lower)))
  · exact (function_exchanges written bound).finish
      fun _ _ same => congrArg Statement.routineDeclaration same
  · exact variable_declaration_exchanges values

end Cycle

theorem all_exchange (exchange : Exchange) (bound : Nat) : AllExchange exchange bound := by
  induction bound with
  | zero =>
      exact ⟨fun _ _ => .missing _, fun _ _ => .missing _, fun _ _ => .missing _,
        fun _ _ => .missing _, fun _ _ => .missing _⟩
  | succ bound smaller =>
      exact ⟨fun _ => expression_exchanges smaller, fun _ => conditional_exchanges smaller,
        fun _ => unary_exchanges smaller, fun _ => statement_exchanges smaller,
        fun _ => declaration_exchanges smaller⟩

end Rule

end Lox
