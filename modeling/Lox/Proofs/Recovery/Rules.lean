import Lox.Proofs.Recovery.Runs

/-!
Every rule of the grammar runs in step with its twin of a larger bound. Both bounds are compared
with the number of tokens that are left: as long as they are large enough nothing depends on what
happens where they are used up, so that the twins may be rules built around any others.
-/

namespace Lox

/-- What an assignment makes of its target. -/
inductive TargetSort where
  | name
  | property
  | none

def Expression.targetSort : Expression → TargetSort
  | .reference _ => .name
  | .get _ _ => .property
  | _ => .none

/-- The rules that call each other. -/
structure Rules where
  expression : Rule Expression
  conditional : Rule Expression
  unary : Rule Expression
  statement : Rule Statement
  declaration : Rule Statement

namespace Rules

/-- One more level of the grammar around given rules. -/
def around (inner : Rules) (bound : Nat) : Rules where
  expression := do
    let target ← inner.conditional
    match ← Rule.accept .equal with
    | some equals => Rule.assignment target equals (← inner.expression)
    | none => return target
  conditional := do
    let condition ← Rule.operations bound inner.unary
    match ← Rule.accept .question with
    | some _ =>
        let thenBranch ← inner.expression
        let _ ← Rule.expect .colon .conditionalColon
        return .conditional condition thenBranch (← inner.conditional)
    | none => return condition
  unary := do
    match ← Rule.acceptAny [.bang, .minus] with
    | some operator => return .unary operator (← inner.unary)
    | none =>
        let head ← Rule.primary inner.expression inner.declaration bound
        Rule.trailers inner.expression bound head
  statement := do
    let token ← Rule.next
    match token.kind with
    | .forWord =>
        Rule.skip
        Rule.forStatement inner.expression inner.statement
    | .ifWord =>
        Rule.skip
        Rule.ifStatement inner.expression inner.statement
    | .whileWord =>
        Rule.skip
        Rule.whileStatement inner.expression inner.statement
    | .returnWord =>
        Rule.skip
        Rule.exitStatement token inner.expression
    | .leftBrace =>
        Rule.skip
        return .block (← Rule.block inner.declaration bound)
    | .printWord =>
        Rule.skip
        Rule.printStatement inner.expression
    | _ => Rule.expressionStatement inner.expression
  declaration := do
    if (← Rule.accept .classWord).isSome then
      Rule.classDeclaration inner.declaration bound
    else if ← Rule.atFunctionDeclaration then
      Rule.skip
      return .routineDeclaration (← Rule.function inner.declaration bound)
    else if (← Rule.accept .varWord).isSome then
      Rule.variableDeclaration inner.expression
    else
      inner.statement

/-- So many levels of the grammar around given rules, which are called where the bound is used
up. -/
def nested (spent : Rules) : Nat → Rules
  | 0 => spent
  | bound + 1 => (spent.nested bound).around bound

/-- The rules with their bound. -/
def bounded (bound : Nat) : Rules where
  expression := Rule.expression bound
  conditional := Rule.conditional bound
  unary := Rule.unary bound
  statement := Rule.statement bound
  declaration := Rule.declaration bound

theorem bounded_succ (bound : Nat) : bounded (bound + 1) = (bounded bound).around bound := rfl

theorem bounded_eq (bound : Nat) : bounded bound = (bounded 0).nested bound := by
  induction bound with
  | zero => rfl
  | succ bound induction => rw [bounded_succ, nested, ← induction]

end Rules

/-- A target is a name, a property or nothing that can be assigned to. -/
theorem Expression.target_cases {tree twin : Expression}
    (same : tree.targetSort = twin.targetSort) :
    (∃ place place', tree = .reference place ∧ twin = .reference place') ∨
      (∃ object object' name name', tree = .get object name ∧ twin = .get object' name') ∨
        tree.targetSort = .none := by
  cases tree with
  | reference place =>
      cases twin with
      | reference place' => exact .inl ⟨place, place', rfl, rfl⟩
      | _ => cases same
  | get object name =>
      cases twin with
      | get object' name' => exact .inr (.inl ⟨object, object', name, name', rfl, rfl⟩)
      | _ => cases same
  | _ => exact .inr (.inr rfl)

/-- Trees of which an assignment makes the same. -/
def Pairing.Alike (pairing : Pairing) (tree twin : Expression) : Prop :=
  pairing.Same tree twin ∧ tree.targetSort = twin.targetSort

instance (pairing : Pairing) : Std.Refl pairing.Alike := ⟨fun _ => ⟨fun _ => rfl, rfl⟩⟩

theorem Kind.IsStop.differs {kind stop : Kind} (isStop : stop.IsStop) (inner : ¬kind.IsStop) :
    kind ≠ stop := fun same => inner (same ▸ isStop)

/-- No other token ends the input. -/
theorem Pairing.differs (pairing : Pairing) (ends : pairing.stop = .endOfInput) {kind : Kind}
    (inner : kind ≠ .endOfInput) : kind ≠ pairing.stop := ends ▸ inner

namespace Rule

variable {pairing : Pairing} {size bound later : Nat} (stops : pairing.stop.IsStop)
  (isLater : bound ≤ later) (enough : size ≤ bound)

section Expressions

variable {operand operand' expression expression' : Rule Expression}
  {declaration declaration' : Rule Statement}

include stops

include isLater enough in
theorem chain_in_step {level : Level} (member : level ∈ levels)
    (each : InStep pairing size 1 pairing.Alike operand operand') {left left' : Expression}
    (trees : pairing.Alike left left') :
    InStep pairing size 0 pairing.Alike (chain level operand bound left)
      (chain level operand' later left') := by
  induction bound generalizing size later left left' with
  | zero =>
      obtain rfl := Nat.le_zero.mp enough
      exact .idle (.pure fun _ => trivial)
  | succ bound induction =>
      obtain ⟨later, rfl⟩ : ∃ fewer, later = fewer + 1 := ⟨later - 1, by omega⟩
      have inner : ∀ kind ∈ level.operators, ¬kind.IsStop := by
        revert member level
        simp [levels, Kind.IsStop]
      have plain : .leftBrace ∉ level.operators := by
        revert member level
        simp [levels]
      unfold chain
      refine .accept_any (fun isOne => inner _ isOne stops) plain (fun operator => ?_) (.pure trees)
      have right := each.smaller (Nat.sub_le size 1) (Nat.le_refl 1)
      refine (right.smaller (Nat.le_refl _) (Nat.le_refl 1)).bind fun tree tree' operands => ?_
      refine (induction (Nat.le_of_succ_le_succ isLater) (by omega)
        (right.smaller (Nat.sub_le (size - 1) 1) (Nat.le_refl 1)) ?_).smaller
          (Nat.le_refl _) (Nat.zero_le _)
      refine ⟨fun isExact => by rw [trees.1 isExact, operands.1 isExact], ?_⟩
      revert member level
      simp [levels, Expression.targetSort]

include isLater enough in
theorem operations_in_step (each : InStep pairing size 1 pairing.Alike operand operand') :
    InStep pairing size 1 pairing.Alike (operations bound operand) (operations later operand') := by
  suffices general : ∀ all : List Level, (∀ level ∈ all, level ∈ levels) →
    InStep pairing size 1 pairing.Alike
      (all.foldr (fun level tighter => do chain level tighter bound (← tighter)) operand)
      (all.foldr (fun level tighter => do chain level tighter later (← tighter)) operand') from
    general levels fun _ member => member
  intro all inside
  induction all with
  | nil => exact each
  | cons level rest induction =>
      rw [List.forall_mem_cons] at inside
      have tighter := induction inside.2
      refine tighter.bind fun left left' trees => ?_
      exact chain_in_step stops isLater (by omega) inside.1
        (tighter.smaller (Nat.sub_le size 1) (Nat.le_refl 1)) trees

include isLater enough in
theorem parameters_in_step :
    InStep pairing size 1 pairing.Same (parameters bound) (parameters later) := by
  have closed {fewer : Nat} {names names' : List Token} (trees : pairing.Same names names') :
      InStep pairing fewer 1 pairing.Same
        (expect .rightParen .parametersEnd >>= fun _ => pure names)
        (expect .rightParen .parametersEnd >>= fun _ => pure names') :=
    .expect (stops.differs (by decide)) (by decide) fun _ => .pure trees
  refine .glance (· = .rightParen) (closed fun _ => rfl) ?_
  have name : InStep pairing size 1 pairing.Same (expect .identifier .parameterName)
      (expect .identifier .parameterName) := .expected (stops.differs (by decide)) (by decide)
  refine (name.comma_separated (stops.differs (by decide)) _ isLater enough 0).bind
    fun names names' trees => ?_
  exact (closed trees).smaller (Nat.le_refl _) (Nat.zero_le _)

include isLater enough in
theorem trailers_in_step (each : InStep pairing size 1 pairing.Alike expression expression')
    {target target' : Expression} (trees : pairing.Alike target target') :
    InStep pairing size 0 pairing.Alike (trailers expression bound target)
      (trailers expression' later target') := by
  induction bound generalizing size later target target' with
  | zero =>
      obtain rfl := Nat.le_zero.mp enough
      exact .idle (.pure fun _ => trivial)
  | succ bound induction =>
      obtain ⟨later, rfl⟩ : ∃ fewer, later = fewer + 1 := ⟨later - 1, by omega⟩
      have isLater := Nat.le_of_succ_le_succ isLater
      have further {fewer : Nat} (isFewer : fewer ≤ size - 1) {target target' : Expression}
          (trees : pairing.Alike target target') :
          InStep pairing fewer 0 pairing.Alike (trailers expression bound target)
            (trailers expression' later target') :=
        induction isLater (by omega)
          (each.smaller (isFewer.trans (Nat.sub_le size 1)) (Nat.le_refl 1)) trees
      unfold trailers
      refine .accept (stops.differs (by decide)) (by decide) (fun parenthesis => ?_)
        (.accept (stops.differs (by decide)) (by decide) (fun dot => ?_) (.pure trees))
      · have closed {fewer : Nat} (isFewer : fewer ≤ size - 1)
            {arguments arguments' : List Expression} (same : pairing.Same arguments arguments') :
            InStep pairing fewer 0 pairing.Alike
              (do
                let closing ← expect .rightParen .argumentsEnd
                trailers expression bound (.call target closing arguments))
              (do
                let closing ← expect .rightParen .argumentsEnd
                trailers expression' later (.call target' closing arguments')) :=
          .expect (stops.differs (by decide)) (by decide) fun closing => further (by omega)
            ⟨fun isExact => by rw [trees.1 isExact, same isExact], rfl⟩
        refine .glance (· = .rightParen) (closed (Nat.le_refl _) fun _ => rfl) ?_
        have item : InStep pairing (size - 1) 1 pairing.Same expression expression' :=
          each.weaken (Nat.sub_le size 1) (Nat.le_refl 1) fun _ _ trees => trees.1
        have items := item.comma_separated (stops.differs (by decide)) .tooManyArguments
          (Nat.succ_le_succ isLater) (by omega) 0
        exact items.bind fun arguments arguments' same => closed (Nat.sub_le _ _) same
      · refine .expect (stops.differs (by decide)) (by decide) fun name => further (Nat.sub_le _ _)
          ⟨fun isExact => by rw [trees.1 isExact], rfl⟩

include isLater enough in
theorem lambda_in_step (opened : Opened pairing (size - 3) 1 pairing.Same (block declaration bound)
    (block declaration' later)) :
    InStep pairing size 4 pairing.Alike (lambda declaration bound) (lambda declaration' later) := by
  refine .expect (stops.differs (by decide)) (by decide) fun _ => ?_
  refine (parameters_in_step stops isLater (by omega)).bind fun names names' trees => ?_
  refine .expect_brace (stops.differs (by decide)) ?_
  have body := opened.smaller (show size - 1 - 1 - 1 ≤ size - 3 by omega) (Nat.le_refl 1)
  exact body.finish fun tree tree' bodies =>
    ⟨fun isExact => by rw [trees isExact, bodies isExact], rfl⟩

include isLater enough in
theorem primary_in_step (each : InStep pairing (size - 1) 1 pairing.Alike expression expression')
    (opened : Opened pairing (size - 4) 1 pairing.Same (block declaration bound)
      (block declaration' later)) :
    InStep pairing size 1 pairing.Alike (primary expression declaration bound)
      (primary expression' declaration' later) := by
  refine .peek fun token => ?_
  split
  case h_1 fits | h_2 fits | h_3 fits | h_4 fits | h_5 fits =>
    exact .step fits (stops.differs (by simp [Kind.IsStop])) (by simp)
      (.pure (Std.Refl.refl (r := pairing.Alike) _))
  case h_6 fits | h_8 fits =>
    refine .step fits (stops.differs (by decide)) (by decide) (InStepWhen.fresh.finish ?_)
    exact fun tree tree' trees => ⟨fun isExact => by rw [trees isExact], rfl⟩
  case h_7 fits =>
    refine .step fits (stops.differs (by decide)) (by decide) <|
      .expect (stops.differs (by decide)) (by decide) fun _ =>
        .expect (stops.differs (by decide)) (by decide) fun method => InStepWhen.fresh.finish ?_
    exact fun tree tree' trees => ⟨fun isExact => by rw [trees isExact], rfl⟩
  case h_9 fits =>
    have function := lambda_in_step stops isLater (show size - 1 ≤ bound by omega)
      (opened.smaller (by omega) (Nat.le_refl 1))
    exact .step fits (stops.differs (by decide)) (by decide)
      (function.smaller (Nat.le_refl _) (Nat.zero_le 4))
  case h_10 fits =>
    refine .step fits (stops.differs (by decide)) (by decide) (InStepWhen.smaller ?_ (Nat.le_refl _)
      (Nat.zero_le 2))
    refine each.bind fun inner inner' trees => ?_
    refine .expect (stops.differs (by decide)) (by decide) fun _ => .pure ?_
    exact ⟨fun isExact => by rw [trees.1 isExact], rfl⟩
  case h_11 => exact (InStepWhen.missing _).anywhere

omit stops in
theorem assignment_to_none {target : Expression} (none : target.targetSort = .none) (equals : Token)
    (value : Expression) : assignment target equals value =
      note equals .invalidTarget >>= fun _ => pure target := by
  cases target with
  | reference place => cases none
  | get object name => cases none
  | _ => rfl

omit stops in
theorem assignment_in_step (equals : Token) {target target' value value' : Expression}
    (targets : pairing.Alike target target') (values : pairing.Alike value value') :
    InStep pairing size 0 pairing.Alike (assignment target equals value)
      (assignment target' equals value') := by
  obtain ⟨trees, sorts⟩ := targets
  rcases Expression.target_cases sorts with
    ⟨place, place', rfl, rfl⟩ | ⟨object, object', name, name', rfl, rfl⟩ | none
  · refine InStepWhen.fresh.finish fun number number' numbers => ⟨fun isExact => ?_, rfl⟩
    cases trees isExact
    rw [numbers isExact, values.1 isExact]
  · refine .pure ⟨fun isExact => ?_, rfl⟩
    cases trees isExact
    rw [values.1 isExact]
  · rw [assignment_to_none none, assignment_to_none (sorts ▸ none)]
    exact (InStepWhen.note equals _).finish fun _ _ _ => ⟨trees, sorts⟩

end Expressions

section Statements

variable (ends : pairing.stop = .endOfInput) {expression expression' : Rule Expression}
  {statement statement' declaration declaration' : Rule Statement}

include ends

include isLater enough in
theorem block_in_step (written : InStep pairing size 1 pairing.Same declaration declaration') :
    InStep pairing size 1 pairing.Same (block declaration bound) (block declaration' later) := by
  have inside := declarations_in_step ends written
    (fun kind => kind = .rightBrace || kind = .endOfInput) rfl isLater enough
  exact inside.bind fun statements statements' trees =>
    .expect (pairing.differs ends (by decide)) (by decide) fun _ => .pure trees

section Expressions

variable (each : InStep pairing size 1 pairing.Alike expression expression')

include each

theorem variable_declaration_in_step :
    InStep pairing size 2 pairing.Same (variableDeclaration expression)
      (variableDeclaration expression') := by
  refine .expect (pairing.differs ends (by decide)) (by decide) fun name => ?_
  have value : InStep pairing (size - 1) 0 pairing.Same (following .equal expression)
      (following .equal expression') :=
    .following (pairing.differs ends (by decide)) (by decide)
      (each.weaken (by omega) (Nat.zero_le 1) fun _ _ trees => trees.1)
  refine value.bind fun initializer initializer' trees =>
    .expect (pairing.differs ends (by decide)) (by decide) fun _ => .pure fun isExact => ?_
  rw [trees isExact]

theorem expression_statement_in_step :
    InStep pairing size 2 pairing.Same (expressionStatement expression)
      (expressionStatement expression') :=
  each.bind fun value value' trees =>
    .expect (pairing.differs ends (by decide)) (by decide) fun _ =>
      .pure fun isExact => by rw [trees.1 isExact]

theorem print_statement_in_step :
    InStep pairing size 2 pairing.Same (printStatement expression) (printStatement expression') :=
  each.bind fun value value' trees =>
    .expect (pairing.differs ends (by decide)) (by decide) fun _ =>
      .pure fun isExact => by rw [trees.1 isExact]

omit ends in
theorem optional_in_step (closing : Kind) :
    InStep pairing size 0 pairing.Same (optional closing expression)
      (optional closing expression') := by
  refine .glance (· = closing) (.pure fun _ => rfl) ?_
  exact (each.smaller (Nat.le_refl size) (Nat.zero_le 1)).map fun _ _ trees isExact =>
    congrArg some (trees.1 isExact)

theorem exit_statement_in_step (keyword : Token) :
    InStep pairing size 1 pairing.Same (exitStatement keyword expression)
      (exitStatement keyword expression') :=
  (optional_in_step each .semicolon).bind fun value value' trees =>
    .expect (pairing.differs ends (by decide)) (by decide) fun _ =>
      .pure fun isExact => by rw [trees isExact]

theorem for_initializer_in_step :
    InStep pairing size 1 pairing.Same (forInitializer expression)
      (forInitializer expression') := by
  have declared := variable_declaration_in_step ends
    (each.smaller (Nat.sub_le size 1) (Nat.le_refl 1))
  have evaluated := expression_statement_in_step ends each
  refine .accept (pairing.differs ends (by decide)) (by decide) (fun _ => .pure fun _ => rfl)
    (.accept (pairing.differs ends (by decide)) (by decide) (fun _ => ?_) ?_)
  · exact (declared.smaller (Nat.le_refl _) (Nat.zero_le 2)).map fun _ _ trees isExact =>
      congrArg some (trees isExact)
  · exact (evaluated.smaller (Nat.le_refl _) (Nat.le_succ 1)).map fun _ _ trees isExact =>
      congrArg some (trees isExact)

variable (inner : InStep pairing size 1 pairing.Same statement statement')

include inner

theorem for_statement_in_step :
    InStep pairing size 5 pairing.Same (forStatement expression statement)
      (forStatement expression' statement') := by
  have smaller {fewer : Nat} (isFewer : fewer ≤ size) :
      InStep pairing fewer 1 pairing.Alike expression expression' :=
    each.smaller isFewer (Nat.le_refl 1)
  refine .expect (pairing.differs ends (by decide)) (by decide) fun _ => ?_
  refine (for_initializer_in_step ends (smaller (by omega))).bind
    fun initializer initializer' initializers => ?_
  refine (optional_in_step (smaller (by omega)) _).bind fun condition condition' conditions => ?_
  refine .expect (pairing.differs ends (by decide)) (by decide) fun _ => ?_
  refine (optional_in_step (smaller (by omega)) _).bind fun increment increment' increments => ?_
  refine .expect (pairing.differs ends (by decide)) (by decide) fun _ => ?_
  refine (inner.smaller (by omega) (Nat.le_refl 1)).finish fun body body' bodies isExact => ?_
  rw [initializers isExact, conditions isExact, increments isExact, bodies isExact]

theorem if_statement_in_step :
    InStep pairing size 4 pairing.Same (ifStatement expression statement)
      (ifStatement expression' statement') := by
  refine .expect (pairing.differs ends (by decide)) (by decide) fun _ => ?_
  refine (each.smaller (Nat.sub_le size 1) (Nat.le_refl 1)).bind
    fun condition condition' conditions => ?_
  refine .expect (pairing.differs ends (by decide)) (by decide) fun _ => ?_
  refine (inner.smaller (by omega) (Nat.le_refl 1)).bind fun branch branch' branches => ?_
  have elseBranch : InStep pairing (size - 1 - 1 - 1 - 1) 0 pairing.Same
      (following .elseWord statement) (following .elseWord statement') :=
    .following (pairing.differs ends (by decide)) (by decide)
      (inner.smaller (by omega) (Nat.zero_le 1))
  refine elseBranch.finish fun other other' others isExact => ?_
  rw [conditions.1 isExact, branches isExact, others isExact]

theorem while_statement_in_step :
    InStep pairing size 4 pairing.Same (whileStatement expression statement)
      (whileStatement expression' statement') := by
  refine .expect (pairing.differs ends (by decide)) (by decide) fun _ => ?_
  refine (each.smaller (Nat.sub_le size 1) (Nat.le_refl 1)).bind
    fun condition condition' conditions => ?_
  refine .expect (pairing.differs ends (by decide)) (by decide) fun _ => ?_
  refine (inner.smaller (by omega) (Nat.le_refl 1)).finish fun body body' bodies isExact => ?_
  rw [conditions.1 isExact, bodies isExact]

end Expressions

section Routines

variable (opened : Opened pairing (size - 2) 1 pairing.Same (block declaration bound)
  (block declaration' later))

include isLater enough opened

theorem function_in_step :
    InStep pairing size 5 pairing.Same (function declaration bound)
      (function declaration' later) := by
  refine .expect (pairing.differs ends (by decide)) (by decide) fun name => ?_
  refine .expect (pairing.differs ends (by decide)) (by decide) fun _ => ?_
  refine (parameters_in_step (.inl ends) isLater (by omega)).bind fun names names' trees => ?_
  refine .expect_brace (pairing.differs ends (by decide)) ?_
  have body := opened.smaller (show size - 1 - 1 - 1 - 1 ≤ size - 2 by omega) (Nat.le_refl 1)
  exact body.finish fun tree tree' bodies isExact => by rw [trees isExact, bodies isExact]

theorem method_in_step :
    InStep pairing size 3 pairing.Same (method declaration bound) (method declaration' later) := by
  refine .expect (pairing.differs ends (by decide)) (by decide) fun name => ?_
  have names : InStep pairing (size - 1) 0 pairing.Same (following .leftParen (parameters bound))
      (following .leftParen (parameters later)) :=
    .following (pairing.differs ends (by decide)) (by decide)
      ((parameters_in_step (.inl ends) isLater (by omega)).smaller (Nat.le_refl _) (Nat.zero_le 1))
  refine names.bind fun names names' trees => .expect_brace (pairing.differs ends (by decide)) ?_
  have body := opened.smaller (show size - 1 - 0 - 1 ≤ size - 2 by omega) (Nat.le_refl 1)
  exact body.finish fun tree tree' bodies isExact => by rw [trees isExact, bodies isExact]

end Routines

include isLater enough in
theorem members_in_step {method method' : Rule Routine}
    (each : InStep pairing size 1 pairing.Same method method') :
    InStep pairing size 0 pairing.Same (members method bound) (members method' later) := by
  induction bound generalizing size later with
  | zero =>
      obtain rfl := Nat.le_zero.mp enough
      exact .idle (.pure fun _ => trivial)
  | succ bound induction =>
      obtain ⟨later, rfl⟩ : ∃ fewer, later = fewer + 1 := ⟨later - 1, by omega⟩
      have further {fewer : Nat} (isFewer : fewer ≤ size) (atClassLevel : Bool) :
          InStep pairing fewer 0 pairing.Same
            (do
              let first ← method
              return (atClassLevel, first) :: (← members method bound))
            (do
              let first ← method'
              return (atClassLevel, first) :: (← members method' later)) := by
        refine (each.smaller isFewer (Nat.le_refl 1)).bind fun first first' firsts => ?_
        refine (induction (Nat.le_of_succ_le_succ isLater) (by omega)
          (each.smaller (by omega) (Nat.le_refl 1))).finish fun others others' same isExact => ?_
        rw [firsts isExact, same isExact]
      unfold members
      refine .glance (fun kind =>
        (decide (kind = .rightBrace) || decide (kind = .endOfInput)) = true)
        (.pure fun _ => rfl) ?_
      exact .accept (pairing.differs ends (by decide)) (by decide)
        (fun _ => further (Nat.sub_le size 1) true) (further (Nat.le_refl size) false)

theorem superclass_in_step : InStep pairing size 1 pairing.Same superclass superclass :=
  .expect (pairing.differs ends (by decide)) (by decide) fun name =>
    InStepWhen.fresh.finish fun number number' numbers isExact => by rw [numbers isExact]

omit ends in
/-- No member of a class begins with a statement. -/
theorem members_decline {tokens : List Token} (begins : leading tokens = .returnWord) {nextId : Nat}
    {tree : List (Bool × Routine)} {after : Reading}
    (run : members (method declaration bound) bound ⟨tokens, nextId, []⟩ = .ok tree after) :
    after.next.kind = .returnWord := by
  cases bound with
  | zero =>
      cases run
      exact begins
  | succ bound =>
      have looked : (Reading.mk tokens nextId []).next.kind = .returnWord := begins
      obtain ⟨token, here, isNext, run⟩ := of_bind_ok run
      cases isNext
      rw [looked] at run
      obtain ⟨found, here, declined, run⟩ := of_bind_ok run
      rw [accept_absent (by rw [looked]; decide)] at declined
      cases declined
      obtain ⟨first, here, method, -⟩ := of_bind_ok run
      obtain ⟨name, here, named, -⟩ := of_bind_ok method
      rw [expect_absent (by rw [looked]; decide)] at named
      cases named

include isLater enough in
theorem class_declaration_in_step (opened : Opened pairing (size - 2) 1 pairing.Same
      (block declaration bound) (block declaration' later)) :
    InStep pairing size 3 pairing.Same (classDeclaration declaration bound)
      (classDeclaration declaration' later) := by
  refine .expect (pairing.differs ends (by decide)) (by decide) fun name => ?_
  have above : InStep pairing (size - 1) 0 pairing.Same (following .less superclass)
      (following .less superclass) :=
    .following (pairing.differs ends (by decide)) (by decide)
      ((superclass_in_step ends).smaller (Nat.le_refl _) (Nat.zero_le 1))
  refine above.bind fun superclass superclass' aboves =>
    .expect_brace (pairing.differs ends (by decide)) ?_
  refine .of_in_step ?_ fun gap _ nextId _ _ result after run _ => ?_
  · have each := method_in_step isLater (show size - 1 - 0 - 1 ≤ bound by omega) ends
      (opened.smaller (by omega) (Nat.le_refl 1))
    have all := members_in_step isLater (by omega) ends (each.smaller (Nat.le_refl _) (by decide))
    refine all.bind fun all all' same => .expect (pairing.differs ends (by decide)) (by decide)
      fun _ => .pure fun isExact => ?_
    rw [aboves isExact, same isExact]
  · obtain ⟨all, here, runMembers, run⟩ := of_bind_ok run
    obtain ⟨closing, there, closed, -⟩ := of_bind_ok run
    rw [expect_absent (by rw [members_decline gap.keyword runMembers]; decide)] at closed
    cases closed

end Statements

/-- The rules that call each other, with one bound and around any others, on as many tokens as
the bound has room for. Statements go on to the end of the input. -/
structure AllInStep (pairing : Pairing) (bound : Nat) (rules twins : Rules) : Prop where
  expression : ∀ size, 8 * size + 3 ≤ bound + 7 →
    InStep pairing size 1 pairing.Alike rules.expression twins.expression
  conditional : ∀ size, 8 * size + 2 ≤ bound + 7 →
    InStep pairing size 1 pairing.Alike rules.conditional twins.conditional
  unary : ∀ size, 8 * size + 1 ≤ bound + 7 →
    InStep pairing size 1 pairing.Alike rules.unary twins.unary
  statement : pairing.stop = .endOfInput → ∀ size, 8 * size + 4 ≤ bound + 7 →
    InStep pairing size 1 pairing.Same rules.statement twins.statement
  declaration : pairing.stop = .endOfInput → ∀ size, 8 * size + 5 ≤ bound + 7 →
    InStep pairing size 1 pairing.Same rules.declaration twins.declaration

section Cycle

variable {rules twins : Rules} (smaller : AllInStep pairing bound rules twins)
  (opened : ∀ size, 8 * size ≤ bound → Opened pairing size 1 pairing.Same
    (block rules.declaration bound) (block twins.declaration later))

include stops smaller isLater

include opened in
theorem unary_in_step (enough : 8 * size + 1 ≤ bound + 8) :
    InStep pairing size 1 pairing.Alike (rules.around bound).unary (twins.around later).unary := by
  have expressions := smaller.expression (size - 1) (by omega)
  refine .accept_any (fun member => ?_) (by decide) (fun operator => ?_) ?_
  · rcases stops with ends | ends <;> simp [ends] at member
  · have operand := (smaller.unary (size - 1) (by omega)).smaller (Nat.le_refl _) (Nat.zero_le 1)
    exact operand.finish fun tree tree' trees => ⟨fun isExact => by rw [trees.1 isExact], rfl⟩
  · have primary := primary_in_step stops isLater (by omega) expressions
      (opened (size - 4) (by omega))
    refine primary.bind fun head head' heads => ?_
    exact trailers_in_step stops isLater (by omega) expressions heads

theorem conditional_in_step (enough : 8 * size + 2 ≤ bound + 8) :
    InStep pairing size 1 pairing.Alike (rules.around bound).conditional
      (twins.around later).conditional := by
  have condition := operations_in_step stops isLater (by omega) (smaller.unary size (by omega))
  refine condition.bind fun condition condition' conditions => ?_
  refine .accept (stops.differs (by decide)) (by decide) (fun _ => ?_) (.pure conditions)
  refine (smaller.expression (size - 1 - 1) (by omega)).bind fun branch branch' branches => ?_
  refine .expect (stops.differs (by decide)) (by decide) fun _ => ?_
  have other := (smaller.conditional (size - 1 - 1 - 1 - 1) (by omega)).smaller (Nat.le_refl _)
    (Nat.zero_le 1)
  refine other.finish fun other other' others => ⟨fun isExact => ?_, rfl⟩
  rw [conditions.1 isExact, branches.1 isExact, others.1 isExact]

omit isLater in
theorem expression_in_step (enough : 8 * size + 3 ≤ bound + 8) :
    InStep pairing size 1 pairing.Alike (rules.around bound).expression
      (twins.around later).expression := by
  refine (smaller.conditional size (by omega)).bind fun target target' targets => ?_
  refine .accept (stops.differs (by decide)) (by decide) (fun equals => ?_) (.pure targets)
  have value := (smaller.expression (size - 1 - 1) (by omega)).smaller (Nat.le_refl _)
    (Nat.zero_le 1)
  exact value.bind fun value value' values => assignment_in_step equals targets values

omit stops isLater in
include opened in
theorem statement_in_step (ends : pairing.stop = .endOfInput) (enough : 8 * size + 4 ≤ bound + 8) :
    InStep pairing size 1 pairing.Same (rules.around bound).statement
      (twins.around later).statement := by
  have expressions := smaller.expression size (by omega)
  have fewer := smaller.expression (size - 1) (by omega)
  have inner := smaller.statement ends (size - 1) (by omega)
  refine .peek fun token => ?_
  split
  case h_1 fits =>
    exact .step fits (pairing.differs ends (by decide)) (by decide)
      ((for_statement_in_step ends fewer inner).smaller (Nat.le_refl _) (Nat.zero_le 5))
  case h_2 fits =>
    exact .step fits (pairing.differs ends (by decide)) (by decide)
      ((if_statement_in_step ends fewer inner).smaller (Nat.le_refl _) (Nat.zero_le 4))
  case h_3 fits =>
    exact .step fits (pairing.differs ends (by decide)) (by decide)
      ((while_statement_in_step ends fewer inner).smaller (Nat.le_refl _) (Nat.zero_le 4))
  case h_4 fits =>
    exact .step fits (pairing.differs ends (by decide)) (by decide)
      ((exit_statement_in_step ends fewer token).smaller (Nat.le_refl _) (Nat.zero_le 1))
  case h_5 fits =>
    have body := (opened (size - 1) (by omega)).smaller (Nat.le_refl _) (Nat.zero_le 1)
    have whole : Opened pairing (size - 1) 0 pairing.Same
        (block rules.declaration bound >>= fun body => pure (Statement.block body))
        (block twins.declaration later >>= fun body => pure (Statement.block body)) :=
      body.finish fun body body' bodies isExact => by rw [bodies isExact]
    exact .enter (fits ▸ pairing.differs ends (by decide)) whole.grows
      (fun reachable => whole.inStep (fits ▸ reachable)) fun _ => whole.crosses
  case h_6 fits =>
    exact .step fits (pairing.differs ends (by decide)) (by decide)
      ((print_statement_in_step ends fewer).smaller (Nat.le_refl _) (Nat.zero_le 2))
  case h_7 =>
    exact ((expression_statement_in_step ends expressions).smaller (Nat.le_refl _)
      (Nat.le_succ 1)).anywhere

omit stops in
include opened in
theorem declaration_in_step (ends : pairing.stop = .endOfInput)
    (enough : 8 * size + 5 ≤ bound + 8) :
    InStep pairing size 1 pairing.Same (rules.around bound).declaration
      (twins.around later).declaration := by
  refine .accept (pairing.differs ends (by decide)) (by decide) (fun _ => ?_)
    (.at_function (pairing.differs ends (by decide)) ?_
      (.accept (pairing.differs ends (by decide)) (by decide) (fun _ => ?_) ?_))
  · have declared := class_declaration_in_step isLater (show size - 1 ≤ bound by omega) ends
      (opened (size - 1 - 2) (by omega))
    exact declared.smaller (Nat.le_refl _) (Nat.zero_le 3)
  · have declared := function_in_step isLater (show size - 1 ≤ bound by omega) ends
      (opened (size - 1 - 2) (by omega))
    exact (declared.smaller (Nat.le_refl _) (Nat.zero_le 5)).finish
      fun routine routine' routines isExact => by rw [routines isExact]
  · have declared := variable_declaration_in_step ends (smaller.expression (size - 1) (by omega))
    exact declared.smaller (Nat.le_refl _) (Nat.zero_le 2)
  · exact smaller.statement ends size (by omega)

end Cycle

theorem block_grows (bound : Nat) : (block (declaration bound) bound).Grows := by
  have written := ((all_repeat (Nat.le_refl bound)).declaration 0 (by omega)).weaken (Nat.le_refl 0)
    (Nat.le_succ 1)
  have block := block_repeats written (Nat.le_refl bound) (Nat.zero_le _)
  exact Reads.weaken block fun _ _ _ _ _ => trivial

/-- The blocks of a program run in step behind the brace of the gap, with bounds of any size that
are large enough for the tokens there. -/
def BlocksCross (pairing : Pairing) (spent : Rules) : Prop :=
  ∀ bound later size, bound ≤ later → 8 * size ≤ bound →
    Crosses pairing size 1 pairing.Same (block (declaration bound) bound)
      (block (spent.nested later).declaration later)

/-- The rules run in step whatever the twins do where their bound is used up. Blocks may only be
read as part of statements. -/
theorem all_in_step (stops : pairing.stop.IsStop) (spent : Rules)
    (blocks : pairing.stop = .endOfInput ∨ ¬pairing.inside .leftBrace ∧ pairing.gap = none)
    (cross : BlocksCross pairing spent) (isLater : bound ≤ later) :
    AllInStep pairing bound (.bounded bound) (spent.nested later) := by
  induction bound generalizing later with
  | zero =>
      have none {α : Type} {seen : Token → Prop} {alike : α → α → Prop} {twin : Rule α}
          {size k : Nat} (few : 8 * size + k ≤ 0 + 7) (item : Missing) :
          InStepWhen pairing seen size 1 alike (Rule.missing item) twin := by
        obtain rfl : size = 0 := by omega
        exact .idle (missing_reads item)
      exact ⟨fun _ few => none few _, fun _ few => none few _, fun _ few => none few _,
        fun _ _ few => none few _, fun _ _ few => none few _⟩
  | succ bound induction =>
      obtain ⟨later, rfl⟩ : ∃ fewer, later = fewer + 1 := ⟨later - 1, by omega⟩
      have isLater := Nat.le_of_succ_le_succ isLater
      have smaller := induction isLater
      have opened (size : Nat) (enough : 8 * size ≤ bound) :
          Opened pairing size 1 pairing.Same (block (declaration bound) bound)
            (block (spent.nested later).declaration later) := by
        rcases blocks with ends | ⟨outside, noGap⟩
        · exact .of_in_step (block_in_step isLater (by omega) ends
            (smaller.declaration ends size (by omega))) (cross bound later size isLater enough)
        · exact ⟨block_grows bound, fun reachable => absurd reachable (not_or.mpr ⟨outside,
            not_not.mpr noGap⟩), cross bound later size isLater enough⟩
      rw [Rules.bounded_succ, Rules.nested]
      exact ⟨fun _ => expression_in_step stops smaller,
        fun _ => conditional_in_step stops isLater smaller,
        fun _ => unary_in_step stops isLater smaller opened,
        fun ends _ => statement_in_step smaller opened ends,
        fun ends _ => declaration_in_step isLater smaller opened ends⟩

/-- Without a gap there is nothing to cross. -/
theorem blocks_cross (spent : Rules) (noGap : pairing.gap = none) : BlocksCross pairing spent :=
  fun _ _ _ _ _ gap isGap => by
    rw [noGap] at isGap
    cases isGap

end Rule

end Lox
