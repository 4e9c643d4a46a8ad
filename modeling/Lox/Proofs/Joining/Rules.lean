import Lox.Proofs.Joining.Repeats

/-!
Every rule of the grammar reads again what it has read. The bounds are compared with the number
of tokens that are left, of which every way around the cycle of rules takes one; so nothing that
is read without a complaint depends on how large the bounds are.
-/

namespace Lox.Rule

variable {size bound later : Nat}

section Expressions

variable {operand operand' expression expression' : Rule Expression}
  {declaration declaration' : Rule Statement}

theorem chain_repeats {level : Level} (inner : Kind.endOfInput ∉ level.operators)
    (each : Repeats size 1 false operand operand') (isLater : bound ≤ later)
    (enough : size ≤ bound + 1) (left : Expression) :
    Repeats size 0 false (chain level operand bound left) (chain level operand' later left) := by
  induction bound generalizing size later left with
  | zero =>
      refine .exhausted enough fun rest nextId complaints atEnd => ?_
      cases later with
      | zero => rfl
      | succ later =>
          have absent : leading rest ∉ level.operators := by
            rw [atEnd]
            exact inner
          exact bind_ok (accept_any_absent absent)
  | succ bound induction =>
      obtain ⟨later, rfl⟩ : ∃ fewer, later = fewer + 1 := ⟨later - 1, by omega⟩
      unfold chain
      refine .accept_any inner (fun operator => ?_) (.pure _) Bool.noConfusion
      have right := each.weaken (Nat.sub_le size 1) (Nat.le_refl 1)
      refine right.bind (fun tree => ?_) Bool.noConfusion
      exact induction (right.weaken (Nat.sub_le (size - 1) 1) (Nat.le_refl 1))
        (Nat.le_of_succ_le_succ isLater) (by omega) _

theorem operations_repeats (each : Repeats size 1 false operand operand') (isLater : bound ≤ later)
    (enough : size ≤ bound + 1) :
    Repeats size 1 false (operations bound operand) (operations later operand') := by
  have inner : ∀ level ∈ levels, Kind.endOfInput ∉ level.operators := by simp [levels]
  unfold operations
  generalize levels = all at inner ⊢
  induction all with
  | nil => exact each
  | cons level rest induction =>
      rw [List.forall_mem_cons] at inner
      have tighter := induction inner.2
      refine tighter.bind (fun left => ?_) Bool.noConfusion
      exact chain_repeats inner.1 (tighter.weaken (Nat.sub_le size 1) (Nat.le_refl 1)) isLater
        (by omega) left

theorem parameters_repeat (isLater : bound ≤ later) :
    Repeats size 1 false (parameters bound) (parameters later) := by
  refine .glance (· = .rightParen) (.expect_then (by decide) fun _ => .pure _) ?_
  have name : Repeats size 1 false (expect .identifier .parameterName)
      (expect .identifier .parameterName) := .expect (by decide) _
  refine (name.comma_separated _ isLater 0).bind (fun names => ?_) Bool.noConfusion
  exact .expect_then (by decide) fun _ => .pure _

theorem trailers_repeat (each : Repeats size 1 false expression expression')
    (isLater : bound ≤ later) (enough : size ≤ bound + 1) (target : Expression) :
    Repeats size 0 false (trailers expression bound target)
      (trailers expression' later target) := by
  induction bound generalizing size later target with
  | zero =>
      refine .exhausted enough fun rest nextId complaints atEnd => ?_
      cases later with
      | zero => rfl
      | succ later =>
          have declined {kind : Kind} (inner : Kind.endOfInput ≠ kind) :
              accept kind ⟨rest, nextId, complaints⟩ = .ok none ⟨rest, nextId, complaints⟩ :=
            accept_absent fun fits => inner (atEnd.symm.trans fits)
          have parenthesis := declined (show Kind.endOfInput ≠ .leftParen by decide)
          have dot := declined (show Kind.endOfInput ≠ .dot by decide)
          exact (bind_ok parenthesis).trans (bind_ok dot)
  | succ bound induction =>
      obtain ⟨later, rfl⟩ : ∃ fewer, later = fewer + 1 := ⟨later - 1, by omega⟩
      have isLater := Nat.le_of_succ_le_succ isLater
      have further (fewer : Nat) (isFewer : fewer ≤ size - 1) (target : Expression) :
          Repeats fewer 0 false (trailers expression bound target)
            (trailers expression' later target) :=
        induction (each.weaken (isFewer.trans (Nat.sub_le size 1)) (Nat.le_refl 1)) isLater
          (by omega) target
      unfold trailers
      refine .accept (by decide) (fun parenthesis => ?_)
        (.accept (by decide) (fun dot => ?_) (.pure _) Bool.noConfusion) Bool.noConfusion
      · have closed (fewer : Nat) (isFewer : fewer ≤ size - 1) (arguments : List Expression) :
            Repeats fewer 0 false
              (do
                let closing ← expect .rightParen .argumentsEnd
                trailers expression bound (.call target closing arguments))
              (do
                let closing ← expect .rightParen .argumentsEnd
                trailers expression' later (.call target closing arguments)) :=
          .expect_then (by decide) fun closing => further _ (by omega) _
        refine .glance (· = .rightParen) (closed _ (Nat.le_refl _) []) ?_
        have items := (each.weaken (Nat.sub_le size 1) (Nat.le_refl 1)).comma_separated
          .tooManyArguments (Nat.succ_le_succ isLater) 0
        exact items.bind (fun arguments => closed _ (Nat.sub_le _ _) arguments) Bool.noConfusion
      · exact .expect_then (by decide) fun name => further _ (Nat.sub_le _ _) _

theorem block_repeats (each : Repeats size 1 true declaration declaration')
    (isLater : bound ≤ later)
    (enough : size ≤ bound + 1) :
    Repeats size 1 true (block declaration bound) (block declaration' later) := by
  have inside := each.declarations (fun kind => kind = .rightBrace || kind = .endOfInput)
    rfl isLater
    enough
  exact inside.bind (fun statements => .expect_then (by decide) fun _ => .pure _)
    fun _ => .inr Nat.one_pos

theorem lambda_repeats (each : Repeats size 1 true declaration declaration')
    (isLater : bound ≤ later) (enough : size ≤ bound + 1) :
    Repeats size 4 closed (lambda declaration bound) (lambda declaration' later) := by
  refine .expect_then (by decide) fun _ => ?_
  refine (parameters_repeat isLater).bind (fun names => ?_) fun _ => .inr (by decide)
  refine .expect_then (by decide) fun _ => ?_
  have body := block_repeats (each.weaken (Nat.sub_le size 3) (Nat.le_refl 1)) isLater (by omega)
  exact ((body.opened closed).weaken (by omega) (Nat.le_refl 1)).finish _

theorem primary_repeats (each : Repeats (size - 1) 1 false expression expression')
    (written : Repeats (size - 1) 1 true declaration declaration') (isLater : bound ≤ later)
    (enough : size ≤ bound + 1) :
    Repeats size 1 closed (primary expression declaration bound)
      (primary expression' declaration' later) := by
  refine .peek (fun token => ?_) Nat.one_pos
  split
  case h_1 fits | h_2 fits | h_3 fits | h_4 fits | h_5 fits =>
    exact .step fits nofun (.pure _)
  case h_6 fits | h_8 fits => exact .step fits (by decide) (Repeats.fresh.finish _)
  case h_7 fits =>
    refine .step fits (by decide) <|
      .expect_then (by decide) fun _ => .expect_then (by decide) fun method => ?_
    exact Repeats.fresh.finish _
  case h_9 fits =>
    have function : Repeats (size - 1) 4 closed (lambda declaration bound)
        (lambda declaration' later) := lambda_repeats written isLater (by omega)
    exact .step fits (by decide) (function.weaken (Nat.le_refl _) (Nat.zero_le 4))
  case h_10 fits =>
    refine .step fits (by decide) (Repeats.weaken ?_ (Nat.le_refl _) (Nat.zero_le 2))
    exact each.bind (fun inner => .expect_then (by decide) fun _ => .pure _)
      fun _ => .inr (by decide)
  case h_11 => exact (Repeats.missing _).anywhere

theorem assignment_repeats (target value : Expression) (equals : Token) :
    Repeats size 0 closed (assignment target equals value) (assignment target equals value) := by
  have noted : Repeats size 0 closed (do note equals .invalidTarget; return target)
      (do note equals .invalidTarget; return target) := by
    have kept : Repeats size 0 closed (pure target) (pure target) := .pure target
    refine Reads.bind (note_reads equals .invalidTarget) fun _ => Reads.weaken kept ?_
    rintro third read tree after - second front impossible
    exact impossible.elim
  cases target with
  | reference place => exact Repeats.fresh.finish _
  | get object name => exact .pure _
  | _ => exact noted

end Expressions

section Statements

variable {expression expression' : Rule Expression}
  {statement statement' declaration declaration' : Rule Statement}
  (each : Repeats size 1 false expression expression')

section Expressions

include each

theorem variable_declaration_repeats :
    Repeats size 2 true (variableDeclaration expression) (variableDeclaration expression') := by
  refine .expect_then (by decide) fun name => ?_
  have value : Repeats (size - 1) 0 false (following .equal expression)
      (following .equal expression') :=
    .following (by decide) (each.weaken (by omega) (Nat.zero_le 1)) Bool.noConfusion
  exact value.bind (fun initializer => .expect_then (by decide) fun _ => .pure _)
    fun _ => .inr Nat.one_pos

theorem expression_statement_repeats :
    Repeats size 2 true (expressionStatement expression) (expressionStatement expression') :=
  each.bind (fun value => .expect_then (by decide) fun _ => .pure _) fun _ => .inr Nat.one_pos

theorem print_statement_repeats :
    Repeats size 2 true (printStatement expression) (printStatement expression') :=
  each.bind (fun value => .expect_then (by decide) fun _ => .pure _) fun _ => .inr Nat.one_pos

theorem optional_repeats (closing : Kind) :
    Repeats size 0 false (optional closing expression) (optional closing expression') :=
  .glance (· = closing) (.pure none)
    ((each.weaken (Nat.le_refl size) (Nat.zero_le 1)).map some)

theorem exit_statement_repeats (keyword : Token) :
    Repeats size 1 true (exitStatement keyword expression) (exitStatement keyword expression') :=
  (optional_repeats each .semicolon).bind (fun value => .expect_then (by decide) fun _ => .pure _)
    fun _ => .inr Nat.one_pos

theorem for_initializer_repeats :
    Repeats size 1 false (forInitializer expression) (forInitializer expression') := by
  have declared := variable_declaration_repeats (each.weaken (Nat.sub_le size 1) (Nat.le_refl 1))
  have evaluated := expression_statement_repeats each
  refine .accept (by decide) (fun _ => .pure none)
    (.accept (by decide) (fun _ => ?_) ?_ Bool.noConfusion) Bool.noConfusion
  · exact ((declared.opened false).weaken (Nat.le_refl _) (Nat.zero_le 2)).map some
  · exact ((evaluated.opened false).weaken (Nat.le_refl _) (by omega)).map some

end Expressions

section Statements

variable (inner : Repeats size 2 true statement statement')

include each inner

theorem for_statement_repeats :
    Repeats size 6 true (forStatement expression statement)
      (forStatement expression' statement') := by
  have smaller (fewer : Nat) (isFewer : fewer ≤ size) :
      Repeats fewer 1 false expression expression' := each.weaken isFewer (Nat.le_refl 1)
  refine .expect_then (by decide) fun _ => ?_
  refine (for_initializer_repeats (smaller _ (by omega))).bind (fun initializer => ?_)
    fun _ => .inr (by decide)
  refine (optional_repeats (smaller _ (by omega)) _).bind (fun condition => ?_)
    fun _ => .inr (by decide)
  refine .expect_then (by decide) fun _ => ?_
  refine (optional_repeats (smaller _ (by omega)) _).bind (fun increment => ?_)
    fun _ => .inr (by decide)
  refine .expect_then (by decide) fun _ => ?_
  exact (inner.weaken (by omega) (Nat.le_refl 2)).finish _

theorem if_statement_repeats :
    Repeats size 5 true (ifStatement expression statement)
      (ifStatement expression' statement') := by
  refine .expect_then (by decide) fun _ => ?_
  refine (each.weaken (Nat.sub_le size 1) (Nat.le_refl 1)).bind (fun condition => ?_)
    fun _ => .inr (by decide)
  refine .expect_then (by decide) fun _ => ?_
  refine (inner.weaken (by omega) (Nat.le_refl 2)).bind (fun thenBranch => ?_) fun _ => .inl rfl
  have elseBranch : Repeats (size - 1 - 1 - 1 - 2) 0 true (following .elseWord statement)
      (following .elseWord statement') :=
    .following (by decide) (inner.weaken (by omega) (Nat.zero_le 2)) fun _ => rfl
  exact elseBranch.finish _

theorem while_statement_repeats :
    Repeats size 5 true (whileStatement expression statement)
      (whileStatement expression' statement') := by
  refine .expect_then (by decide) fun _ => ?_
  refine (each.weaken (Nat.sub_le size 1) (Nat.le_refl 1)).bind (fun condition => ?_)
    fun _ => .inr (by decide)
  refine .expect_then (by decide) fun _ => ?_
  exact (inner.weaken (by omega) (Nat.le_refl 2)).finish _

end Statements

section Declarations

variable (written : Repeats size 1 true declaration declaration') (isLater : bound ≤ later)
  (enough : size ≤ bound + 1)

include written isLater enough

theorem function_repeats :
    Repeats size 5 true (function declaration bound) (function declaration' later) := by
  refine .expect_then (by decide) fun name => .expect_then (by decide) fun _ => ?_
  refine (parameters_repeat isLater).bind (fun names => ?_) fun _ => .inr (by decide)
  refine .expect_then (by decide) fun _ => ?_
  have body := block_repeats (written.weaken (Nat.sub_le size 4) (Nat.le_refl 1)) isLater (by omega)
  exact (body.weaken (by omega) (Nat.le_refl 1)).finish _

theorem method_repeats :
    Repeats size 3 true (method declaration bound) (method declaration' later) := by
  refine .expect_then (by decide) fun name => ?_
  have names : Repeats (size - 1) 0 false (following .leftParen (parameters bound))
      (following .leftParen (parameters later)) :=
    .following (by decide) ((parameters_repeat isLater).weaken (Nat.le_refl _) (Nat.zero_le 1))
      Bool.noConfusion
  refine names.bind (fun names => ?_) fun _ => .inr (by decide)
  refine .expect_then (by decide) fun _ => ?_
  have body := block_repeats (written.weaken (Nat.sub_le size 2) (Nat.le_refl 1)) isLater (by omega)
  exact (body.weaken (by omega) (Nat.le_refl 1)).finish _

end Declarations

theorem members_repeat {method method' : Rule Routine} (each : Repeats size 1 true method method')
    (isLater : bound ≤ later) (enough : size ≤ bound + 1) :
    Repeats size 0 false (members method bound) (members method' later) := by
  induction bound generalizing size later with
  | zero =>
      refine .exhausted enough fun rest nextId complaints atEnd => ?_
      cases later with
      | zero => rfl
      | succ later =>
          change (if
            (decide (leading rest = .rightBrace) || decide (leading rest = .endOfInput)) = true
            then pure [] else _ : Rule (List (Bool × Routine))) _ = _
          rw [atEnd]
          rfl
  | succ bound induction =>
      obtain ⟨later, rfl⟩ : ∃ fewer, later = fewer + 1 := ⟨later - 1, by omega⟩
      have further (fewer : Nat) (isFewer : fewer ≤ size) (atClassLevel : Bool) :
          Repeats fewer 0 false
            (do
              let first ← method
              return (atClassLevel, first) :: (← members method bound))
            (do
              let first ← method'
              return (atClassLevel, first) :: (← members method' later)) := by
        have fewerEach := each.weaken isFewer (Nat.le_refl 1)
        refine (fewerEach.opened false).bind (fun first => Repeats.finish ?_ _) Bool.noConfusion
        exact induction (fewerEach.weaken (Nat.sub_le fewer 1) (Nat.le_refl 1))
          (Nat.le_of_succ_le_succ isLater) (by omega)
      unfold members
      refine .glance (fun kind =>
        (decide (kind = .rightBrace) || decide (kind = .endOfInput)) = true)
        (.pure _) ?_
      exact .accept (by decide) (fun _ => further _ (Nat.sub_le size 1) true)
        (further _ (Nat.le_refl size) false) Bool.noConfusion

theorem superclass_repeats : Repeats size 1 true superclass superclass :=
  .expect_then (by decide) fun name => Repeats.fresh.finish _

theorem class_declaration_repeats (written : Repeats size 1 true declaration declaration')
    (isLater : bound ≤ later) (enough : size ≤ bound + 1) :
    Repeats size 3 true (classDeclaration declaration bound)
      (classDeclaration declaration' later) := by
  refine .expect_then (by decide) fun name => ?_
  have above : Repeats (size - 1) 0 false (following .less superclass)
    (following .less superclass) :=
    .following (by decide)
      ((superclass_repeats.opened false).weaken (Nat.le_refl _) (Nat.zero_le 1)) Bool.noConfusion
  refine above.bind (fun superclass => .expect_then (by decide) fun _ => ?_)
    fun _ => .inr (by decide)
  have each := method_repeats (written.weaken (Nat.sub_le size 2) (Nat.le_refl 1)) isLater
    (by omega)
  have all := members_repeat (each.weaken (Nat.le_refl _) (by decide)) isLater (by omega)
  exact (all.weaken (by omega) (Nat.le_refl 0)).bind
    (fun all => .expect_then (by decide) fun _ => .pure _) fun _ => .inr (by decide)

end Statements

/-- The rules that call each other, with one bound and with a larger one, on as many tokens as
the smaller bound has room for. -/
structure AllRepeat (bound later : Nat) : Prop where
  expression : ∀ size, 8 * size + 3 ≤ bound + 8 →
    Repeats size 1 false (expression bound) (expression later)
  conditional : ∀ size, 8 * size + 2 ≤ bound + 8 →
    Repeats size 1 false (conditional bound) (conditional later)
  unary : ∀ size, 8 * size + 1 ≤ bound + 8 → Repeats size 1 false (unary bound) (unary later)
  statement : ∀ size, 8 * size + 4 ≤ bound + 8 →
    Repeats size 2 true (statement bound) (statement later)
  declaration : ∀ size, 8 * size + 5 ≤ bound + 8 →
    Repeats size 2 true (declaration bound) (declaration later)

section Cycle

variable (smaller : AllRepeat bound later) (isLater : bound ≤ later)

include smaller isLater

theorem unary_repeats (enough : 8 * size + 1 ≤ bound + 9) :
    Repeats size 1 false (unary (bound + 1)) (unary (later + 1)) := by
  have expressions := smaller.expression (size - 1) (by omega)
  have declarations := smaller.declaration (size - 1) (by omega)
  unfold unary
  refine .accept_any (by decide) (fun operator => ?_) ?_ Bool.noConfusion
  · exact ((smaller.unary (size - 1) (by omega)).weaken (Nat.le_refl _) (Nat.zero_le 1)).finish _
  · have primary : Repeats size 1 false (primary (expression bound) (declaration bound) bound)
        (primary (expression later) (declaration later) later) :=
      primary_repeats expressions (declarations.weaken (Nat.le_refl _) (by decide)) isLater
        (by omega)
    exact primary.bind (fun head => trailers_repeat expressions isLater (by omega) head)
      Bool.noConfusion

theorem conditional_repeats (enough : 8 * size + 2 ≤ bound + 9) :
    Repeats size 1 false (conditional (bound + 1)) (conditional (later + 1)) := by
  unfold conditional
  have condition := operations_repeats (smaller.unary size (by omega)) isLater (by omega)
  refine condition.bind (fun condition => ?_) Bool.noConfusion
  refine .accept (by decide) (fun _ => ?_) (.pure _) Bool.noConfusion
  refine (smaller.expression (size - 1 - 1) (by omega)).bind (fun thenBranch => ?_)
    Bool.noConfusion
  refine .expect_then (by decide) fun _ => ?_
  exact ((smaller.conditional _ (by omega)).weaken (Nat.le_refl _) (Nat.zero_le 1)).finish _

omit isLater in
theorem expression_repeats (enough : 8 * size + 3 ≤ bound + 9) :
    Repeats size 1 false (expression (bound + 1)) (expression (later + 1)) := by
  unfold expression
  refine (smaller.conditional size (by omega)).bind (fun target => ?_) Bool.noConfusion
  refine .accept (by decide) (fun equals => ?_) (.pure _) Bool.noConfusion
  exact (smaller.expression (size - 1 - 1) (by omega)).bind
    (fun value => assignment_repeats target value equals) Bool.noConfusion

theorem statement_repeats (enough : 8 * size + 4 ≤ bound + 9) :
    Repeats size 2 true (statement (bound + 1)) (statement (later + 1)) := by
  have expressions := smaller.expression size (by omega)
  have fewer := smaller.expression (size - 1) (by omega)
  have inner := smaller.statement (size - 1) (by omega)
  unfold statement
  refine .peek (fun token => ?_) (by decide)
  split
  case h_1 fits =>
    exact .step fits (by decide)
      ((for_statement_repeats fewer inner).weaken (Nat.le_refl _) (by decide))
  case h_2 fits =>
    exact .step fits (by decide)
      ((if_statement_repeats fewer inner).weaken (Nat.le_refl _) (by decide))
  case h_3 fits =>
    exact .step fits (by decide)
      ((while_statement_repeats fewer inner).weaken (Nat.le_refl _) (by decide))
  case h_4 fits => exact .step fits (by decide) (exit_statement_repeats fewer token)
  case h_5 fits =>
    have written := (smaller.declaration (size - 1) (by omega)).weaken (Nat.le_refl _)
      (Nat.le_succ 1)
    exact .step fits (by decide) ((block_repeats written isLater (by omega)).finish _)
  case h_6 fits =>
    exact .step fits (by decide)
      ((print_statement_repeats fewer).weaken (Nat.le_refl _) (Nat.le_succ 1))
  case h_7 => exact (expression_statement_repeats expressions).anywhere

theorem declaration_repeats (enough : 8 * size + 5 ≤ bound + 9) :
    Repeats size 2 true (declaration (bound + 1)) (declaration (later + 1)) := by
  have written := (smaller.declaration (size - 1) (by omega)).weaken (Nat.le_refl _) (Nat.le_succ 1)
  unfold declaration
  refine .accept (by decide) (fun _ => ?_)
    (.at_function ?_ (.accept (by decide) (fun _ => ?_) ?_ ?_) (Nat.le_refl 2)) ?_
  · exact (class_declaration_repeats written isLater (by omega)).weaken (Nat.le_refl _) (by decide)
  · exact ((function_repeats written isLater (by omega)).weaken (Nat.le_refl _)
      (by decide)).finish _
  · have declared := variable_declaration_repeats (smaller.expression (size - 1) (by omega))
    exact declared.weaken (Nat.le_refl _) (Nat.le_succ 1)
  · exact smaller.statement size (by omega)
  · exact fun _ => .inl Nat.two_pos
  · exact fun _ => .inl Nat.two_pos

end Cycle

/-- With bounds of any size. -/
theorem all_repeat (isLater : bound ≤ later) : AllRepeat bound later := by
  induction bound generalizing later with
  | zero =>
      exact ⟨fun _ _ => .missing _, fun _ _ => .missing _, fun _ _ => .missing _,
        fun _ _ => .missing _, fun _ _ => .missing _⟩
  | succ bound induction =>
      obtain ⟨later, rfl⟩ : ∃ fewer, later = fewer + 1 := ⟨later - 1, by omega⟩
      have isLater := Nat.le_of_succ_le_succ isLater
      have smaller := induction isLater
      exact ⟨fun _ => expression_repeats smaller, fun _ => conditional_repeats smaller isLater,
        fun _ => unary_repeats smaller isLater, fun _ => statement_repeats smaller isLater,
        fun _ => declaration_repeats smaller isLater⟩

end Lox.Rule
