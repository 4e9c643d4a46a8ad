import Lox.Proofs.Renaming.Numbers
import Lox.Proofs.WellFormed.Trees

/-!
What the rules build. Each rule is taken with what the rules that it is made of build, and those
that call each other by induction on how deep they may nest.
-/

namespace Lox

/-- The nodes of a level are as they should be as long as their operators are of that level. -/
structure Level.Lawful (level : Level) : Prop where
  inner : Kind.endOfInput ∉ level.operators
  node {left right : Expression} {operator : Token} (fits : operator.kind ∈ level.operators)
    (isLeft : (Node.expression left).WellFormed) (isRight : (Node.expression right).WellFormed) :
    (Node.expression (level.node left operator right)).WellFormed

theorem levels_lawful : ∀ level ∈ levels, level.Lawful := by
  have logical {operators : List Kind} (known : operators ⊆ [Kind.andWord, .orWord]) :
      Level.Lawful ⟨operators, .logical⟩ := by
    refine ⟨fun ends => absurd (known ends) (by decide), fun fits isLeft isRight => ?_⟩
    exact .build (known fits) (by simpa [Node.parts] using ⟨isLeft, isRight⟩)
  have binary {operators : List Kind} (known : operators ⊆ [Kind.plus, .minus, .star, .slash,
      .equalEqual, .bangEqual, .less, .lessEqual, .greater, .greaterEqual]) :
      Level.Lawful ⟨operators, .binary⟩ := by
    refine ⟨fun ends => absurd (known ends) (by decide), fun fits isLeft isRight => ?_⟩
    exact .build (known fits) (by simpa [Node.parts] using ⟨isLeft, isRight⟩)
  simp only [levels, List.forall_mem_cons]
  exact ⟨logical (by simp), logical (by simp), binary (by simp), binary (by simp), binary (by simp),
    binary (by simp), List.forall_mem_nil _⟩

namespace Rule

section Rules

variable {expression : Rule Expression} {statement declaration : Rule Statement} {bound : Nat}
  (values : expression.Builds fun tree => (Node.expression tree).WellFormed)
  (orders : statement.Builds fun tree => (Node.statement tree).WellFormed)
  (declared : declaration.Builds fun tree => (Node.statement tree).WellFormed)

/-- What is true of a parameter list. -/
abbrev GoodParameters (names : List Token) : Prop :=
  names.length ≤ 255 ∧ ∀ name ∈ names, name.kind = .identifier

theorem parameters_build (bound : Nat) : (parameters bound).Builds GoodParameters := by
  have names : Builds (commaSeparated (expect .identifier .parameterName)
      .tooManyParameters bound 0) GoodParameters := by
    refine builds_mono (comma_separated_builds (expect_builds _ (by decide)) _ bound 0) ?_
    exact fun names isGood => isGood
  refine after_builds next_builds fun token => either_builds
    (pure_builds ⟨Nat.zero_le _, List.forall_mem_nil _⟩) names fun found => ?_
  exact after_builds (expect_builds _ (by decide)) fun _ => pure_builds fun areGood => areGood

section

include declared

theorem block_builds (bound : Nat) : (block declaration bound).Builds
    fun orders => (Node.statements orders).WellFormed := by
  refine bind_builds (declarations_build declared _ bound) fun orders =>
    after_builds (expect_builds _ (by decide)) fun _ => pure_builds ?_
  exact Node.statements_well_formed.mpr

theorem lambda_builds (bound : Nat) :
    (lambda declaration bound).Builds fun tree => (Node.expression tree).WellFormed := by
  refine after_builds (expect_builds _ (by decide)) fun _ => bind_builds (parameters_build bound)
    fun names => after_builds (expect_builds _ (by decide)) fun _ =>
      bind_builds (block_builds declared bound) fun body => pure_builds fun inside fits => ?_
  have routine : (Node.routine ⟨none, some names, body⟩).WellFormed :=
    .build ⟨nofun, fun _ same => Option.some.inj same ▸ fits⟩ (List.forall_mem_singleton.mpr inside)
  exact .build ⟨rfl, rfl⟩ (List.forall_mem_singleton.mpr routine)

theorem function_builds (bound : Nat) : (function declaration bound).Builds fun tree =>
    (Node.routine tree).WellFormed ∧ tree.name.isSome = true ∧ tree.parameters.isSome = true := by
  refine bind_builds (expect_builds _ (by decide)) fun name =>
    after_builds (expect_builds _ (by decide))
    fun _ => bind_builds (parameters_build bound) fun names =>
    after_builds (expect_builds _ (by decide)) fun _ => bind_builds (block_builds declared bound)
    fun body => pure_builds fun inside fits named => ⟨?_, rfl, rfl⟩
  exact .build ⟨fun _ same => Option.some.inj same ▸ named,
    fun _ same => Option.some.inj same ▸ fits⟩ (List.forall_mem_singleton.mpr inside)

theorem method_builds (bound : Nat) : (method declaration bound).Builds fun tree =>
    (Node.routine tree).WellFormed ∧ tree.name.isSome = true := by
  refine bind_builds (expect_builds _ (by decide)) fun name =>
    bind_builds (following_builds (parameters_build bound) (by decide)) fun names =>
    after_builds (expect_builds _ (by decide)) fun _ => bind_builds (block_builds declared bound)
    fun body => pure_builds fun inside fits named => ⟨?_, rfl⟩
  exact .build ⟨fun _ same => Option.some.inj same ▸ named, fits⟩
    (List.forall_mem_singleton.mpr inside)

theorem members_build (bound count : Nat) : (members (method declaration bound) count).Builds
    fun all => ∀ member ∈ all,
      (Node.routine member.2).WellFormed ∧ member.2.name.isSome = true := by
  induction count with
  | zero => exact pure_builds (List.forall_mem_nil _)
  | succ count induction =>
      refine after_builds next_builds fun token => ?_
      dsimp only
      refine builds_when (pure_builds (List.forall_mem_nil _)) ?_
      refine after_builds (accept_builds (by decide)) fun _ =>
        bind_builds (method_builds declared bound) fun first =>
        bind_builds induction fun rest => pure_builds fun others isGood => ?_
      exact List.forall_mem_cons.mpr ⟨isGood, others⟩

theorem class_declaration_builds (bound : Nat) : (classDeclaration declaration bound).Builds
    fun tree => (Node.statement tree).WellFormed := by
  have above : superclass.Builds fun place => place.name.kind = .identifier :=
    bind_builds (expect_builds _ (by decide)) fun name => after_builds fresh_builds fun id =>
      pure_builds fun named => named
  refine bind_builds (expect_builds _ (by decide)) fun name =>
    bind_builds (following_builds above (by decide)) fun place =>
    after_builds (expect_builds _ (by decide)) fun _ =>
      bind_builds (members_build declared bound bound)
      fun all => after_builds (expect_builds _ (by decide)) fun _ => pure_builds ?_
  intro built placed named
  have chosen (side : Bool × Routine → Bool) (routine : Routine)
      (member : routine ∈ (all.filter side).map (·.2)) :
      (Node.routine routine).WellFormed ∧ routine.name.isSome = true := by
    obtain ⟨listed, isListed, rfl⟩ := List.mem_map.mp member
    exact built listed (List.mem_of_mem_filter isListed)
  have sorted (side : Bool × Routine → Bool) :
      (Node.routines ((all.filter side).map (·.2))).WellFormed :=
    Node.routines_well_formed.mpr fun routine member => (chosen side routine member).1
  have own : (Node.statement (.classDeclaration name place ((all.filter (!·.1)).map (·.2))
      ((all.filter (·.1)).map (·.2)))).Lawful := by
    refine ⟨named, fun routine member => ?_⟩
    rcases List.mem_append.mp member with isMethod | isClassMethod
    · exact (chosen _ routine isMethod).2
    · exact (chosen _ routine isClassMethod).2
  refine .build own ?_
  cases place with
  | none => simpa [Node.parts] using ⟨sorted _, sorted _⟩
  | some place =>
      have reference : (Node.expression (.reference place)).WellFormed :=
        .build (placed place rfl) (List.forall_mem_nil _)
      simpa [Node.parts] using ⟨reference, sorted _, sorted _⟩

end

section

include values

theorem chain_builds {level : Level} (lawful : level.Lawful) (bound : Nat) (left : Expression) :
    (chain level expression bound left).Builds fun tree =>
      (Node.expression left).WellFormed → (Node.expression tree).WellFormed := by
  induction bound generalizing left with
  | zero => exact pure_builds id
  | succ bound induction =>
      refine bind_builds (accept_any_builds lawful.inner) fun found => ?_
      cases found with
      | none => exact pure_builds fun _ isLeft => isLeft
      | some operator =>
          refine bind_builds values fun right => builds_mono (induction _) ?_
          intro tree means isRight fits isLeft
          exact means (lawful.node (fits operator rfl) isLeft isRight)

theorem operations_build (bound : Nat) : (operations bound expression).Builds
    fun tree => (Node.expression tree).WellFormed := by
  have all := levels_lawful
  unfold operations
  generalize levels = wanted at all
  induction wanted with
  | nil => exact values
  | cons level rest induction =>
      obtain ⟨lawful, others⟩ := List.forall_mem_cons.mp all
      exact bind_builds (induction others) fun left =>
        chain_builds (induction others) lawful bound left

theorem trailers_build (bound : Nat) (target : Expression) :
    (trailers expression bound target).Builds fun tree =>
      (Node.expression target).WellFormed → (Node.expression tree).WellFormed := by
  induction bound generalizing target with
  | zero => exact pure_builds id
  | succ bound induction =>
      have called (arguments : List Expression) : Builds (do
          let closing ← expect .rightParen .argumentsEnd
          trailers expression bound (.call target closing arguments)) fun tree =>
            (arguments.length ≤ 255 ∧ ∀ value ∈ arguments, (Node.expression value).WellFormed) →
              (Node.expression target).WellFormed → (Node.expression tree).WellFormed := by
        refine bind_builds (expect_builds _ (by decide)) fun closing => builds_mono (induction _) ?_
        intro tree means closes given isTarget
        refine means (.build ⟨closes, given.1⟩ ?_)
        simpa [Node.parts] using ⟨isTarget, Node.expressions_well_formed.mpr given.2⟩
      refine after_builds (accept_builds (by decide)) fun _ => builds_when ?_
        (after_builds (accept_builds (by decide)) fun _ => builds_when ?_ (pure_builds id))
      · exact after_builds next_builds fun token => either_builds
          (pure_builds ⟨Nat.zero_le _, List.forall_mem_nil _⟩)
          (comma_separated_builds values _ (bound + 1) 0) called
      · refine bind_builds (expect_builds _ (by decide)) fun name => builds_mono (induction _) ?_
        intro tree means named isTarget
        exact means (.build named (List.forall_mem_singleton.mpr isTarget))

include declared

theorem primary_builds (bound : Nat) : (primary expression declaration bound).Builds
    fun tree => (Node.expression tree).WellFormed := by
  refine after_builds next_builds fun token => ?_
  split
  case h_1 | h_2 | h_3 | h_4 | h_5 =>
    exact after_builds skip_builds fun _ => pure_builds (.build trivial (List.forall_mem_nil _))
  case h_6 isKind | h_8 isKind =>
    refine after_builds skip_builds fun _ => after_builds fresh_builds fun id => pure_builds ?_
    exact .build isKind (List.forall_mem_nil _)
  case h_7 isKind =>
    refine after_builds skip_builds fun _ => after_builds (expect_builds _ (by decide)) fun _ =>
      bind_builds (expect_builds _ (by decide)) fun method => after_builds fresh_builds fun id =>
        pure_builds fun named => ?_
    exact .build ⟨isKind, named⟩ (List.forall_mem_nil _)
  case h_9 => exact after_builds skip_builds fun _ => lambda_builds declared bound
  case h_10 =>
    refine after_builds skip_builds fun _ => bind_builds values fun inner =>
      after_builds (expect_builds _ (by decide)) fun _ => pure_builds fun inside => ?_
    exact .build trivial (List.forall_mem_singleton.mpr inside)
  case h_11 => exact missing_builds _

omit declared values in
theorem assignment_builds (target value : Expression) (equals : Token) :
    (assignment target equals value).Builds fun tree =>
      (Node.expression target).WellFormed → (Node.expression value).WellFormed →
        (Node.expression tree).WellFormed := by
  unfold assignment
  split
  case h_1 place =>
    refine after_builds fresh_builds fun id => pure_builds fun isTarget isValue => ?_
    exact .build (Node.everywhere_iff.mp isTarget).1 (List.forall_mem_singleton.mpr isValue)
  case h_2 object name =>
    refine pure_builds fun isTarget isValue => ?_
    obtain ⟨named, parts⟩ := Node.everywhere_iff.mp isTarget
    have isObject := parts (.expression object) List.mem_cons_self
    exact .build named (by simpa [Node.parts] using ⟨isValue, isObject⟩)
  case h_3 =>
    exact bind_builds (note_builds _ _) fun _ => pure_builds fun impossible => impossible.elim

end

section

include values

theorem optional_builds (closing : Kind) : (optional closing expression).Builds
    fun found => ∀ tree ∈ found, (Node.expression tree).WellFormed := by
  refine after_builds next_builds fun token => builds_when (pure_builds nofun) ?_
  exact map_builds values fun tree isGood found same => Option.some.inj same ▸ isGood

theorem variable_declaration_builds : (variableDeclaration expression).Builds
    fun tree => (Node.statement tree).WellFormed := by
  refine bind_builds (expect_builds _ (by decide)) fun name =>
    bind_builds (following_builds values (by decide)) fun initializer =>
      after_builds (expect_builds _ (by decide)) fun _ => pure_builds fun inside named => ?_
  refine .build named ?_
  cases initializer with
  | none => exact List.forall_mem_nil _
  | some value => exact List.forall_mem_singleton.mpr (inside value rfl)

theorem expression_statement_builds : (expressionStatement expression).Builds
    fun tree => (Node.statement tree).WellFormed :=
  bind_builds values fun _ => after_builds (expect_builds _ (by decide)) fun _ =>
    pure_builds fun inside => .build trivial (List.forall_mem_singleton.mpr inside)

theorem print_statement_builds : (printStatement expression).Builds
    fun tree => (Node.statement tree).WellFormed :=
  bind_builds values fun _ => after_builds (expect_builds _ (by decide)) fun _ =>
    pure_builds fun inside => .build trivial (List.forall_mem_singleton.mpr inside)

theorem exit_statement_builds {keyword : Token} (written : keyword.kind = .returnWord) :
    (exitStatement keyword expression).Builds fun tree => (Node.statement tree).WellFormed := by
  refine bind_builds (optional_builds values _) fun value =>
    after_builds (expect_builds _ (by decide)) fun _ => pure_builds fun inside => ?_
  refine .build written ?_
  cases value with
  | none => exact List.forall_mem_nil _
  | some value => exact List.forall_mem_singleton.mpr (inside value rfl)

theorem for_initializer_builds : (forInitializer expression).Builds
    fun found => ∀ tree ∈ found, (Node.statement tree).WellFormed := by
  refine after_builds (accept_builds (by decide)) fun _ => builds_when (pure_builds nofun)
    (after_builds (accept_builds (by decide)) fun _ => builds_when ?_ ?_)
  · exact map_builds (variable_declaration_builds values) fun tree isGood found same =>
      Option.some.inj same ▸ isGood
  · exact map_builds (expression_statement_builds values) fun tree isGood found same =>
      Option.some.inj same ▸ isGood

omit values in
theorem desugared_well_formed {initializer : Option Statement}
    {condition increment : Option Expression} {body : Statement}
    (first : ∀ tree ∈ initializer, (Node.statement tree).WellFormed)
    (test : ∀ tree ∈ condition, (Node.expression tree).WellFormed)
    (update : ∀ tree ∈ increment, (Node.expression tree).WellFormed)
    (inside : (Node.statement body).WellFormed) :
    (Node.statement (desugared initializer condition increment body)).WellFormed := by
  have block {one other : Statement} (head : (Node.statement one).WellFormed)
      (tail : (Node.statement other).WellFormed) :
      (Node.statement (.block [one, other])).WellFormed := by
    have both : (Node.statements [one, other]).WellFormed :=
      Node.statements_well_formed.mpr (by simpa using ⟨head, tail⟩)
    exact .build trivial (List.forall_mem_singleton.mpr both)
  have round : (Node.statement (stepped increment body)).WellFormed := by
    cases increment with
    | none => exact inside
    | some value =>
        exact block inside (.build trivial (List.forall_mem_singleton.mpr (update value rfl)))
  have tested : (Node.expression (condition.getD (.literal (.boolean true)))).WellFormed := by
    cases condition with
    | none => exact .build trivial (List.forall_mem_nil _)
    | some value => exact test value rfl
  have loop : (Node.statement (.loop (condition.getD (.literal (.boolean true)))
      (stepped increment body))).WellFormed :=
    .build trivial (by simpa [Node.parts] using ⟨tested, round⟩)
  cases initializer with
  | none => exact loop
  | some initial => exact block (first initial rfl) loop

include orders

theorem for_statement_builds : (forStatement expression statement).Builds
    fun tree => (Node.statement tree).WellFormed := by
  refine after_builds (expect_builds _ (by decide)) fun _ =>
    bind_builds (for_initializer_builds values) fun initializer =>
    bind_builds (optional_builds values _) fun condition =>
    after_builds (expect_builds _ (by decide)) fun _ =>
    bind_builds (optional_builds values _) fun increment =>
    after_builds (expect_builds _ (by decide)) fun _ =>
      bind_builds orders fun body => pure_builds ?_
  exact fun inside update test first => desugared_well_formed first test update inside

theorem if_statement_builds : (ifStatement expression statement).Builds
    fun tree => (Node.statement tree).WellFormed := by
  refine after_builds (expect_builds _ (by decide)) fun _ => bind_builds values fun condition =>
    after_builds (expect_builds _ (by decide)) fun _ => bind_builds orders fun thenBranch =>
    bind_builds (following_builds orders (by decide)) fun elseBranch => pure_builds ?_
  intro others taken test
  refine .build trivial ?_
  cases elseBranch with
  | none => simpa [Node.parts] using ⟨test, taken⟩
  | some branch => simpa [Node.parts] using ⟨test, taken, others branch rfl⟩

theorem while_statement_builds : (whileStatement expression statement).Builds
    fun tree => (Node.statement tree).WellFormed :=
  after_builds (expect_builds _ (by decide)) fun _ => bind_builds values fun _ =>
    after_builds (expect_builds _ (by decide)) fun _ => bind_builds orders fun _ =>
      pure_builds fun inside test => .build trivial (by simpa [Node.parts] using ⟨test, inside⟩)

end

end Rules

theorem at_function_builds : atFunctionDeclaration.Builds fun _ => True :=
  at_function_declaration_reads.weaken fun _ _ _ _ _ => trivial

/-- What the rules that call themselves build, up to a bound. -/
structure AllBuild (bound : Nat) : Prop where
  expression : (expression bound).Builds fun tree => (Node.expression tree).WellFormed
  conditional : (conditional bound).Builds fun tree => (Node.expression tree).WellFormed
  unary : (unary bound).Builds fun tree => (Node.expression tree).WellFormed
  statement : (statement bound).Builds fun tree => (Node.statement tree).WellFormed
  declaration : (declaration bound).Builds fun tree => (Node.statement tree).WellFormed

variable {bound : Nat} (all : AllBuild bound)

include all

theorem expression_builds :
    (expression (bound + 1)).Builds fun tree => (Node.expression tree).WellFormed := by
  refine bind_builds all.conditional fun target =>
    after_builds (accept_builds (by decide)) fun found => ?_
  cases found with
  | none => exact pure_builds id
  | some equals =>
      refine bind_builds all.expression fun value => ?_
      exact builds_mono (assignment_builds target value equals)
        fun _ means isValue isTarget => means isTarget isValue

theorem conditional_builds :
    (conditional (bound + 1)).Builds fun tree => (Node.expression tree).WellFormed := by
  refine bind_builds (operations_build all.unary bound) fun condition =>
    after_builds (accept_builds (by decide)) fun found => ?_
  cases found with
  | none => exact pure_builds id
  | some question =>
      refine bind_builds all.expression fun thenBranch => after_builds (expect_builds _ (by decide))
        fun _ => bind_builds all.conditional fun elseBranch => pure_builds ?_
      exact fun others taken test =>
        .build trivial (by simpa [Node.parts] using ⟨test, taken, others⟩)

theorem unary_builds :
    (unary (bound + 1)).Builds fun tree => (Node.expression tree).WellFormed := by
  refine bind_builds (accept_any_builds (by decide)) fun found => ?_
  cases found with
  | none =>
      refine bind_builds (primary_builds all.expression all.declaration bound) fun head => ?_
      exact builds_mono (trailers_build all.expression bound head)
        fun _ means isHead _ => means isHead
  | some operator =>
      refine bind_builds all.unary fun operand => pure_builds fun inside fits => ?_
      exact .build (fits operator rfl) (List.forall_mem_singleton.mpr inside)

theorem statement_builds :
    (statement (bound + 1)).Builds fun tree => (Node.statement tree).WellFormed := by
  refine after_builds next_builds fun token => ?_
  split
  case h_1 =>
    exact after_builds skip_builds fun _ => for_statement_builds all.expression all.statement
  case h_2 =>
    exact after_builds skip_builds fun _ => if_statement_builds all.expression all.statement
  case h_3 =>
    exact after_builds skip_builds fun _ => while_statement_builds all.expression all.statement
  case h_4 isKind =>
    exact after_builds skip_builds fun _ => exit_statement_builds all.expression isKind
  case h_5 =>
    refine after_builds skip_builds fun _ => bind_builds (block_builds all.declaration bound)
      fun orders => pure_builds fun inside => ?_
    exact .build trivial (List.forall_mem_singleton.mpr inside)
  case h_6 => exact after_builds skip_builds fun _ => print_statement_builds all.expression
  case h_7 => exact expression_statement_builds all.expression

theorem declaration_builds :
    (declaration (bound + 1)).Builds fun tree => (Node.statement tree).WellFormed := by
  refine after_builds (accept_builds (by decide)) fun _ =>
    builds_when (class_declaration_builds all.declaration bound)
      (after_builds at_function_builds fun _ => builds_when ?_
        (after_builds (accept_builds (by decide)) fun _ =>
          builds_when (variable_declaration_builds all.expression) all.statement))
  refine after_builds skip_builds fun _ => bind_builds (function_builds all.declaration bound)
    fun declared => pure_builds fun means => ?_
  exact .build means.2 (List.forall_mem_singleton.mpr means.1)

omit all in
theorem all_build (bound : Nat) : AllBuild bound := by
  induction bound with
  | zero =>
      exact ⟨missing_builds _, missing_builds _, missing_builds _, missing_builds _,
        missing_builds _⟩
  | succ bound all =>
      exact ⟨expression_builds all, conditional_builds all, unary_builds all, statement_builds all,
        declaration_builds all⟩

omit all in
/-- What is built without a complaint, from the beginning of some tokens. -/
theorem built {α : Type} {rule : Rule α} {good : α → Prop} (builds : rule.Builds good)
    {tokens : List Token} {firstId : Nat} {tree : α} {after : Reading}
    (run : rule (.start tokens firstId) = .ok tree after) (quiet : after.complaints = []) :
    good tree := by
  have means := builds (.start tokens firstId)
  rw [run] at means
  obtain ⟨read, -, isGood⟩ := means.2 quiet
  exact isGood

end Rule

section Parsing

open Rule

variable {tokens : List Token} {firstId : Nat}

theorem program_well_formed {statements : List Statement}
    (accepted : (parseProgram tokens firstId).outcome = .ok statements) :
    (Node.statements statements).WellFormed := by
  unfold parseProgram at accepted
  dsimp only at accepted
  cases run : declarations (declaration (nesting tokens)) (· = .endOfInput) (nesting tokens)
      (.start tokens firstId) with
  | error complaint after =>
      rw [run] at accepted
      cases accepted
  | ok found after =>
      rw [run] at accepted
      obtain ⟨quiet, rfl⟩ := finish_ok accepted
      have builds := declarations_build (all_build (nesting tokens)).declaration
        (· = .endOfInput) (nesting tokens)
      exact Node.statements_well_formed.mpr (built builds run quiet)

theorem expression_well_formed {value : Expression}
    (accepted : (parseExpression tokens firstId).outcome = .ok value) :
    (Node.expression value).WellFormed := by
  unfold parseExpression at accepted
  cases run : expression (nesting tokens) (.start tokens firstId) with
  | error complaint after =>
      rw [run] at accepted
      cases accepted
  | ok found after =>
      rw [run] at accepted
      dsimp only at accepted
      split_ifs at accepted
      · obtain ⟨quiet, rfl⟩ := finish_ok accepted
        exact built (all_build (nesting tokens)).expression run quiet
      · exact absurd (finish_ok accepted).1 (by simp [Reading.note])

theorem line_well_formed {line : Line} (accepted : (parseLine tokens firstId).outcome = .ok line) :
    line.node.WellFormed := by
  have asProgram {nextId : Nat}
      (read : (parseProgram tokens nextId).outcome.map Line.statements = .ok line) :
      line.node.WellFormed := by
    cases outcome : (parseProgram tokens nextId).outcome with
    | error complaints =>
        rw [outcome] at read
        cases read
    | ok statements =>
        rw [outcome] at read
        cases read
        exact program_well_formed outcome
  unfold parseLine at accepted
  cases run : expression (nesting tokens) (.start tokens firstId) with
  | error complaint after =>
      rw [run] at accepted
      exact asProgram accepted
  | ok found after =>
      rw [run] at accepted
      dsimp only at accepted
      split_ifs at accepted
      · obtain ⟨quiet, rfl⟩ := finish_ok accepted
        exact built (all_build (nesting tokens)).expression run quiet
      · exact asProgram accepted

theorem Reader.read_well_formed (reader : Reader) {line : Line}
    (accepted : (reader.read tokens firstId).outcome = .ok line) : line.node.WellFormed := by
  cases reader with
  | program =>
      obtain ⟨statements, parsed, rfl⟩ := Parsed.map_ok accepted
      exact program_well_formed parsed
  | expression =>
      obtain ⟨value, parsed, rfl⟩ := Parsed.map_ok accepted
      exact expression_well_formed parsed
  | line => exact line_well_formed accepted

end Parsing

end Lox
