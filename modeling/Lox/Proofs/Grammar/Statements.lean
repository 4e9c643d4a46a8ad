import Lox.Proofs.Grammar.Openings
import Lox.Proofs.Grammar.Yields

/-!
What the rules for statements and declarations derive, given the rules that they
are built from. A list of declarations ends where it may be closed, unless there
were more declarations than the bound allows for.
-/

namespace Lox

open Phrase

namespace Rule

variable {expression : Rule Expression} {statement declaration : Rule Statement} {bound : Nat}

/-- A rule for statements reads no declaration. -/
def YieldsStatement (rule : Rule Statement) (phrase : Phrase) : Prop :=
  rule.Reads fun before read tree after =>
    Derives phrase read ∧ Numbered before.nextId after.nextId [.statement tree] ∧
      tree.isDeclaration = false

section

variable {α : Type} {phrase : Phrase} {phrases : List Phrase} {nodes : α → List Node}
  {rule : Rule α}

theorem some_yields (reads : rule.Yields phrase nodes) :
    (some <$> rule).Yields phrase fun found => found.toList.flatMap nodes := by
  rw [map_eq_pure_bind]
  refine Reads.finish reads fun before read tree after means => ?_
  simpa only [Option.toList_some, List.flatMap_singleton] using means

/-- Whether a token announced it or not, what follows is accounted for. -/
theorem following_reads (kind : Kind) {meaning : Meaning α} (reads : rule.Reads meaning)
    (inner : kind ≠ .endOfInput) :
    (following kind rule).Reads fun before read found after =>
      (found = none ∧ read = [] ∧ Numbered before.nextId after.nextId []) ∨
        ∃ tree front back, ∃ middle : Reading, found = some tree ∧ read = front ++ back ∧
          Derives (word kind) front ∧ Numbered before.nextId middle.nextId [] ∧
          meaning middle back tree after := by
  unfold following
  refine .accept inner (fun token => ?_) (.pure fun after before same => .inl ⟨rfl, rfl, same⟩)
  rw [if_pos Option.isSome_some, map_eq_pure_bind]
  refine reads.finish fun middle back tree after means before front fits same => ?_
  exact .inr ⟨tree, front, back, middle, rfl, rfl, fits, same, means⟩

theorem following_yields (kind : Kind) (reads : rule.Yields (inOrder phrases) nodes)
    (inner : kind ≠ .endOfInput) :
    (following kind rule).Yields (Phrase.optional (inOrder (word kind :: phrases)))
      fun found => found.toList.flatMap nodes := by
  refine (following_reads kind reads inner).weaken ?_
  rintro before read found after (⟨rfl, rfl, same⟩ |
    ⟨tree, front, back, middle, rfl, rfl, fits, same, derived, numbered⟩)
  · exact ⟨.absent, same⟩
  · refine ⟨(fits.before derived).present, ?_⟩
    have whole : Numbered before.nextId after.nextId (nodes tree) := same.append numbered
    simpa only [Option.toList_some, List.flatMap_singleton] using whole

end

theorem optional_expression_yields (closing : Kind)
    (each : expression.Yields (form .expression) fun tree => [.expression tree]) :
    (optional closing expression).Yields (Phrase.optional (form .expression))
      fun found => found.toList.flatMap fun tree => [.expression tree] := by
  unfold optional
  refine .peek fun token => Reads.anywhere ?_
  split
  case isTrue => exact .pure fun here => ⟨.absent, .nil (Nat.le_refl _)⟩
  case isFalse =>
    refine (some_yields each).weaken fun before read found after means => ?_
    exact ⟨means.1.present, means.2⟩

theorem variable_declaration_yields
    (each : expression.Yields (form .expression) fun tree => [.expression tree]) :
    (variableDeclaration expression).Yields (inOrder [word .identifier,
      Phrase.optional (inOrder [word .equal, form .expression]), word .semicolon])
      fun tree => [.statement tree] := by
  unfold variableDeclaration
  have alone : expression.Yields (inOrder [form .expression]) fun tree => [.expression tree] :=
    each.weaken fun _ _ _ _ means => ⟨means.1.alone, means.2⟩
  refine (expect_yields .identifier _ nofun).bind fun name =>
    (following_yields .equal alone nofun).bind fun initializer =>
      (expect_yields .semicolon _ nofun).finish ?_
  rintro third closing token after ⟨closes, sameThird⟩ second middle ⟨derived, numbered⟩ before
    first ⟨named, sameFirst⟩
  refine ⟨named.before (derived.before closes.alone), ?_⟩
  have parts := sameFirst.append (numbered.append sameThird)
  cases initializer with
  | none => exact parts.around rfl trivial
  | some value => exact parts.around rfl trivial

theorem expression_statement_yields
    (each : expression.Yields (form .expression) fun tree => [.expression tree]) :
    (expressionStatement expression).YieldsStatement (form .expressionStatement) := by
  unfold expressionStatement
  refine Reads.bind each fun value => (expect_yields .semicolon _ nofun).finish ?_
  rintro middle closing token after ⟨closes, same⟩ before front ⟨derived, numbered⟩
  exact ⟨.form (derived.before closes.alone), (numbered.append same).around rfl trivial, rfl⟩

theorem print_statement_yields
    (each : expression.Yields (form .expression) fun tree => [.expression tree]) :
    (printStatement expression).YieldsStatement (inOrder [form .expression, word .semicolon]) := by
  unfold printStatement
  refine Reads.bind each fun value => (expect_yields .semicolon _ nofun).finish ?_
  rintro middle closing token after ⟨closes, same⟩ before front ⟨derived, numbered⟩
  exact ⟨derived.before closes.alone, (numbered.append same).around rfl trivial, rfl⟩

theorem exit_statement_yields (keyword : Token)
    (each : expression.Yields (form .expression) fun tree => [.expression tree]) :
    (exitStatement keyword expression).YieldsStatement
      (inOrder [Phrase.optional (form .expression), word .semicolon]) := by
  unfold exitStatement
  refine (optional_expression_yields .semicolon each).bind fun value =>
    (expect_yields .semicolon _ nofun).finish ?_
  rintro middle closing token after ⟨closes, same⟩ before front ⟨derived, numbered⟩
  refine ⟨derived.before closes.alone, ?_, rfl⟩
  cases value with
  | none => exact (numbered.append same).around rfl trivial
  | some value => exact (numbered.append same).around rfl trivial

theorem for_initializer_yields
    (each : expression.Yields (form .expression) fun tree => [.expression tree]) :
    (forInitializer expression).Yields
      (form .variableDeclaration ||| form .expressionStatement ||| word .semicolon)
      fun found => found.toList.flatMap fun tree => [.statement tree] := by
  unfold forInitializer
  refine .accept nofun (fun token => .pure ?_) (.accept nofun (fun keyword => ?_) ?_)
  · intro after before front fits same
    rw [List.append_nil]
    exact ⟨.other fits, same⟩
  · refine (some_yields (variable_declaration_yields each)).weaken ?_
    rintro third read found after ⟨derived, numbered⟩ second front fits sameSecond before sameFirst
    refine ⟨.one (.one (.form (fits.before derived))), ?_⟩
    exact sameFirst.append (sameSecond.append numbered)
  · have plain : (expressionStatement expression).Yields (form .expressionStatement)
        fun tree => [.statement tree] :=
      (expression_statement_yields each).weaken fun _ _ _ _ means => ⟨means.1, means.2.1⟩
    refine (some_yields plain).weaken ?_
    rintro third read found after ⟨derived, numbered⟩ second sameSecond before sameFirst
    refine ⟨.one (.other derived), ?_⟩
    exact sameFirst.append (sameSecond.append numbered)

theorem stepped_numbered {increment : Option Expression} {body : Statement}
    {first middle last : Nat}
    (update : Numbered first middle (increment.toList.flatMap fun tree => [.expression tree]))
    (inner : Numbered middle last [.statement body]) (plain : body.isDeclaration = false) :
    Numbered first last [.statement (stepped increment body)] ∧
      (stepped increment body).isDeclaration = false := by
  cases increment with
  | none => exact ⟨update.append inner, plain⟩
  | some value =>
      have evaluated : Numbered first middle [.statement (.expression value)] :=
        update.around rfl trivial
      have orders := (evaluated.append inner).perm (.swap _ _ [])
      have gathered : Numbered first last [.statements [body, .expression value]] :=
        Numbered.gather Numbered.statements_gather orders
      exact ⟨gathered.around rfl trivial, rfl⟩

/-- The clauses of a loop move into two blocks, each around what it belongs to. -/
theorem desugared_numbered {initializer : Option Statement}
    {condition increment : Option Expression}
    {body : Statement} {first second third fourth last : Nat}
    (start : Numbered first second (initializer.toList.flatMap fun tree => [.statement tree]))
    (test : Numbered second third (condition.toList.flatMap fun tree => [.expression tree]))
    (update : Numbered third fourth (increment.toList.flatMap fun tree => [.expression tree]))
    (inner : Numbered fourth last [.statement body]) (plain : body.isDeclaration = false) :
    Numbered first last [.statement (desugared initializer condition increment body)] ∧
      (desugared initializer condition increment body).isDeclaration = false := by
  obtain ⟨step, stepPlain⟩ := stepped_numbered update inner plain
  have tested : Numbered second third
      [.expression (condition.getD (.literal (.boolean true)))] := by
    cases condition with
    | none => exact test.around rfl trivial
    | some value => exact test
  have loop : Numbered second last [.statement
      (.loop (condition.getD (.literal (.boolean true))) (stepped increment body))] :=
    (tested.append step).around rfl stepPlain
  cases initializer with
  | none => exact ⟨start.append loop, rfl⟩
  | some initial =>
      have gathered : Numbered first last [.statements [initial, .loop _ _]] :=
        Numbered.gather Numbered.statements_gather (start.append loop)
      exact ⟨gathered.around rfl trivial, rfl⟩

theorem for_statement_yields
    (each : expression.Yields (form .expression) fun tree => [.expression tree])
    (inner : statement.YieldsStatement (form .statement)) :
    (forStatement expression statement).YieldsStatement (inOrder [word .leftParen,
      form .variableDeclaration ||| form .expressionStatement ||| word .semicolon,
      Phrase.optional (form .expression), word .semicolon, Phrase.optional (form .expression),
      word .rightParen, form .statement]) := by
  unfold forStatement
  refine (expect_yields .leftParen _ nofun).bind fun _ =>
    (for_initializer_yields each).bind fun initializer =>
    (optional_expression_yields .semicolon each).bind fun condition =>
    (expect_yields .semicolon _ nofun).bind fun _ =>
    (optional_expression_yields .rightParen each).bind fun increment =>
    (expect_yields .rightParen _ nofun).bind fun _ => Reads.finish inner ?_
  rintro seventh body tree after ⟨looped, numbers, plain⟩ sixth parens ⟨closes, sameSixth⟩ fifth
    steps ⟨steps, update⟩ fourth semicolons ⟨ends, sameFourth⟩ third tests ⟨tests, test⟩ second
    starts ⟨starts, start⟩ before opens ⟨opening, sameFirst⟩
  refine ⟨opening.before (starts.before (tests.before (ends.before
    (steps.before (closes.before looped.alone))))), ?_⟩
  exact desugared_numbered (sameFirst.append start) test (sameFourth.append update)
    (sameSixth.append numbers) plain

theorem if_statement_yields
    (each : expression.Yields (form .expression) fun tree => [.expression tree])
    (inner : statement.YieldsStatement (form .statement)) :
    (ifStatement expression statement).YieldsStatement (inOrder [word .leftParen,
      form .expression, word .rightParen, form .statement,
      Phrase.optional (inOrder [word .elseWord, form .statement])]) := by
  unfold ifStatement
  refine (expect_yields .leftParen _ nofun).bind fun _ => Reads.bind each fun condition =>
    (expect_yields .rightParen _ nofun).bind fun _ => Reads.bind inner fun thenBranch =>
    (following_reads .elseWord inner nofun).finish ?_
  rintro fifth others elseBranch after elses fourth chosen ⟨taken, numbersTaken, plainTaken⟩ third
    parens ⟨closes, sameThird⟩ second tests ⟨test, numbered⟩ before opens ⟨opening, sameFirst⟩
  have parts := sameFirst.append (numbered.append (sameThird.append numbersTaken))
  rcases elses with ⟨rfl, rfl, same⟩ |
    ⟨tree, front, back, middle, rfl, rfl, fits, same, derived, numbersElse, plainElse⟩
  · refine ⟨opening.before (test.before (closes.before (taken.before (Derives.alone .absent)))),
      ?_, rfl⟩
    exact (parts.append same).around rfl ⟨plainTaken, nofun⟩
  · refine ⟨opening.before (test.before (closes.before (taken.before
      (fits.before derived.alone).present.alone))), ?_, rfl⟩
    refine (parts.append (same.append numbersElse)).around rfl ⟨plainTaken, fun branch member => ?_⟩
    rwa [← Option.some.inj member]

theorem while_statement_yields
    (each : expression.Yields (form .expression) fun tree => [.expression tree])
    (inner : statement.YieldsStatement (form .statement)) :
    (whileStatement expression statement).YieldsStatement (inOrder [word .leftParen,
      form .expression, word .rightParen, form .statement]) := by
  unfold whileStatement
  refine (expect_yields .leftParen _ nofun).bind fun _ => Reads.bind each fun condition =>
    (expect_yields .rightParen _ nofun).bind fun _ => Reads.finish inner ?_
  rintro fourth body tree after ⟨looped, numbers, plain⟩ third parens ⟨closes, sameThird⟩ second
    tests ⟨test, numbered⟩ before opens ⟨opening, sameFirst⟩
  have parts := sameFirst.append (numbered.append (sameThird.append numbers))
  exact ⟨opening.before (test.before (closes.before looped.alone)), parts.around rfl plain, rfl⟩

theorem resume_same (reading : Reading) :
    reading.resume.nextId = reading.nextId ∧ reading.resume.complaints = reading.complaints := by
  obtain ⟨rest, nextId, complaints⟩ := reading
  cases rest with
  | nil => exact ⟨rfl, rfl⟩
  | cons token rest =>
      unfold Reading.resume
      dsimp only
      split <;> exact ⟨rfl, rfl⟩

/-- Without complaints there is nothing to recover from. -/
theorem recovering_reads {α : Type} {rule : Rule α} {meaning : Meaning α}
    (reads : rule.Reads meaning) : (recovering rule).Reads fun before read found after =>
      ∃ tree, found = some tree ∧ meaning before read tree after := by
  intro before
  have run := reads before
  unfold recovering
  cases outcome : rule before with
  | ok tree after =>
      rw [outcome] at run
      refine ⟨run.1, fun same => ?_⟩
      obtain ⟨read, split, means⟩ := run.2 same
      exact ⟨read, split, tree, rfl, means⟩
  | error complaint after =>
      rw [outcome] at run
      obtain ⟨numbers, complaints⟩ := resume_same after
      have resumed : before.Precedes (after.resume.note complaint) := by
        refine run.trans ⟨Nat.le_of_eq numbers.symm, [complaint], ?_⟩
        rw [Reading.note, complaints]
      refine ⟨resumed, fun same => ?_⟩
      obtain ⟨-, added, adds⟩ := run
      have noted : (before.complaints ++ added) ++ [complaint] = before.complaints := by
        rw [← adds, ← complaints]
        exact same
      rw [List.append_assoc, List.append_right_eq_self] at noted
      cases List.append_eq_nil_iff.mp noted with | intro _ last => cases last

/-- Each declaration takes at least one token, so that the bound is only used up
by as many tokens. -/
theorem declarations_read (closes : Kind → Bool)
    (each : declaration.Yields (form .declaration) fun tree => [.statement tree]) (bound : Nat) :
    (declarations declaration closes bound).Reads fun before read trees after =>
      Derives (many (form .declaration)) read ∧
        Numbered before.nextId after.nextId (trees.map .statement) ∧
        (closes after.next.kind = true ∨ bound ≤ read.length) := by
  induction bound with
  | zero => exact .pure fun here => ⟨.none, .nil (Nat.le_refl _), .inr (Nat.le_refl _)⟩
  | succ bound induction =>
      unfold declarations
      refine next_reads.bind fun token => ?_
      split
      case isTrue closed =>
        refine .pure ?_
        rintro here before front ⟨rfl, rfl, rfl⟩
        exact ⟨.none, .nil (Nat.le_refl _), .inl closed⟩
      case isFalse =>
        refine (recovering_reads each).bind fun first => induction.finish ?_
        rintro third back others after ⟨tail, numbersTail, ending⟩ second front
          ⟨tree, rfl, head, numbersHead⟩ before looked ⟨rfl, -, rfl⟩
        rw [List.nil_append]
        refine ⟨.more head tail, numbersHead.append numbersTail, ?_⟩
        obtain ⟨opening, rest, rfl, -⟩ := declaration_begins head
        rcases ending with closed | long
        · exact .inl closed
        · refine .inr ?_
          simp only [List.length_append, List.length_cons]
          omega

theorem block_yields
    (each : declaration.Yields (form .declaration) fun tree => [.statement tree]) (bound : Nat) :
    (block declaration bound).YieldsBlock := by
  unfold block
  refine (declarations_read _ each bound).bind fun statements =>
    (expect_yields .rightBrace _ nofun).finish ?_
  rintro middle closing token after ⟨closes, same⟩ before front ⟨derived, numbered, -⟩
  refine ⟨derived.before closes.alone, Numbered.gather Numbered.statements_gather ?_⟩
  exact numbered.append same

theorem function_reads (body : (block declaration bound).YieldsBlock) :
    (function declaration bound).Reads fun before read tree after =>
      Derives (inOrder [word .identifier, word .leftParen, Phrase.optional (form .parameters),
        word .rightParen, form .block]) read ∧
        Numbered before.nextId after.nextId [.routine tree] ∧ tree.name.isSome = true := by
  unfold function
  refine (expect_yields .identifier _ nofun).bind fun name =>
    (expect_yields .leftParen _ nofun).bind fun _ => (parameters_yield bound).bind fun names =>
    (expect_yields .leftBrace _ nofun).bind fun _ => Reads.finish body ?_
  rintro fifth statements tree after ⟨derived, numbers⟩ fourth brace ⟨braced, sameFourth⟩ third
    listed ⟨list, sameThird⟩ second opens ⟨opening, sameSecond⟩ before named ⟨called, sameFirst⟩
  have written : Derives (form .block) (brace ++ statements) := .form (braced.before derived)
  have parts := sameFirst.append (sameSecond.append (sameThird.append (sameFourth.append numbers)))
  exact ⟨called.before (opening.before (list.followed written.alone)),
    parts.around rfl trivial, rfl⟩

theorem method_yields (body : (block declaration bound).YieldsBlock) :
    (method declaration bound).Yields (form .method) fun tree => [.routine tree] := by
  unfold method
  refine (expect_yields .identifier _ nofun).bind fun name =>
    (following_yields .leftParen (parameters_yield bound) nofun).bind fun names =>
    (expect_yields .leftBrace _ nofun).bind fun _ => Reads.finish body ?_
  rintro fourth statements tree after ⟨derived, numbers⟩ third brace ⟨braced, sameThird⟩ second
    listed ⟨list, sameSecond⟩ before named ⟨called, sameFirst⟩
  have written : Derives (form .block) (brace ++ statements) := .form (braced.before derived)
  have same : Numbered before.nextId third.nextId [] :=
    .nil (Nat.le_trans sameFirst.ordered sameSecond.ordered)
  exact ⟨.form (called.before (list.before written.alone)),
    (same.append (sameThird.append numbers)).around rfl trivial⟩

theorem members_yield {method : Rule Routine}
    (each : method.Yields (form .method) fun tree => [.routine tree]) (bound : Nat) :
    (members method bound).Yields
      (many (inOrder [Phrase.optional (word .classWord), form .method]))
      fun members => members.map fun member => .routine member.2 := by
  induction bound with
  | zero => exact .pure fun here => ⟨.none, .nil (Nat.le_refl _)⟩
  | succ bound induction =>
      unfold members
      have others (atClassLevel : Bool) : Reads (do
          let first ← method
          return (atClassLevel, first) :: (← members method bound)) fun before read members after =>
            ∃ front back, read = front ++ back ∧ Derives (form .method) front ∧
              Derives (many (inOrder [Phrase.optional (word .classWord), form .method])) back ∧
              Numbered before.nextId after.nextId
                (members.map fun member => .routine member.2) := by
        refine Reads.bind each fun first => Reads.finish induction ?_
        rintro middle back rest after ⟨tail, numbersTail⟩ before front ⟨head, numbersHead⟩
        exact ⟨front, back, rfl, head, tail, numbersHead.append numbersTail⟩
      refine .peek fun token => Reads.anywhere ?_
      dsimp only
      split
      case isTrue => exact .pure fun here => ⟨.none, .nil (Nat.le_refl _)⟩
      case isFalse =>
        refine .accept nofun (fun keyword => (others true).weaken ?_) ((others false).weaken ?_)
        · rintro middle read members after ⟨front, back, rfl, head, tail, numbered⟩ before marks
            marked same
          refine ⟨?_, same.append numbered⟩
          rw [← List.append_assoc]
          exact .more (marked.present.before head.alone) tail
        · rintro middle read members after ⟨front, back, rfl, head, tail, numbered⟩ before same
          refine ⟨.more ?_ tail, same.append numbered⟩
          rw [← List.nil_append front]
          exact Derives.absent.before head.alone

theorem superclass_yields :
    superclass.Yields (inOrder [word .identifier])
      fun place => [.expression (.reference place)] := by
  unfold superclass
  refine (expect_yields .identifier _ nofun).bind fun name => fresh_reads.finish ?_
  rintro middle read id after ⟨rfl, rfl, numbers⟩ before front ⟨named, same⟩
  rw [List.append_nil, numbers]
  exact ⟨named.alone, same.occurring rfl rfl trivial⟩

theorem class_declaration_yields (body : (block declaration bound).YieldsBlock) :
    (classDeclaration declaration bound).Yields (inOrder [word .identifier,
      Phrase.optional (inOrder [word .less, word .identifier]), word .leftBrace,
      many (inOrder [Phrase.optional (word .classWord), form .method]), word .rightBrace])
      fun tree => [.statement tree] := by
  unfold classDeclaration
  refine (expect_yields .identifier _ nofun).bind fun name =>
    (following_yields .less superclass_yields nofun).bind fun superclass =>
    (expect_yields .leftBrace _ nofun).bind fun _ =>
    (members_yield (method_yields body) bound).bind fun all =>
    (expect_yields .rightBrace _ nofun).finish ?_
  rintro fifth closing token after ⟨closes, sameFifth⟩ fourth written ⟨listed, numbers⟩ third opens
    ⟨opening, sameThird⟩ second inherits ⟨inherited, place⟩ before named ⟨called, sameFirst⟩
  refine ⟨called.before (inherited.before (opening.before (listed.before closes.alone))), ?_⟩
  have sorted : Numbered third.nextId after.nextId _ :=
    (sameThird.append numbers).sorted.append sameFifth
  have parts := (sameFirst.append place).append sorted
  cases superclass with
  | none => exact parts.around rfl trivial
  | some place => exact parts.around rfl trivial

end Rule

end Lox
