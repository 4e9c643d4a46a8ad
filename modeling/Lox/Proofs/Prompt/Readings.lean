import Lox.Proofs.Grammar.Acceptance
import Lox.Proofs.Prompt.Statements

/-!
The two readings of a line at a prompt. No line is both an expression and a program: where a
program begins with an expression, a semicolon comes next, and no expression goes on there. So it
does not matter for what is accepted that an expression is tried first, and the attempt leaves
nothing behind but the numbers that it has used up.
-/

namespace Lox

open Phrase

/-- An expression with a semicolon behind it is not the beginning of a longer one. -/
theorem expression_complete {front back : List Token} {semicolon : Token}
    (closes : semicolon.kind = .semicolon) (part : Derives (form .expression) front) :
    ¬Derives (form .expression) (front ++ semicolon :: back) := by
  intro whole
  have reads := (Rule.reaches (front ++ semicolon :: back).length).expression _ (Nat.le_refl _)
  have noLonger : Kind.LooserThan 1 (leading (semicolon :: back)) := by
    rw [show leading (semicolon :: back) = .semicolon from closes]
    exact Nat.one_pos
  obtain ⟨value, left, laterId, run, rfl⟩ := reads front (semicolon :: back) part noLonger
    (Nat.le_refl _) 0 []
  obtain ⟨longer, left, lastId, again, rfl⟩ := reads (front ++ semicolon :: back) [] whole
    Nat.one_pos (by rw [List.append_nil]) 0 []
  -- both are the same run, which leaves the semicolon or nothing
  rw [List.append_nil, run] at again
  cases again

/-- No declaration begins an expression. -/
theorem declaration_begins_no_expression {front back : List Token}
    (declared : Derives (form .declaration) front) :
    ¬Derives (form .expression) (front ++ back) := by
  intro derived
  obtain ⟨first, others, same, starts, function⟩ := expression_begins derived
  have other {keyword : Token} {rest : List Token} {kind : Kind} (split : front = keyword :: rest)
      (fits : keyword.kind = kind) (starting : kind.startsExpression = false) : False := by
    rw [split, List.cons_append] at same
    obtain ⟨rfl, -⟩ := List.cons.inj same
    rw [fits, starting] at starts
    cases starts
  rw [derives_form, grammar] at declared
  simp only [derives_choice, or_assoc] at declared
  rcases declared with declared | declared | declared | declared
  · obtain ⟨keyword, rest, split, fits, -⟩ := derives_word_first.mp (derives_form.mp declared)
    exact other split fits rfl
  · obtain ⟨keyword, rest, rfl, fits, named⟩ := derives_word_first.mp (derives_form.mp declared)
    obtain ⟨name, rest, rfl, isName, -⟩ := derives_word_first.mp named
    obtain ⟨rfl, behind⟩ := List.cons.inj same
    obtain ⟨second, more, rfl, parenthesis⟩ := function fits
    obtain ⟨rfl, -⟩ := List.cons.inj behind
    rw [isName] at parenthesis
    cases parenthesis
  · obtain ⟨keyword, rest, split, fits, -⟩ := derives_word_first.mp (derives_form.mp declared)
    exact other split fits rfl
  · rw [derives_form] at declared
    simp only [grammar, derives_choice, derives_form, or_assoc] at declared
    rcases declared with declared | declared | declared | declared | declared | declared | declared
    case inl =>
      obtain ⟨value, rest, rfl, part, last⟩ := derives_in_order.mp declared
      obtain ⟨semicolon, rfl, closes⟩ := derives_word.mp (derives_in_order_one.mp last)
      rw [List.append_assoc] at derived
      exact expression_complete closes part derived
    all_goals
      obtain ⟨keyword, rest, split, fits, -⟩ := derives_word_first.mp declared
      exact other split fits rfl

/-- No expression is a program. -/
theorem expression_no_program {tokens : List Token} (derived : Derives (form .expression) tokens) :
    ¬Derives (form .program) tokens := by
  intro program
  rw [derives_form, grammar, derives_many] at program
  rcases program with rfl | ⟨front, back, rfl, head, -⟩
  · obtain ⟨first, rest, none, -⟩ := expression_begins derived
    cases none
  · exact declaration_begins_no_expression head derived

/-- A line whose first reading does not get to the end is read as a program. -/
theorem parse_line_otherwise {tokens : List Token} {firstId : Nat}
    (short : reachesEnd (Rule.expression (nesting tokens) (.start tokens firstId)) = false) :
    ∃ ahead, parseLine tokens firstId = (parseProgram tokens firstId).relabel (.shift ahead)
      fun statements => .statements (Statement.relabelAll (.shift ahead) statements) := by
  have onwards {nextId : Nat} (ordered : firstId ≤ nextId) :
      ∃ ahead, (⟨(parseProgram tokens nextId).outcome.map Line.statements,
          (parseProgram tokens nextId).nextId⟩ : Parsed Line) =
        (parseProgram tokens firstId).relabel (.shift ahead)
          fun statements => .statements (Statement.relabelAll (.shift ahead) statements) := by
    obtain ⟨ahead, rfl⟩ := Nat.exists_eq_add_of_le ordered
    refine ⟨ahead, ?_⟩
    rw [parse_program_shifted]
    unfold Parsed.relabel
    cases (parseProgram tokens firstId).outcome <;> rfl
  have account := (Rule.accounts (nesting tokens)).expression (.start tokens firstId)
  unfold parseLine
  dsimp only
  generalize Rule.expression (nesting tokens) (.start tokens firstId) = attempt at account short ⊢
  cases attempt with
  | error complaint after => exact onwards account.1
  | ok tree after =>
      have stops : ¬after.atEnd = true := fun atEnd => by
        rw [reachesEnd, atEnd] at short
        cases short
      dsimp only
      rw [if_neg stops]
      exact onwards account.1.1

/-- A line whose first reading gets to the end is that expression, or refused for what was noted
about it. -/
theorem parse_line_at_end {tokens : List Token} {firstId : Nat} {tree : Expression}
    {after : Reading}
    (run : Rule.expression (nesting tokens) (.start tokens firstId) = .ok tree after)
    (atEnd : after.atEnd = true) : parseLine tokens firstId = after.finish (.expression tree) ∧
      parseExpression tokens firstId = after.finish tree := by
  unfold parseLine parseExpression
  rw [run]
  dsimp only
  rw [if_pos atEnd, if_pos atEnd]
  exact ⟨rfl, rfl⟩

theorem finish_noted {α : Type} {reading : Reading} (noted : reading.complaints ≠ []) (tree : α) :
    reading.finish tree = ⟨.error reading.complaints, reading.nextId⟩ := by
  unfold Reading.finish
  rw [if_neg (fun quiet => noted (List.isEmpty_iff.mp quiet))]

theorem finish_quiet {α : Type} {reading : Reading} (quiet : reading.complaints = []) (tree : α) :
    reading.finish tree = ⟨.ok tree, reading.nextId⟩ := by
  unfold Reading.finish
  rw [quiet]
  rfl

/-- A line is an expression exactly if it is read as one. -/
theorem line_is_expression_iff (tokens : List Token) (firstId next : Nat) (value : Expression) :
    parseLine tokens firstId = ⟨.ok (.expression value), next⟩ ↔
      parseExpression tokens firstId = ⟨.ok value, next⟩ := by
  cases reached : reachesEnd (Rule.expression (nesting tokens) (.start tokens firstId)) with
  | true =>
      cases run : Rule.expression (nesting tokens) (.start tokens firstId) with
      | error complaint after =>
          rw [run] at reached
          cases reached
      | ok tree after =>
          rw [run] at reached
          obtain ⟨line, expression⟩ := parse_line_at_end run reached
          rw [line, expression]
          by_cases quiet : after.complaints = []
          · rw [finish_quiet quiet, finish_quiet quiet, Parsed.mk.injEq, Parsed.mk.injEq,
              Except.ok.injEq, Except.ok.injEq, Line.expression.injEq]
          · rw [finish_noted quiet, finish_noted quiet]
            constructor
            · intro same
              cases same
            · intro same
              cases same
  | false =>
      obtain ⟨ahead, line⟩ := parse_line_otherwise reached
      have noLine : parseLine tokens firstId ≠ ⟨.ok (.expression value), next⟩ := by
        rw [line]
        obtain ⟨outcome, last⟩ := parseProgram tokens firstId
        intro same
        cases outcome <;> cases same
      have noExpression : parseExpression tokens firstId ≠ ⟨.ok value, next⟩ := by
        unfold parseExpression
        cases run : Rule.expression (nesting tokens) (.start tokens firstId) with
        | error complaint after =>
            intro same
            cases same
        | ok tree after =>
            rw [run] at reached
            have stops : ¬after.atEnd = true := by
              change after.atEnd = false at reached
              rw [reached]
              exact Bool.noConfusion
            dsimp only
            rw [if_neg stops,
              finish_noted (List.append_ne_nil_of_right_ne_nil _ (List.cons_ne_nil _ []))]
            intro same
            cases same
      exact ⟨fun same => absurd same noLine, fun same => absurd same noExpression⟩

/-- The two readings of a line. The second one gives out later numbers if the first one has used up
some; nothing else is left of the first one. -/
theorem line_readings_apart {tokens : List Token} {ending : Token}
    (inner : ∀ token ∈ tokens, token.kind ≠ .endOfInput) (ends : ending.kind = .endOfInput)
    (firstId : Nat) :
    (∀ otherId value statements,
      ¬((parseExpression (tokens ++ [ending]) firstId).outcome = .ok value ∧
        (parseProgram (tokens ++ [ending]) otherId).outcome = .ok statements)) ∧
    (∀ value next, parseLine (tokens ++ [ending]) firstId = ⟨.ok (.expression value), next⟩ ↔
      parseExpression (tokens ++ [ending]) firstId = ⟨.ok value, next⟩) ∧
    (∀ tree after, Rule.expression (nesting (tokens ++ [ending]))
          (.start (tokens ++ [ending]) firstId) = .ok tree after → after.atEnd = true →
        after.complaints ≠ [] →
      parseLine (tokens ++ [ending]) firstId = ⟨.error after.complaints, after.nextId⟩ ∧
        parseExpression (tokens ++ [ending]) firstId = ⟨.error after.complaints, after.nextId⟩) ∧
    ((∀ tree after, Rule.expression (nesting (tokens ++ [ending]))
          (.start (tokens ++ [ending]) firstId) = .ok tree after → after.atEnd = false) →
      ∃ ahead, parseLine (tokens ++ [ending]) firstId =
        match parseProgram (tokens ++ [ending]) firstId with
        | ⟨.ok statements, next⟩ =>
            ⟨.ok (.statements (Statement.relabelAll (.shift ahead) statements)), next + ahead⟩
        | ⟨.error complaints, next⟩ => ⟨.error complaints, next + ahead⟩) := by
  refine ⟨?_, fun value next => line_is_expression_iff _ firstId next value, ?_, ?_⟩
  · rintro otherId value statements ⟨expression, program⟩
    exact expression_no_program (expression_derived inner ends expression)
      (program_derived inner ends program)
  · intro tree after run atEnd noted
    obtain ⟨line, expression⟩ := parse_line_at_end run atEnd
    exact ⟨line.trans (finish_noted noted _), expression.trans (finish_noted noted _)⟩
  · intro short
    have stopped : reachesEnd (Rule.expression (nesting (tokens ++ [ending]))
        (.start (tokens ++ [ending]) firstId)) = false := by
      cases run : Rule.expression (nesting (tokens ++ [ending]))
          (.start (tokens ++ [ending]) firstId) with
      | error complaint after => rfl
      | ok tree after => exact short tree after run
    obtain ⟨ahead, line⟩ := parse_line_otherwise stopped
    refine ⟨ahead, line.trans ?_⟩
    obtain ⟨outcome, next⟩ := parseProgram (tokens ++ [ending]) firstId
    cases outcome with
    | ok statements => rfl
    | error complaints =>
        have kept : complaints.map (Complaint.relabel (.shift ahead)) = complaints :=
          List.map_id _
        exact congrArg (fun same => (⟨.error same, next + ahead⟩ : Parsed Line)) kept

/-- A line that assigns to a literal gets the same complaint in both readings. -/
theorem literal_assignment_apart :
    (∀ token ∈ [(⟨.nilWord, "nil", 1⟩ : Token), ⟨.equal, "=", 1⟩, ⟨.identifier, "a", 1⟩],
        token.kind ≠ .endOfInput) ∧
      (⟨.endOfInput, "", 1⟩ : Token).kind = .endOfInput ∧
      parseLine [⟨.nilWord, "nil", 1⟩, ⟨.equal, "=", 1⟩, ⟨.identifier, "a", 1⟩,
        ⟨.endOfInput, "", 1⟩] 0 = ⟨.error [⟨⟨.equal, "=", 1⟩, .invalidTarget⟩], 1⟩ ∧
      parseExpression [⟨.nilWord, "nil", 1⟩, ⟨.equal, "=", 1⟩, ⟨.identifier, "a", 1⟩,
        ⟨.endOfInput, "", 1⟩] 0 = ⟨.error [⟨⟨.equal, "=", 1⟩, .invalidTarget⟩], 1⟩ := by
  refine ⟨by decide, rfl, ?_⟩
  obtain ⟨-, -, noted, -⟩ := @line_readings_apart
    [⟨.nilWord, "nil", 1⟩, ⟨.equal, "=", 1⟩, ⟨.identifier, "a", 1⟩] ⟨.endOfInput, "", 1⟩ (by decide)
    rfl 0
  exact noted (.literal .nil) ⟨[⟨.endOfInput, "", 1⟩], 1, [⟨⟨.equal, "=", 1⟩, .invalidTarget⟩]⟩ rfl
    (by decide) (by decide)

end Lox
