import Lox.Proofs.Execution.Replies
import Lox.Proofs.Grammar.Soundness

/-!
Reports. A source text that is rejected is always told why, all that is said about it is of one
kind or about one stage, and nothing of it is run. What is run is reported with no diagnostic at
all or with the one fault that ended it, which is never a static error.
-/

namespace Lox

section Reading

variable {α : Type}

/-- What a reader complained about. -/
def Parsed.complaints (parsed : Parsed α) : List Complaint :=
  match parsed.outcome with
  | .ok _ => []
  | .error complaints => complaints

/-- A reader that gives no tree says why. -/
def Parsed.Explained (parsed : Parsed α) : Prop := parsed.outcome ≠ .error []

theorem Reading.finish_explained (reading : Reading) (tree : α) :
    (reading.finish tree).Explained := by
  unfold Parsed.Explained finish
  dsimp only
  split_ifs with quiet
  · intro same
    cases same
  · intro same
    rw [Except.error.inj same] at quiet
    exact quiet rfl

theorem Reading.noted_explained (reading : Reading) (complaint : Complaint) (nextId : Nat) :
    Parsed.Explained (⟨.error (reading.note complaint).complaints, nextId⟩ : Parsed α) := by
  intro same
  exact List.append_ne_nil_of_right_ne_nil _ (List.cons_ne_nil complaint [])
    (Except.error.inj same)

theorem program_explained (tokens : List Token) (firstId : Nat) :
    (parseProgram tokens firstId).Explained := by
  unfold parseProgram
  dsimp only
  split
  · exact Reading.finish_explained _ _
  · exact Reading.noted_explained _ _ _

theorem line_explained (tokens : List Token) (firstId : Nat) :
    (parseLine tokens firstId).Explained := by
  have asProgram (firstId : Nat) : Parsed.Explained
      ⟨(parseProgram tokens firstId).outcome.map Line.statements,
        (parseProgram tokens firstId).nextId⟩ := by
    have explained := program_explained tokens firstId
    intro same
    cases outcome : (parseProgram tokens firstId).outcome <;> rw [outcome] at same <;> cases same
    exact explained outcome
  unfold parseLine
  dsimp only
  split
  · split_ifs
    · exact Reading.finish_explained _ _
    · exact asProgram _
  · exact asProgram _

/-- A line that counts as one expression is read as one up to the end of the input. -/
theorem expression_of_line {tokens : List Token} {firstId : Nat} {tree : Expression}
    (read : (parseLine tokens firstId).outcome = .ok (.expression tree)) :
    (parseExpression tokens firstId).outcome = .ok tree := by
  have noProgram (firstId : Nat) :
      (parseProgram tokens firstId).outcome.map Line.statements ≠ .ok (.expression tree) := by
    intro same
    cases outcome : (parseProgram tokens firstId).outcome <;> rw [outcome] at same <;> cases same
  unfold parseLine at read
  unfold parseExpression
  cases ended : Rule.expression (nesting tokens) (.start tokens firstId) with
  | error complaint after =>
      rw [ended] at read
      exact absurd read (noProgram after.nextId)
  | ok value after =>
      rw [ended] at read
      dsimp only at read ⊢
      split_ifs at read ⊢ with whole
      · obtain ⟨quiet, same⟩ := finish_ok read
        cases same
        unfold Reading.finish
        dsimp only
        rw [quiet]
        rfl
      · exact absurd read (noProgram after.nextId)

theorem error_line {piece : Piece} {line place : Nat} {cause : LexicalError}
    (isError : piece.item? line = some (.error place cause)) : place = line := by
  obtain ⟨sort, text⟩ := piece
  cases sort <;> cases isError <;> rfl

/-- The further down in a text, the later the line. -/
theorem items_from_lines (line : Nat) (pieces : List Piece) :
    (∀ error ∈ lexicalErrorsOf (itemsFrom line pieces), line ≤ error.1) ∧
      ((lexicalErrorsOf (itemsFrom line pieces)).map Prod.fst).Pairwise (· ≤ ·) := by
  induction pieces generalizing line with
  | nil => exact ⟨List.forall_mem_nil _, .nil⟩
  | cons piece rest induction =>
      obtain ⟨later, sorted⟩ := induction (line + piece.lineEnds)
      have onward : ∀ error ∈ lexicalErrorsOf (itemsFrom (line + piece.lineEnds) rest),
          line ≤ error.1 :=
        fun error member => Nat.le_trans (Nat.le_add_right _ _) (later error member)
      unfold itemsFrom
      dsimp only
      cases isItem : piece.item? (line + piece.lineEnds) with
      | none => exact ⟨onward, sorted⟩
      | some item =>
          cases item with
          | token token => exact ⟨onward, sorted⟩
          | error place cause =>
              cases error_line isItem
              refine ⟨List.forall_mem_cons.mpr ⟨Nat.le_add_right _ _, onward⟩, .cons ?_ sorted⟩
              exact List.forall_mem_map.mpr later

theorem lexical_errors_in_order (source : String) :
    ((lexicalErrorsOf (scan source)).map Prod.fst).Pairwise (· ≤ ·) :=
  (items_from_lines 1 _).2

end Reading

/-- What a text can be rejected for: all that is wrong with its tokens and then with their
order, or else all that is wrong with its names. -/
inductive Rejects {α : Type} (items : List Item) (parsed : Parsed α) (bindings : α → Bindings) :
    List Diagnostic → Prop where
  | unreadable : Rejects items parsed bindings
      (lexicalDiagnostics items ++ parsed.complaints.map Complaint.diagnostic)
  | misnamed {tree : α} (clean : lexicalErrorsOf items = []) (read : parsed.outcome = .ok tree) :
      Rejects items parsed bindings ((bindings tree).violations.map Violation.diagnostic)

/-- A fault of the running program or of its output. -/
def Diagnostic.IsLate (diagnostic : Diagnostic) : Prop :=
  (∃ line cause, diagnostic = .fault line cause) ∨ diagnostic = .outputClosed

theorem Diagnostic.late_iff (diagnostic : Diagnostic) :
    diagnostic.IsLate ↔ diagnostic.isStatic = false := by
  cases diagnostic <;> simp [IsLate, isStatic]

theorem Rejects.static {α : Type} {items : List Item} {parsed : Parsed α} {bindings : α → Bindings}
    {diagnostics : List Diagnostic} (rejects : Rejects items parsed bindings diagnostics) :
    ∀ diagnostic ∈ diagnostics, diagnostic.isStatic = true := by
  intro diagnostic member
  cases rejects with
  | unreadable =>
      rcases List.mem_append.mp member with lexical | grammatical
      · obtain ⟨error, -, rfl⟩ := List.mem_map.mp lexical
        rfl
      · obtain ⟨complaint, -, rfl⟩ := List.mem_map.mp grammatical
        rfl
  | misnamed clean read =>
      obtain ⟨violation, -, rfl⟩ := List.mem_map.mp member
      rfl

namespace Session

variable {α : Type} {session next : Session} {source : String}
  {parse : List Token → Nat → Parsed α} {bindings : α → Bindings}

/-- What is rejected is told why. -/
theorem prepare_rejects (explained : ∀ tokens firstId, (parse tokens firstId).Explained)
    {diagnostics : List Diagnostic}
    (rejected : session.prepare source parse bindings = (.error diagnostics, next)) :
    diagnostics ≠ [] ∧ Rejects (scan source) (parse (tokensOf (scan source)) session.nextId)
      bindings diagnostics := by
  have why := explained (tokensOf (scan source)) session.nextId
  have told : Rejects (scan source) (parse (tokensOf (scan source)) session.nextId) bindings _ :=
    .unreadable
  unfold Parsed.Explained at why
  unfold Parsed.complaints at told
  unfold prepare at rejected
  dsimp only at rejected
  cases outcome : (parse (tokensOf (scan source)) session.nextId).outcome with
  | error complaints =>
      rw [outcome] at rejected why told
      cases rejected
      refine ⟨fun none => why ?_, told⟩
      rw [List.map_eq_nil_iff.mp (List.append_eq_nil_iff.mp none).2]
  | ok tree =>
      rw [outcome] at rejected told
      dsimp only at rejected told
      rw [List.map_nil, List.append_nil] at told
      split_ifs at rejected with clean violations
      · cases rejected
      · cases rejected
        refine ⟨?_, .misnamed (List.map_eq_nil_iff.mp (List.isEmpty_iff.mp clean)) outcome⟩
        intro none
        rw [List.map_eq_nil_iff.mp none] at violations
        exact violations rfl
      · cases rejected
        exact ⟨fun none => clean (List.isEmpty_iff.mpr none), told⟩

/-- What is accepted has no static error. -/
theorem prepare_accepts {tree : α}
    (accepted : session.prepare source parse bindings = (.ok tree, next)) :
    lexicalErrorsOf (scan source) = [] ∧
      (parse (tokensOf (scan source)) session.nextId).outcome = .ok tree := by
  unfold prepare at accepted
  dsimp only at accepted
  cases outcome : (parse (tokensOf (scan source)) session.nextId).outcome with
  | error complaints =>
      rw [outcome] at accepted
      cases accepted
  | ok found =>
      rw [outcome] at accepted
      dsimp only at accepted
      split_ifs at accepted with clean violations <;> cases accepted
      exact ⟨List.map_eq_nil_iff.mp (List.isEmpty_iff.mp clean), rfl⟩

end Session

namespace Report

/-- The outcome says which diagnostics a report has. -/
structure Fits (report : Report) (source : String) (parsed : Parsed (List Statement)) : Prop where
  success : report.outcome = .success ↔ report.diagnostics = []
  staticError : report.outcome = .staticError ↔ report.diagnostics ≠ [] ∧
    Rejects (scan source) parsed Bindings.ofProgram report.diagnostics
  runtimeError : report.outcome = .runtimeError ↔
    ∃ diagnostic, report.diagnostics = [diagnostic] ∧ diagnostic.IsLate

theorem fits_success (output : String) (source : String) (parsed : Parsed (List Statement)) :
    Fits ⟨.success, output, []⟩ source parsed := by
  refine ⟨iff_of_true rfl rfl, iff_of_false ?_ fun both => both.1 rfl, iff_of_false ?_ ?_⟩
  · exact Outcome.noConfusion
  · exact Outcome.noConfusion
  · rintro ⟨diagnostic, same, -⟩
    cases same

theorem fits_static {diagnostics : List Diagnostic} {source : String}
    {parsed : Parsed (List Statement)} (told : diagnostics ≠ [])
    (rejects : Rejects (scan source) parsed Bindings.ofProgram diagnostics) :
    Fits ⟨.staticError, "", diagnostics⟩ source parsed := by
  refine ⟨iff_of_false ?_ told, iff_of_true rfl ⟨told, rejects⟩, iff_of_false ?_ ?_⟩
  · exact Outcome.noConfusion
  · exact Outcome.noConfusion
  · rintro ⟨diagnostic, rfl, late⟩
    have static := rejects.static diagnostic (List.mem_singleton.mpr rfl)
    rw [diagnostic.late_iff.mp late] at static
    cases static

theorem fits_late {diagnostic : Diagnostic} (late : diagnostic.IsLate) (output : String)
    (source : String) (parsed : Parsed (List Statement)) :
    Fits ⟨.runtimeError, output, [diagnostic]⟩ source parsed := by
  refine ⟨iff_of_false ?_ (List.cons_ne_nil _ _), iff_of_false ?_ ?_,
    iff_of_true rfl ⟨diagnostic, rfl, late⟩⟩
  · exact Outcome.noConfusion
  · exact Outcome.noConfusion
  · intro both
    have static := both.2.static diagnostic (List.mem_singleton.mpr rfl)
    rw [diagnostic.late_iff.mp late] at static
    cases static

end Report

theorem Run.program_fails_late (supply : Nat) (statements : List Statement) :
    (runProgram supply statements).FailsLate :=
  Setting.Relation.program_related (parts_fail_late supply) statements

namespace Session

theorem run_fits {supply : Nat} {session next : Session} {source : String} {report : Report}
    (ran : session.run supply source = some (report, next)) :
    report.Fits source (parseProgram (tokensOf (scan source)) session.nextId) ∧
      (report.outcome = .staticError → report.output = "" ∧
        ∃ distances, next.machine = { session.machine with distances := distances }) := by
  obtain ⟨distances, frame⟩ := session.prepare_frame source parseProgram Bindings.ofProgram
  unfold run at ran
  rcases prepared : session.prepare source parseProgram Bindings.ofProgram with
    ⟨diagnostics | statements, read⟩
  · rw [prepared] at ran frame
    cases ran
    obtain ⟨told, rejects⟩ := prepare_rejects program_explained prepared
    exact ⟨Report.fits_static told rejects, fun _ => ⟨rfl, distances, frame⟩⟩
  · rw [prepared] at ran
    dsimp only at ran
    rcases ended : runProgram supply statements read.machine with ⟨_, after⟩ | ⟨halt, after⟩
    · rw [ended] at ran
      cases ran
      exact ⟨Report.fits_success _ _ _, Outcome.noConfusion⟩
    · rw [ended] at ran
      cases halt with
      | exhausted => cases ran
      | failed diagnostic =>
          cases ran
          have late := Run.program_fails_late supply statements read.machine diagnostic after ended
          exact ⟨Report.fits_late (diagnostic.late_iff.mpr late) _ _ _, Outcome.noConfusion⟩

/-- An echo is the value of a line that is one expression and has no errors at all. -/
theorem echo_of_expression {supply : Nat} {session next : Session} {source : String}
    {report : LineReport} (ran : session.runLine supply source = some (report, next))
    {text : String} (echoed : report.echo = some text) :
    report.diagnostics = [] ∧ lexicalErrorsOf (scan source) = [] ∧
      ∃ tree, (parseExpression (tokensOf (scan source)) session.nextId).outcome = .ok tree ∧
        ∃ (value : Value) (after : Machine),
          evaluate supply tree (session.receive (.line source)).2.machine = .ok value after ∧
            text = value.text := by
  unfold runLine at ran
  unfold receive
  dsimp only
  rcases prepared : session.prepare source parseLine Bindings.ofLine with ⟨diagnostics | line, read⟩
  · rw [prepared] at ran
    cases ran
    cases echoed
  · rw [prepared] at ran
    dsimp only at ran ⊢
    obtain ⟨clean, outcome⟩ := prepare_accepts prepared
    cases line with
    | statements statements =>
        rw [Line.run_statements] at ran
        cases ended : runProgram supply statements read.machine with
        | ok result after =>
            rw [ended] at ran
            cases ran
            cases echoed
        | error halt after =>
            rw [ended] at ran
            cases halt <;> cases ran
            cases echoed
    | expression tree =>
        rw [Line.run_expression] at ran
        cases ended : evaluate supply tree read.machine with
        | ok value after =>
            rw [ended] at ran
            cases ran
            cases echoed
            exact ⟨rfl, clean, tree, expression_of_line outcome, value, after, ended, rfl⟩
        | error halt after =>
            rw [ended] at ran
            cases halt <;> cases ran
            cases echoed

end Session

/-- The outcome of a run, its diagnostics and its output belong together: without diagnostics it
was a success; a list of lexical errors down the text and then of syntax errors, or of errors in
names, means that nothing was run; and one fault by itself means that the run came to it. A line
shows a value only if there is nothing to report and it is one expression. -/
theorem reports_fit_outcomes :
    (∀ supply (session : Session) source report next,
      session.run supply source = some (report, next) →
        report.Fits source (parseProgram (tokensOf (scan source)) session.nextId) ∧
        (report.outcome = .staticError → report.output = "" ∧
          ∃ distances, next.machine = { session.machine with distances := distances })) ∧
    (∀ source, ((lexicalErrorsOf (scan source)).map Prod.fst).Pairwise (· ≤ ·)) ∧
    (∀ supply (session : Session) source report next,
      session.runLine supply source = some (report, next) → ∀ text, report.echo = some text →
        report.diagnostics = [] ∧ lexicalErrorsOf (scan source) = [] ∧
        ∃ tree, (parseExpression (tokensOf (scan source)) session.nextId).outcome = .ok tree ∧
          ∃ (value : Value) (after : Machine),
            evaluate supply tree (session.receive (.line source)).2.machine = .ok value after ∧
              text = value.text) :=
  ⟨fun _ _ _ _ _ => Session.run_fits, lexical_errors_in_order,
    fun _ _ _ _ _ ran _ => Session.echo_of_expression ran⟩

/-- Two lexical errors and a syntax error in one program, and a value that is shown. -/
theorem reports_fit_outcomes_run :
    (∃ report next, (Session.start ⟨.unlimited, []⟩ 0).run 5 "@\nprint ?;\n\"" = some (report, next) ∧
      report.diagnostics.length = 3 ∧ report.diagnostics ≠ [] ∧
      Rejects (scan "@\nprint ?;\n\"") (parseProgram (tokensOf (scan "@\nprint ?;\n\"")) 0)
        Bindings.ofProgram report.diagnostics) ∧
    ∃ report next, (Session.start ⟨.unlimited, []⟩ 0).runLine 5 "(nil)" = some (report, next) ∧
      report.echo = some "nil" ∧ report.diagnostics = [] := by
  have program : (Session.start ⟨.unlimited, []⟩ 0).run 5 "@\nprint ?;\n\"" =
      some (⟨.staticError, "", [.lexical 1 (.unexpectedCharacter '@'),
        .lexical 3 .unterminatedString,
        .grammatical ⟨.question, "?", 2⟩ (.expected .expression)]⟩,
        ⟨.start ⟨.unlimited, []⟩ 0, 0⟩) := by rfl
  have line : (Session.start ⟨.unlimited, []⟩ 0).runLine 5 "(nil)" =
      some (⟨some "nil", "", []⟩, ⟨.start ⟨.unlimited, []⟩ 0, 0⟩) := by rfl
  have rejected := ((reports_fit_outcomes.1 _ _ _ _ _ program).1.staticError).mp rfl
  have quiet := (reports_fit_outcomes.2.2 _ _ _ _ _ line "nil" rfl).1
  exact ⟨⟨_, _, program, rfl, rejected.1, rejected.2⟩, _, _, line, rfl, quiet⟩

end Lox
