import Lox.CommandLine
import Lox.Proofs.Execution.Output
import Lox.Proofs.Execution.Replies
import Lox.Proofs.Joining.Programs
import Lox.Proofs.Joining.Scans
import Lox.Proofs.Joining.Supplies
import Lox.Proofs.Prompt.Trailing
import Lox.Proofs.Renaming.Shift

/-!
Values shown at a prompt. A line that is one expression is shown the text that a print statement
writes for it: the statement has the same expression in it, read with the same numbers and bound
in the same way, and all that it does on its own is to write the value behind the output.
-/

namespace Lox

/-- The expression in a print statement. A line end keeps the semicolon out of its comments. -/
def printing (source : String) : String := "print " ++ source ++ "\n;"

section Scanning

theorem pieces_after_print (rest : List Char) :
    piecesOf ("print".toList ++ ' ' :: rest) =
      ⟨.lexeme .printWord, "print".toList⟩ :: ⟨.blank, [' ']⟩ :: piecesOf rest := by
  have isWord : IsWord "print".toList :=
    keyword_is_word (show ("print", Kind.printWord) ∈ keywords by decide)
  have stops : ∀ first ∈ (' ' :: rest).head?, isWordPart first = false := by simp [isWordPart]
  obtain ⟨first, tail, same, cut⟩ := word_before isWord stops
  rw [same, List.cons_append, pieces_cons, cut, pieces_cons, ← same]
  rfl

variable {source : String}

theorem pieces_of_printing (sound : ∀ piece ∈ piecesOf source.toList, piece.isSound = true) :
    piecesOf (printing source).toList =
      ⟨.lexeme .printWord, "print".toList⟩ :: ⟨.blank, [' ']⟩ ::
        (piecesOf source.toList ++ [⟨.blank, ['\n']⟩, ⟨.lexeme .semicolon, [';']⟩]) := by
  have text : (printing source).toList =
      "print".toList ++ ' ' :: (source.toList ++ '\n' :: [';']) := by
    simp [printing]
  rw [text, pieces_after_print,
    pieces_line_end _ fun piece member => Piece.closed_of_sound (sound piece member)]
  rfl

/-- The tokens of the expression stand between the keyword and the semicolon. -/
theorem scan_of_printing (clean : lexicalErrorsOf (scan source) = []) :
    lexicalErrorsOf (scan (printing source)) = [] ∧
      ∃ ending : Token, ending.kind = .endOfInput ∧ tokensOf (scan (printing source)) =
        ⟨.printWord, "print", 1⟩ ::
          (written source ++ [⟨.semicolon, ";", 1 + lineEnds source + 1⟩, ending]) := by
  have sound := sound_of_clean clean
  have pieces := pieces_of_printing sound
  constructor
  · rw [scan, pieces]
    apply clean_of_sound
    simp only [List.mem_cons, List.mem_append, List.not_mem_nil, or_false]
    rintro piece (rfl | rfl | member | rfl | rfl)
    · rfl
    · rfl
    · exact sound piece member
    · rfl
    · rfl
  · refine ⟨⟨.endOfInput, "", 1 + lineEnds (printing source)⟩, rfl, ?_⟩
    rw [tokens_of_scan, written, pieces]
    change Token.mk .printWord "print" 1 :: (tokensFrom 1 (piecesOf source.toList ++ _) ++ _) = _
    rw [tokens_from_append, lines_of_pieces, List.append_assoc]
    rfl

end Scanning

section Reading

open Rule

theorem declaration_prints {word : Token} (prints : word.kind = .printWord) (bound : Nat)
    (rest : List Token) (nextId : Nat) (complaints : List Complaint) :
    declaration (bound + 2) ⟨word :: rest, nextId, complaints⟩ =
      printStatement (expression bound) ⟨rest, nextId, complaints⟩ := by
  obtain ⟨kind, lexeme, line⟩ := word
  obtain rfl : kind = .printWord := prints
  cases rest <;> rfl

/-- An expression that is accepted has been read up to the end of the input. -/
theorem expression_run {tokens : List Token} {ending : Token} {firstId : Nat} {tree : Expression}
    (inner : ∀ token ∈ tokens, token.kind ≠ .endOfInput) (ends : ending.kind = .endOfInput)
    (accepted : (parseExpression (tokens ++ [ending]) firstId).outcome = .ok tree) :
    ∃ next, expression (nesting (tokens ++ [ending])) (.start (tokens ++ [ending]) firstId) =
      .ok tree ⟨[ending], next, []⟩ := by
  have account := (accounts (nesting (tokens ++ [ending]))).expression
    (.start (tokens ++ [ending]) firstId)
  unfold parseExpression at accepted
  cases run : expression (nesting (tokens ++ [ending])) (.start (tokens ++ [ending]) firstId) with
  | error complaint after =>
      rw [run] at accepted
      cases accepted
  | ok found after =>
      rw [run] at accepted account
      dsimp only at accepted
      split at accepted
      case isTrue stops =>
        obtain ⟨quiet, rfl⟩ := finish_ok accepted
        obtain ⟨read, split, derived, -⟩ := account.2 quiet
        change tokens ++ [ending] = read ++ after.rest at split
        obtain rfl :=
          read_all split (of_decide_eq_true stops) ends inner (derives_inner derived rfl)
        have rest : [ending] = after.rest := List.append_cancel_left split
        obtain ⟨_, next, _⟩ := after
        subst quiet rest
        exact ⟨next, rfl⟩
      case isFalse => exact absurd (finish_ok accepted).1 (by simp [Reading.note])

/-- The same, wherever the numbers begin. -/
theorem expression_run_from {tokens : List Token} {ending : Token} {tree : Expression} {next : Nat}
    (run : expression (nesting (tokens ++ [ending])) (.start (tokens ++ [ending]) 0) =
      .ok tree ⟨[ending], next, []⟩) (firstId : Nat) :
    expression (nesting (tokens ++ [ending])) (.start (tokens ++ [ending]) firstId) =
      .ok (tree.relabel (.shift firstId)) ⟨[ending], next + firstId, []⟩ := by
  have silent := Labels.shift_silent firstId
  have moved := (all_natural silent (nesting (tokens ++ [ending]))).expression
    (.start (tokens ++ [ending]) 0)
  rw [start_relabel, Labels.shift_tokens, Labels.shift_zero, run] at moved
  exact moved

section Run

variable {tokens : List Token} {ending : Token} {firstId next : Nat} {tree : Expression}
  (ends : ending.kind = .endOfInput)
  (run : expression (nesting (tokens ++ [ending])) (.start (tokens ++ [ending]) firstId) =
    .ok tree ⟨[ending], next, []⟩)

include ends run

theorem line_of_expression :
    parseLine (tokens ++ [ending]) firstId = ⟨.ok (.expression tree), next⟩ := by
  have atEnd : (Reading.mk [ending] next []).atEnd = true := decide_eq_true ends
  unfold parseLine
  rw [run]
  dsimp only
  rw [if_pos atEnd]
  rfl

/-- Before whatever ends an expression the same one is read, with the same numbers. -/
theorem expression_before_stop {bound : Nat} (isLater : nesting (tokens ++ [ending]) ≤ bound)
    {rest : List Token} (stops : (leading rest).EndsExpression) :
    expression bound ⟨tokens ++ rest, firstId, []⟩ = .ok tree ⟨rest, next, []⟩ := by
  have enough : 8 * (tokens.length + 2) + 3 ≤ nesting (tokens ++ [ending]) + 8 := by
    simp only [nesting, List.length_append, List.length_singleton]
    omega
  have trails := (all_trail isLater).expression _ enough (.start (tokens ++ [ending]) firstId)
  rw [run] at trails
  obtain ⟨read, split, once⟩ := trails.2 rfl
  obtain rfl : tokens = read := List.append_cancel_right split
  exact once.again (by simp [Reading.start]) (.inl ends) _ [] stops

theorem program_of_printing {word semicolon closing : Token} (prints : word.kind = .printWord)
    (closes : semicolon.kind = .semicolon) (stops : closing.kind = .endOfInput) :
    parseProgram (word :: (tokens ++ [semicolon, closing])) firstId =
      ⟨.ok [.print tree], next⟩ := by
  obtain ⟨bound, isBound, isLater⟩ : ∃ bound,
      nesting (word :: (tokens ++ [semicolon, closing])) = bound + 2 ∧
        nesting (tokens ++ [ending]) ≤ bound := by
    refine ⟨nesting (word :: (tokens ++ [semicolon, closing])) - 2, ?_, ?_⟩ <;>
      · simp only [nesting, List.length_cons, List.length_append, List.length_nil]
        omega
  have stop : (leading [semicolon, closing]).EndsExpression := .inr (.inl closes)
  have value := expression_before_stop ends run isLater stop
  have statement : declaration (bound + 2) ⟨word :: (tokens ++ [semicolon, closing]), firstId, []⟩ =
      .ok (.print tree) ⟨[closing], next, []⟩ := by
    obtain ⟨kind, lexeme, line⟩ := semicolon
    obtain rfl : kind = .semicolon := closes
    rw [declaration_prints prints]
    exact bind_ok value
  have program : declarations (declaration (bound + 2)) (· = .endOfInput) (bound + 2)
      (.start (word :: (tokens ++ [semicolon, closing])) firstId) =
        .ok [.print tree] ⟨[closing], next, []⟩ := by
    have ongoing : decide (word.kind = .endOfInput) = false := by
      rw [prints]
      rfl
    have read : recovering (declaration (bound + 2))
        (.start (word :: (tokens ++ [semicolon, closing])) firstId) =
          .ok (some (.print tree)) ⟨[closing], next, []⟩ := by
      rw [recovering, Reading.start, statement]
    rw [declarations_once ongoing read, map_run,
      declarations_closed
        (show decide (closing.kind = .endOfInput) = true from decide_eq_true stops)]
    rfl
  unfold parseProgram
  rw [isBound]
  dsimp only
  rw [program]
  rfl

end Run

end Reading

/-- How a program ends that ends with some diagnostics: they are static, or of its run. -/
def failureOf (diagnostics : List Diagnostic) : Outcome :=
  if diagnostics.all Diagnostic.isStatic then .staticError else .runtimeError

namespace LineReport

/-- What comes of the program that prints what this line shows. -/
def printed : LineReport → Report
  | ⟨some text, output, _⟩ => ⟨.success, output ++ text ++ "\n", []⟩
  | ⟨none, output, diagnostics⟩ => ⟨failureOf diagnostics, output, diagnostics⟩

/-- What the command that evaluates a file answers if this line is in the file. -/
def evaluated : LineReport → Answer
  | ⟨some text, output, _⟩ => ⟨0, output ++ text ++ "\n", ""⟩
  | ⟨none, output, diagnostics⟩ =>
      ⟨(failureOf diagnostics).exitCode, output, diagnosticLines diagnostics⟩

end LineReport

section Running

/-- To run the print statement is to evaluate the expression and to write its value. -/
theorem print_program (supply : Nat) (tree : Expression) :
    runProgram (supply + 1) [.print tree] = evaluate supply tree >>= Run.print := by
  have unfolded : runProgram (supply + 1) [.print tree] = ((evaluate supply tree >>= fun value =>
      Run.print value >>= fun _ => pure Completion.normal) >>= _) >>= fun _ => pure () := rfl
  rw [unfolded]
  simp only [bind_assoc, pure_bind]
  exact congrArg _ (funext fun value => bind_pure (Run.print value))

section Ended

variable {supply : Nat} {tree : Expression} {machine after : Machine}

theorem print_value (isOpen : machine.IsOpen) {value : Value}
    (ended : evaluate supply tree machine = .ok value after) :
    ∃ sink, runProgram (supply + 1) [.print tree] machine = .ok () { after with sink := sink } ∧
      sink.text = after.sink.text ++ value.text ++ "\n" ∧ sink.emptied = after.sink.emptied := by
  have stays : (Ending.machine (evaluate supply tree machine)).IsOpen :=
    open_lasting.after_task isOpen supply (.evaluation tree)
  rw [ended] at stays
  change after.IsOpen at stays
  obtain ⟨sink, printed, text, room⟩ := Run.print_open stays value
  refine ⟨sink, ?_, text, ?_⟩
  · rw [print_program]
    exact (bind_ok ended).trans printed
  · rw [Sink.emptied, Sink.emptied, room, stays]

theorem print_halted {halt : Halt} (ended : evaluate supply tree machine = .error halt after) :
    runProgram (supply + 1) [.print tree] machine = .error halt after := by
  rw [print_program]
  exact bind_error ended

end Ended

theorem print_bindings (tree : Expression) :
    Bindings.ofProgram [.print tree] = Bindings.ofExpression tree := rfl

theorem violations_static (violations : List Violation) :
    failureOf (violations.map Violation.diagnostic) = .staticError := by
  rw [failureOf, if_pos]
  simp only [List.all_map, List.all_eq_true]
  exact fun violation _ => rfl

theorem failure_no_success (diagnostics : List Diagnostic) : failureOf diagnostics ≠ .success := by
  unfold failureOf
  split_ifs <;> exact nofun

theorem fault_late {diagnostic : Diagnostic} (late : diagnostic.isStatic = false) :
    failureOf [diagnostic] = .runtimeError := by
  rw [failureOf, if_neg]
  simp [late]

namespace Session

variable {session : Session} {source : String}

theorem prepare_parsed {α : Type} {parse : List Token → Nat → Parsed α} {bindings : α → Bindings}
    {tree : α} {next : Nat} (clean : lexicalErrorsOf (scan source) = [])
    (parsed : parse (tokensOf (scan source)) session.nextId = ⟨.ok tree, next⟩) :
    session.prepare source parse bindings =
      (if (bindings tree).violations.isEmpty then .ok tree
        else .error ((bindings tree).violations.map Violation.diagnostic),
        ⟨session.machine.bondAll (bindings tree).bonds, next⟩) := by
  unfold prepare lexicalDiagnostics
  dsimp only
  rw [clean, parsed]
  dsimp only
  rw [List.map_nil, List.isEmpty_nil, if_pos rfl]
  split_ifs <;> rfl

section Expression

variable {tree : Expression} {next : Nat} (clean : lexicalErrorsOf (scan source) = [])
  (lineParsed : parseLine (tokensOf (scan source)) session.nextId = ⟨.ok (.expression tree), next⟩)

include clean lineParsed

/-- What comes of a line that is an expression. -/
theorem run_line_eq (supply : Nat) : session.runLine supply source =
    let ready : Session := ⟨session.machine.bondAll (Bindings.ofExpression tree).bonds, next⟩
    if (Bindings.ofExpression tree).violations.isEmpty then
      match evaluate supply tree ready.machine with
      | .ok value after => some (⟨some value.text, after.sink.text, []⟩, (ready.close after).2)
      | .error (.failed diagnostic) after =>
          some (⟨none, after.sink.text, [diagnostic]⟩, (ready.close after).2)
      | .error .exhausted _ => none
    else
      some (⟨none, "", (Bindings.ofExpression tree).violations.map Violation.diagnostic⟩,
        ready) := by
  have found : Bindings.ofLine (.expression tree) = Bindings.ofExpression tree := rfl
  unfold runLine
  rw [prepare_parsed clean lineParsed, found]
  dsimp only
  split_ifs
  · dsimp only
    rw [Line.run_expression]
    rcases evaluate supply tree (session.machine.bondAll (Bindings.ofExpression tree).bonds) with
      ⟨value, after⟩ | ⟨_ | _, after⟩ <;> rfl
  · rfl

/-- The program reports what the line shows, and leaves the same session. -/
theorem run_printing (isOpen : session.machine.IsOpen)
    (programParsed : parseProgram (tokensOf (scan (printing source))) session.nextId =
      ⟨.ok [.print tree], next⟩) (supply : Nat) :
    session.run (supply + 1) (printing source) =
      (session.runLine supply source).map fun answered => (answered.1.printed, answered.2) := by
  have bonded : (session.machine.bondAll (Bindings.ofExpression tree).bonds).IsOpen := by
    obtain ⟨distances, same⟩ := bond_all_frame session.machine (Bindings.ofExpression tree).bonds
    rw [same]
    exact isOpen
  rw [run_line_eq clean lineParsed, run, prepare_parsed (scan_of_printing clean).1 programParsed,
    print_bindings]
  dsimp only
  split_ifs
  · dsimp only
    cases ended : evaluate supply tree
      (session.machine.bondAll (Bindings.ofExpression tree).bonds) with
    | ok value after =>
        obtain ⟨sink, printed, text, emptied⟩ := print_value bonded ended
        rw [printed]
        dsimp only [close]
        rw [text, emptied]
        rfl
    | error halt after =>
        rw [print_halted ended]
        cases halt with
        | exhausted => rfl
        | failed diagnostic =>
            have late := (Run.parts_fail_late supply).evaluate tree _ diagnostic after ended
            dsimp only
            rw [Option.map_some, LineReport.printed, fault_late late]
            rfl
  · dsimp only
    rw [Option.map_some, LineReport.printed, violations_static]

end Expression

end Session

end Running

/-- What is read as an expression is read as one at the prompt, and in a print statement. -/
theorem expression_readings {source : String} {tree : Expression}
    (accepted : readExpression source = .ok tree) :
    lexicalErrorsOf (scan source) = [] ∧ ∃ next,
      parseLine (tokensOf (scan source)) 0 = ⟨.ok (.expression tree), next⟩ ∧
      ∀ firstId, ∃ shifted last,
        parseLine (tokensOf (scan source)) firstId = ⟨.ok (.expression shifted), last⟩ ∧
        parseProgram (tokensOf (scan (printing source))) firstId =
          ⟨.ok [.print shifted], last⟩ := by
  unfold readExpression at accepted
  dsimp only at accepted
  split_ifs at accepted with silent
  have clean : lexicalErrorsOf (scan source) = [] :=
    List.map_eq_nil_iff.mp (List.isEmpty_iff.mp silent)
  have parsed : (parseExpression (tokensOf (scan source)) 0).outcome = .ok tree := by
    cases outcome : (parseExpression (tokensOf (scan source)) 0).outcome <;>
      rw [outcome] at accepted <;> cases accepted
    rfl
  obtain ⟨-, ending, stops, tokens⟩ := scan_of_printing clean
  rw [tokens, tokens_of_scan] at *
  obtain ⟨next, run⟩ := expression_run (written_inner source) rfl parsed
  refine ⟨clean, next, line_of_expression rfl run, fun firstId => ?_⟩
  have again := expression_run_from run firstId
  exact ⟨_, _, line_of_expression rfl again, program_of_printing rfl again rfl rfl stops⟩

namespace Session

/-- The line, run in the session, comes to an end with this report. -/
def Shows (session : Session) (source : String) (told : LineReport) (last : Session) : Prop :=
  ∃ supply, session.runLine supply source = some (told, last)

variable {session last : Session} {source : String} {tree : Expression}

/-- The program comes to an end if the line does, and then it reports what the line shows. -/
theorem ends_iff_shows (isOpen : session.machine.IsOpen)
    (accepted : readExpression source = .ok tree) {report : Report} :
    session.Ends (printing source) report last ↔
      ∃ told, session.Shows source told last ∧ told.printed = report := by
  obtain ⟨clean, -, -, each⟩ := expression_readings accepted
  obtain ⟨shifted, next, lineParsed, programParsed⟩ := each session.nextId
  have runs := run_printing clean lineParsed isOpen programParsed
  constructor
  · rintro ⟨supply, ended⟩
    have longer := run_longer (Nat.le_succ supply) ended
    rw [runs] at longer
    obtain ⟨⟨told, after⟩, shows, same⟩ := Option.map_eq_some_iff.mp longer
    cases same
    exact ⟨told, ⟨supply, shows⟩, rfl⟩
  · rintro ⟨told, ⟨supply, shows⟩, rfl⟩
    exact ⟨supply + 1, by rw [runs, shows]; rfl⟩

/-- A line that is an expression shows a value, or else some diagnostics. -/
theorem shows_quiet (accepted : readExpression source = .ok tree) {told : LineReport}
    (shows : session.Shows source told last) {text : String} (echo : told.echo = some text) :
    told.diagnostics = [] := by
  obtain ⟨supply, ended⟩ := shows
  obtain ⟨clean, -, -, each⟩ := expression_readings accepted
  obtain ⟨shifted, next, lineParsed, -⟩ := each session.nextId
  rw [run_line_eq clean lineParsed] at ended
  dsimp only at ended
  split_ifs at ended
  · split at ended <;> cases ended
    · rfl
    · cases echo
  · cases ended
    cases echo

end Session

theorem decoded (source : String) : String.fromUTF8? source.toUTF8 = some source :=
  dif_pos source.isValidUTF8

/-- The command that evaluates a file answers what the line in it would show. -/
theorem evaluate_answers {source : String} {tree : Expression}
    (accepted : readExpression source = .ok tree) (supply time : Nat)
    (files : String → FileContent) (file input : String)
    (content : files file = .bytes source.toUTF8) :
    Command.answer supply time files input (.evaluate file) =
      ((Session.start ⟨.unlimited, []⟩ time).runLine supply source).map (·.1.evaluated) := by
  obtain ⟨clean, next, parsed, -⟩ := expression_readings accepted
  have lineParsed : parseLine (tokensOf (scan source))
    (Session.start ⟨.unlimited, []⟩ time).nextId = ⟨.ok (.expression tree), next⟩ := parsed
  have answered : Command.answer supply time files input (.evaluate file) =
      Answer.value supply (Session.start ⟨.unlimited, []⟩ time).machine source := by
    unfold Command.answer Answer.fromFile
    dsimp only
    rw [content]
    dsimp only
    rw [decoded]
  rw [answered, Session.run_line_eq clean lineParsed, Answer.value, accepted]
  dsimp only
  split_ifs
  · cases ended : evaluate supply tree ((Session.start ⟨.unlimited, []⟩ time).machine.bondAll
      (Bindings.ofExpression tree).bonds) with
    | ok value after => rfl
    | error halt after =>
        cases halt with
        | exhausted => rfl
        | failed diagnostic =>
            have late := (Run.parts_fail_late supply).evaluate tree _ diagnostic after ended
            dsimp only
            rw [Option.map_some, LineReport.evaluated, fault_late late]
            rfl
  · rw [Option.map_some, LineReport.evaluated, violations_static]
    rfl

/-- A prompt shows the value of an expression as a print statement writes it. The line and the
program come to an end in the same sessions, the program succeeds if a value is shown, with the
value behind the same output, and otherwise both tell the same diagnostics. In a fresh session the
command that evaluates a file answers as the line does. -/
theorem echo_agrees_with_print {session : Session} {source : String} {tree : Expression}
    (isOpen : session.machine.IsOpen) (accepted : readExpression source = .ok tree) :
    (∀ last, (∃ told, session.Shows source told last) ↔
      ∃ report, session.Ends (printing source) report last) ∧
    (∀ told last, session.Shows source told last →
      (∀ text, told.echo = some text ∧ told.diagnostics = [] ↔
        session.Ends (printing source) ⟨.success, told.output ++ text ++ "\n", []⟩ last) ∧
      ∀ diagnostics, told.echo = none ∧ told.diagnostics = diagnostics ↔
        session.Ends (printing source) ⟨failureOf diagnostics, told.output, diagnostics⟩ last) ∧
    ∀ supply time files file input, files file = .bytes source.toUTF8 →
      Command.answer supply time files input (.evaluate file) =
        ((Session.start ⟨.unlimited, []⟩ time).runLine supply source).map (·.1.evaluated) := by
  refine ⟨fun last => ?_, fun told last shows => ?_, fun supply time files file input =>
    evaluate_answers accepted supply time files file input⟩
  · simp only [Session.ends_iff_shows isOpen accepted]
    exact ⟨fun ⟨told, shows⟩ => ⟨_, told, shows, rfl⟩, fun ⟨_, told, shows, _⟩ => ⟨told, shows⟩⟩
  · have only (report : Report) : session.Ends (printing source) report last ↔
        told.printed = report := by
      have ends := (Session.ends_iff_shows isOpen accepted).mpr ⟨told, shows, rfl⟩
      exact ⟨fun also => (ends.unique also).1.symm, fun same => same ▸ ends⟩
    have quiet : ∀ text, told.echo = some text → told.diagnostics = [] :=
      fun _ => Session.shows_quiet accepted shows
    clear shows
    obtain ⟨echo, output, reported⟩ := told
    simp only [only]
    cases echo with
    | none =>
        have failed := failure_no_success reported
        constructor
        · simp [LineReport.printed, failed]
        · intro diagnostics
          simp only [LineReport.printed, Report.mk.injEq, true_and]
          exact ⟨fun same => ⟨by rw [same], same⟩, And.right⟩
    | some shown =>
        obtain rfl : reported = [] := quiet shown rfl
        constructor
        · simp [LineReport.printed]
        · intro diagnostics
          have failed := failure_no_success diagnostics
          simp [LineReport.printed, failed.symm]

/-- A line that prints something before it has its value, and ends in a comment. -/
theorem echo_after_output :
    let source := "fun () \x7b print nil; return true; \x7d() // shown"
    let session := Session.start ⟨.unlimited, []⟩ 0
    ∃ tree last, readExpression source = .ok tree ∧
      session.Shows source ⟨some "true", "nil\n", []⟩ last ∧
      session.Ends (printing source) ⟨.success, "nil\ntrue\n", []⟩ last ∧
      Command.answer 9 0 (fun _ => .bytes source.toUTF8) "" (.evaluate "file") =
        some ⟨0, "nil\ntrue\n", ""⟩ := by
  intro source session
  have isOpen : session.machine.IsOpen := rfl
  have accepts : (readExpression source).isOk = true := by decide +kernel
  have told : (session.runLine 9 source).map Prod.fst = some ⟨some "true", "nil\n", []⟩ := by
    decide +kernel
  obtain ⟨⟨_, last⟩, shows, rfl⟩ := Option.map_eq_some_iff.mp told
  cases accepted : readExpression source with
  | error diagnostics =>
      rw [accepted] at accepts
      cases accepts
  | ok tree =>
      obtain ⟨-, reports, answers⟩ := echo_agrees_with_print isOpen accepted
      have printed := ((reports _ last ⟨9, shows⟩).1 "true").mp ⟨rfl, rfl⟩
      have answered := answers 9 0 (fun _ => .bytes source.toUTF8) "file" "" rfl
      rw [shows] at answered
      exact ⟨tree, last, rfl, ⟨9, shows⟩, printed, answered⟩

end Lox
