import Lox.Proofs.Execution.Constructs
import Lox.Proofs.Execution.History

/-!
What a session answers to the entries of a whole play. Each answer consists of what
the entry was rejected for, or of what came of running it; what has been played before
is in the session alone.
-/

namespace Lox

/-- What comes back from an entry. -/
inductive Reply where
  | report (report : Report)
  | line (report : LineReport)
deriving DecidableEq

def Reply.diagnostics : Reply → List Diagnostic
  | .report told => told.diagnostics
  | .line told => told.diagnostics

/-- What is wrong with a text, and not with a run. -/
def Diagnostic.isStatic : Diagnostic → Bool
  | .lexical _ _ | .grammatical _ _ | .binding _ _ => true
  | .fault _ _ | .outputClosed => false

namespace Entry

def source : Entry → String
  | .program source | .line source => source

/-- The grammar that an entry is read with. -/
def parse : Entry → List Token → Nat → Parsed Line
  | .program _, tokens, firstId =>
      ⟨(parseProgram tokens firstId).outcome.map .statements, (parseProgram tokens firstId).nextId⟩
  | .line _, tokens, firstId => parseLine tokens firstId

/-- What an entry is told. Programs have an outcome, and lines at a prompt an echo. -/
def reply (entry : Entry) (outcome : Outcome) (echo : Option String) (output : String)
    (diagnostics : List Diagnostic) : Reply :=
  match entry with
  | .program _ => .report ⟨outcome, output, diagnostics⟩
  | .line _ => .line ⟨echo, output, diagnostics⟩

/-- The reply to an entry with static errors. -/
def rejection (entry : Entry) (diagnostics : List Diagnostic) : Reply :=
  entry.reply .staticError none "" diagnostics

end Entry

namespace Run

variable {α β : Type}

/-- If the run fails, it is not with a static error. -/
def FailsLate (action : Run α) : Prop :=
  ∀ machine diagnostic after, action machine = .error (.failed diagnostic) after →
    diagnostic.isStatic = false

theorem success_fails_late {action : Run α}
    (succeeds : ∀ machine, ∃ value after, action machine = .ok value after) : action.FailsLate := by
  intro machine diagnostic after ended
  obtain ⟨value, last, succeeded⟩ := succeeds machine
  rw [succeeded] at ended
  cases ended

theorem pure_fails_late (value : α) : FailsLate (pure value : Run α) :=
  success_fails_late fun machine => ⟨value, machine, rfl⟩

theorem fail_fails_late (line : Nat) (cause : Fault) : (fail line cause : Run α).FailsLate := by
  intro machine diagnostic after ended
  cases ended
  rfl

theorem bind_fails_late {first : Run α} {next : α → Run β} (early : first.FailsLate)
    (later : ∀ value, (next value).FailsLate) : (first >>= next).FailsLate := by
  intro machine diagnostic after ended
  cases began : first machine with
  | error halt middle =>
      rw [bind_error began] at ended
      cases ended
      exact early machine diagnostic after began
  | ok value middle =>
      rw [bind_ok began] at ended
      exact later value middle diagnostic after ended

theorem print_fails_late (value : Value) : (print value).FailsLate := by
  intro machine diagnostic after ended
  obtain ⟨_, printed | refused⟩ := print_cases value machine
  · rw [printed] at ended
    cases ended
  · rw [refused] at ended
    cases ended
    rfl

theorem look_up_fails_late (place : Occurrence) : (lookUp place).FailsLate := by
  intro machine diagnostic after ended
  rcases look_up_cases place machine with ⟨_, _, -, -, found⟩ | failed
  · rw [found] at ended
    cases ended
  · rw [failed] at ended
    exact fail_fails_late _ _ machine diagnostic after ended

theorem assign_fails_late (place : Occurrence) (value : Value) :
    (assign place value).FailsLate := by
  intro machine diagnostic after ended
  rcases assign_cases place value machine with ⟨_, -, assigned⟩ | ⟨-, failed⟩
  · rw [assigned] at ended
    cases ended
  · rw [failed] at ended
    exact fail_fails_late _ _ machine diagnostic after ended

theorem inherited_method_fails_late (place : Occurrence) (method : Token) :
    (inheritedMethod place method).FailsLate := by
  intro machine diagnostic after ended
  rcases inherited_method_cases place method machine with ⟨_, _, _, -, -, -, found⟩ | ⟨_, -, failed⟩
  · rw [found] at ended
    cases ended
  · rw [failed] at ended
    exact fail_fails_late _ _ machine diagnostic after ended

theorem primitive_fails_late {action : Run α} (primitive : Primitive action) :
    action.FailsLate := by
  cases primitive with
  | fail line cause => exact fail_fails_late line cause
  | blame line outcome =>
      cases outcome with
      | error cause => exact fail_fails_late line cause
      | ok value => exact pure_fails_late value
  | lookUp place => exact look_up_fails_late place
  | assign place value => exact assign_fails_late place value
  | print value => exact print_fails_late value
  | inheritedMethod place method => exact inherited_method_fails_late place method
  | makeClass name superclass methods classMethods =>
      cases superclass <;> exact success_fails_late fun _ => ⟨_, _, rfl⟩
  | result closure completion =>
      apply success_fails_late
      intro machine
      obtain ⟨value, given, -⟩ := result_cases closure completion machine
      exact ⟨value, machine, given⟩
  | currentScope | openScope | define | makeFunction | closeOver | makeInstance | field | setField
  | readClock | bindReceiver => exact success_fails_late fun _ => ⟨_, _, rfl⟩

theorem within_fails_late {action : Run α} (scope : ScopeId) (inner : action.FailsLate) :
    (Run.within scope action).FailsLate := by
  intro machine diagnostic after ended
  unfold Run.within at ended
  cases began : action { machine with current := scope } <;> rw [began] at ended <;> cases ended
  exact inner _ _ _ began

theorem nested_fails_late {action : Run α} (line : Nat) (inner : action.FailsLate) :
    (Run.nested line action).FailsLate := by
  intro machine diagnostic after ended
  unfold Run.nested at ended
  split_ifs at ended
  · cases ended
    rfl
  · cases began : action { machine with depth := machine.depth + 1 } <;> rw [began] at ended <;>
      cases ended
    exact inner _ _ _ began

/-- To fail late, as a property that constructs pass on. -/
def lateness : Setting.Relation Run Run where
  Related action _ := action.FailsLate
  pure := pure_fails_late
  bind := bind_fails_late
  act := primitive_fails_late
  within := within_fails_late
  nested := nested_fails_late

theorem parts_fail_late (supply : Nat) :
    lateness.OfParts (Parts.supplied supply) (Parts.supplied supply) := by
  induction supply with
  | zero =>
      have exhausted {α : Type} : FailsLate (throw .exhausted : Run α) := by
        intro machine diagnostic after ended
        cases ended
      exact ⟨fun _ => exhausted, fun _ => exhausted, fun _ _ => exhausted⟩
  | succ supply induction =>
      exact ⟨Setting.Relation.evaluation_related induction,
        Setting.Relation.execution_related induction,
        Setting.Relation.application_related induction⟩

theorem line_fails_late (supply : Nat) (line : Line) : (line.run supply).FailsLate :=
  Setting.Relation.line_related (parts_fail_late supply) line

end Run

namespace Session

/-- The reply to an entry and the session after it, if the supply suffices. -/
def answer (supply : Nat) (session : Session) : Entry → Option (Reply × Session)
  | .program source => (session.run supply source).map fun (report, next) => (.report report, next)
  | .line source => (session.runLine supply source).map fun (report, next) => (.line report, next)

/-- All replies to some entries, each with a supply of its own. -/
def play : List (Nat × Entry) → Session → Option (List Reply × Session)
  | [], session => some ([], session)
  | (supply, entry) :: rest, session => do
      let (reply, next) ← session.answer supply entry
      let (replies, last) ← play rest next
      return (reply :: replies, last)

theorem play_append (before after : List (Nat × Entry)) (session : Session) :
    play (before ++ after) session = (play before session).bind fun (replies, middle) =>
      (play after middle).map fun (others, last) => (replies ++ others, last) := by
  induction before generalizing session with
  | nil => cases played : play after session <;> simp [play, played]
  | cons first rest induction =>
      obtain ⟨supply, entry⟩ := first
      simp only [List.cons_append, play]
      cases session.answer supply entry with
      | none => rfl
      | some answered =>
          obtain ⟨reply, next⟩ := answered
          simp only [bind, Option.bind_some, induction]
          cases play rest next with
          | none => rfl
          | some played =>
              obtain ⟨replies, middle⟩ := played
              simp only [Option.bind_some, pure]
              cases play after middle <;> rfl

/-- The reply to an entry that was run, unless its supply did not suffice. -/
def conclude (session : Session) (entry : Entry) :
    EStateM.Result Halt Machine (Option Value) → Option (Reply × Session)
  | .ok value after =>
      let (output, closed) := session.close after
      some (entry.reply .success (value.map Value.text) output [], closed)
  | .error (.failed diagnostic) after =>
      let (output, closed) := session.close after
      some (entry.reply .runtimeError none output [diagnostic], closed)
  | .error .exhausted _ => none

/-- It does not matter what becomes of a tree after reading, as long as its names stay. -/
theorem prepare_map {α β : Type} (session : Session) (source : String)
    (parse : List Token → Nat → Parsed α) (change : α → β) {bindings : α → Bindings}
    {bindings' : β → Bindings} (same : ∀ tree, bindings' (change tree) = bindings tree) :
    session.prepare source
        (fun tokens firstId =>
          ⟨(parse tokens firstId).outcome.map change, (parse tokens firstId).nextId⟩)
        bindings' =
      ((session.prepare source parse bindings).1.map change,
        (session.prepare source parse bindings).2) := by
  unfold prepare
  dsimp only
  cases (parse (tokensOf (scan source)) session.nextId).outcome with
  | error complaints => rfl
  | ok tree =>
      simp only [Except.map, same]
      split_ifs <;> rfl

theorem receive_eq (session : Session) (entry : Entry) :
    session.receive entry = session.prepare entry.source entry.parse Bindings.ofLine := by
  cases entry with
  | line source => rfl
  | program source =>
      have walked (statements : List Statement) :
          Bindings.ofLine (.statements statements) = Bindings.ofProgram statements := rfl
      exact (prepare_map session source parseProgram Line.statements walked).symm

/-- An entry is answered by what it is received as. -/
theorem answer_eq (session : Session) (supply : Nat) (entry : Entry) :
    session.answer supply entry =
      match session.receive entry with
      | (.error diagnostics, next) => some (entry.rejection diagnostics, next)
      | (.ok line, next) => next.conclude entry (line.run supply next.machine) := by
  cases entry with
  | program source =>
      simp only [answer, run, receive]
      generalize session.prepare source parseProgram Bindings.ofProgram = prepared
      obtain ⟨diagnostics | statements, next⟩ := prepared
      · rfl
      · simp only [Except.map]
        rw [Line.run_statements]
        rcases runProgram supply statements next.machine with ⟨_, after⟩ | ⟨_ | _, after⟩ <;> rfl
  | line source =>
      unfold answer runLine receive
      dsimp only
      generalize session.prepare source parseLine Bindings.ofLine = prepared
      obtain ⟨diagnostics | line, next⟩ := prepared
      · rfl
      · dsimp only
        generalize line.run supply next.machine = ending
        rcases ending with ⟨_, after⟩ | ⟨_ | _, after⟩ <;> rfl

/-- An entry that gets a static error is one that is not run. -/
theorem rejected_of_static {supply : Nat} {session next : Session} {entry : Entry} {reply : Reply}
    (answered : session.answer supply entry = some (reply, next))
    (static : ∃ diagnostic ∈ reply.diagnostics, diagnostic.isStatic = true) :
    ∃ diagnostics, session.receive entry = (.error diagnostics, next) ∧
      reply = entry.rejection diagnostics := by
  rw [answer_eq] at answered
  rcases received : session.receive entry with ⟨diagnostics | line, last⟩
  · rw [received] at answered
    cases answered
    exact ⟨diagnostics, rfl, rfl⟩
  · rw [received] at answered
    dsimp only at answered
    have told (outcome : Outcome) (echo : Option String) (output : String)
        (diagnostics : List Diagnostic) :
        (entry.reply outcome echo output diagnostics).diagnostics = diagnostics := by
      cases entry <;> rfl
    obtain ⟨diagnostic, member, isStatic⟩ := static
    cases ended : line.run supply last.machine with
    | ok value after =>
        rw [ended] at answered
        cases answered
        rw [told] at member
        cases member
    | error halt after =>
        rw [ended] at answered
        cases halt with
        | exhausted => cases answered
        | failed reason =>
            cases answered
            rw [told, List.mem_singleton] at member
            have late := Run.line_fails_late supply line last.machine reason after ended
            rw [← member, isStatic] at late
            cases late

theorem enter_of_answer {supply : Nat} {session last : Session} {entry : Entry} {reply : Reply}
    (answered : session.answer supply entry = some (reply, last)) :
    session.enter supply entry = some last := by
  cases entry with
  | program source =>
      obtain ⟨⟨report, next⟩, ran, same⟩ := Option.map_eq_some_iff.mp answered
      cases same
      exact Option.map_eq_some_iff.mpr ⟨_, ran, rfl⟩
  | line source =>
      obtain ⟨⟨report, next⟩, ran, same⟩ := Option.map_eq_some_iff.mp answered
      cases same
      exact Option.map_eq_some_iff.mpr ⟨_, ran, rfl⟩

theorem answer_history {lines : List Line} {session last : Session} {supply : Nat} {entry : Entry}
    {reply : Reply} (history : History lines session)
    (answered : session.answer supply entry = some (reply, last)) :
    ∃ more, History more last := by
  have entered := enter_of_answer answered
  rcases received : session.receive entry with ⟨diagnostics | line, next⟩
  · exact ⟨_, .rejected history received entered⟩
  · exact ⟨_, .accepted history received entered⟩

theorem play_cons {supply : Nat} {entry : Entry} {rest : List (Nat × Entry)}
    {session last : Session} {replies : List Reply}
    (played : play ((supply, entry) :: rest) session = some (replies, last)) :
    ∃ reply next others, session.answer supply entry = some (reply, next) ∧
      play rest next = some (others, last) ∧ replies = reply :: others := by
  simp only [play, bind, Option.bind_eq_some_iff] at played
  obtain ⟨⟨reply, next⟩, answered, ⟨others, last'⟩, further, same⟩ := played
  cases same
  exact ⟨reply, next, others, answered, further, rfl⟩

theorem replies_cons (supply : Nat) (entry : Entry) (rest : List (Nat × Entry))
    (session : Session) :
    (play ((supply, entry) :: rest) session).map Prod.fst =
      (session.answer supply entry).bind fun answered =>
        ((play rest answered.2).map Prod.fst).map (answered.1 :: ·) := by
  simp only [play, bind]
  cases session.answer supply entry with
  | none => rfl
  | some answered =>
      simp only [Option.bind_some]
      cases play rest answered.2 <;> rfl

theorem replies_append {before after : List (Nat × Entry)} {session middle : Session}
    {replies : List Reply} (played : play before session = some (replies, middle)) :
    (play (before ++ after) session).map Prod.fst =
      ((play after middle).map Prod.fst).map (replies ++ ·) := by
  rw [play_append, played]
  simp only [Option.bind_some]
  cases play after middle <;> rfl

theorem play_length {entries : List (Nat × Entry)} {session last : Session} {replies : List Reply}
    (played : play entries session = some (replies, last)) : replies.length = entries.length := by
  induction entries generalizing session replies with
  | nil =>
      cases played
      rfl
  | cons first rest induction =>
      obtain ⟨reply, next, others, -, further, rfl⟩ := play_cons played
      exact congrArg (· + 1) (induction further)

/-- Whatever is played, the session comes about. -/
theorem play_history {lines : List Line} {entries : List (Nat × Entry)} {session last : Session}
    {replies : List Reply} (history : History lines session)
    (played : play entries session = some (replies, last)) : ∃ more, History more last := by
  induction entries generalizing lines session replies with
  | nil =>
      cases played
      exact ⟨lines, history⟩
  | cons first rest induction =>
      obtain ⟨reply, next, others, answered, further, -⟩ := play_cons played
      obtain ⟨more, after⟩ := answer_history history answered
      exact induction after further

end Session

end Lox
