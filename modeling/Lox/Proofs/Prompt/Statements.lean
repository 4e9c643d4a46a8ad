import Lox.Proofs.Renaming.Rejections

/-!
Statements typed at a prompt. A line is tried as an expression first. If it is not an expression
as a whole, it is read once more as a program; all that is left of the attempt are the numbers
that it has used up. So the line does what the program does, with numbers further on.
-/

namespace Lox

/-- Reading an expression gets to the end of the source text, possibly with notes about it. -/
def IsLoneExpression (source : String) : Prop :=
  ∃ tree after, Rule.expression (nesting (tokensOf (scan source)))
    (.start (tokensOf (scan source)) 0) = .ok tree after ∧ after.atEnd = true

/-- Whether a rule has read everything. -/
def reachesEnd : EStateM.Result Complaint Reading Expression → Bool
  | .ok _ after => after.atEnd
  | .error _ _ => false

instance : DecidablePred IsLoneExpression := fun source =>
  decidable_of_iff (reachesEnd (Rule.expression (nesting (tokensOf (scan source)))
    (.start (tokensOf (scan source)) 0)) = true) <| by
      unfold IsLoneExpression
      cases Rule.expression (nesting (tokensOf (scan source)))
        (.start (tokensOf (scan source)) 0) <;> simp [reachesEnd]

/-- It does not matter with which number reading begins. -/
theorem lone_expression_from {source : String} {firstId : Nat} {tree : Expression} {after : Reading}
    (read : Rule.expression (nesting (tokensOf (scan source)))
      (.start (tokensOf (scan source)) firstId) = .ok tree after) (atEnd : after.atEnd = true) :
    IsLoneExpression source := by
  have silent := Labels.shift_silent firstId
  have moved := (Rule.all_natural silent (nesting (tokensOf (scan source)))).expression
    (.start (tokensOf (scan source)) 0)
  rw [start_relabel, Labels.shift_tokens, Labels.shift_zero, read] at moved
  cases fromZero : Rule.expression (nesting (tokensOf (scan source)))
      (.start (tokensOf (scan source)) 0) with
  | error complaint left =>
      rw [fromZero] at moved
      cases moved
  | ok first left =>
      rw [fromZero] at moved
      cases moved
      exact ⟨first, left, fromZero, (at_end_relabel silent left).symm.trans atEnd⟩

/-- A line that is no expression is read as a program, with the numbers that the attempt has
left over. -/
theorem parse_line_as_program {source : String} (statements : ¬IsLoneExpression source)
    (firstId : Nat) : ∃ ahead, parseLine (tokensOf (scan source)) firstId =
      ⟨(parseProgram (tokensOf (scan source)) (firstId + ahead)).outcome.map .statements,
        (parseProgram (tokensOf (scan source)) (firstId + ahead)).nextId⟩ := by
  have account := (Rule.accounts (nesting (tokensOf (scan source)))).expression
    (.start (tokensOf (scan source)) firstId)
  have lone : ∀ tree after, Rule.expression (nesting (tokensOf (scan source)))
      (.start (tokensOf (scan source)) firstId) = .ok tree after → after.atEnd = true →
        IsLoneExpression source := fun _ _ => lone_expression_from
  have onwards {after : Reading} (ordered : firstId ≤ after.nextId) :
      ∃ ahead, after.nextId = firstId + ahead := Nat.exists_eq_add_of_le ordered
  unfold parseLine
  dsimp only
  generalize Rule.expression (nesting (tokensOf (scan source)))
    (.start (tokensOf (scan source)) firstId) = attempt at account lone ⊢
  cases attempt with
  | error complaint after =>
      obtain ⟨ahead, further⟩ := onwards account.1
      exact ⟨ahead, by rw [← further]⟩
  | ok tree after =>
      obtain ⟨ahead, further⟩ := onwards account.1.1
      have ongoing : ¬after.atEnd = true := fun atEnd => statements (lone tree after rfl atEnd)
      dsimp only
      rw [if_neg ongoing]
      exact ⟨ahead, by rw [← further]⟩

namespace Session

/-- The session with some numbers used up. -/
def spent (session : Session) (ahead : Nat) : Session :=
  { session with nextId := session.nextId + ahead }

variable {session : Session} {source : String} {ahead : Nat}

/-- The line is answered like the program in a session where some numbers are used up. -/
theorem line_answers_program (read : parseLine (tokensOf (scan source)) session.nextId =
      ⟨(parseProgram (tokensOf (scan source)) (session.nextId + ahead)).outcome.map .statements,
        (parseProgram (tokensOf (scan source)) (session.nextId + ahead)).nextId⟩) (supply : Nat) :
    session.runLine supply source = ((session.spent ahead).run supply source).map fun answered =>
      (⟨none, answered.1.output, answered.1.diagnostics⟩, answered.2) := by
  have walked (statements : List Statement) :
      Bindings.ofLine (.statements statements) = Bindings.ofProgram statements := rfl
  have prepared : session.prepare source parseLine Bindings.ofLine =
      (((session.spent ahead).prepare source parseProgram Bindings.ofProgram).1.map .statements,
        ((session.spent ahead).prepare source parseProgram Bindings.ofProgram).2) := by
    rw [← prepare_map _ _ _ _ walked]
    unfold prepare
    dsimp only [spent]
    rw [read]
  unfold runLine run
  rw [prepared]
  generalize (session.spent ahead).prepare source parseProgram Bindings.ofProgram = received
  obtain ⟨diagnostics | orders, next⟩ := received
  · rfl
  · simp only [Except.map]
    rw [Line.run_statements]
    rcases runProgram supply orders next.machine with ⟨_, after⟩ | ⟨_ | _, after⟩ <;> rfl

end Session

/-- A line that is not one expression gives nothing back, and does what the program does: it has
the same output and the same diagnostics, and leaves a session that differs in its numbers only,
so that whatever comes later gets the same replies. -/
theorem statement_line_runs_program (sink : Sink) (time : Nat) {before : List (Nat × Entry)}
    {replies : List Reply} {session : Session} {source : String}
    (played : Session.play before (.start sink time) = some (replies, session))
    (statements : ¬IsLoneExpression source) :
    ∃ ahead, ∀ supply, Option.Rel
      (fun program line => line.1 = ⟨none, program.1.output, program.1.diagnostics⟩ ∧
        program.2.Alike (Recast.moving session.nextId ahead) ahead line.2 ∧
        ∀ after, (Session.play after line.2).map Prod.fst =
          (Session.play after program.2).map Prod.fst)
      (session.run supply source) (session.runLine supply source) := by
  obtain ⟨ahead, read⟩ := parse_line_as_program statements session.nextId
  refine ⟨ahead, fun supply => ?_⟩
  let recast := Recast.moving session.nextId ahead
  have start : (Session.start sink time).Alike recast 0 (.start sink time) :=
    ⟨rfl, [[]], Machine.start_alike recast sink time (fun _ => Std.TreeMap.getElem?_emptyc)
      (.inl rfl)⟩
  have itself := Session.itself_alike rfl Recast.moving_injective start played
    fun id given => Recast.moving_before given
  have alike : session.Alike recast ahead (session.spent ahead) := ⟨rfl, itself.machines⟩
  have answers := Session.answer_alike rfl Recast.moving_injective alike supply (.program source)
    fun id beyond _ => Recast.moving_beyond beyond
  have later : ∀ report next, session.run supply source = some (report, next) →
      session.nextId ≤ next.nextId := by
    intro report next ended
    have answered : session.answer supply (.program source) = some (.report report, next) := by
      rw [Session.answer, ended]
      rfl
    exact (session.receive_ordered _).trans_eq (Session.answer_next_id answered).symm
  rw [Session.line_answers_program read]
  simp only [Session.answer] at answers
  cases told : session.run supply source with
  | none =>
      rw [told] at answers
      cases toldToo : (session.spent ahead).run supply source with
      | none => exact .none
      | some answered =>
          rw [toldToo] at answers
          cases answers
  | some answered =>
      obtain ⟨report, next⟩ := answered
      rw [told] at answers
      cases toldToo : (session.spent ahead).run supply source with
      | none =>
          rw [toldToo] at answers
          cases answers
      | some answered =>
          rw [toldToo] at answers
          cases answers with
          | some both =>
              obtain ⟨same, sessions⟩ := both
              cases same
              refine .some ⟨rfl, sessions, fun after => ?_⟩
              exact Session.play_alike rfl Recast.moving_injective sessions fun id isLater =>
                Recast.moving_beyond ((later _ next told).trans isLater)

/-- A line that begins with an assignment, which takes two numbers when it is tried as an
expression. -/
theorem assignment_line_runs_program :
    let source := "a = true; print a; b;"
    let fault : Diagnostic := .fault 1 (.undefinedVariable "b")
    ∃ replies session program line,
      Session.play [(5, .line "var a;")] (.start ⟨.unlimited, []⟩ 0) = some (replies, session) ∧
      ¬IsLoneExpression source ∧
      session.run 9 source = some (⟨.runtimeError, "true\n", [fault]⟩, program) ∧
      session.runLine 9 source = some (⟨none, "true\n", [fault]⟩, line) ∧
      ∀ after, (Session.play after line).map Prod.fst =
        (Session.play after program).map Prod.fst := by
  intro source fault
  let machine : Machine := { Machine.start ⟨.unlimited, []⟩ 0 with
    scopes := (Machine.start ⟨.unlimited, []⟩ 0).scopes.define 0 "a" .nil }
  have played : Session.play [(5, .line "var a;")] (.start ⟨.unlimited, []⟩ 0) =
      some ([.line ⟨none, "", []⟩], ⟨machine, 0⟩) := by rfl
  have statements : ¬IsLoneExpression source := by decide +kernel
  have reported : ((Session.mk machine 0).run 9 source).map Prod.fst =
      some ⟨.runtimeError, "true\n", [fault]⟩ := by decide +kernel
  obtain ⟨⟨report, program⟩, ended, rfl⟩ := Option.map_eq_some_iff.mp reported
  obtain ⟨ahead, each⟩ := statement_line_runs_program ⟨.unlimited, []⟩ 0 played statements
  have both := each 9
  rw [ended] at both
  generalize lineEnded : (Session.mk machine 0).runLine 9 source = answered at both
  cases both with
  | @some _ answered both =>
      obtain ⟨told, line⟩ := answered
      obtain ⟨rfl, -, later⟩ := both
      exact ⟨_, _, program, line, played, statements, ended, lineEnded, later⟩

end Lox
