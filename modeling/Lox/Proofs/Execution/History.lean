import Lox.Session
import Lox.Proofs.Execution.Steps
import Mathlib.Tactic.SplitIfs

/-!
Sessions that can come about, with the lines that each has accepted so far. A
whole program counts as a line of statements here, since both ways to enter a
source text accept something and run it on the machine that they leave.
-/

namespace Lox

/-- A source text, entered as a whole program or at a prompt. -/
inductive Entry where
  | program (source : String)
  | line (source : String)

/-- A line of statements is run as a program. -/
theorem Line.run_statements (supply : Nat) (statements : List Statement) (machine : Machine) :
    (Line.statements statements).run supply machine =
      match runProgram supply statements machine with
      | .ok _ after => .ok none after
      | .error halt after => .error halt after := by
  cases ended : runProgram supply statements machine with
  | ok _ after => exact bind_ok ended
  | error halt after => exact bind_error ended

/-- A line that is an expression is run for its value. -/
theorem Line.run_expression (supply : Nat) (tree : Expression) (machine : Machine) :
    (Line.expression tree).run supply machine = match evaluate supply tree machine with
      | .ok value after => .ok (some value) after
      | .error halt after => .error halt after := by
  cases ended : evaluate supply tree machine with
  | ok value after => exact bind_ok ended
  | error halt after => exact bind_error ended

namespace Session

/-- What an entry is read as, if it is accepted, and the session before it runs. -/
def receive (session : Session) : Entry → Except (List Diagnostic) Line × Session
  | .program source =>
      let (outcome, next) := session.prepare source parseProgram Bindings.ofProgram
      (outcome.map .statements, next)
  | .line source => session.prepare source parseLine Bindings.ofLine

/-- The session after an entry, if the supply suffices. -/
def enter (supply : Nat) (session : Session) : Entry → Option Session
  | .program source => (session.run supply source).map (·.2)
  | .line source => (session.runLine supply source).map (·.2)

/-- The session comes about, with these lines accepted, the latest first. -/
inductive History : List Line → Session → Prop where
  | start (sink : Sink) (time : Nat) : History [] (.start sink time)
  | rejected {lines : List Line} {session next last : Session} {entry : Entry} {supply : Nat}
      {diagnostics : List Diagnostic} (before : History lines session)
      (received : session.receive entry = (.error diagnostics, next))
      (entered : session.enter supply entry = some last) : History lines last
  | accepted {lines : List Line} {session next last : Session} {entry : Entry} {supply : Nat}
      {line : Line} (before : History lines session)
      (received : session.receive entry = (.ok line, next))
      (entered : session.enter supply entry = some last) : History (line :: lines) last

/-- Recording bonds changes nothing but the table. -/
theorem bond_all_frame (machine : Machine) (bonds : List Bond) :
    ∃ distances, machine.bondAll bonds = { machine with distances := distances } := by
  induction bonds generalizing machine with
  | nil => exact ⟨machine.distances, rfl⟩
  | cons bond rest induction => exact induction (machine.bond bond.place.id bond.distance)

theorem prepare_frame {α : Type} (session : Session) (source : String)
    (parse : List Token → Nat → Parsed α) (bindings : α → Bindings) :
    ∃ distances, (session.prepare source parse bindings).2.machine =
      { session.machine with distances := distances } := by
  unfold prepare
  dsimp only
  split
  · exact ⟨session.machine.distances, rfl⟩
  · next tree _ =>
      split_ifs
      · exact bond_all_frame session.machine (bindings tree).bonds
      · exact bond_all_frame session.machine (bindings tree).bonds
      · exact ⟨session.machine.distances, rfl⟩

/-- Reading a source text changes nothing in the machine but the table. -/
theorem receive_frame (session : Session) (entry : Entry) :
    ∃ distances, (session.receive entry).2.machine =
      { session.machine with distances := distances } := by
  cases entry with
  | program source => exact session.prepare_frame source parseProgram Bindings.ofProgram
  | line source => exact session.prepare_frame source parseLine Bindings.ofLine

/-- The session that a run leaves behind, unless it was given too little. -/
def leave {α : Type} (session : Session) : EStateM.Result Halt Machine α → Option Session
  | .ok _ after => some (session.close after).2
  | .error (.failed _) after => some (session.close after).2
  | .error .exhausted _ => none

theorem leave_run_statements (session : Session) (supply : Nat) (statements : List Statement) :
    session.leave ((Line.statements statements).run supply session.machine) =
      session.leave (runProgram supply statements session.machine) := by
  rw [Line.run_statements]
  rcases runProgram supply statements session.machine with _ | ⟨_ | _, _⟩ <;> rfl

/-- A step runs the line that its entry is received as, and does nothing else
that later steps could see. -/
theorem enter_eq (session : Session) (supply : Nat) (entry : Entry) :
    session.enter supply entry =
      match session.receive entry with
      | (.error _, next) => some next
      | (.ok line, next) => next.leave (line.run supply next.machine) := by
  cases entry with
  | program source =>
      simp only [enter, run, receive]
      generalize session.prepare source parseProgram Bindings.ofProgram = prepared
      obtain ⟨diagnostics | statements, next⟩ := prepared
      · rfl
      · simp only [Except.map, leave_run_statements]
        generalize runProgram supply statements next.machine = ending
        rcases ending with ⟨_, after⟩ | ⟨_ | _, after⟩ <;> rfl
  | line source =>
      unfold enter runLine receive
      dsimp only
      generalize session.prepare source parseLine Bindings.ofLine = prepared
      obtain ⟨diagnostics | line, next⟩ := prepared
      · rfl
      · dsimp only
        generalize line.run supply next.machine = ending
        rcases ending with ⟨_, after⟩ | ⟨_ | _, after⟩ <;> rfl

end Session

end Lox
