import Lox.Proofs.Receivers.Sessions
import Lox.Proofs.Returns.Calls

/-!
Returns in sessions. What an initializer gives back is the object that it was called for: in
accepted lines it is bound to one, and nothing that runs can bind it to anything else.
-/

namespace Lox

/-- How a call that is given this supply takes the returns in its body. -/
structure EndsByOwnReturns (closure : Closure) (arguments : List Value) (machine : Machine)
    (supply : Nat) : Prop where
  /-- A return that is come to in the body ends the call with its value, and nothing of the body
  is executed after it. -/
  ends {left : Nat} {keyword : Token} {expression : Option Expression} {place after : Machine}
    {rest : List (Statement × Machine)} {value : Value} :
    (Task.plan (.call closure arguments) machine).Reached supply (left + 1)
        ((.exit keyword expression, place) :: rest) →
    Gives left place expression value after →
      (Task.plan (.call closure arguments) machine).Final supply (left + 1)
          ((.exit keyword expression, place) :: rest) ∧
        call (supply + 1) closure arguments machine =
          .ok (closure.yields value after) { after with current := machine.current }
  /-- What is come to in the body stands there, and not in another routine. -/
  inside {left : Nat} {order : Statement} {place : Machine} {rest : List (Statement × Machine)} :
    (Task.plan (.call closure arguments) machine).Reached supply left ((order, place) :: rest) →
      .statement order ∈ (Node.statements closure.routine.body).upTo Node.isRoutine
  /-- A call that ends has come to a return in its body, or all of its body has been executed. -/
  only {value : Value} {after : Machine} :
    call (supply + 1) closure arguments machine = .ok value after →
      (∃ left keyword expression place rest given last,
        (Task.plan (.call closure arguments) machine).Final supply (left + 1)
            ((.exit keyword expression, place) :: rest) ∧
          Gives left place expression given last ∧ value = closure.yields given last) ∨
      (((Task.plan (.call closure arguments) machine).questions
            (Task.answers supply)).map Moment.task =
          closure.routine.body.map Task.execution ∧
        (∀ calls order begun, ⟨calls, .execution order, begun⟩ ∈
            (Task.plan (.call closure arguments) machine).questions (Task.answers supply) →
          ∃ later, execute supply order begun = .ok .normal later) ∧
        value = closure.yields .nil after)

theorem ends_by_own_returns (closure : Closure) (arguments : List Value) (machine : Machine)
    (supply : Nat) : EndsByOwnReturns closure arguments machine supply :=
  ⟨own_return_ends_call, own_statement_inside, call_ends⟩

/-- What a call gives back that gives back its receiver. -/
theorem call_yields_receiver {supply : Nat} {closure : Closure} {arguments : List Value}
    {machine after : Machine} {value : Value} (yields : closure.yieldsReceiver = true)
    (ended : call supply closure arguments machine = .ok value after) :
    value = (after.scopes.local? closure.scope receiverName).getD .nil := by
  cases supply with
  | zero => cases ended
  | succ supply =>
      rw [call_ending] at ended
      generalize Plan.complete (Task.answers supply) _ = body at ended
      cases body with
      | error halt last => cases ended
      | ok completion last =>
          dsimp only at ended
          unfold Run.result at ended
          rw [if_pos yields] at ended
          cases ended
          rfl

/-- An initializer that is called in an accepted line gives back the object it was called for. -/
theorem initializer_yields_object {past : List (Line × Machine)} {session next : Session}
    {entry : Entry} {line : Line} (chronicle : Session.Chronicle past session)
    (received : session.receive entry = (.ok line, next)) {calls : Nat} {closure : Closure}
    {arguments : List Value} {machine : Machine} {rest : List Moment}
    (underway : Underway (Parts.asked.line line next.machine)
      (⟨calls, .call closure arguments, machine⟩ :: rest))
    (yields : closure.yieldsReceiver = true) :
    ∃ identity cls, machine.scopes.local? closure.scope receiverName = some (.object identity cls) ∧
      ∀ supply value after, call supply closure arguments machine = .ok value after →
        value = .object identity cls := by
  obtain ⟨-, fits, -⟩ := Session.underway_placed chronicle received underway
  obtain ⟨site, _, -, -, lies, bound⟩ := fits
  obtain ⟨home, frames, ofObject, rfl⟩ := bound yields
  have inside := Record.lies_inside lies
  obtain ⟨⟨-, receiver, found, receives⟩, -⟩ := lies
  rw [ofObject] at receives
  cases receiver with
  | object identity cls =>
      refine ⟨identity, cls, found, fun supply value after ended => ?_⟩
      have leads := Session.underway_leads chronicle received underway supply
      change Record.Leads _ _ machine (call supply closure arguments machine) at leads
      rw [ended] at leads
      have kept := leads.1.keeps.bound closure.scope inside receiverName fun free =>
        free.1 rfl
      rw [call_yields_receiver yields ended, kept, found]
      rfl
  | nil | boolean | number | string | native | function | classValue => cases receives

/-- Returns end the call that they belong to, and nothing else. Of an accepted program no
statement at the top level returns, and so all of them are executed, up to the first that fails.
A call ends with the first return that it comes to in its own body, however deep in blocks,
conditionals and loops, and with no other; and an initializer gives back the object that it was
called for. -/
theorem returns_end_their_own_call :
    (∀ statements, (Bindings.ofProgram statements).violations = [] → ∀ supply,
      (∀ order ∈ statements, ∀ machine value after,
        execute supply order machine ≠ .ok (.returned value) after) ∧
      runProgram supply statements =
        forM statements fun order => discard (execute supply order)) ∧
    (∀ closure arguments machine supply,
      EndsByOwnReturns closure arguments machine supply) ∧
    (∀ past session entry line next, Session.Chronicle past session →
      session.receive entry = (.ok line, next) → ∀ calls closure arguments machine rest,
        Underway (Parts.asked.line line next.machine)
          (⟨calls, .call closure arguments, machine⟩ :: rest) →
        closure.yieldsReceiver = true → ∃ identity cls,
          machine.scopes.local? closure.scope receiverName = some (.object identity cls) ∧
          ∀ supply value after, call supply closure arguments machine = .ok value after →
            value = .object identity cls) := by
  refine ⟨fun statements accepted supply => ?_, ends_by_own_returns, ?_⟩
  · have never (order : Statement) (member : order ∈ statements) :=
      top_level_never_returns accepted member supply
    exact ⟨never, program_for_all never⟩
  · intro past session entry line next chronicle received calls closure arguments machine rest
    exact initializer_yields_object chronicle received

/-- A return in a block in a function; a program that only declares it; and an initializer. -/
theorem returns_end_their_own_call_in_block :
    ∃ (routine : Routine) (order : Statement) (line : Line) (next : Session) (closure : Closure)
        (machine : Machine) (rest : List Moment),
      (∀ machine value after, execute 9 order machine ≠ .ok (.returned value) after) ∧
      (∃ after, call 4 ⟨routine, 0, false⟩ [] (.start ⟨.unlimited, []⟩ 0) =
        .ok (.boolean true) after) ∧
      (Session.start ⟨.unlimited, []⟩ 0).receive
        (.program "class A \x7b init() \x7b return nil; \x7d \x7d A();") = (.ok line, next) ∧
      Underway (Parts.asked.line line next.machine) (⟨1, .call closure [], machine⟩ :: rest) ∧
      ∀ value after, call 4 closure [] machine = .ok value after → value.text = "A instance" := by
  let token (kind : Kind) (text : String) : Token := ⟨kind, text, 1⟩
  let returning (value : Literal) : Statement :=
    .exit (token .returnWord "return") (some (.literal value))
  let routine : Routine :=
    ⟨none, some [], [.block [returning (.boolean true)], .print (.literal .nil)]⟩
  let order : Statement := .expression (.lambda routine)
  let start : Machine := .start ⟨.unlimited, []⟩ 0
  let entered : Machine := start.entered ⟨routine, 0, false⟩ []
  let opened : Machine := { entered with
    scopes := entered.scopes.extend (some 1) .empty
    current := 2 }
  have accepted : (Bindings.ofProgram [order]).violations = [] := by rfl
  have never := (returns_end_their_own_call.1 [order] accepted 9).1 order List.mem_cons_self
  have reached : (Task.plan (.call ⟨routine, 0, false⟩ []) start).Reached 3 2
      [(returning (.boolean true), opened), (.block [returning (.boolean true)], entered)] :=
    .inner (.outermost List.mem_cons_self) List.mem_cons_self
  have ended := ((returns_end_their_own_call.2.1 ⟨routine, 0, false⟩ [] start 3).ends reached
    (show Gives 1 opened (some (.literal (.boolean true))) (.boolean true) opened from rfl)).2
  let initializer : Routine :=
    ⟨some (token .identifier "init"), some [], [returning .nil]⟩
  let calling : Expression :=
    .call (.reference ⟨0, token .identifier "A"⟩) (token .rightParen ")") []
  let line : Line := .statements
    [.classDeclaration (token .identifier "A") none [initializer] [], .expression calling]
  have received : (Session.start ⟨.unlimited, []⟩ 0).receive
      (.program "class A \x7b init() \x7b return nil; \x7d \x7d A();") = (.ok line, ⟨start, 1⟩) := by
    rfl
  let cls : Class := ⟨0, "A", Run.methodTable [initializer] 0 true, .empty, none⟩
  let declared : Machine := { start with
    scopes := start.scopes.define 0 "A" (.classValue cls)
    identities := 1 }
  let bound : Machine := { declared with
    scopes := declared.scopes.extend (some 0) (.ofList [("self", .object 0 cls)])
    fields := #[.empty]
    depth := 1 }
  have underway : Underway (Parts.asked.line line start)
      [⟨1, .call ⟨initializer, 1, true⟩ [], bound⟩, ⟨0, .evaluation calling, declared⟩,
        ⟨0, .execution (.expression calling), declared⟩] := by
    refine .inner (.inner (.first ?_) ?_) ?_
    · exact ⟨2, .inr (.inl ⟨rfl, rfl, rfl⟩)⟩
    · exact ⟨0, .inl ⟨rfl, rfl, rfl⟩⟩
    · exact ⟨2, .inr (.inl ⟨rfl, rfl, rfl⟩)⟩
  obtain ⟨identity, held, found, yields⟩ := returns_end_their_own_call.2.2 [] _ _ _ _
    (.start ⟨.unlimited, []⟩ 0) received _ _ _ _ _ underway rfl
  have isObject : some (Value.object 0 cls) = some (.object identity held) := found
  cases isObject
  refine ⟨routine, order, line, _, _, _, _, never, ⟨_, ended⟩, received, underway, ?_⟩
  intro value after returned
  rw [yields 4 value after returned]
  rfl

end Lox
