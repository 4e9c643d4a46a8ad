import Lox.Proofs.Execution.Reports
import Lox.Proofs.WellFormed.Runs

/-!
No operator is ever missing. What is read without a complaint is well formed, so that neither a
program nor a session of programs comes upon an operator that the rules of evaluation do not know.
-/

namespace Lox

/-- The complaint that an operator is missing is told from all others by its text. -/
theorem Fault.misses_operator_iff (cause : Fault) : cause.MissesOperator ↔
    cause.message = "Invalid unary operator." ∨ cause.message = "Invalid binary operator." := by
  have begins {front back text : String} (first : Char) (same : text = front ++ back)
      (start : front.toList.head? = some first) (other : first ≠ 'I') :
      ¬(text = "Invalid unary operator." ∨ text = "Invalid binary operator.") := by
    have head : text.toList.head? = some first := by
      rw [same, String.toList_append, List.head?_append, start, Option.some_or]
    have unknown {known : String} (capital : known.toList.head? = some 'I') : text ≠ known := by
      rintro rfl
      rw [capital] at head
      exact other (Option.some.inj head).symm
    exact not_or.mpr ⟨unknown (by simp), unknown (by simp)⟩
  cases cause with
  | invalidUnaryOperator => exact iff_of_true trivial (.inl rfl)
  | invalidBinaryOperator => exact iff_of_true trivial (.inr rfl)
  | undefinedVariable | unboundLocal | undefinedProperty =>
      exact iff_of_false not_false (begins 'U' (String.append_assoc ..) (by simp) (by decide))
  | wrongArgumentCount expected actual =>
      have split : (wrongArgumentCount expected actual).message =
          "Expected " ++ toString expected ++ " arguments but got " ++ toString actual ++ "." := rfl
      simp only [String.append_assoc] at split
      exact iff_of_false not_false (begins 'E' split (by simp) (by decide))
  | _ => exact iff_of_false not_false (by decide)

/-- Machines on which nothing has run but what was read without a complaint. In between, the table
of distances, the sink and the clock may have become anything. -/
inductive Machine.OfParsed : Machine → Prop where
  | start (sink : Sink) (time : Nat) : OfParsed (.start sink time)
  | between {machine : Machine} (before : OfParsed machine) (distances : Std.TreeMap Nat Nat)
      (sink : Sink) (time : Nat) :
      OfParsed { machine with distances := distances, sink := sink, time := time }
  | ran {machine : Machine} {reader : Reader} {tokens : List Token} {firstId : Nat} {line : Line}
      (before : OfParsed machine) (accepted : (reader.read tokens firstId).outcome = .ok line)
      (supply : Nat) : OfParsed (Ending.machine (line.run supply machine))

theorem Ending.Safe.machine {α : Type} {good : α → Prop} {ending : Ending α}
    (safe : ending.Safe good) : ending.machine.WellFormed := by
  cases ending <;> exact safe.1

theorem Machine.WellFormed.start (sink : Sink) (time : Nat) :
    (Machine.start sink time).WellFormed where
  scopes id name value found := by
    change (Scopes.extend _ _ _).local? id name = some value at found
    rw [Scopes.local_extend] at found
    split_ifs at found
    · obtain ⟨provided, -, same⟩ := List.mem_map.mp (Names.mem_of_find found)
      cases same
      trivial
    · cases found
  fields _ _ _ found := by cases found

theorem Machine.OfParsed.well_formed {machine : Machine} (parsed : machine.OfParsed) :
    machine.WellFormed := by
  induction parsed with
  | start sink time => exact .start sink time
  | between before distances sink time fine => exact ⟨fine.scopes, fine.fields⟩
  | @ran machine reader tokens firstId line before accepted supply fine =>
      exact (Line.run_safe (reader.read_well_formed accepted) supply machine fine).machine

/-- The diagnostics tell of no missing operator. -/
def NoneMissing (diagnostics : List Diagnostic) : Prop :=
  ∀ line cause, .fault line cause ∈ diagnostics → cause.message ≠ "Invalid unary operator." ∧
    cause.message ≠ "Invalid binary operator."

theorem Halt.none_missing {diagnostic : Diagnostic}
    (other : ¬(Halt.failed diagnostic).MissesOperator) : NoneMissing [diagnostic] := by
  intro line cause member
  cases List.mem_singleton.mp member
  exact not_or.mp fun told => other (cause.misses_operator_iff.mpr told)

theorem none_missing_of_static {diagnostics : List Diagnostic}
    (static : ∀ diagnostic ∈ diagnostics, diagnostic.isStatic = true) :
    NoneMissing diagnostics := by
  intro line cause member
  cases static _ member

/-- However an entry is read, a reader for token lists reads it. -/
theorem Entry.parse_eq (entry : Entry) : ∃ reader : Reader, entry.parse = reader.read := by
  cases entry with
  | program source => exact ⟨.program, rfl⟩
  | line source => exact ⟨.line, rfl⟩

theorem Entry.explained (entry : Entry) (tokens : List Token) (firstId : Nat) :
    (entry.parse tokens firstId).Explained := by
  cases entry with
  | line source => exact line_explained tokens firstId
  | program source =>
      have explained := program_explained tokens firstId
      intro same
      cases outcome : (parseProgram tokens firstId).outcome <;>
        simp only [Entry.parse, outcome] at same <;> cases same
      exact explained outcome

namespace Session

/-- What is received after well-formed code is well formed, or it is rejected for its text. -/
theorem receive_well_formed {session : Session} {entry : Entry}
    {outcome : Except (List Diagnostic) Line} {next : Session}
    (fine : session.machine.WellFormed) (received : session.receive entry = (outcome, next)) :
    next.machine.WellFormed ∧ match outcome with
      | .ok line => line.node.WellFormed
      | .error diagnostics => NoneMissing diagnostics := by
  obtain ⟨distances, frame⟩ := session.receive_frame entry
  rw [received] at frame
  change next.machine = _ at frame
  refine ⟨frame ▸ ⟨fine.scopes, fine.fields⟩, ?_⟩
  rw [receive_eq] at received
  cases outcome with
  | error diagnostics =>
      exact none_missing_of_static (prepare_rejects entry.explained received).2.static
  | ok line =>
      obtain ⟨reader, same⟩ := entry.parse_eq
      have accepted := (prepare_accepts received).2
      rw [same] at accepted
      exact reader.read_well_formed accepted

theorem answer_well_formed {session next : Session} {supply : Nat} {entry : Entry} {reply : Reply}
    (fine : session.machine.WellFormed)
    (answered : session.answer supply entry = some (reply, next)) :
    next.machine.WellFormed ∧ NoneMissing reply.diagnostics := by
  have told (outcome : Outcome) (echo : Option String) (output : String)
      (diagnostics : List Diagnostic) :
      (entry.reply outcome echo output diagnostics).diagnostics = diagnostics := by
    cases entry <;> rfl
  rw [answer_eq] at answered
  rcases received : session.receive entry with ⟨diagnostics | line, begun⟩ <;>
    rw [received] at answered
  · cases answered
    refine ⟨(receive_well_formed fine received).1, ?_⟩
    rw [Entry.rejection, told]
    exact (receive_well_formed fine received).2
  · obtain ⟨begunFine, lineFine⟩ := receive_well_formed fine received
    have safe := Line.run_safe lineFine supply begun.machine begunFine
    dsimp only at answered
    rcases ended : line.run supply begun.machine with ⟨value, after⟩ | ⟨diagnostic | -, after⟩ <;>
      rw [ended] at answered safe <;> cases answered <;> rw [told]
    · exact ⟨⟨safe.1.scopes, safe.1.fields⟩, fun _ _ member => absurd member List.not_mem_nil⟩
    · exact ⟨⟨safe.1.scopes, safe.1.fields⟩, Halt.none_missing safe.2⟩

theorem play_well_formed {entries : List (Nat × Entry)} {session last : Session}
    {replies : List Reply} (fine : session.machine.WellFormed)
    (played : play entries session = some (replies, last)) :
    ∀ reply ∈ replies, NoneMissing reply.diagnostics := by
  induction entries generalizing session replies with
  | nil =>
      cases played
      exact List.forall_mem_nil _
  | cons first rest induction =>
      obtain ⟨supply, entry⟩ := first
      obtain ⟨reply, next, others, answered, further, rfl⟩ := play_cons played
      obtain ⟨nextFine, none⟩ := answer_well_formed fine answered
      exact List.forall_mem_cons.mpr ⟨none, induction nextFine further⟩

end Session

/-- Whatever is read without a complaint is well formed throughout, so that no run of it fails for
want of an operator, on whatever machine that has run nothing else; nor does any session. -/
theorem operators_never_missing :
    (∀ (reader : Reader) (tokens : List Token) (firstId : Nat) (line : Line),
      (reader.read tokens firstId).outcome = .ok line →
        line.node.WellFormed ∧
        ∀ machine : Machine, machine.OfParsed → ∀ supply diagnostic after,
          line.run supply machine = .error (.failed diagnostic) after → NoneMissing [diagnostic]) ∧
    ∀ (sink : Sink) (time : Nat) (entries : List (Nat × Entry)) (replies : List Reply)
      (session : Session), Session.play entries (.start sink time) = some (replies, session) →
        ∀ reply ∈ replies, NoneMissing reply.diagnostics := by
  constructor
  · intro reader tokens firstId line accepted
    have lineFine := reader.read_well_formed accepted
    refine ⟨lineFine, fun machine parsed supply diagnostic after ended => ?_⟩
    have safe := Line.run_safe lineFine supply machine parsed.well_formed
    rw [ended] at safe
    exact Halt.none_missing safe.2
  · intro sink time entries replies session played
    exact Session.play_well_formed (.start sink time) played

/-- An operator in a function that is applied to what has no negative. -/
theorem operators_never_missing_in_call :
    ∃ line after replies session,
      (Reader.program.read (tokensOf (scan "var a; fun f() \x7b return -a; \x7d f();")) 0).outcome =
        .ok line ∧
      line.node.WellFormed ∧
      line.run 9 (.start ⟨.unlimited, []⟩ 0) = .error (.failed (.fault 1 .operandNotNumber)) after ∧
      NoneMissing [.fault 1 .operandNotNumber] ∧
      Session.play [(9, .program "var a; fun f() \x7b return -a; \x7d f();")]
        (.start ⟨.unlimited, []⟩ 0) = some (replies, session) ∧
      ∀ reply ∈ replies, NoneMissing reply.diagnostics := by
  let routine : Routine := ⟨some ⟨.identifier, "f", 1⟩, some [],
    [.exit ⟨.returnWord, "return", 1⟩
      (some (.unary ⟨.minus, "-", 1⟩ (.reference ⟨0, ⟨.identifier, "a", 1⟩⟩)))]⟩
  let line : Line := .statements [.variableDeclaration ⟨.identifier, "a", 1⟩ none,
    .routineDeclaration routine,
    .expression (.call (.reference ⟨1, ⟨.identifier, "f", 1⟩⟩) ⟨.rightParen, ")", 1⟩ [])]
  have accepted : (Reader.program.read
      (tokensOf (scan "var a; fun f() \x7b return -a; \x7d f();")) 0).outcome = .ok line := by rfl
  have ended : line.run 9 (.start ⟨.unlimited, []⟩ 0) =
      .error (.failed (.fault 1 .operandNotNumber))
        (Ending.machine (line.run 9 (.start ⟨.unlimited, []⟩ 0))) := by rfl
  have told : (Session.play [(9, .program "var a; fun f() \x7b return -a; \x7d f();")]
      (.start ⟨.unlimited, []⟩ 0)).map Prod.fst =
        some [.report ⟨.runtimeError, "", [.fault 1 .operandNotNumber]⟩] := by decide +kernel
  obtain ⟨⟨replies, session⟩, played, -⟩ := Option.map_eq_some_iff.mp told
  obtain ⟨reads, plays⟩ := operators_never_missing
  obtain ⟨fine, runs⟩ := reads .program _ 0 line accepted
  exact ⟨line, _, replies, session, accepted, fine, ended,
    runs _ (.start ⟨.unlimited, []⟩ 0) 9 _ _ ended, played, plays _ 0 _ replies session played⟩

end Lox
