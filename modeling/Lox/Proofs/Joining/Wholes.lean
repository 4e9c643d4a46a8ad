import Lox.Proofs.Joining.Pieces

/-!
Reports of a whole program and of its two pieces. The outcome is that of the second piece,
the output is that of both, and what is reported is the same, except that what is reported
at a token of the second piece is reported further down, by the lines in front of it. Both
sessions are left with the same values in the same places.
-/

namespace Lox

theorem Sink.Abreast.text {leeway : Leeway} {sink sink' : Sink}
    (abreast : sink.Abreast leeway sink') :
    sink'.text = String.join leeway.earlier.reverse ++ sink.text := by
  rw [Sink.text, abreast.writes, List.reverse_append, String.join_append]
  rfl

/-- Lines that a token of the second piece may stand at in both sessions, or one from before. -/
def Leeway.left (lines : List Line) (first second : String) (drop : Nat) : Leeway :=
  .pieces second (HeardAt lines first) 0 drop []

/-- Both sessions go on alike, with the same numbers to give and with machines abreast. -/
structure Session.Abreast (leeway : Leeway) (session session' : Session) : Prop where
  nextId : session'.nextId = session.nextId
  machine : session.machine.Abreast leeway session'.machine

theorem Machine.Abreast.handed_on {lines : List Line} {first second : String} {drop : Nat}
    {earlier : List String} {machine machine' : Machine}
    (abreast : machine.Abreast (.pieces second (HeardAt lines first) 0 drop earlier) machine') :
    Machine.Abreast (.left lines first second drop)
      { machine with sink := machine.sink.emptied }
      { machine' with sink := machine'.sink.emptied } := by
  have within : (Leeway.pieces second (HeardAt lines first) 0 drop earlier).Within
      (.left lines first second drop) := ⟨fun _ _ => id, fun _ => id⟩
  have sinks : machine.sink.emptied.Abreast (.left lines first second drop)
      machine'.sink.emptied := ⟨abreast.sink.room, rfl⟩
  exact abreast.renew within sinks abreast.distances

namespace Run.Arrive

variable {leeway : Leeway} {α : Type} {related : α → α → Prop}
  {ending ending' : EStateM.Result Halt Machine α} {after : Machine}
  (arrive : Run.Arrive leeway related ending ending')

include arrive

theorem of_fault {number : Nat} {cause : Fault}
    (ended : ending = .error (.failed (.fault number cause)) after) :
    ∃ number' after', ending' = .error (.failed (.fault number' cause)) after' ∧
      leeway.line number number' ∧ after.Abreast leeway after' := by
  cases arrive with
  | ok result machines => cases ended
  | error reason machines =>
      cases ended
      cases reason with
      | fault _ allowed => exact ⟨_, _, rfl, allowed, machines⟩

theorem of_closed (ended : ending = .error (.failed .outputClosed) after) :
    ∃ after', ending' = .error (.failed .outputClosed) after' ∧ after.Abreast leeway after' := by
  cases arrive with
  | ok result machines => cases ended
  | error reason machines =>
      cases ended
      cases reason with
      | outputClosed => exact ⟨_, rfl, machines⟩

/-- A run that stops names a line or says that nothing can be written any more. -/
theorem cause_of_stop {diagnostic : Diagnostic}
    (ended : ending = .error (.failed diagnostic) after) :
    diagnostic = .outputClosed ∨ ∃ number cause, diagnostic = .fault number cause := by
  cases arrive with
  | ok result machines => cases ended
  | error reason machines =>
      cases ended
      cases reason with
      | outputClosed => exact .inl rfl
      | fault cause allowed => exact .inr ⟨_, cause, rfl⟩

theorem of_exhausted (gaveUp : ending = .error .exhausted after) :
    ∃ after', ending' = .error .exhausted after' := by
  cases arrive with
  | ok result machines => cases gaveUp
  | error reason machines =>
      cases gaveUp
      cases reason with
      | exhausted => exact ⟨_, rfl⟩

end Run.Arrive

theorem Session.told_ended {session last : Session} {report : Report}
    {ending : EStateM.Result Halt Machine Unit} (told : session.told ending = some (report, last)) :
    (∃ after, ending = .ok () after ∧ report = ⟨.success, after.sink.text, []⟩ ∧
      last = (session.close after).2) ∨
    ∃ diagnostic after, ending = .error (.failed diagnostic) after ∧
      report = ⟨.runtimeError, after.sink.text, [diagnostic]⟩ ∧
      last = (session.close after).2 := by
  rcases ending with ⟨_, after⟩ | ⟨diagnostic | _, after⟩
  · cases told
    exact .inl ⟨after, rfl, rfl, rfl⟩
  · cases told
    exact .inr ⟨diagnostic, after, rfl, rfl, rfl⟩
  · cases told

/-- The report of two pieces together, the second of them so many lines further down. -/
def Report.followedBy (report rest : Report) (drop : Nat) : Report where
  outcome := rest.outcome
  output := report.output ++ rest.output
  diagnostics := rest.diagnostics.map (Diagnostic.lower drop)

section Wholes

variable {lines : List Line} {session ready next last : Session} {first second : String}
  {orders others : List Statement} {supply : Nat} {after afterWhole : Machine} {rest : Report}
  (accepted : session.prepare first parseProgram Bindings.ofProgram = (.ok orders, ready))
  (acceptedToo : (ready.close after).2.prepare second parseProgram Bindings.ofProgram =
    (.ok others, next))
  (ended : runProgram supply orders (wholeMachine session orders others) = .ok () afterWhole)
  (table : afterWhole.distances = next.machine.distances)
  (abreast : after.Abreast (.still (.statements orders :: lines) ready.nextId) afterWhole)
  (itself : afterWhole.Abreast (.still (.statements orders :: lines) ready.nextId) afterWhole)

include accepted acceptedToo table abreast

section

include itself

/-- Where the second piece stops with a fault, it does so within all wholes, at the same token. -/
theorem same_fault {number : Nat} {cause : Fault} {final : Machine}
    (ran : runProgram supply others next.machine = .error (.failed (.fault number cause)) final) :
    ∃ own : Bool, (if own then HasTokenAt second number else HeardAt lines first number) ∧
      ∀ gap, ∃ finalWhole,
        runProgram supply
            (Statement.relabelAll (.lowering (lineEnds first + (gap + 1))) others) afterWhole =
          .error (.failed ((Diagnostic.fault number cause).lower
            (if own then lineEnds first + (gap + 1) else 0))) finalWhole ∧
        final.Abreast (.pieces second (HeardAt lines first) 0 (lineEnds first + (gap + 1))
          after.sink.writes) finalWhole := by
  have alone (gap : Nat) := (second_abreast accepted acceptedToo table abreast
    (lineEnds first + (gap + 1))).of_fault ran
  choose numbers finals stopped allowed machines using alone
  have pairs (gap : Nat) : (Leeway.pieces second (HeardAt lines first)
      (lineEnds first + (0 + 1)) (lineEnds first + (gap + 1)) []).line (numbers 0)
        (numbers gap) := by
    obtain ⟨number', _, stoppedToo, line, -⟩ := (wholes_abreast accepted acceptedToo itself
      (lineEnds first + (0 + 1)) (lineEnds first + (gap + 1))).of_fault (stopped 0)
    rw [stopped gap] at stoppedToo
    cases stoppedToo
    exact line
  rcases Leeway.pieces_uniform (fun gap => by omega) allowed pairs with
    ⟨isOwn, moved⟩ | ⟨isBefore, stayed⟩
  · refine ⟨true, isOwn, fun gap => ⟨finals gap, ?_, machines gap⟩⟩
    rw [stopped gap, moved gap]
    rfl
  · refine ⟨false, isBefore, fun gap => ⟨finals gap, ?_, machines gap⟩⟩
    rw [stopped gap, stayed gap]
    rfl

end

include ended

theorem whole_finished (gap : Nat) {final : Machine}
    (ran : runProgram supply others next.machine = .ok () final) :
    ∃ whole, session.run supply (joined first gap second) =
        some (⟨.success, after.sink.text ++ final.sink.text, []⟩, whole) ∧
      (next.close final).2.Abreast (.left lines first second (lineEnds first + (gap + 1)))
        whole := by
  obtain ⟨_, finalWhole, finished, -, machines⟩ :=
    (second_abreast accepted acceptedToo table abreast (lineEnds first + (gap + 1))).of_ok ran
  refine ⟨((Session.mk (wholeMachine session orders others) next.nextId).close finalWhole).2, ?_,
    ⟨rfl, machines.handed_on⟩⟩
  rw [whole_told accepted acceptedToo ended, finished, Session.told, machines.sink.text]
  rfl

omit table abreast in
theorem whole_stopped (gap : Nat) {diagnostic : Diagnostic} {final finalWhole : Machine}
    (stopped : runProgram supply
      (Statement.relabelAll (.lowering (lineEnds first + (gap + 1))) others) afterWhole =
        .error (.failed diagnostic) finalWhole)
    (machines : final.Abreast (.pieces second (HeardAt lines first) 0
      (lineEnds first + (gap + 1)) after.sink.writes) finalWhole) :
    ∃ whole, session.run supply (joined first gap second) =
        some (⟨.runtimeError, after.sink.text ++ final.sink.text, [diagnostic]⟩, whole) ∧
      (next.close final).2.Abreast (.left lines first second (lineEnds first + (gap + 1)))
        whole := by
  refine ⟨((Session.mk (wholeMachine session orders others) next.nextId).close finalWhole).2, ?_,
    ⟨rfl, machines.handed_on⟩⟩
  rw [whole_told accepted acceptedToo ended, stopped, Session.told, machines.sink.text]
  rfl

include itself in
/-- What is told of the second piece is told of the whole, behind what is told of the first. -/
theorem whole_of_second
    (told : next.told (runProgram supply others next.machine) = some (rest, last)) :
    ∃ own : Bool, (∀ number cause, .fault number cause ∈ rest.diagnostics →
        if own then HasTokenAt second number else HeardAt lines first number) ∧
      ∀ gap, ∃ whole, session.run supply (joined first gap second) =
          some (Report.followedBy ⟨.success, after.sink.text, []⟩ rest
            (if own then lineEnds first + (gap + 1) else 0), whole) ∧
        last.Abreast (.left lines first second (lineEnds first + (gap + 1))) whole := by
  rcases Session.told_ended told with ⟨final, ran, rfl, rfl⟩ | ⟨diagnostic, final, ran, rfl, rfl⟩
  · exact ⟨false, fun _ _ member => absurd member List.not_mem_nil, fun gap =>
      whole_finished accepted acceptedToo ended table abreast gap ran⟩
  · have alone (drop : Nat) : Run.Arrive _ _ (runProgram supply others next.machine) _ :=
      second_abreast accepted acceptedToo table abreast drop
    rcases (alone 0).cause_of_stop ran with rfl | ⟨number, cause, rfl⟩
    · refine ⟨false, fun _ _ member => (by cases List.mem_singleton.mp member), fun gap => ?_⟩
      obtain ⟨_, stopped, machines⟩ := (alone (lineEnds first + (gap + 1))).of_closed ran
      exact whole_stopped accepted acceptedToo ended gap stopped machines
    · obtain ⟨own, stands, stops⟩ := same_fault accepted acceptedToo table abreast itself ran
      refine ⟨own, fun _ _ member => ?_, fun gap => ?_⟩
      · cases List.mem_singleton.mp member
        exact stands
      obtain ⟨_, stopped, machines⟩ := stops gap
      exact whole_stopped accepted acceptedToo ended gap stopped machines

/-- If the whole comes to its end, the second piece does as well. -/
theorem second_of_whole {gap : Nat} {report : Report} {whole : Session}
    (told : session.run supply (joined first gap second) = some (report, whole)) :
    ∃ rest last, next.told (runProgram supply others next.machine) = some (rest, last) := by
  have alone : Run.Arrive _ _ (runProgram supply others next.machine) _ :=
    second_abreast accepted acceptedToo table abreast (lineEnds first + (gap + 1))
  rw [whole_told accepted acceptedToo ended] at told
  rcases ran : runProgram supply others next.machine with ⟨_, final⟩ | ⟨diagnostic | _, final⟩
  · exact ⟨_, _, rfl⟩
  · exact ⟨_, _, rfl⟩
  · obtain ⟨_, gaveUp⟩ := alone.of_exhausted ran
    rw [gaveUp] at told
    cases told

end Wholes

section Joint

variable {lines : List Line} {session middle : Session} {first second : String} {report : Report}

/-- With one supply for all three runs. -/
theorem run_supplied_in_pieces {supply : Nat} (history : Session.History lines session)
    (began : session.run supply first = some (report, middle))
    (succeeds : report.outcome = .success) (accepts : session.Accepts second) :
    (∀ gap whole final, session.run supply (joined first gap second) = some (whole, final) →
      ∃ rest last, middle.run supply second = some (rest, last)) ∧
    ∀ rest last, middle.run supply second = some (rest, last) →
      ∃ own : Bool, (∀ number cause, .fault number cause ∈ rest.diagnostics →
          if own then HasTokenAt second number else HeardAt lines first number) ∧
        ∀ gap, ∃ final, session.run supply (joined first gap second) =
            some (report.followedBy rest (if own then lineEnds first + (gap + 1) else 0), final) ∧
          last.Abreast (.left lines first second (lineEnds first + (gap + 1))) final := by
  obtain ⟨orders, ready, after, accepted, ran, rfl, rfl⟩ := Session.run_succeeds began succeeds
  have ordered : session.nextId ≤ ready.nextId := by
    have kept := session.receive_ordered (.program first)
    rwa [received_orders accepted] at kept
  have acceptsToo : (ready.close after).2.Accepts second := accepts.later ordered
  obtain ⟨others, next, acceptedToo⟩ := acceptsToo
  obtain ⟨afterWhole, ended, table, abreast, itself⟩ :=
    front_abreast history accepted ran acceptedToo
  rw [Session.run_told acceptedToo]
  exact ⟨fun _ _ _ told => second_of_whole accepted acceptedToo ended table abreast told,
    fun _ _ told => whole_of_second accepted acceptedToo ended table abreast itself told⟩

/-- To run a program in two pieces is to run it as a whole. The whole ends if the second piece
does, however many lines are between the pieces; and the line that its report names is
that of a token of the second piece, which moves along with the piece, or stays where it
is, and then there is a token of the first piece or from before. -/
theorem run_in_pieces (history : Session.History lines session)
    (begins : session.Ends first report middle) (succeeds : report.outcome = .success)
    (accepts : session.Accepts second) :
    (∀ gap, (∃ whole final, session.Ends (joined first gap second) whole final) ↔
      ∃ rest last, middle.Ends second rest last) ∧
    ∀ rest last, middle.Ends second rest last →
      ∃ own : Bool, (∀ number cause, .fault number cause ∈ rest.diagnostics →
          if own then HasTokenAt second number else HeardAt lines first number) ∧
        ∀ gap, ∃ final, session.Ends (joined first gap second)
            (report.followedBy rest (if own then lineEnds first + (gap + 1) else 0)) final ∧
          last.Abreast (.left lines first second (lineEnds first + (gap + 1))) final := by
  obtain ⟨supply, began⟩ := begins
  refine (and_iff_right_of_imp fun onwards gap => ⟨?back, ?on⟩).mpr ?onwards
  case back =>
    rintro ⟨whole, final, other, ended⟩
    have began := Session.run_longer (Nat.le_max_left supply other) began
    have ended := Session.run_longer (Nat.le_max_right supply other) ended
    obtain ⟨rest, last, endedToo⟩ :=
      (run_supplied_in_pieces history began succeeds accepts).1 gap whole final ended
    exact ⟨rest, last, max supply other, endedToo⟩
  case on =>
    rintro ⟨rest, last, ends⟩
    obtain ⟨_, -, wholes⟩ := onwards rest last ends
    obtain ⟨final, ended, -⟩ := wholes gap
    exact ⟨_, final, ended⟩
  case onwards =>
    rintro rest last ⟨other, ended⟩
    have began := Session.run_longer (Nat.le_max_left supply other) began
    have ended := Session.run_longer (Nat.le_max_right supply other) ended
    obtain ⟨own, stands, wholes⟩ :=
      (run_supplied_in_pieces history began succeeds accepts).2 rest last ended
    exact ⟨own, stands, fun gap => (wholes gap).imp fun final same =>
      ⟨⟨max supply other, same.1⟩, same.2⟩⟩

end Joint

/-- The second piece sets a variable of the first one, calls a function of the first one, and
stops at its fifth line, which is the eighth line of the whole. -/
theorem fault_of_second_piece_lowered :
    ∃ middle last final,
      (Session.start ⟨.unlimited, []⟩ 0).Ends "var a = true;\nfun f() { print a; }\nf();"
        ⟨.success, "true\n", []⟩ middle ∧
      middle.Ends "a = nil;\n\n\nf();\nprint b;"
        ⟨.runtimeError, "nil\n", [.fault 5 (.undefinedVariable "b")]⟩ last ∧
      (Session.start ⟨.unlimited, []⟩ 0).Ends
        ("var a = true;\nfun f() { print a; }\nf();" ++ "\n" ++ "a = nil;\n\n\nf();\nprint b;")
        ⟨.runtimeError, "true\nnil\n", [.fault 8 (.undefinedVariable "b")]⟩ final ∧
      last.Abreast (.left [] "var a = true;\nfun f() { print a; }\nf();"
        "a = nil;\n\n\nf();\nprint b;" 3) final := by
  have runs : ((Session.start ⟨.unlimited, []⟩ 0).run 20
      "var a = true;\nfun f() { print a; }\nf();").bind (fun front =>
        (front.2.run 20 "a = nil;\n\n\nf();\nprint b;").map fun back => (front.1, back.1)) =
      some (⟨.success, "true\n", []⟩,
        ⟨.runtimeError, "nil\n", [.fault 5 (.undefinedVariable "b")]⟩) := by decide +kernel
  obtain ⟨⟨_, middle⟩, began, ran⟩ := Option.bind_eq_some_iff.mp runs
  obtain ⟨⟨_, last⟩, ended, reports⟩ := Option.map_eq_some_iff.mp ran
  cases reports
  have accepts : (Session.start ⟨.unlimited, []⟩ 0).Accepts "a = nil;\n\n\nf();\nprint b;" :=
    ⟨_, _, rfl⟩
  have pieces := run_in_pieces (.start _ _) ⟨20, began⟩ rfl accepts
  obtain ⟨own, stands, wholes⟩ := pieces.2 _ last ⟨20, ended⟩
  obtain ⟨final, whole, abreast⟩ := wholes 0
  have unheard : ¬ HeardAt [] "var a = true;\nfun f() { print a; }\nf();" 5 := by
    have absent : ∀ token ∈ written "var a = true;\nfun f() { print a; }\nf();",
        token.line ≠ 5 := by decide +kernel
    rintro (⟨token, isWritten, stands⟩ | ⟨_, none, -⟩)
    · exact absent token isWritten stands
    · cases none
  cases own with
  | false => exact absurd (stands 5 _ List.mem_cons_self) unheard
  | true => exact ⟨middle, last, final, ⟨20, began⟩, ⟨20, ended⟩, whole, abreast⟩

end Lox
