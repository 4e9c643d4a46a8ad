import Lox.Proofs.Joining.Completions
import Lox.Proofs.Joining.Drawing
import Lox.Proofs.Joining.Preparing
import Lox.Proofs.Joining.Supplies
import Lox.Proofs.Renaming.Rejections

/-!
Running a program in two pieces. The second piece finds the machine as the first one has
left it, whether or not both are parts of one source text; so it does the same in both
cases, and all that can be told apart are the lines at which its tokens stand.
-/

namespace Lox

/-- The diagnostic, reported so many lines further down. -/
def Diagnostic.lower (drop : Nat) : Diagnostic → Diagnostic
  | .lexical line cause => .lexical (line + drop) cause
  | .grammatical place cause => .grammatical (place.lower drop) cause
  | .binding place cause => .binding (place.lower drop) cause
  | .fault line cause => .fault (line + drop) cause
  | .outputClosed => .outputClosed

/-- A token of the source text stands at this line. -/
def HasTokenAt (source : String) (number : Nat) : Prop :=
  ∃ token ∈ written source, token.line = number

/-- A token of the source text, or of a program from before, stands at this line. -/
def HeardAt (lines : List Line) (source : String) (number : Nat) : Prop :=
  HasTokenAt source number ∨ Occupied lines number

/-- Tokens of a text are further down by so many lines in the two runs; the tokens of code
from before are where they were. -/
def Leeway.pieces (source : String) (before : Nat → Prop) (drop drop' : Nat)
    (earlier : List String) : Leeway where
  line number number' :=
    (∃ own, HasTokenAt source own ∧ number = own + drop ∧ number' = own + drop') ∨
      (before number ∧ number' = number)
  known _ := True
  earlier := earlier

/-- Two runs have come to one line by a token of the text, or both by a token from before,
whatever the number of lines between the pieces. -/
theorem Leeway.pieces_uniform {source : String} {before : Nat → Prop} {number : Nat}
    {drop numbers : Nat → Nat} {earlier : Nat → List String} (below : ∀ gap, 0 < drop gap)
    (alone : ∀ gap, (Leeway.pieces source before 0 (drop gap) (earlier gap)).line number
      (numbers gap))
    (pairs : ∀ gap, (Leeway.pieces source before (drop 0) (drop gap) []).line (numbers 0)
      (numbers gap)) :
    (HasTokenAt source number ∧ ∀ gap, numbers gap = number + drop gap) ∨
      (before number ∧ ∀ gap, numbers gap = number) := by
  have apart := below 0
  rcases alone 0 with ⟨own, isOwn, same, moved⟩ | ⟨isBefore, stayed⟩
  · refine .inl ⟨same ▸ isOwn, fun gap => ?_⟩
    rcases alone gap with ⟨other, -, sameOther, movedOther⟩ | ⟨-, stayedOther⟩
    · omega
    · rcases pairs gap with ⟨third, -, first, second⟩ | ⟨-, kept⟩ <;> omega
  · refine .inr ⟨isBefore, fun gap => ?_⟩
    rcases alone gap with ⟨other, -, sameOther, movedOther⟩ | ⟨-, stayedOther⟩
    · rcases pairs gap with ⟨third, -, first, second⟩ | ⟨-, kept⟩ <;> omega
    · exact stayedOther

namespace Session

/-- What is told of a run, unless its supply did not suffice. -/
def told (session : Session) : EStateM.Result Halt Machine Unit → Option (Report × Session)
  | .ok () after => some (⟨.success, after.sink.text, []⟩, (session.close after).2)
  | .error (.failed diagnostic) after =>
      some (⟨.runtimeError, after.sink.text, [diagnostic]⟩, (session.close after).2)
  | .error .exhausted _ => none

theorem run_told {session next : Session} {source : String} {orders : List Statement}
    (accepted : session.prepare source parseProgram Bindings.ofProgram = (.ok orders, next))
    (supply : Nat) : session.run supply source =
      next.told (runProgram supply orders next.machine) := by
  unfold run
  rw [accepted]
  dsimp only
  rcases runProgram supply orders next.machine with ⟨_, after⟩ | ⟨_ | _, after⟩ <;> rfl

theorem run_succeeds {session last : Session} {source : String} {supply : Nat} {report : Report}
    (ended : session.run supply source = some (report, last))
    (succeeds : report.outcome = .success) :
    ∃ orders ready after,
      session.prepare source parseProgram Bindings.ofProgram = (.ok orders, ready) ∧
      runProgram supply orders ready.machine = .ok () after ∧
      report = ⟨.success, after.sink.text, []⟩ ∧ last = (ready.close after).2 := by
  rcases prepared : session.prepare source parseProgram Bindings.ofProgram with
    ⟨diagnostics | orders, ready⟩
  · unfold run at ended
    rw [prepared] at ended
    cases ended
    cases succeeds
  · rw [run_told prepared] at ended
    cases ran : runProgram supply orders ready.machine with
    | ok value after =>
        rw [ran] at ended
        cases ended
        exact ⟨orders, ready, after, rfl, ran, rfl, rfl⟩
    | error halt after =>
        rw [ran] at ended
        cases halt with
        | exhausted => cases ended
        | failed diagnostic =>
            cases ended
            cases succeeds

end Session

theorem program_restores (supply : Nat) (orders : List Statement) :
    (runProgram supply orders).Restores :=
  Setting.Relation.program_related (Run.parts_restore supply) orders

section Pieces

variable {lines : List Line} {session ready next : Session} {first second : String}
  {orders others : List Statement} {supply : Nat} {after : Machine}
  (history : Session.History lines session)
  (accepted : session.prepare first parseProgram Bindings.ofProgram = (.ok orders, ready))
  (ran : runProgram supply orders ready.machine = .ok () after)
  (acceptedToo : (ready.close after).2.prepare second parseProgram Bindings.ofProgram =
    (.ok others, next))

section Between

include accepted

theorem received_orders : session.receive (.program first) = (.ok (.statements orders), ready) := by
  simp only [Session.receive, accepted]
  rfl

include history ran

/-- The session between the pieces comes about. -/
theorem history_between :
    Session.History (.statements orders :: lines) (ready.close after).2 := by
  have received := received_orders accepted
  have entered : session.enter supply (.program first) = some (ready.close after).2 := by
    rw [Session.enter_eq, received]
    dsimp only
    rw [Session.leave_run_statements, ran]
    rfl
  exact .accepted history received entered

end Between

/-- The machine on which the whole is run. -/
def wholeMachine (session : Session) (orders others : List Statement) : Machine :=
  session.machine.bondAll ((Bindings.ofProgram orders).bonds ++ (Bindings.ofProgram others).bonds)

include accepted in
theorem whole_machine_eq : wholeMachine session orders others =
    ready.machine.bondAll (Bindings.ofProgram others).bonds := by
  obtain ⟨-, -, -, rfl⟩ := Session.prepare_accepts_iff.mp accepted
  exact List.foldl_append

section Tables

include accepted ran acceptedToo

/-- The whole has the table that the second piece has. -/
theorem same_table : next.machine.distances = (wholeMachine session orders others).distances := by
  have kept := (program_restores supply orders ready.machine).distances
  rw [ran] at kept
  obtain ⟨-, -, -, rfl⟩ := Session.prepare_accepts_iff.mp acceptedToo
  rw [whole_machine_eq accepted, bond_all_distances, bond_all_distances]
  exact congrArg (settle _) kept

include history

/-- To the first piece, the table looks as if the second one were not there. -/
theorem same_below (id : Nat) (below : id < ready.nextId) :
    (wholeMachine session orders others).distances[id]? = ready.machine.distances[id]? := by
  have between := history_between history accepted ran
  have keeps := Session.receive_keeps (Session.history_surveyed between) (.program second) id below
  have restores := (program_restores supply orders ready.machine).distances
  rw [ran] at restores
  rw [received_orders acceptedToo] at keeps
  rw [← same_table accepted ran acceptedToo, keeps, ← restores]
  rfl

/-- The first piece runs on its own as it does within the whole. -/
theorem front_abreast : ∃ afterWhole,
    runProgram supply orders (wholeMachine session orders others) = .ok () afterWhole ∧
      afterWhole.distances = next.machine.distances ∧
      after.Abreast (.still (.statements orders :: lines) ready.nextId) afterWhole ∧
      afterWhole.Abreast (.still (.statements orders :: lines) ready.nextId) afterWhole := by
  have received := received_orders accepted
  have steady : ready.Steady (.statements orders :: lines) := by
    have kept := (Session.history_steady history).receive (.program first)
      fun line => List.mem_cons_of_mem (Line.statements orders)
    rwa [received] at kept
  have twins : (Node.statements orders).Twins (.still (.statements orders :: lines) ready.nextId)
      .same .same := Line.twins List.mem_cons_self (Session.received_numbered received)
  have runs := (supplied_abreast _ supply).program twins
  rw [Statement.relabel_all_same] at runs
  have within : (Leeway.still (.statements orders :: lines) ready.nextId).Within
      (.still (.statements orders :: lines) ready.nextId) := ⟨fun _ _ => id, fun _ => id⟩
  have below := same_below history accepted ran acceptedToo
  obtain ⟨table, framed⟩ := Session.bond_all_frame ready.machine (Bindings.ofProgram others).bonds
  rw [← whole_machine_eq accepted] at framed
  rw [framed] at below
  have pieces := steady.renew within steady.sink below
  have whole : Machine.Abreast _ { ready.machine with distances := table }
      { ready.machine with distances := table } := steady.renew within steady.sink fun _ _ => rfl
  rw [← framed] at whole
  have both := runs _ _ pieces
  rw [← framed] at both
  obtain ⟨_, afterWhole, ended, -, abreast⟩ := both.of_ok ran
  obtain ⟨_, other, endedToo, -, itself⟩ := (runs _ _ whole).of_ok ended
  have restores := (program_restores supply orders (wholeMachine session orders others)).distances
  change runProgram supply orders _ = _ at ended endedToo
  rw [ended] at endedToo restores
  cases endedToo
  exact ⟨afterWhole, ended, restores.trans (same_table accepted ran acceptedToo).symm, abreast,
    itself⟩

end Tables

include accepted in
theorem first_tokens : (Node.statements orders).From (· ∈ written first) := by
  obtain ⟨-, parsed, -, -⟩ := Session.prepare_accepts_iff.mp accepted
  refine program_from ?_ parsed
  rw [tokens_of_scan]
  intro token member inner
  rcases List.mem_append.mp member with isWritten | isEnd
  · exact isWritten
  · rw [List.mem_singleton.mp isEnd] at inner
    exact absurd rfl inner

include accepted in
/-- Code from before the second piece is from the first piece or from earlier still. -/
theorem still_within_pieces (drop drop' : Nat) (earlier : List String) :
    (Leeway.still (.statements orders :: lines) ready.nextId).Within
      (.pieces second (HeardAt lines first) drop drop' earlier) where
  line := by
    rintro number _ ⟨rfl, line, member, inner, contained, token, isOwn, stands⟩
    refine .inr ⟨?_, rfl⟩
    rcases List.mem_cons.mp member with rfl | isEarlier
    · exact .inl ⟨token, first_tokens accepted inner contained token isOwn, stands⟩
    · exact .inr ⟨line, isEarlier, inner, contained, token, isOwn, stands⟩
  known _ _ := trivial

include acceptedToo in
/-- The tree of the second piece, at two distances from where it was written. -/
theorem second_twins (before : Nat → Prop) (drop drop' : Nat) (earlier : List String) :
    (Node.statements others).Twins (.pieces second before drop drop' earlier) (.lowering drop)
      (.lowering drop') where
  tokens inner contained token isOwn := by
    have isWritten := first_tokens acceptedToo inner contained token isOwn
    beta_reduce
    rw [Labels.lowering_inner drop (written_inner second token isWritten),
      Labels.lowering_inner drop' (written_inner second token isWritten)]
    exact ⟨rfl, rfl, .inl ⟨token.line, ⟨token, isWritten, rfl⟩, rfl, rfl⟩⟩
  places _ _ := ⟨rfl, trivial⟩

section Wholes

variable {afterWhole : Machine}
  (ended : runProgram supply orders (wholeMachine session orders others) = .ok () afterWhole)
  (table : afterWhole.distances = next.machine.distances)
  (abreast : after.Abreast (.still (.statements orders :: lines) ready.nextId) afterWhole)
  (itself : afterWhole.Abreast (.still (.statements orders :: lines) ready.nextId) afterWhole)

include accepted acceptedToo

section

include ended

/-- What is told of the whole is told of the second piece, run behind the first. -/
theorem whole_told (gap : Nat) : session.run supply (joined first gap second) =
    (Session.mk (wholeMachine session orders others) next.nextId).told
      (runProgram supply
        (Statement.relabelAll (.lowering (lineEnds first + (gap + 1))) others) afterWhole) := by
  have follows : (ready.close after).2.nextId = ready.nextId := rfl
  have whole := Session.prepare_joined accepted follows acceptedToo gap
  obtain ⟨-, -, clean, -⟩ := Session.prepare_accepts_iff.mp accepted
  rw [Session.run_told whole, run_program_append supply _ (program_stays clean)]
  exact congrArg (Session.told _) (bind_ok ended)

end

include table abreast in
/-- The second piece runs on its own as it does within the whole. -/
theorem second_abreast (drop : Nat) :
    Run.Arrive (.pieces second (HeardAt lines first) 0 drop after.sink.writes) (fun _ _ => True)
      (runProgram supply others next.machine)
      (runProgram supply (Statement.relabelAll (.lowering drop) others) afterWhole) := by
  obtain ⟨bonds, framed⟩ := Session.bond_all_frame (ready.close after).2.machine
    (Bindings.ofProgram others).bonds
  obtain ⟨-, -, -, same⟩ := Session.prepare_accepts_iff.mp acceptedToo
  have machine : next.machine =
      { after with sink := after.sink.emptied, distances := next.machine.distances } := by
    rw [same, framed]
    rfl
  have start : next.machine.Abreast
      (.pieces second (HeardAt lines first) 0 drop after.sink.writes) afterWhole := by
    have sinks : after.sink.emptied.Abreast
        (.pieces second (HeardAt lines first) 0 drop after.sink.writes) afterWhole.sink :=
      ⟨abreast.sink.room, abreast.sink.writes.trans (List.append_nil _)⟩
    have tables (id : Nat) : afterWhole.distances[id]? = next.machine.distances[id]? := by
      rw [table]
    rw [machine]
    exact abreast.renew (still_within_pieces accepted 0 drop _) sinks fun id _ => tables id
  have runs := (supplied_abreast _ supply).program
    (second_twins acceptedToo (HeardAt lines first) 0 drop after.sink.writes) _ _ start
  rwa [Labels.lowering_none, Statement.relabel_all_same] at runs

include itself in
/-- The second piece runs within one whole as it does within another. -/
theorem wholes_abreast (drop drop' : Nat) :
    Run.Arrive (.pieces second (HeardAt lines first) drop drop' []) (fun _ _ => True)
      (runProgram supply (Statement.relabelAll (.lowering drop) others) afterWhole)
      (runProgram supply (Statement.relabelAll (.lowering drop') others) afterWhole) := by
  have start : afterWhole.Abreast (.pieces second (HeardAt lines first) drop drop' []) afterWhole :=
    itself.renew (still_within_pieces accepted drop drop' [])
      ⟨rfl, (List.append_nil _).symm⟩ fun _ _ => rfl
  exact (supplied_abreast _ supply).program
    (second_twins acceptedToo (HeardAt lines first) drop drop' []) _ _ start

end Wholes

end Pieces

end Lox
