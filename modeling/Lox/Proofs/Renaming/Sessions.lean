import Lox.Proofs.Execution.Replies
import Lox.Proofs.Renaming.Runs
import Lox.Proofs.Renaming.Shift

/-!
Sessions that differ in their numbers alone. What is entered is read as trees of the
same shape, whose occurrences are numbered further on in the one session than in the
other; so it is accepted by both or by neither, and the replies are the same.
-/

namespace Lox

section Start

/-- Machines before their first program, with some distances recorded. -/
theorem Machine.start_alike (recast : Recast) (sink : Sink) (time : Nat)
    {table table' : Std.TreeMap Nat Nat}
    (distances : ∀ id, table'[recast.number id]? = table[id]?)
    (reach : recast.old = recast.new ∨ ∀ id, table[id]? = recast.reach id) :
    ({ Machine.start sink time with distances := table }).Alike recast [[]] []
      { Machine.start sink time with distances := table' } where
  scopes := by
    have outermost (id : ScopeId) : (Machine.start sink time).scopes.parent? id = none := by
      change (Scopes.extend _ _ _).parent? id = none
      rw [Scopes.parent_extend]
      split_ifs <;> rfl
    have native (id : ScopeId) (name : String) :
        Option.Rel (Value.Alike recast [[]]) ((Machine.start sink time).scopes.local? id name)
          ((Machine.start sink time).scopes.local? id name) := by
      cases found : (Machine.start sink time).scopes.local? id name with
      | none => exact .none
      | some value =>
          change (Scopes.extend _ _ _).local? id name = some value at found
          rw [Scopes.local_extend] at found
          split_ifs at found
          · obtain ⟨provided, -, same⟩ := List.mem_map.mp (Names.mem_of_find found)
            cases same
            exact .some (.native provided)
          · cases found
    have last {id : ScopeId} {flags : List Bool} (view : ([[]] : Views)[id]? = some flags) :
        flags = [] := List.mem_singleton.mp (List.mem_of_getElem? view)
    refine ⟨Scopes.size_extend .., rfl, fun _ => rfl, ?_, fun id flags _ view => last view, ?_⟩
    · intro id parent around
      rw [outermost] at around
      cases around
    · intro id flags view name
      cases last view
      exact native id name
  globals := rfl
  current := rfl
  top := rfl
  here := rfl
  depth := rfl
  identities := rfl
  sink := rfl
  time := rfl
  objects := rfl
  fields _ _ := .none
  distances := distances
  reach := reach

end Start

namespace Entry

theorem parse_shifted (entry : Entry) (tokens : List Token) (firstId ahead : Nat) :
    entry.parse tokens (firstId + ahead) =
      (entry.parse tokens firstId).relabel (.shift ahead) (Line.relabel (.shift ahead)) := by
  cases entry with
  | line source =>
      have moved := parse_line_relabel (Labels.shift_silent ahead) tokens firstId
      rwa [Labels.shift_tokens] at moved
  | program source =>
      simp only [parse, parse_program_shifted, Parsed.relabel]
      cases (parseProgram tokens firstId).outcome <;> rfl

theorem readable (entry : Entry) : Session.Readable entry.parse Bindings.ofLine id := by
  cases entry with
  | line source => exact Session.line_readable
  | program source =>
      have program := Session.program_readable
      refine ⟨program.ordered, fun tokens firstId line accepted => ?_,
        Session.line_readable.walked⟩
      simp only [parse] at accepted ⊢
      cases outcome : (parseProgram tokens firstId).outcome with
      | error complaints =>
          rw [outcome] at accepted
          cases accepted
      | ok statements =>
          rw [outcome] at accepted
          cases accepted
          exact program.numbered tokens firstId statements outcome

end Entry

/-- What is alike as a node is alike as a line. -/
theorem Line.alike_shifted {recast : Recast} (same : recast.old = recast.new) {ahead : Nat}
    (line : Line)
    (numbers : ∀ place ∈ line.node.occurrences, recast.number place.id = place.id + ahead) :
    line.Alike recast (line.relabel (.shift ahead)) := by
  have inside := line.node.alike_shifted same [] numbers
  cases line with
  | statements orders => exact .statements inside
  | expression value => exact .expression inside

theorem Line.Alike.nodes {recast : Recast} {line line' : Line} (like : line.Alike recast line') :
    line.node.Alike recast [] line'.node := by
  cases like with
  | statements inside => exact inside
  | expression inside => exact inside

/-- The walks over two lines that are alike. -/
theorem Line.Alike.walked {recast : Recast} {line line' : Line} (like : line.Alike recast line')
    (foresees : recast.Foresees line.site) :
    line.site.after.Alike recast [] line'.site.after :=
  like.nodes.analyse foresees ⟨.nil, rfl, rfl, .nil, .nil⟩

namespace Machine.Alike

variable {recast : Recast} {views : Views} {flags : List Bool} {machine machine' : Machine}
  (same : recast.old = recast.new) (apart : Function.Injective recast.number)

include same apart

/-- Recording the same distances, each for the number that stands for the other. -/
theorem bond_all (alike : machine.Alike recast views flags machine') {bonds bonds' : List Bond}
    (both : List.Forall₂ (fun bond bond' : Bond => bond'.place.id = recast.number bond.place.id ∧
      bond'.distance = bond.distance) bonds bonds') :
    (machine.bondAll bonds).Alike recast views flags (machine'.bondAll bonds') := by
  induction both generalizing machine machine' with
  | nil => exact alike
  | @cons bond bond' bonds bonds' first rest induction =>
      have bonded : (machine.bond bond.place.id bond.distance).Alike recast views flags
          (machine'.bond bond'.place.id bond'.distance) := by
        refine { alike with distances := fun id => ?_, reach := .inl same }
        simp only [Machine.bond, Std.TreeMap.getElem?_insert, first.1, first.2,
          Nat.compare_eq_eq, apart.eq_iff, alike.distances]
      exact induction bonded

end Machine.Alike

/-- Sessions of which the second has given some more numbers. -/
structure Session.Alike (recast : Recast) (ahead : Nat) (session session' : Session) : Prop where
  nextId : session'.nextId = session.nextId + ahead
  machines : ∃ views, session.machine.Alike recast views [] session'.machine

namespace Session

/-- What a session makes of a line that has been read, after its numbers were given. -/
def receiveLine (session : Session) (line : Line) : Except (List Diagnostic) Line × Session :=
  let found := Bindings.ofLine line
  let bonded := { session with machine := session.machine.bondAll found.bonds }
  if found.violations.isEmpty then (.ok line, bonded)
  else (.error (found.violations.map Violation.diagnostic), bonded)

/-- The reply to what an entry was received as. -/
def respond (supply : Nat) (entry : Entry) :
    Except (List Diagnostic) Line × Session → Option (Reply × Session)
  | (.error diagnostics, next) => some (entry.rejection diagnostics, next)
  | (.ok line, next) => next.conclude entry (line.run supply next.machine)

theorem answer_responds (supply : Nat) (session : Session) (entry : Entry) :
    session.answer supply entry = respond supply entry (session.receive entry) :=
  answer_eq session supply entry

/-- What two sessions make of one entry before they run it. -/
inductive Received (recast : Recast) (ahead : Nat) :
    Except (List Diagnostic) Line × Session → Except (List Diagnostic) Line × Session → Prop where
  | rejected (diagnostics : List Diagnostic) {next next' : Session}
      (sessions : next.Alike recast ahead next') :
      Received recast ahead (.error diagnostics, next) (.error diagnostics, next')
  | accepted {line line' : Line} {next next' : Session} (lines : line.Alike recast line')
      (sessions : next.Alike recast ahead next') :
      Received recast ahead (.ok line, next) (.ok line', next')

theorem receive_next_id (session : Session) (entry : Entry) :
    (session.receive entry).2.nextId =
      (entry.parse (tokensOf (scan entry.source)) session.nextId).nextId := by
  rw [receive_eq]
  unfold prepare
  dsimp only
  cases (entry.parse (tokensOf (scan entry.source)) session.nextId).outcome with
  | error complaints => rfl
  | ok line =>
      dsimp only
      split_ifs <;> rfl

theorem receive_ordered (session : Session) (entry : Entry) :
    session.nextId ≤ (session.receive entry).2.nextId := by
  rw [receive_next_id]
  exact entry.readable.ordered _ _

theorem respond_next_id {supply : Nat} {entry : Entry}
    {received : Except (List Diagnostic) Line × Session} {reply : Reply} {next : Session}
    (answered : respond supply entry received = some (reply, next)) :
    next.nextId = received.2.nextId := by
  obtain ⟨diagnostics | line, last⟩ := received
  · cases answered
    rfl
  · unfold respond at answered
    dsimp only at answered
    generalize line.run supply last.machine = ending at answered
    rcases ending with ⟨value, after⟩ | ⟨diagnostic | _, after⟩ <;> cases answered <;> rfl

theorem answer_next_id {supply : Nat} {session next : Session} {entry : Entry} {reply : Reply}
    (answered : session.answer supply entry = some (reply, next)) :
    next.nextId = (session.receive entry).2.nextId := by
  rw [answer_responds] at answered
  exact respond_next_id answered

section Alike

variable {recast : Recast} {ahead : Nat} {session session' : Session}
  (same : recast.old = recast.new)

include same

theorem same_violations {violations violations' : List Violation}
    (both : List.Forall₂ (fun violation violation' : Violation =>
      violation'.cause = violation.cause ∧ recast.Matches violation.place violation'.place)
      violations violations') : violations' = violations := by
  induction both with
  | nil => rfl
  | @cons violation violation' rest rest' first _ induction =>
      obtain ⟨place, cause⟩ := violation
      obtain ⟨place', cause'⟩ := violation'
      obtain ⟨rfl, sign⟩ := first
      cases sign.of_same same
      rw [induction]

theorem same_bindings {line line' : Line} (like : line.Alike recast line') :
    (Bindings.ofLine line').violations = (Bindings.ofLine line).violations ∧
      List.Forall₂ (fun bond bond' : Bond => bond'.place.id = recast.number bond.place.id ∧
        bond'.distance = bond.distance)
        (Bindings.ofLine line).bonds (Bindings.ofLine line').bonds := by
  have walked := like.walked (Recast.foresees_of_same same line.site)
  rw [line_readable.walked, line_readable.walked]
  exact ⟨congrArg List.reverse (same_violations same walked.violations),
    List.rel_reverse walked.bonds⟩

/-- Lines that are alike break the same rules, and leave sessions that are alike. -/
theorem receive_line_alike (apart : Function.Injective recast.number)
    (alike : session.Alike recast ahead session') {line line' : Line}
    (like : line.Alike recast line') : Received recast ahead (session.receiveLine line)
      (session'.receiveLine line') := by
  obtain ⟨views, machines⟩ := alike.machines
  obtain ⟨violations, bonds⟩ := same_bindings same like
  have bonded := machines.bond_all same apart bonds
  unfold receiveLine
  dsimp only
  rw [violations]
  split_ifs
  · exact .accepted like ⟨alike.nextId, views, bonded⟩
  · exact .rejected _ ⟨alike.nextId, views, bonded⟩

theorem receive_alike (apart : Function.Injective recast.number)
    (alike : session.Alike recast ahead session') (entry : Entry)
    (numbers : ∀ id, session.nextId ≤ id → id < (session.receive entry).2.nextId →
      recast.number id = id + ahead) :
    Received recast ahead (session.receive entry) (session'.receive entry) := by
  obtain ⟨views, machines⟩ := alike.machines
  have shifted := entry.parse_shifted (tokensOf (scan entry.source)) session.nextId ahead
  have numbered := entry.readable.numbered (tokensOf (scan entry.source)) session.nextId
  rw [receive_next_id] at numbers
  rw [receive_eq, receive_eq]
  unfold prepare
  dsimp only
  rw [alike.nextId, shifted]
  dsimp only [Parsed.relabel]
  cases outcome : (entry.parse (tokensOf (scan entry.source)) session.nextId).outcome with
  | error complaints =>
      have kept : complaints.map (Complaint.relabel (.shift ahead)) = complaints :=
        List.map_id complaints
      dsimp only
      rw [kept]
      exact .rejected _ ⟨rfl, views, machines⟩
  | ok line =>
      have like : line.Alike recast (line.relabel (.shift ahead)) := by
        refine line.alike_shifted same fun place occurs => ?_
        have bounds := (numbered line outcome).between place (by simpa using occurs)
        exact numbers place.id bounds.1 bounds.2
      have read : Session.Alike recast ahead
          ⟨session.machine, (entry.parse (tokensOf (scan entry.source)) session.nextId).nextId⟩
          ⟨session'.machine,
            (entry.parse (tokensOf (scan entry.source)) session.nextId).nextId + ahead⟩ :=
        ⟨rfl, views, machines⟩
      dsimp only
      by_cases clean : (lexicalDiagnostics (scan entry.source)).isEmpty = true
      · rw [if_pos clean, if_pos clean]
        exact receive_line_alike same apart read like
      · rw [if_neg clean, if_neg clean]
        exact .rejected _ read

/-- Runs that end alike are reported alike. -/
theorem conclude_alike {views : Views} {next next' : Session}
    (alike : next.Alike recast ahead next') (entry : Entry)
    {ending ending' : EStateM.Result Halt Machine (Option Value)}
    (ends : Lox.Ends recast views [] (fun later => Option.Rel (Value.Alike recast later)) ending
      ending') :
    Option.Rel (fun answered answered' : Reply × Session =>
      answered'.1 = answered.1 ∧ answered.2.Alike recast ahead answered'.2)
      (next.conclude entry ending) (next'.conclude entry ending') := by
  have closed {after after' : Machine} (machines : after.Alike recast views [] after') :
      (next.close after).2.Alike recast ahead (next'.close after').2 :=
    ⟨alike.nextId, views, { machines with sink := congrArg Sink.emptied machines.sink }⟩
  cases ends with
  | @ok value value' after after' result machines =>
      refine .some ⟨?_, closed machines⟩
      have echo : value'.map Value.text = value.map Value.text := by
        cases result with
        | none => rfl
        | some inside => exact congrArg some inside.same_text
      simp only [machines.sink, echo]
  | @error halt halt' after after' reason machines =>
      have sameHalt : halt' = halt := by
        cases reason with
        | same halt => rfl
        | unbound line => rw [same]
      cases sameHalt
      cases halt with
      | exhausted => exact .none
      | failed diagnostic =>
          refine .some ⟨?_, closed machines⟩
          simp only [machines.sink]

/-- What is received alike is answered the same, by sessions that stay alike. -/
theorem respond_alike {received received' : Except (List Diagnostic) Line × Session}
    (both : Received recast ahead received received') (supply : Nat) (entry : Entry) :
    Option.Rel (fun answered answered' : Reply × Session =>
      answered'.1 = answered.1 ∧ answered.2.Alike recast ahead answered'.2)
      (respond supply entry received) (respond supply entry received') := by
  cases both with
  | rejected diagnostics sessions => exact .some ⟨rfl, sessions⟩
  | accepted lines sessions =>
      obtain ⟨views, machines⟩ := sessions.machines
      obtain ⟨last, -, ends⟩ := lines.run supply views views List.prefix_rfl _ _ machines
      exact conclude_alike same sessions entry ends

/-- Sessions that are alike answer the same and stay alike. -/
theorem answer_alike (apart : Function.Injective recast.number)
    (alike : session.Alike recast ahead session') (supply : Nat) (entry : Entry)
    (numbers : ∀ id, session.nextId ≤ id → id < (session.receive entry).2.nextId →
      recast.number id = id + ahead) :
    Option.Rel (fun answered answered' : Reply × Session =>
      answered'.1 = answered.1 ∧ answered.2.Alike recast ahead answered'.2)
      (session.answer supply entry) (session'.answer supply entry) := by
  rw [answer_responds, answer_responds]
  exact respond_alike same (receive_alike same apart alike entry numbers) supply entry

/-- From sessions that are alike, whatever is played gets the same replies. -/
theorem play_alike (apart : Function.Injective recast.number) {entries : List (Nat × Entry)}
    (alike : session.Alike recast ahead session')
    (numbers : ∀ id, session.nextId ≤ id → recast.number id = id + ahead) :
    (play entries session').map Prod.fst = (play entries session).map Prod.fst := by
  induction entries generalizing session session' with
  | nil => rfl
  | cons first rest induction =>
      obtain ⟨supply, entry⟩ := first
      have answers := answer_alike same apart alike supply entry fun id known _ => numbers id known
      have known : ∀ reply next, session.answer supply entry = some (reply, next) →
          session.nextId ≤ next.nextId := fun reply next answered =>
        (session.receive_ordered entry).trans_eq (answer_next_id answered).symm
      rw [replies_cons, replies_cons]
      generalize session.answer supply entry = answered at answers known ⊢
      generalize session'.answer supply entry = answered' at answers ⊢
      cases answers with
      | none => rfl
      | @some answered answered' both =>
          obtain ⟨reply, next⟩ := answered
          obtain ⟨reply', next'⟩ := answered'
          obtain ⟨rfl, sessions⟩ := both
          simp only [Option.bind_some]
          rw [induction sessions fun id isLater => numbers id ((known _ next rfl).trans isLater)]

end Alike

end Session

end Lox
