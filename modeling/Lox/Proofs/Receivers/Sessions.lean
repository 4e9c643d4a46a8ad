import Lox.Proofs.Receivers.Executions

/-!
The receiver and the superclass in sessions. A session keeps all values fit, from one line to
the next, as long as it is known which lines have run and where each of them began. So in
whatever an accepted line evaluates, `self` is the receiver of the method around it and
`super` is the superclass that the class had when it was declared.
-/

namespace Lox

/-- What has been begun by some lines, each of which began on a machine. -/
def Begun (past : List (Line × Machine)) (task : Task) (machine : Machine) : Prop :=
  ∃ run ∈ past, (Parts.asked.line run.1 run.2).Begins task machine

theorem begun_passing (past : List (Line × Machine)) : Passing (Begun past) := by
  rintro task machine ⟨run, member, begins⟩ moment reached
  exact ⟨run, member, Plan.begins_passing _ task machine begins moment reached⟩

namespace Session

/-- The session comes about, with these lines accepted and run, each with the machine that it
began on; the latest first. -/
inductive Chronicle : List (Line × Machine) → Session → Prop where
  | start (sink : Sink) (time : Nat) : Chronicle [] (.start sink time)
  | rejected {past : List (Line × Machine)} {session next last : Session} {entry : Entry}
      {supply : Nat} {diagnostics : List Diagnostic} (before : Chronicle past session)
      (received : session.receive entry = (.error diagnostics, next))
      (entered : session.enter supply entry = some last) : Chronicle past last
  | accepted {past : List (Line × Machine)} {session next last : Session} {entry : Entry}
      {supply : Nat} {line : Line} (before : Chronicle past session)
      (received : session.receive entry = (.ok line, next))
      (entered : session.enter supply entry = some last) :
      Chronicle ((line, next.machine) :: past) last

theorem chronicle_history {past : List (Line × Machine)} {session : Session}
    (chronicle : Chronicle past session) : History (past.map Prod.fst) session := by
  induction chronicle with
  | start sink time => exact .start sink time
  | rejected _ received entered before => exact .rejected before received entered
  | accepted _ received entered before => exact .accepted before received entered

/-- What is known of the session, with some lines that have run or are about to. -/
def record (session : Session) (past : List (Line × Machine)) : Record :=
  ⟨past.map Prod.fst, session.machine.distances, Begun past⟩

variable {past : List (Line × Machine)} {session next last : Session} {entry : Entry} {line : Line}

theorem chronicle_spelled (chronicle : Chronicle past session) :
    ∀ line ∈ past.map Prod.fst, line.Spelled := by
  induction chronicle with
  | start => exact nofun
  | rejected _ _ _ spelled => exact spelled
  | accepted _ received _ spelled =>
      exact List.forall_mem_cons.mpr ⟨receive_spelled received, spelled⟩

theorem received_same {outcome : Except (List Diagnostic) Line}
    (received : session.receive entry = (outcome, next)) :
    next.machine.scopes = session.machine.scopes ∧
    next.machine.fields = session.machine.fields := by
  obtain ⟨distances, frame⟩ := receive_frame session entry
  have same : next = (session.receive entry).2 := by rw [received]
  rw [same, frame]
  exact ⟨rfl, rfl⟩

theorem received_vetted (chronicle : Chronicle past session)
    (received : session.receive entry = (.ok line, next)) :
    Vetted next.machine.distances (line :: past.map Prod.fst) := by
  have surveyed := receive_surveyed (history_surveyed (chronicle_history chronicle)) entry
  rw [received] at surveyed
  refine ⟨sites_charted surveyed.surveyed, ?_⟩
  rintro site ⟨other, member, contained⟩
  have spelled : ∀ other ∈ line :: past.map Prod.fst, other.Spelled :=
    List.forall_mem_cons.mpr ⟨receive_spelled received, chronicle_spelled chronicle⟩
  exact spelled other member site.node (Site.contains_node contained)

theorem start_furnished (sink : Sink) (time : Nat) :
    ((Session.start sink time).record []).Furnished (Session.start sink time).machine where
  values id name value found := by
    change (Scopes.extend _ _ _).local? id name = some value at found
    rw [Scopes.local_extend] at found
    split_ifs at found
    · obtain ⟨provided, -, same⟩ := List.mem_map.mp (Names.mem_of_find found)
      cases same
      trivial
    · cases found
  fields := nofun
  table := rfl

section Received

variable (furnished : (session.record past).Furnished session.machine)
  (chronicle : Chronicle past session)
  (received : session.receive entry = (.ok line, next))

include furnished chronicle received

/-- An accepted line keeps to the contract. -/
theorem received_runs :
    (next.record ((line, next.machine) :: past)).Runs Record.anything next.machine
      (Parts.asked.line line) := by
  have idle := receive_idle (history_idle (chronicle_history chronicle)) received
  have surveyed := receive_surveyed (history_surveyed (chronicle_history chronicle)) entry
  rw [received] at surveyed
  obtain ⟨world, holds⟩ := surveyed.inWorld
  refine Record.line_runs List.mem_cons_self ?_ ?_
  · obtain ⟨scopes, fields⟩ := received_same received
    refine Record.furnished_wider furnished (List.subset_cons_self ..) ?_ scopes fields rfl
    rintro task machine ⟨run, member, begins⟩
    exact ⟨run, List.mem_cons_of_mem _ member, begins⟩
  · rw [idle.1, holds.globals, holds.scopes]
    exact holds.sound.present

omit furnished chronicle received in
theorem received_begins (moment : Moment)
    (reached : (Parts.asked.line line next.machine).Reaches moment) :
    Begun ((line, next.machine) :: past) moment.task moment.machine :=
  ⟨_, List.mem_cons_self, moment.calls, [], .first reached⟩

theorem received_leads (supply : Nat) :
    (next.record ((line, next.machine) :: past)).Leads Record.anything next.machine
      (line.run supply next.machine) := by
  rw [Planning.line_run_completes_plan]
  exact Contracts.begun_goal (Record.keeping_kept (received_vetted chronicle received))
    (begun_passing _) (received_runs furnished chronicle received) received_begins supply

end Received

theorem chronicle_furnished (chronicle : Chronicle past session) :
    (session.record past).Furnished session.machine := by
  induction chronicle with
  | start sink time => exact start_furnished sink time
  | @rejected past session next last entry supply diagnostics before received entered furnished =>
      rw [enter_eq, received] at entered
      cases entered
      obtain ⟨scopes, fields⟩ := received_same received
      exact Record.furnished_wider furnished (List.Subset.refl _) (fun _ _ => id) scopes fields rfl
  | @accepted past session next last entry supply line before received entered furnished =>
      rw [enter_eq, received] at entered
      have leads := received_leads furnished before received supply
      cases leave_closes entered
      have after : (next.record ((line, next.machine) :: past)).Furnished
          (Ending.machine (line.run supply next.machine)) := by
        generalize line.run supply next.machine = ending at leads
        cases ending with
        | ok value after => exact leads.1.furnished
        | error halt after => exact leads.2.1
      exact Record.furnished_wider after (List.Subset.refl _) (fun _ _ => id) rfl rfl rfl

theorem underway_known (chronicle : Chronicle past session)
    (received : session.receive entry = (.ok line, next)) {moment : Moment} {rest : List Moment}
    (underway : Underway (Parts.asked.line line next.machine) (moment :: rest)) :
    ((next.record ((line, next.machine) :: past)).Furnished moment.machine ∧
      (next.record ((line, next.machine) :: past)).Placed moment.machine moment.task) ∧
    Begun ((line, next.machine) :: past) moment.task moment.machine :=
  Contracts.begun_duty (Record.keeping_kept (received_vetted chronicle received))
    (begun_passing _) (received_runs (chronicle_furnished chronicle) chronicle received)
    received_begins underway

/-- Whatever is under way in an accepted line lies in the frames of its site. -/
theorem underway_placed (chronicle : Chronicle past session)
    (received : session.receive entry = (.ok line, next)) {moment : Moment} {rest : List Moment}
    (underway : Underway (Parts.asked.line line next.machine) (moment :: rest)) :
    (next.record ((line, next.machine) :: past)).Furnished moment.machine ∧
      (next.record ((line, next.machine) :: past)).Placed moment.machine moment.task :=
  (underway_known chronicle received underway).1

/-- However a task ends that is under way in an accepted line, the receivers are kept. -/
theorem underway_leads (chronicle : Chronicle past session)
    (received : session.receive entry = (.ok line, next)) {moment : Moment} {rest : List Moment}
    (underway : Underway (Parts.asked.line line next.machine) (moment :: rest)) (supply : Nat) :
    let known := next.record ((line, next.machine) :: past)
    known.Leads (known.AnswerFits moment.task) moment.machine
      (moment.task.run supply moment.machine) := by
  obtain ⟨duty, begun⟩ := underway_known chronicle received underway
  exact Contracts.begun_effect (Record.keeping_kept (received_vetted chronicle received))
    (begun_passing _) supply () moment.task moment.machine duty begun

end Session

/-- In every accepted line, `self` gives the receiver that the method around it was called
with, and `super` looks for a method in what was the superclass of the class around it when
that class was declared: among the methods of the class itself if the method around it is one
of these, among those of instances otherwise; what is found is bound to the receiver. A run
never complains that there is no receiver or no superclass. -/
theorem self_and_super_always_bound {past : List (Line × Machine)} {session next : Session}
    (chronicle : Session.Chronicle past session) {entry : Entry} {line : Line}
    (received : session.receive entry = (.ok line, next)) :
    (∀ moment rest, Underway (Parts.asked.line line next.machine) (moment :: rest) →
      (∀ place, moment.task = .evaluation (.receiver place) → ∃ home scope receiver,
        (next.record ((line, next.machine) :: past)).Enclosed (.receiver place) moment.machine
          home scope receiver ∧
        ∀ supply, evaluate (supply + 1) (.receiver place) moment.machine =
          .ok receiver moment.machine) ∧
      ∀ place method, moment.task = .evaluation (.inherited place method) →
        ∃ home scope receiver parent ancestor,
          (next.record ((line, next.machine) :: past)).Enclosed (.inherited place method)
            moment.machine home scope receiver ∧
          moment.machine.scopes.parent? scope = some parent ∧
          moment.machine.scopes.local? parent superclassName = some (.classValue ancestor) ∧
          (next.record ((line, next.machine) :: past)).Inherits home ancestor parent ∧
          ∀ supply, evaluate (supply + 1) (.inherited place method) moment.machine =
            (Parts.supplied supply).access (ancestor.answer? home.ofClass method.lexeme) receiver
              method moment.machine) ∧
    ∀ supply number cause after,
      line.run supply next.machine = .error (.failed (.fault number cause)) after →
        cause.Harmless := by
  have vetted := Session.received_vetted chronicle received
  refine ⟨fun moment rest underway => ?_, fun supply number cause after ended => ?_⟩
  · obtain ⟨furnished, placed⟩ := Session.underway_placed chronicle received underway
    constructor
    · intro place isTask
      rw [isTask] at placed
      obtain ⟨⟨_, analysis, full⟩, frames, framed, rfl, lies⟩ := placed
      obtain ⟨home, scope, receiver, enclosed, found⟩ :=
        Record.receiver_bound vetted ⟨furnished, framed, lies⟩
      exact ⟨home, scope, receiver, enclosed, fun _ => found⟩
    · intro place method isTask
      rw [isTask] at placed
      obtain ⟨⟨_, analysis, full⟩, frames, framed, rfl, lies⟩ := placed
      obtain ⟨home, scope, receiver, parent, ancestor, enclosed, around, inherits, above, found⟩ :=
        Record.inherited_bound vetted ⟨furnished, framed, lies⟩
      refine ⟨home, scope, receiver, parent, ancestor, enclosed, around, above, inherits,
        fun supply => ?_⟩
      exact bind_ok found
  · have leads := Session.received_leads (Session.chronicle_furnished chronicle) chronicle
      received supply
    rw [ended] at leads
    exact leads.2.2

/-- The method of a subclass asks for the one that it overrides, on the class itself. -/
theorem self_and_super_bound_in_subclass :
    ∃ line next moment rest place method,
      (Session.start ⟨.unlimited, []⟩ 0).receive
        (.program ("class A \x7b class m() \x7b\x7d \x7d " ++
          "class B < A \x7b class m() \x7b super.m; \x7d \x7d B.m();")) = (.ok line, next) ∧
      Underway (Parts.asked.line line next.machine) (moment :: rest) ∧
      moment.task = .evaluation (.inherited place method) ∧
      ∃ home scope receiver parent ancestor,
        (next.record [(line, next.machine)]).Enclosed (.inherited place method) moment.machine home
          scope receiver ∧
        (next.record [(line, next.machine)]).Inherits home ancestor parent ∧
        receiver.text = "B" ∧ ancestor.name = "A" ∧
        ∀ supply, evaluate (supply + 1) (.inherited place method) moment.machine =
          (Parts.supplied supply).access (ancestor.answer? home.ofClass "m") receiver method
            moment.machine := by
  let identifier (text : String) : Token := ⟨.identifier, text, 1⟩
  let inherited : Expression := .inherited ⟨1, ⟨.superWord, "super", 1⟩⟩ (identifier "m")
  let overridden : Routine := ⟨some (identifier "m"), some [], []⟩
  let overriding : Routine := ⟨some (identifier "m"), some [], [.expression inherited]⟩
  let access : Expression := .get (.reference ⟨2, identifier "B"⟩) (identifier "m")
  let calling : Expression := .call access ⟨.rightParen, ")", 1⟩ []
  let upper : Statement := .classDeclaration (identifier "A") none [] [overridden]
  let lower : Statement :=
    .classDeclaration (identifier "B") (some ⟨0, identifier "A"⟩) [] [overriding]
  let line : Line := .statements [upper, lower, .expression calling]
  let bonded : Machine := { Machine.start ⟨.unlimited, []⟩ 0 with
    distances := (∅ : Std.TreeMap Nat Nat).insert 1 2 }
  have received : (Session.start ⟨.unlimited, []⟩ 0).receive
      (.program ("class A \x7b class m() \x7b\x7d \x7d " ++
        "class B < A \x7b class m() \x7b super.m; \x7d \x7d B.m();")) =
        (.ok line, ⟨bonded, 3⟩) := by rfl
  let above : Class := ⟨0, "A", .empty, Run.methodTable [overridden] 0 false, none⟩
  let below : Class := ⟨1, "B", .empty, Run.methodTable [overriding] 1 false, some above⟩
  let first : Machine := { bonded with
    scopes := bonded.scopes.define 0 "A" (.classValue above)
    identities := 1 }
  let second : Machine := { first with
    scopes := (first.scopes.extend (some 0) (.ofList [("super", .classValue above)])).define 0 "B"
      (.classValue below)
    identities := 2 }
  let bound : Machine := { second with
    scopes := second.scopes.extend (some 1) (.ofList [("self", .classValue below)])
    identities := 3
    depth := 1 }
  let inside : Machine := { bound with
    scopes := bound.scopes.extend (some 2) (.ofList [])
    current := 3 }
  have underway : Underway (Parts.asked.line line bonded)
      [⟨0, .evaluation inherited, inside⟩, ⟨0, .execution (.expression inherited), inside⟩,
        ⟨1, .call ⟨overriding, 2, false⟩ [], bound⟩, ⟨0, .evaluation calling, second⟩,
        ⟨0, .execution (.expression calling), second⟩] := by
    refine .inner (.inner (.inner (.inner (.first ?_) ?_) ?_) ?_) ?_
    · exact ⟨2, .inr (.inr (.inl ⟨rfl, rfl, rfl⟩))⟩
    · exact ⟨0, .inl ⟨rfl, rfl, rfl⟩⟩
    · exact ⟨2, .inr (.inl ⟨rfl, rfl, rfl⟩)⟩
    · exact ⟨0, .inl ⟨rfl, rfl, rfl⟩⟩
    · exact ⟨0, .inl ⟨rfl, rfl, rfl⟩⟩
  obtain ⟨home, scope, receiver, parent, ancestor, enclosed, around, held, inherits, follows⟩ :=
    ((self_and_super_always_bound (.start ⟨.unlimited, []⟩ 0) received).1 _ _ underway).2 _ _ rfl
  have nearest : some 2 = some scope := enclosed.bound.nearest
  cases nearest
  have isReceiver : some (Value.classValue below) = some receiver := enclosed.bound.bound
  cases isReceiver
  have isParent : some 1 = some parent := around
  cases isParent
  have isAncestor : some (Value.classValue above) = some (.classValue ancestor) := held
  cases isAncestor
  exact ⟨_, _, _, _, _, _, received, underway, rfl, home, 2, _, 1, _, enclosed, inherits, rfl, rfl,
    follows⟩

end Lox
