import Lox.Proofs.Annals.Runs

/-!
Annals of sessions. What happens in the lines of a session makes up one course, from its start up
to any moment in the line that is run, and all of it is known from the lines that it happens in:
what is begun is under way there, and ends as a run of it does.
-/

namespace Lox

namespace Record

variable {record : Record} {machine : Machine} {task : Task}

/-- What lies in an accepted line is spelled as programs are. -/
theorem placed_spelled (vetted : Vetted record.table record.lines)
    (placed : record.Placed machine task) : task.Spelled := by
  have declared {routine : Routine} {analysis : Analysis} {full : List StaticScope}
      (isKnown : sitesOf record.lines ⟨.routine routine, analysis, full⟩) :
      Free routine.label ∧ ∀ name ∈ routine.parameters.getD [], Free name.lexeme := by
    have names := vetted.routine_free isKnown
    refine ⟨?_, fun name member => names name (List.mem_append_right _ member)⟩
    unfold Routine.label
    cases named : routine.name with
    | none => exact ⟨by decide, by decide⟩
    | some name =>
        rw [named] at names
        exact names name List.mem_cons_self
  cases task with
  | evaluation value =>
      obtain ⟨⟨_, analysis, full⟩, frames, framed, rfl, -⟩ := placed
      cases value with
      | assign place value =>
          exact vetted.spelled framed.isKnown (.identifier, place.name) List.mem_cons_self
      | literal | grouping | unary | binary | logical | conditional | reference | call | get | set
      | lambda | receiver | inherited => trivial
  | execution order =>
      obtain ⟨⟨_, analysis, full⟩, frames, framed, rfl, -⟩ := placed
      cases order with
      | variableDeclaration name initializer => exact vetted.variable_free framed.isKnown
      | routineDeclaration routine =>
          exact (declared (vetted.charted.part framed.isKnown List.mem_cons_self)).1
      | classDeclaration name superclass methods classMethods =>
          exact vetted.spelled framed.isKnown (.identifier, name) List.mem_cons_self
      | expression | print | block | conditional | loop | exit => trivial
  | call closure arguments =>
      obtain ⟨⟨⟨_, analysis, full⟩, frames, framed, rfl, -⟩, -⟩ := placed
      exact (declared framed.isKnown).2

end Record

namespace Session

/-- The session comes about, and this is all that has happened in it. -/
inductive Annals : List (Line × Machine) → List Event → Session → Prop where
  | start (sink : Sink) (time : Nat) : Annals [] [] (.start sink time)
  | rejected {past : List (Line × Machine)} {events : List Event} {session next last : Session}
      {entry : Entry} {supply : Nat} {diagnostics : List Diagnostic}
      (before : Annals past events session)
      (received : session.receive entry = (.error diagnostics, next))
      (entered : session.enter supply entry = some last) : Annals past events last
  | accepted {past : List (Line × Machine)} {events : List Event} {session next last : Session}
      {entry : Entry} {supply : Nat} {line : Line} (before : Annals past events session)
      (received : session.receive entry = (.ok line, next))
      (entered : session.enter supply entry = some last) :
      Annals ((line, next.machine) :: past) (events ++ line.annals supply next.machine) last

/-- All that has happened up to some moment in a line of a session: the supply says how far the
line has got. -/
inductive Tells : List (Line × Machine) → List Event → Prop where
  | running {past : List (Line × Machine)} {events : List Event} {session next : Session}
      {entry : Entry} {line : Line} (annals : Annals past events session)
      (received : session.receive entry = (.ok line, next)) (supply : Nat) :
      Tells ((line, next.machine) :: past) (events ++ line.annals supply next.machine)

variable {past : List (Line × Machine)} {events : List Event} {session next last : Session}
  {entry : Entry} {line : Line} {supply : Nat}

theorem annals_chronicle (annals : Annals past events session) : Chronicle past session := by
  induction annals with
  | start sink time => exact .start sink time
  | rejected _ received entered before => exact .rejected before received entered
  | accepted _ received entered before => exact .accepted before received entered

theorem line_spelled (chronicle : Chronicle past session)
    (received : session.receive entry = (.ok line, next)) :
    AllSpelled (line.annals supply next.machine) := by
  intro task start begins
  obtain ⟨calls, rest, underway⟩ := tells_of_line begins
  exact Record.placed_spelled (received_vetted chronicle received)
    (underway_placed chronicle received underway).2

theorem start_orderly (sink : Sink) (time : Nat) :
    (Session.start sink time).machine.Orderly ∧ (Session.start sink time).machine.Open := by
  have entries {id : ScopeId} {name : String} {value : Value}
      (found : (Machine.start sink time).scopes.local? id name = some value) :
      name = "clock" ∧ value = .native .clock := by
    change (Scopes.extend _ _ _).local? _ _ = some value at found
    rw [Scopes.local_extend] at found
    split_ifs at found
    · obtain ⟨provided, -, same⟩ := List.mem_map.mp (Names.mem_of_find found)
      cases provided
      cases same
      exact ⟨rfl, rfl⟩
    · cases found
  have absent {id : ScopeId} {name : String} {value : Value} (taken : ¬Free name)
      (found : (Machine.start sink time).scopes.local? id name = some value) : False := by
    obtain ⟨rfl, -⟩ := entries found
    exact taken ⟨by decide, by decide⟩
  refine ⟨⟨fun id name value taken found => (absent taken found).elim, fun holds => ?_⟩,
    Nat.zero_lt_one, fun name taken => ?_⟩
  · cases holds with
    | scope found =>
        rw [(entries found).2]
        trivial
    | field isObject found => cases isObject
  · by_contra present
    obtain ⟨value, found⟩ := Option.ne_none_iff_exists'.mp present
    exact absent taken found

/-- Reading a line changes neither the scopes nor the objects. -/
theorem received_open {outcome : Except (List Diagnostic) Line}
    (received : session.receive entry = (outcome, next)) (orderly : session.machine.Orderly)
    (here : session.machine.Open) :
    next.machine.Orderly ∧ next.machine.Open ∧ session.machine.Later next.machine := by
  obtain ⟨distances, frame⟩ := receive_frame session entry
  rw [received] at frame
  change next.machine = _ at frame
  rw [frame]
  exact ⟨orderly.aside rfl rfl, ⟨here.inside, here.bare⟩, .refl _, Nat.le_refl _⟩

theorem line_proceeds (supply : Nat) (chronicle : Chronicle past session)
    (received : session.receive entry = (.ok line, next)) (orderly : next.machine.Orderly)
    (here : next.machine.Open) :
    Course next.machine (line.annals supply next.machine)
        (Ending.machine (line.run supply next.machine)) ∧
      next.machine.Leads Machine.anything (line.run supply next.machine) := by
  obtain ⟨course, leads⟩ := Noting.line_runs (Noting.noted_parts_run supply) line orderly here
    (line_spelled chronicle received)
  rw [line_noted_ends] at course leads
  exact ⟨course, leads⟩

/-- A line that is a single statement is entered by executing it. -/
theorem enter_statement {order : Statement} {completion : Completion} {after : Machine}
    (received : session.receive entry = (.ok (.statements [order]), next))
    (executed : execute supply order next.machine = .ok completion after) :
    session.enter supply entry = some (next.close after).2 := by
  have runs : Line.run supply (.statements [order]) next.machine = .ok none after := by
    have ended : (Parts.supplied supply).inOrder [order] next.machine = .ok completion after := by
      refine (bind_ok executed).trans ?_
      cases completion <;> rfl
    exact bind_ok (bind_ok ended)
  rw [enter_eq, received]
  dsimp only
  rw [runs]
  rfl

/-- The annals of a session are one course, from its start on. -/
theorem annals_course (annals : Annals past events session) :
    session.machine.Orderly ∧ session.machine.Open ∧
      ∃ first, Course first events session.machine := by
  induction annals with
  | start sink time =>
      exact ⟨(start_orderly sink time).1, (start_orderly sink time).2, _, .refl _⟩
  | rejected before received entered induction =>
      obtain ⟨orderly, here, first, course⟩ := induction
      obtain ⟨orderlyNext, hereNext, later⟩ := received_open received orderly here
      rw [enter_eq, received] at entered
      cases entered
      exact ⟨orderlyNext, hereNext, first, course.until_later later⟩
  | @accepted past events session next last entry supply line before received entered induction =>
      obtain ⟨orderly, here, first, course⟩ := induction
      obtain ⟨orderlyNext, hereNext, later⟩ := received_open received orderly here
      obtain ⟨courseLine, leads⟩ := line_proceeds supply (annals_chronicle before) received
        orderlyNext hereNext
      have there := hereNext.later leads.later leads.current
      rw [enter_eq, received] at entered
      cases leave_closes entered
      refine ⟨leads.orderly.aside rfl rfl, ⟨there.inside, there.bare⟩, first, ?_⟩
      exact course.append ((courseLine.since later).until_later ⟨.refl _, Nat.le_refl _⟩)

/-- So is all that has happened up to some moment. -/
theorem tells_course (tells : Tells past events) : ∃ first last, Course first events last := by
  cases tells with
  | running annals received supply =>
      obtain ⟨orderly, here, first, course⟩ := annals_course annals
      obtain ⟨orderlyNext, hereNext, later⟩ := received_open received orderly here
      obtain ⟨courseLine, -⟩ := line_proceeds supply (annals_chronicle annals) received orderlyNext
        hereNext
      exact ⟨first, _, course.append (courseLine.since later)⟩

/-- Whatever happens in a session is in order. -/
theorem tells_regular (tells : Tells past events) {event : Event} (happens : event ∈ events) :
    event.Regular := by
  obtain ⟨first, last, course⟩ := tells_course tells
  exact (course.regular happens).1

/-- An event in one of the accepted lines, which tells of it. -/
inductive Occurs (past : List (Line × Machine)) (event : Event) : Prop where
  | during {before : List (Line × Machine)} {session next : Session} {entry : Entry} {line : Line}
      (isPast : (line, next.machine) :: before ⊆ past) (chronicle : Chronicle before session)
      (received : session.receive entry = (.ok line, next))
      (tells : event.TellsOf (Parts.asked.line line next.machine))

theorem Occurs.wider {past wider : List (Line × Machine)} {event : Event}
    (occurs : Occurs past event) (more : past ⊆ wider) : Occurs wider event := by
  obtain ⟨isPast, chronicle, received, tells⟩ := occurs
  exact .during (List.Subset.trans isPast more) chronicle received tells

theorem annals_occur (annals : Annals past events session) {event : Event}
    (happens : event ∈ events) : Occurs past event := by
  induction annals with
  | start => exact absurd happens List.not_mem_nil
  | rejected _ _ _ induction => exact induction happens
  | accepted annals received _ induction =>
      rcases List.mem_append.mp happens with earlier | here
      · exact (induction earlier).wider (List.subset_cons_self ..)
      · exact .during (List.Subset.refl _) (annals_chronicle annals) received (tells_of_line here)

theorem tells_occur (tells : Tells past events) {event : Event} (happens : event ∈ events) :
    Occurs past event := by
  cases tells with
  | running annals received supply =>
      rcases List.mem_append.mp happens with earlier | here
      · exact (annals_occur annals earlier).wider (List.subset_cons_self ..)
      · exact .during (List.Subset.refl _) (annals_chronicle annals) received (tells_of_line here)

/-- What is known of an accepted line is known of the session. -/
structure Covers (past : List (Line × Machine)) (record : Record) : Prop where
  vetted : Vetted record.table record.lines
  lines : record.lines ⊆ past.map Prod.fst
  begun : ∀ task machine, record.begun task machine → Begun past task machine

/-- Whatever is begun lies in the frames of its site. -/
theorem tells_placed (tells : Tells past events) {task : Task} {machine : Machine}
    (begins : .begins task machine ∈ events) :
    ∃ record, Covers past record ∧ record.Furnished machine ∧ record.Placed machine task ∧
      record.begun task machine := by
  obtain ⟨isPast, chronicle, received, calls, rest, underway⟩ := tells_occur tells begins
  obtain ⟨⟨furnished, placed⟩, begun⟩ := underway_known chronicle received underway
  refine ⟨_, ⟨received_vetted chronicle received, List.map_subset _ isPast, ?_⟩, furnished, placed,
    begun⟩
  rintro task machine ⟨run, member, begins⟩
  exact ⟨run, isPast member, begins⟩

end Session

end Lox
