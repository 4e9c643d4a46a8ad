import Lox.Proofs.Scoping.Alignment

/-!
Whether a name is there when its bond is followed. The walk marks a name as soon
as its declaration begins, and a run declares it once the initializer is done; in
between, code in the initializer may look for it in vain. So a local name is
missing just while its initializer is under way, or for good if an earlier entry
of the session came to a bad end there, and only at places that the walk itself
passes before it marks the name as ready.
-/

namespace Lox

namespace World

variable {known : Site → Prop} {table : Std.TreeMap Nat Nat} {world : World}

/-- The variables that are written in some scope but not declared there. -/
def missing (world : World) : List (ScopeId × String) :=
  (List.range world.scopes.size).flatMap fun id =>
    let written := (world.view id).head?.toList.flatMap fun inner => inner.entries.map Prod.fst
    (written.filter fun name => !world.scopes.declares id name).map fun name => (id, name)

theorem mem_missing {id : ScopeId} {name : String} :
    (id, name) ∈ world.missing ↔ world.Awaited id name := by
  have written (inner : StaticScope) :
      inner.contains name = true ↔ ∃ entry ∈ inner.entries, entry.1 = name := by
    rw [Names.contains, Names.find?, List.lookup_isSome_iff]
    simp only [beq_iff_eq, eq_comm (a := name)]
  simp only [missing, List.mem_flatMap, List.mem_range, List.mem_map, List.mem_filter,
    Option.mem_toList, Bool.not_eq_true', Prod.mk.injEq]
  constructor
  · rintro ⟨_, inside, _, ⟨⟨inner, isInner, entry, member, rfl⟩, absent⟩, rfl, rfl⟩
    exact ⟨inside, absent, inner, isInner, (written inner).mpr ⟨entry, member, rfl⟩⟩
  · rintro ⟨inside, absent, inner, isInner, contains⟩
    obtain ⟨entry, member, rfl⟩ := (written inner).mp contains
    exact ⟨id, inside, _, ⟨⟨inner, isInner, entry, member, rfl⟩, absent⟩, rfl, rfl⟩

/-- Whatever a machine has come to, the world that awaits all its missing names is
one of its worlds. -/
theorem holds_awaiting_missing {machine : Machine} (holds : world.Holds known machine) :
    (world.reopened machine.distances world.missing).Holds known machine :=
  holds_reopened (fun id name member => mem_missing.mpr (holds.sound.awaited id name member))
    (fun _ => id) holds fun _ _ => mem_missing.mp

/-- The initializers under way are awaited, together with what was from the start. -/
theorem latest_pending (pending : List (ScopeId × String)) (line : Line) (moment : Moment)
    (rest : List Moment) :
    ((alignment known table).latest (fun _ => outermost pending line) (moment :: rest)).pending =
      (rest.flatMap fun outer => outer.task.initializing outer.machine) ++ pending := by
  induction rest generalizing moment with
  | nil => rfl
  | cons outer others induction =>
      rw [List.flatMap_cons, List.append_assoc, ← induction outer]
      rfl

theorem ready_at {heeded : String → Prop} {scopes : List StaticScope} {id : ScopeId}
    (ready : world.Ready heeded scopes id) {name : String} (isHeeded : heeded name)
    {distance : Nat} {inner : StaticScope} (isInner : scopes[distance]? = some inner)
    (contains : inner.contains name = true) :
    world.scopes.declares (world.scopes.outwards id distance) name = true ∨
      (inner.find? name = some false ∧
        (world.scopes.outwards id distance, name) ∈ world.pending) := by
  induction scopes generalizing id distance with
  | nil => cases isInner
  | cons first outer induction =>
      obtain ⟨here, parent, around, rest⟩ := ready
      cases distance with
      | zero =>
          cases isInner
          obtain ⟨mark, marked⟩ := Option.isSome_iff_exists.mp contains
          rcases here name isHeeded mark marked with found | ⟨rfl, member⟩
          · exact .inl found
          · exact .inr ⟨marked, member⟩
      | succ distance =>
          rw [world.scopes.outwards_succ around]
          exact induction rest isInner

end World

/-- The walk comes by before it has marked the name as ready in the scope at this
distance, so that the site lies in the initializer of its variable. -/
def Site.Premature (site : Site) (name : String) (distance : Nat) : Prop :=
  ∃ inner, site.analysis.scopes[distance]? = some inner ∧ inner.find? name = some false

section Following

variable {machine : Machine} {place : Occurrence} {distance : Nat}
  (bound : machine.distances[place.id]? = some distance)

include bound

theorem holder_of_bond : Run.holder? machine place =
    if machine.scopes.declares (machine.scopes.outwards machine.current distance)
      place.name.lexeme then some (machine.scopes.outwards machine.current distance) else none := by
  unfold Run.holder?
  rw [bound]
  rfl

theorem unknown_of_bond : Run.unknownName machine place = .unboundLocal place.name.lexeme := by
  have contains : machine.distances.contains place.id = true := by
    rw [Std.TreeMap.contains_eq_isSome_getElem?, bound]
    rfl
  unfold Run.unknownName
  rw [if_pos contains]

theorem look_up_fails_iff :
    Run.lookUp place machine =
        Run.fail place.name.line (.unboundLocal place.name.lexeme) machine ↔
      machine.scopes.declares (machine.scopes.outwards machine.current distance)
        place.name.lexeme = false := by
  unfold Run.lookUp
  rw [holder_of_bond bound, unknown_of_bond bound]
  cases declared : machine.scopes.declares (machine.scopes.outwards machine.current distance)
      place.name.lexeme with
  | false => simp
  | true =>
      obtain ⟨value, held⟩ := Option.isSome_iff_exists.mp declared
      simp only [if_true, Option.bind_some, held, Bool.true_eq_false, iff_false]
      exact nofun

theorem assign_fails_iff (value : Value) :
    Run.assign place value machine =
        Run.fail place.name.line (.unboundLocal place.name.lexeme) machine ↔
      machine.scopes.declares (machine.scopes.outwards machine.current distance)
        place.name.lexeme = false := by
  unfold Run.assign
  rw [holder_of_bond bound, unknown_of_bond bound]
  cases machine.scopes.declares (machine.scopes.outwards machine.current distance)
      place.name.lexeme with
  | false => simp
  | true =>
      simp only [if_true, Bool.true_eq_false, iff_false]
      exact nofun

end Following

/-- A read that the walk accepts is never premature in the innermost scope. -/
theorem Site.read_not_premature {site : Site} (clean : site.Clean) {place : Occurrence}
    (node : site.node = .expression (.reference place)) :
    ¬site.Premature place.name.lexeme 0 := by
  obtain ⟨_, analysis, full⟩ := site
  cases node
  rintro ⟨inner, isInner, unready⟩
  have early : analysis.inOwnInitializer place.name.lexeme = true := by
    have isHead : analysis.scopes.head? = some inner := List.head?_eq_getElem? ▸ isInner
    simp [Analysis.inOwnInitializer, isHead, unready]
  have reported : (analysis.read place).violations ≠ [] := by
    unfold Analysis.read
    rw [if_pos early, Analysis.bind_violations]
    exact List.cons_ne_nil _ _
  exact reported clean

namespace World

variable {known : Site → Prop} {table : Std.TreeMap Nat Nat} {world : World}
  {moment : Moment} {site : Site} {around : Surroundings}

/-- Where an occurrence is used whose name is missing, the walk came by too early
and the world still awaits the name. -/
theorem missing_awaited (charted : Charted table known)
    (stands : Stands known table around moment.task moment.machine world site)
    {place : Occurrence} {after : Machine} (uses : moment.Uses place after) {distance : Nat}
    (bound : after.distances[place.id]? = some distance)
    (absent : after.scopes.declares (after.scopes.outwards after.current distance)
      place.name.lexeme = false) :
    site.Premature place.name.lexeme distance ∧
      (after.scopes.outwards after.current distance, place.name.lexeme) ∈ around.pending := by
  obtain ⟨-, later, pending, there⟩ := uses_there charted stands uses
  obtain ⟨-, found, -⟩ := uses_follow charted stands uses bound
  obtain ⟨inside, contains, -⟩ := List.findIdx?_eq_some_iff_getElem.mp found
  have ready := ready_at there.stands.ready rfl (List.getElem?_eq_getElem inside) contains
  rw [there.holds.scopes] at absent ⊢
  rcases ready with declared | ⟨unready, member⟩
  · rw [declared] at absent
    cases absent
  · rw [pending, stands.pending] at member
    exact ⟨⟨_, List.getElem?_eq_getElem inside, unready⟩, member⟩

end World

/-- In any session, a local name can be missing only while its initializer is
under way, or if it was missing when the line began; and only where the walk came
by before the name was ready, which is never so for a read in the scope of the
name itself. Reading and assigning fail just if the name is missing. -/
theorem local_missing_only_when_awaited {lines : List Line} {session next : Session}
    (history : Session.History lines session) {entry : Entry} {line : Line}
    (received : session.receive entry = (.ok line, next)) {moment : Moment} {rest : List Moment}
    (underway : Underway (Parts.asked.line line next.machine) (moment :: rest)) :
    ∃ site, Located (sitesOf (line :: lines)) line (moment :: rest) site ∧
      ∀ place after distance, moment.Uses place after →
        after.distances[place.id]? = some distance →
        let name := place.name.lexeme
        let scope := after.scopes.outwards after.current distance
        (Run.lookUp place after = Run.fail place.name.line (.unboundLocal name) after ↔
          after.scopes.declares scope name = false) ∧
        (∀ value, Run.assign place value after =
            Run.fail place.name.line (.unboundLocal name) after ↔
          after.scopes.declares scope name = false) ∧
        (after.scopes.declares scope name = false →
          site.Premature name distance ∧
          (moment.task = .evaluation (.reference place) → 0 < distance) ∧
          ((∃ outer ∈ rest, (scope, name) ∈ outer.task.initializing outer.machine) ∨
            (scope < next.machine.scopes.size ∧
              next.machine.scopes.declares scope name = false))) := by
  have surveyed := Session.receive_surveyed (Session.history_surveyed history) entry
  have idle := Session.receive_idle (Session.history_idle history) received
  rw [received] at surveyed
  have charted := sites_charted surveyed.surveyed
  obtain ⟨start, holdsStart⟩ := surveyed.inWorld
  have holds := World.holds_awaiting_missing holdsStart
  obtain ⟨world, site, stands⟩ := World.underway_stands charted holds
    ⟨line, List.mem_cons_self, .refl⟩ idle.1 underway
  refine ⟨site, World.located_of_placed stands.placed, ?_⟩
  intro place after distance uses bound
  refine ⟨look_up_fails_iff bound, assign_fails_iff bound, fun absent => ?_⟩
  obtain ⟨premature, member⟩ := World.missing_awaited charted stands uses bound absent
  refine ⟨premature, fun isRead => ?_, ?_⟩
  · have node := stands.placed.node
    rw [isRead] at node
    apply Nat.pos_of_ne_zero
    rintro rfl
    exact Site.read_not_premature (charted.clean stands.isKnown) node premature
  · rw [World.latest_pending, List.mem_append] at member
    rcases member with underInitializer | before
    · exact .inl (List.mem_flatMap.mp underInitializer)
    · obtain ⟨inside, missing, -⟩ := World.mem_missing.mp before
      rw [holdsStart.scopes]
      exact .inr ⟨inside, missing⟩

/-- While the initializer in this program calls a function that returns the variable,
the variable is missing two scopes out, and is awaited by its declaration. -/
theorem local_missing_in_called_initializer :
    ∃ line next moment rest, ∃ site : Site, ∃ place distance,
      (Session.start ⟨.unlimited, []⟩ 0).receive
        (.program "{ var a = (fun () { return a; })(); }") = (.ok line, next) ∧
      Underway (Parts.asked.line line next.machine) (moment :: rest) ∧
      moment.Uses place moment.machine ∧
      moment.machine.distances[place.id]? = some distance ∧
      Run.lookUp place moment.machine =
        Run.fail place.name.line (.unboundLocal place.name.lexeme) moment.machine ∧
      site.Premature place.name.lexeme distance ∧ 0 < distance ∧
      ∃ outer ∈ rest, (moment.machine.scopes.outwards moment.machine.current distance,
        place.name.lexeme) ∈ outer.task.initializing outer.machine := by
  let name : Token := ⟨.identifier, "a", 1⟩
  let place : Occurrence := ⟨0, name⟩
  let back : Statement := .exit ⟨.returnWord, "return", 1⟩ (some (.reference place))
  let routine : Routine := ⟨none, some [], [back]⟩
  let value : Expression := .call (.grouping (.lambda routine)) ⟨.rightParen, ")", 1⟩ []
  let declaration : Statement := .variableDeclaration name (some value)
  let block : Statement := .block [declaration]
  let bonded : Machine := { Machine.start ⟨.unlimited, []⟩ 0 with
    distances := (∅ : Std.TreeMap Nat Nat).insert 0 1 }
  have received : (Session.start ⟨.unlimited, []⟩ 0).receive
      (.program "{ var a = (fun () { return a; })(); }") =
      (.ok (.statements [block]), ⟨bonded, 1⟩) := by rfl
  let inBlock : Machine := { bonded with
    scopes := bonded.scopes.extend (some 0) .empty
    current := 1 }
  let calling : Machine := { inBlock with identities := 1, depth := 1 }
  let inCall : Machine := { calling with
    scopes := calling.scopes.extend (some 1) (.ofList [])
    current := 2 }
  have underway : Underway (Parts.asked.line (.statements [block]) bonded)
      [⟨0, .evaluation (.reference place), inCall⟩, ⟨0, .execution back, inCall⟩,
        ⟨1, .call ⟨routine, 1, false⟩ [], calling⟩, ⟨0, .evaluation value, inBlock⟩,
        ⟨0, .execution declaration, inBlock⟩, ⟨0, .execution block, bonded⟩] := by
    refine .inner (.inner (.inner (.inner (.inner (.first ?_) ?_) ?_) ?_) ?_) ?_
    · exact ⟨0, .inl ⟨rfl, rfl, rfl⟩⟩
    · exact ⟨0, .inl ⟨rfl, rfl, rfl⟩⟩
    · exact ⟨0, .inl ⟨rfl, rfl, rfl⟩⟩
    · exact ⟨2, .inr (.inl ⟨rfl, rfl, rfl⟩)⟩
    · exact ⟨0, .inl ⟨rfl, rfl, rfl⟩⟩
    · exact ⟨0, .inl ⟨rfl, rfl, rfl⟩⟩
  obtain ⟨site, -, uses⟩ :=
    local_missing_only_when_awaited (.start ⟨.unlimited, []⟩ 0) received underway
  obtain ⟨fails, -, awaited⟩ := uses place inCall 1 (.reference 0 place inCall) rfl
  have absent : inCall.scopes.declares (inCall.scopes.outwards inCall.current 1) "a" = false := rfl
  obtain ⟨premature, further, underInitializer | before⟩ := awaited absent
  · exact ⟨_, _, _, _, site, place, 1, received, underway, .reference 0 place inCall, rfl,
      fails.mpr absent, premature, further rfl, underInitializer⟩
  · exact absurd before.1 (by decide)

theorem Session.run_reports_failure {session next : Session} {source : String}
    {statements : List Statement} {supply : Nat} {diagnostic : Diagnostic} {after : Machine}
    (prepared : session.prepare source parseProgram Bindings.ofProgram = (.ok statements, next))
    (ran : runProgram supply statements next.machine = .error (.failed diagnostic) after) :
    (session.run supply source).map Prod.fst =
      some ⟨.runtimeError, after.sink.text, [diagnostic]⟩ := by
  unfold run
  rw [prepared]
  dsimp only
  rw [ran]
  rfl

/-- A local variable can be looked for while its own initializer is still under way:
by an assignment in it, and from a function that it calls. -/
theorem initializer_uses_own_variable :
    ((Session.start ⟨.unlimited, []⟩ 0).run 6 "{ var a = (a = nil); }").map Prod.fst =
        some ⟨.runtimeError, "", [.fault 1 (.unboundLocal "a")]⟩ ∧
      ((Session.start ⟨.unlimited, []⟩ 0).run 7 "{ var a = (fun () { return a; })(); }").map
        Prod.fst = some ⟨.runtimeError, "", [.fault 1 (.unboundLocal "a")]⟩ := by
  let name : Token := ⟨.identifier, "a", 1⟩
  let declaring (value : Expression) : List Statement :=
    [.block [.variableDeclaration name (some value)]]
  let bonded (id distance : Nat) : Machine := { Machine.start ⟨.unlimited, []⟩ 0 with
    distances := (∅ : Std.TreeMap Nat Nat).insert id distance }
  let inBlock (outer : Machine) : Machine :=
    { outer with scopes := outer.scopes.extend (some 0) .empty }
  constructor
  · let assigning : Expression := .grouping (.assign ⟨1, name⟩ (.literal .nil))
    have prepared : (Session.start ⟨.unlimited, []⟩ 0).prepare "{ var a = (a = nil); }"
        parseProgram Bindings.ofProgram = (.ok (declaring assigning), ⟨bonded 1 0, 2⟩) := by rfl
    have ran : runProgram 6 (declaring assigning) (bonded 1 0) =
        .error (.failed (.fault 1 (.unboundLocal "a"))) (inBlock (bonded 1 0)) := by rfl
    exact Session.run_reports_failure prepared ran
  · let routine : Routine :=
      ⟨none, some [], [.exit ⟨.returnWord, "return", 1⟩ (some (.reference ⟨0, name⟩))]⟩
    let calling : Expression := .call (.grouping (.lambda routine)) ⟨.rightParen, ")", 1⟩ []
    let inCall (outer : Machine) : Machine :=
      { outer with scopes := outer.scopes.extend (some 1) (.ofList []), identities := 1 }
    have prepared : (Session.start ⟨.unlimited, []⟩ 0).prepare
        "{ var a = (fun () { return a; })(); }" parseProgram Bindings.ofProgram =
        (.ok (declaring calling), ⟨bonded 0 1, 1⟩) := by rfl
    have ran : runProgram 7 (declaring calling) (bonded 0 1) =
        .error (.failed (.fault 1 (.unboundLocal "a"))) (inCall (inBlock (bonded 0 1))) := by rfl
    exact Session.run_reports_failure prepared ran

end Lox
