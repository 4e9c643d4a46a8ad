import Lox.Proofs.Scoping.Sessions

/-!
The scopes of a run and those of the analysis agree. Each task under way has its
place in the program, found along the tasks that asked for it; from the scope
where it runs outwards there are as many scopes as the walk has there, and then
the scope of the top level. A bond therefore leads to the scope in which the walk
found the name, and there always is one at its distance.
-/

namespace Lox

namespace Scopes

variable {α : Type} (scopes : Scopes α)

theorem chain_get {id : ScopeId} {distance : Nat} (within : distance < (scopes.chain id).length) :
    (scopes.chain id)[distance]? = some (scopes.outwards id distance) := by
  induction distance generalizing id with
  | zero =>
      cases around : scopes.parent? id with
      | none =>
          rw [scopes.chain_outermost around]
          rfl
      | some parent =>
          rw [scopes.chain_inner around]
          rfl
  | succ distance induction =>
      cases around : scopes.parent? id with
      | none =>
          rw [scopes.chain_outermost around] at within
          exact absurd (Nat.lt_of_succ_lt_succ within) (Nat.not_lt_zero distance)
      | some parent =>
          rw [scopes.chain_inner around] at within ⊢
          rw [scopes.outwards_succ around]
          exact induction (Nat.lt_of_succ_lt_succ within)

/-- The scope has no names but those of a scope of the analysis. -/
def HasOnly (id : ScopeId) (inner : StaticScope) : Prop :=
  ∀ name, scopes.declares id name = true → inner.contains name = true

end Scopes

/-- From this scope of the machine outwards there are as many scopes as the walk
has at the site, none with a name that is not written in its counterpart, and
last the scope of the top level. -/
def Machine.Aligned (machine : Machine) (scope : ScopeId) (site : Site) : Prop :=
  ∃ below, machine.scopes.chain scope = below ++ [machine.globals] ∧
    below.length = site.analysis.scopes.length ∧
    List.Forall₂ machine.scopes.HasOnly below site.full

theorem Machine.Aligned.reached {machine : Machine} {scope : ScopeId} {site : Site}
    (aligned : machine.Aligned scope site) {distance : Nat}
    (within : distance < site.analysis.scopes.length) :
    (machine.scopes.chain scope).dropLast[distance]? =
      some (machine.scopes.outwards scope distance) := by
  obtain ⟨below, chain, length, -⟩ := aligned
  have inside : distance < below.length := length ▸ within
  have whole : distance < (machine.scopes.chain scope).length := by
    rw [chain, List.length_append]
    exact Nat.lt_add_right _ inside
  rw [← machine.scopes.chain_get whole, chain, List.dropLast_concat,
    List.getElem?_append_left inside]

namespace World

variable {known : Site → Prop} {table : Std.TreeMap Nat Nat} {world : World} {machine : Machine}

/-- The view of a scope lists the counterparts of the scopes on the way outwards. -/
theorem chain_view (sound : world.Sound known) {id : ScopeId} (inside : id < world.scopes.size) :
    ∃ below, world.scopes.chain id = below ++ [world.globals] ∧
      List.Forall₂ world.scopes.HasOnly below (world.view id) := by
  induction id using Nat.strongRecOn with
  | ind id induction =>
    by_cases top : id = world.globals
    · refine ⟨[], ?_, ?_⟩
      · rw [top, world.scopes.chain_outermost sound.alone]
        rfl
      · rw [top, sound.outermost]
        exact .nil
    · obtain ⟨inner, parent, view, around, names⟩ := sound.linked id inside top
      obtain ⟨below, chain, only⟩ :=
        induction parent (Scopes.parent_lt around) (parent_inside around).2
      refine ⟨id :: below, ?_, ?_⟩
      · rw [world.scopes.chain_inner around, chain]
        rfl
      · rw [view]
        exact .cons names only

theorem aligned_of_view (holds : world.Holds known machine) {scope : ScopeId} {site : Site}
    (covered : site.Covered) (inside : scope < world.scopes.size)
    (view : world.view scope = site.full) : machine.Aligned scope site := by
  obtain ⟨below, chain, only⟩ := chain_view holds.sound inside
  rw [view] at only
  unfold Machine.Aligned
  rw [holds.scopes, holds.globals]
  refine ⟨below, chain, ?_, only⟩
  exact only.length_eq.trans (Site.covered_before covered).length_eq.symm

end World

/-- The scope around the code of a task. -/
def Task.scope (machine : Machine) : Task → ScopeId
  | .call closure _ => closure.scope
  | _ => machine.current

/-- Where in a line the latest of some tasks under way has its code: near the one
that asked for it, or anywhere in a known program if it is a call. -/
inductive Located (known : Site → Prop) (line : Line) : List Moment → Site → Prop where
  | start : Located known line [] line.site
  | evaluation {calls : Nat} {machine : Machine} {rest : List Moment} {outer : Site}
      {value : Expression} {analysis : Analysis} {full : List StaticScope}
      (around : Located known line rest outer)
      (near : outer.Near ⟨.expression value, analysis, full⟩) :
      Located known line (⟨calls, .evaluation value, machine⟩ :: rest)
        ⟨.expression value, analysis, full⟩
  | execution {calls : Nat} {machine : Machine} {rest : List Moment} {outer : Site}
      {order : Statement} {analysis : Analysis} {full : List StaticScope}
      (around : Located known line rest outer)
      (near : outer.Near ⟨.statement order, analysis, full⟩) :
      Located known line (⟨calls, .execution order, machine⟩ :: rest)
        ⟨.statement order, analysis, full⟩
  | call {calls : Nat} {machine : Machine} {rest : List Moment} {closure : Closure}
      {arguments : List Value} {analysis : Analysis} {full : List StaticScope}
      (isKnown : known ⟨.routine closure.routine, analysis, full⟩) :
      Located known line (⟨calls, .call closure arguments, machine⟩ :: rest)
        ⟨.routine closure.routine, analysis, full⟩

theorem Site.Near.isKnown {table : Std.TreeMap Nat Nat} {known : Site → Prop}
    (charted : Charted table known) {site inner : Site} (near : site.Near inner)
    (isKnown : known site) : known inner := by
  induction near with
  | self => exact isKnown
  | part near direct member induction => exact charted.part induction member

theorem Located.isKnown {table : Std.TreeMap Nat Nat} {known : Site → Prop}
    (charted : Charted table known) {line : Line} {stack : List Moment} {site : Site}
    (located : Located known line stack site) (lineKnown : known line.site) : known site := by
  induction located with
  | start => exact lineKnown
  | evaluation around near induction => exact near.isKnown charted induction
  | execution around near induction => exact near.isKnown charted induction
  | call isKnown => exact isKnown

/-- At this moment the occurrence is about to be looked up or assigned, on the
machine given last. -/
inductive Moment.Uses : Moment → Occurrence → Machine → Prop where
  | reference (calls : Nat) (place : Occurrence) (machine : Machine) :
      Uses ⟨calls, .evaluation (.reference place), machine⟩ place machine
  | receiver (calls : Nat) (place : Occurrence) (machine : Machine) :
      Uses ⟨calls, .evaluation (.receiver place), machine⟩ place machine
  | inherited (calls : Nat) (place : Occurrence) (method : Token) (machine : Machine) :
      Uses ⟨calls, .evaluation (.inherited place method), machine⟩ place machine
  | assign (calls : Nat) (place : Occurrence) {value : Expression} {machine after : Machine}
      {supply : Nat} {result : Value}
      (evaluated : evaluate supply value machine = .ok result after) :
      Uses ⟨calls, .evaluation (.assign place value), machine⟩ place after

namespace World

variable {known : Site → Prop} {table : Std.TreeMap Nat Nat} {world : World} {line : Line}
  {moment : Moment} {rest : List Moment} {site : Site} {around : Surroundings}

/-- The surroundings of the tasks that a line asks for. -/
def outermost (pending : List (ScopeId × String)) (line : Line) : Surroundings :=
  ⟨pending, (· = line.site)⟩

theorem located_of_asking {pending : List (ScopeId × String)}
    (asking : ((alignment known table).latest (fun _ => outermost pending line)
      (moment :: rest)).asking site) : Located known line rest site := by
  induction rest generalizing moment site with
  | nil =>
      cases asking
      exact .start
  | cons next others induction =>
      obtain ⟨node, reachable⟩ := asking
      obtain ⟨calls, task, machine⟩ := next
      obtain ⟨_, analysis, full⟩ := site
      cases node
      cases task with
      | evaluation value =>
          obtain ⟨outer, isAsking, near⟩ := reachable
          exact .evaluation (induction isAsking) near
      | execution order =>
          obtain ⟨outer, isAsking, near⟩ := reachable
          exact .execution (induction isAsking) near
      | call closure arguments => exact .call reachable

theorem located_of_placed {pending : List (ScopeId × String)}
    (placed : Placed known ((alignment known table).latest (fun _ => outermost pending line)
      (moment :: rest)).asking moment.task site) : Located known line (moment :: rest) site := by
  have asking : ((alignment known table).latest (fun _ => outermost pending line)
      (moment :: moment :: rest)).asking site := placed
  exact located_of_asking asking

/-- Every task under way stands in some world, at a place in the program. -/
theorem underway_stands {start : World} {machine : Machine}
    (charted : Charted machine.distances known) (holds : start.Holds known machine)
    (isKnown : known line.site) (top : machine.current = machine.globals)
    (underway : Underway (Parts.asked.line line machine) (moment :: rest)) :
    ∃ world site, Stands known machine.distances
      ((alignment known machine.distances).latest (fun _ => outermost start.pending line)
        (moment :: rest)) moment.task moment.machine world site :=
  Contracts.underway_duty (alignment_kept charted)
    (line_runs charted holds holds.distances.symm isKnown top) underway

section Standing

variable (charted : Charted table known)
  (stands : Stands known table around moment.task moment.machine world site)

include stands

theorem stands_scope : moment.task.scope moment.machine < world.scopes.size ∧
    world.view (moment.task.scope moment.machine) = site.full := by
  have begins := stands.begins
  obtain ⟨calls, task, machine⟩ := moment
  cases task with
  | evaluation value => exact ⟨begins.inside, begins.view⟩
  | execution order => exact ⟨begins.1.inside, begins.1.view⟩
  | call closure arguments => exact ⟨begins.1.inside, begins.1.view⟩

include charted

theorem ending_later {ending : Ending moment.task.Answer} (ends : moment.Ends ending) :
    ∃ declaring later, Before declaring world later ∧
      later.Holds known (Ending.machine ending) := by
  obtain ⟨supply, rfl⟩ := ends
  have effect := Contracts.run_effect (alignment_kept charted) supply around moment.task
    moment.machine ⟨world, site, stands⟩ world site stands
  obtain ⟨calls, task, machine⟩ := moment
  have leads : ∃ declaring good, Leads known declaring good world machine.current
      (task.run supply machine) := by
    cases task <;> exact ⟨_, _, effect⟩
  obtain ⟨declaring, good, leads⟩ := leads
  dsimp only at leads ⊢
  revert leads
  generalize task.run supply machine = ending
  cases ending with
  | ok value after =>
      rintro ⟨later, before, holds, -⟩
      exact ⟨declaring, later, before, holds⟩
  | error halt after =>
      rintro ⟨later, before, holds⟩
      exact ⟨declaring, later, before, holds⟩

end Standing

end World

/-- The scope agrees with the site at this moment, and still does when the task
of the moment comes to its end. -/
def Moment.Keeps (moment : Moment) (scope : ScopeId) (site : Site) : Prop :=
  moment.machine.Aligned scope site ∧
    ∀ ending, moment.Ends ending → (Ending.machine ending).Aligned scope site

namespace World

variable {known : Site → Prop} {table : Std.TreeMap Nat Nat} {world : World} {line : Line}
  {moment : Moment} {rest : List Moment} {site : Site} {around : Surroundings}
  (charted : Charted table known)
  (stands : Stands known table around moment.task moment.machine world site)

include charted stands

theorem stands_keeps {scope : ScopeId} {place : Site} (covered : place.Covered)
    (inside : scope < world.scopes.size) (view : world.view scope = place.full) :
    moment.Keeps scope place := by
  refine ⟨aligned_of_view stands.holds covered inside view, fun ending ends => ?_⟩
  obtain ⟨declaring, later, before, holds⟩ := ending_later charted stands ends
  exact aligned_of_view holds covered (Nat.lt_of_lt_of_le inside before.size)
    ((before.view scope inside).trans view)

/-- Where an occurrence is used, a world that is no earlier is ready for its name. -/
theorem uses_there {place : Occurrence} {after : Machine} (uses : moment.Uses place after) :
    site.node.place? = some place ∧ ∃ later, later.pending = world.pending ∧
      There known table site later after site (· = place.name.lexeme) := by
  obtain ⟨holds, tableSame, -, isKnown, placed, begins⟩ := stands
  have node := placed.node
  obtain ⟨_, analysis, full⟩ := site
  cases uses with
  | reference =>
      cases node
      exact ⟨rfl, world, rfl, holds, tableSame, isKnown, .self, begins⟩
  | receiver | inherited =>
      cases node
      have there : There known table _ world _ _ anyName :=
        ⟨holds, tableSame, isKnown, .self, begins⟩
      exact ⟨rfl, world, rfl, there.heeding⟩
  | @assign calls _ value machine after supply result evaluated =>
      cases node
      have there : There known table ⟨.expression (.assign place value), analysis, full⟩ world
          machine ⟨.expression (.assign place value), analysis, full⟩ anyName :=
        ⟨holds, tableSame, isKnown, .self, begins⟩
      have leads : Leads known none (fun later result => later.Fits known result) world
          machine.current (evaluate supply value machine) :=
        Contracts.complete_goal (alignment_kept charted)
          (runs_evaluate (there.itself.part charted List.mem_cons_self rfl rfl)) supply
      rw [evaluated] at leads
      obtain ⟨later, before, holdsLater, ⟨pending, distances⟩, current, -⟩ := leads
      exact ⟨rfl, later, pending,
        (there.onward ⟨before, holdsLater, pending, distances, current⟩).heeding⟩

/-- Where an occurrence with a bond is used, its distance leads to the instance of
the scope that the walk found the name in. -/
theorem uses_follow {place : Occurrence} {after : Machine} (uses : moment.Uses place after)
    {distance : Nat} (bound : after.distances[place.id]? = some distance) :
    after.Aligned after.current site ∧
      site.analysis.distance? place.name.lexeme = some distance ∧
      (after.scopes.chain after.current).dropLast[distance]? =
        some (after.scopes.outwards after.current distance) := by
  obtain ⟨own, later, -, there⟩ := uses_there charted stands uses
  have aligned := aligned_of_view there.holds (charted.covered there.isKnown) there.stands.inside
    there.stands.view
  have found : site.analysis.distance? place.name.lexeme = some distance := by
    rw [← charted.settled there.isKnown own, ← there.table, ← there.holds.distances, bound]
  refine ⟨aligned, found, aligned.reached ?_⟩
  exact (List.findIdx?_eq_some_iff_getElem.mp found).1

end World

/-- In any session, whatever is under way in a line has its place in the program,
where the scopes agree with those of the analysis; a call moreover is made at a
place where they do so. Bonds lead to the scopes that the walk found. -/
theorem scopes_aligned {lines : List Line} {session next : Session}
    (history : Session.History lines session) {entry : Entry} {line : Line}
    (received : session.receive entry = (.ok line, next)) {moment : Moment} {rest : List Moment}
    (underway : Underway (Parts.asked.line line next.machine) (moment :: rest)) :
    ∃ site, Located (sitesOf (line :: lines)) line (moment :: rest) site ∧
      moment.Keeps (moment.task.scope moment.machine) site ∧
      (∀ closure arguments, moment.task = .call closure arguments →
        ∃ caller, Located (sitesOf (line :: lines)) line rest caller ∧
          moment.Keeps moment.machine.current caller) ∧
      ∀ place after distance, moment.Uses place after →
        after.distances[place.id]? = some distance →
        after.Aligned after.current site ∧
          site.analysis.distance? place.name.lexeme = some distance ∧
          (after.scopes.chain after.current).dropLast[distance]? =
            some (after.scopes.outwards after.current distance) := by
  have surveyed := Session.receive_surveyed (Session.history_surveyed history) entry
  have idle := Session.receive_idle (Session.history_idle history) received
  rw [received] at surveyed
  have charted := sites_charted surveyed.surveyed
  obtain ⟨start, holds⟩ := surveyed.inWorld
  obtain ⟨world, site, stands⟩ := World.underway_stands charted holds
    ⟨line, List.mem_cons_self, .refl⟩ idle.1 underway
  obtain ⟨inside, view⟩ := World.stands_scope stands
  refine ⟨site, World.located_of_placed stands.placed,
    World.stands_keeps charted stands (charted.covered stands.isKnown) inside view, ?_, ?_⟩
  · intro closure arguments isCall
    have begins := stands.begins
    rw [isCall] at begins
    obtain ⟨-, -, -, caller, isAsking, insideCaller, viewCaller⟩ := begins
    have located := World.located_of_asking isAsking
    have callerKnown := located.isKnown charted ⟨line, List.mem_cons_self, .refl⟩
    exact ⟨caller, located,
      World.stands_keeps charted stands (charted.covered callerKnown) insideCaller viewCaller⟩
  · intro place after distance uses bound
    exact World.uses_follow charted stands uses bound

/-- While the function of this program prints, it is one scope away from the block
in which the variable is. -/
theorem scopes_aligned_in_closure :
    ∃ line next moment rest site,
      (Session.start ⟨.unlimited, []⟩ 0).receive
        (.program "{ var a; (fun () { print a; })(); }") = (.ok line, next) ∧
      Underway (Parts.asked.line line next.machine) (moment :: rest) ∧
      Located (sitesOf [line]) line (moment :: rest) site ∧
      moment.machine.scopes.chain moment.machine.current = [2, 1, 0] ∧
      moment.machine.Aligned moment.machine.current site ∧
      site.analysis.distance? "a" = some 1 ∧
      (moment.machine.scopes.chain moment.machine.current).dropLast[1]? = some 1 := by
  let name : Token := ⟨.identifier, "a", 1⟩
  let place : Occurrence := ⟨0, name⟩
  let routine : Routine := ⟨none, some [], [.print (.reference place)]⟩
  let value : Expression := .call (.grouping (.lambda routine)) ⟨.rightParen, ")", 1⟩ []
  let block : Statement := .block [.variableDeclaration name none, .expression value]
  let bonded : Machine := { Machine.start ⟨.unlimited, []⟩ 0 with
    distances := (∅ : Std.TreeMap Nat Nat).insert 0 1 }
  have received : (Session.start ⟨.unlimited, []⟩ 0).receive
      (.program "{ var a; (fun () { print a; })(); }") =
      (.ok (.statements [block]), ⟨bonded, 1⟩) := by rfl
  let inBlock : Machine := { bonded with
    scopes := (bonded.scopes.extend (some 0) .empty).define 1 "a" .nil
    current := 1 }
  let calling : Machine := { inBlock with identities := 1, depth := 1 }
  let inCall : Machine := { calling with
    scopes := calling.scopes.extend (some 1) (.ofList [])
    current := 2 }
  have underway : Underway (Parts.asked.line (.statements [block]) bonded)
      [⟨0, .evaluation (.reference place), inCall⟩,
        ⟨0, .execution (.print (.reference place)), inCall⟩,
        ⟨1, .call ⟨routine, 1, false⟩ [], calling⟩, ⟨0, .evaluation value, inBlock⟩,
        ⟨0, .execution (.expression value), inBlock⟩, ⟨0, .execution block, bonded⟩] := by
    refine .inner (.inner (.inner (.inner (.inner (.first ?_) ?_) ?_) ?_) ?_) ?_
    · exact ⟨0, .inl ⟨rfl, rfl, rfl⟩⟩
    · exact ⟨1, .inr (.inl ⟨rfl, rfl, rfl⟩)⟩
    · exact ⟨0, .inl ⟨rfl, rfl, rfl⟩⟩
    · exact ⟨2, .inr (.inl ⟨rfl, rfl, rfl⟩)⟩
    · exact ⟨0, .inl ⟨rfl, rfl, rfl⟩⟩
    · exact ⟨0, .inl ⟨rfl, rfl, rfl⟩⟩
  obtain ⟨site, located, keeps, -, follows⟩ :=
    scopes_aligned (.start ⟨.unlimited, []⟩ 0) received underway
  obtain ⟨-, found, reached⟩ := follows place inCall 1 (.reference 0 place inCall) rfl
  exact ⟨_, _, _, _, site, received, underway, located, rfl, keeps.1, found, reached⟩

end Lox
