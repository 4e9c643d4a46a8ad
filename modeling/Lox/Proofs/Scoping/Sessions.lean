import Lox.Proofs.Execution.Restoration
import Lox.Proofs.Grammar.Soundness
import Lox.Proofs.Scoping.Executions

/-!
Sessions keep their scopes in step with the analysis. Accepted lines are without
violations, their occurrences have numbers that no other line has, and the table
says of each what the walk found there; lines that come later leave this as it
is. So all lines of a session are charted at any time, and between two steps its
machine is in a sound world, in which the next line can run.
-/

namespace Lox

namespace Line

/-- A line is walked from the start of an analysis, outside of all scopes. -/
def site (line : Line) : Site := ⟨line.node, .start, []⟩

structure Surveyed (table : Std.TreeMap Nat Nat) (line : Line) : Prop where
  clean : line.site.Clean
  settled : line.site.Settled table
  shaped : ∀ node, line.node.Contains node → node.WellShaped

theorem site_covered (line : Line) : line.site.Covered := by
  have grows := line.site.keeps_scopes.1
  change InnermostGrows [] line.site.after.scopes at grows
  change List.Forall₂ StaticScope.Within line.site.after.scopes []
  cases scopes : line.site.after.scopes with
  | nil => exact .nil
  | cons inner outer =>
      rw [scopes] at grows
      exact grows.elim

end Line

/-- All program points of some lines. -/
def sitesOf (lines : List Line) (site : Site) : Prop := ∃ line ∈ lines, line.site.Contains site

theorem sites_charted {table : Std.TreeMap Nat Nat} {lines : List Line}
    (surveyed : ∀ line ∈ lines, line.Surveyed table) : Charted table (sitesOf lines) := by
  have clean {site : Site} (isKnown : sitesOf lines site) : site.Clean := by
    obtain ⟨line, member, contained⟩ := isKnown
    induction contained with
    | refl => exact (surveyed line member).clean
    | tail _ isPart induction => exact Site.part_clean induction isPart
  constructor
  · rintro site part ⟨line, member, contained⟩ isPart
    exact ⟨line, member, contained.tail isPart⟩
  · exact clean
  · rintro site ⟨line, member, contained⟩
    induction contained with
    | refl => exact line.site_covered
    | tail _ isPart induction => exact Site.part_covered induction isPart
  · intro site place isKnown own
    rw [← Site.clean_bond (clean isKnown) own]
    obtain ⟨line, member, contained⟩ := isKnown
    exact (surveyed line member).settled site contained place own
  · rintro site ⟨line, member, contained⟩
    exact (surveyed line member).shaped site.node (Site.contains_node contained)

namespace World

variable {known : Site → Prop}

/-- The world of a machine before its first program. -/
def initial (sink : Sink) (time : Nat) : World where
  scopes := (Machine.start sink time).scopes
  globals := 0
  distances := ∅
  view _ := []
  pending := []

theorem initial_holds (sink : Sink) (time : Nat) :
    (initial sink time).Holds known (.start sink time) := by
  have size : (initial sink time).scopes.size = 1 := Scopes.size_extend ..
  refine ⟨⟨rfl, ?_, ?_, ?_, ?_, nofun⟩, rfl, rfl, rfl, nofun⟩
  · change (Scopes.extend _ _ _).parent? 0 = none
    rw [Scopes.parent_extend]
    rfl
  · rw [size]
    exact Nat.one_pos
  · intro id inside apart
    rw [size] at inside
    exact absurd (Nat.lt_one_iff.mp inside) apart
  · intro id name value found
    change (Scopes.extend _ _ _).local? id name = some value at found
    rw [Scopes.local_extend] at found
    split_ifs at found
    · obtain ⟨provided, -, same⟩ := List.mem_map.mp (Names.mem_of_find found)
      cases same
      trivial
    · cases found

end World

namespace Session

/-- All that a session keeps between its steps. -/
structure Surveyed (lines : List Line) (session : Session) : Prop where
  unbound : ∀ id, session.nextId ≤ id → session.machine.distances[id]? = none
  numbered : ∀ line ∈ lines, ∀ id ∈ line.site.ids, id < session.nextId
  surveyed : ∀ line ∈ lines, line.Surveyed session.machine.distances
  inWorld : ∃ world : World, world.Holds (sitesOf lines) session.machine

theorem start_surveyed (sink : Sink) (time : Nat) : (Session.start sink time).Surveyed [] where
  unbound _ _ := Std.TreeMap.getElem?_emptyc
  numbered := nofun
  surveyed := nofun
  inWorld := ⟨.initial sink time, World.initial_holds sink time⟩

variable {lines : List Line} {session : Session}

/-- Numbers may be left out. -/
theorem renumbered_surveyed (surveyed : session.Surveyed lines) {nextId : Nat}
    (ordered : session.nextId ≤ nextId) : ({ session with nextId := nextId }).Surveyed lines where
  unbound id beyond := surveyed.unbound id (Nat.le_trans ordered beyond)
  numbered line member id isId :=
    Nat.lt_of_lt_of_le (surveyed.numbered line member id isId) ordered
  surveyed := surveyed.surveyed
  inWorld := surveyed.inWorld

theorem bond_all_eq (machine : Machine) (bonds : List Bond) :
    machine.bondAll bonds =
      { machine with distances := settle bonds.reverse machine.distances } := by
  rw [← bond_all_distances]
  induction bonds generalizing machine with
  | nil => rfl
  | cons bond rest induction => exact induction (machine.bond bond.place.id bond.distance)

section Bonded

variable (surveyed : session.Surveyed lines) {line : Line} {nextId : Nat}
  (numbered : Numbered session.nextId nextId [line.node])

include numbered

theorem line_ids {id : Nat} (isId : id ∈ line.site.ids) : session.nextId ≤ id ∧ id < nextId := by
  obtain ⟨place, member, rfl⟩ := List.mem_map.mp isId
  apply numbered.between place
  rw [List.flatMap_singleton]
  exact member

include surveyed

/-- The bonds of a line settle the line itself, and nothing else. -/
theorem bonds_settle :
    line.site.Settled (settle line.site.after.bonds session.machine.distances) ∧
      ∀ id, id ∉ line.site.ids →
        (settle line.site.after.bonds session.machine.distances)[id]? =
          session.machine.distances[id]? := by
  apply line.site.settles session.machine.distances
  · have unique := numbered.unique
    rw [List.flatMap_singleton] at unique
    exact unique
  · intro id isId
    exact surveyed.unbound id (line_ids numbered isId).1

/-- The session once the bonds of a line are recorded, whether or not the line is
accepted. -/
theorem bonded_surveyed {accepted : List Line} (only : ∀ other ∈ accepted, other = line)
    (clean : ∀ other ∈ accepted, line.site.Clean) :
    (Session.mk (session.machine.bondAll line.site.after.finish.bonds) nextId).Surveyed
      (accepted ++ lines) := by
  obtain ⟨settled, frame⟩ := bonds_settle surveyed numbered
  have bonds : line.site.after.finish.bonds.reverse = line.site.after.bonds :=
    List.reverse_reverse _
  rw [bond_all_eq, bonds]
  constructor
  · intro id beyond
    have outside : id ∉ line.site.ids := fun isId =>
      absurd (line_ids numbered isId).2 (Nat.not_lt.mpr beyond)
    exact (frame id outside).trans (surveyed.unbound id (Nat.le_trans numbered.ordered beyond))
  · intro other member id isId
    rcases List.mem_append.mp member with new | old
    · cases only other new
      exact (line_ids numbered isId).2
    · exact Nat.lt_of_lt_of_le (surveyed.numbered other old id isId) numbered.ordered
  · intro other member
    rcases List.mem_append.mp member with new | old
    · have isClean := clean other new
      cases only other new
      exact ⟨isClean, settled, numbered.shaped _ List.mem_cons_self⟩
    · obtain ⟨isClean, settledBefore, shaped⟩ := surveyed.surveyed other old
      refine ⟨isClean, Site.settled_congr settledBefore fun id isId => frame id ?_, shaped⟩
      intro again
      have older := surveyed.numbered other old id isId
      have newer := (line_ids numbered again).1
      omega
  · obtain ⟨world, holds⟩ := surveyed.inWorld
    have more (site : Site) : sitesOf lines site → sitesOf (accepted ++ lines) site := by
      rintro ⟨other, old, contained⟩
      exact ⟨other, List.mem_append_right accepted old, contained⟩
    exact ⟨_, World.holds_reopened (fun _ _ member => member) more holds holds.sound.awaited⟩

end Bonded

/-- A reader of source texts that gives numbers and finds bonds as the walk does. -/
structure Readable {α : Type} (parse : List Token → Nat → Parsed α) (bindings : α → Bindings)
    (asLine : α → Line) : Prop where
  ordered : ∀ tokens firstId, firstId ≤ (parse tokens firstId).nextId
  numbered : ∀ tokens firstId tree, (parse tokens firstId).outcome = .ok tree →
    Numbered firstId (parse tokens firstId).nextId [(asLine tree).node]
  walked : ∀ tree, bindings tree = (asLine tree).site.after.finish

theorem prepare_surveyed {α : Type} (surveyed : session.Surveyed lines) (source : String)
    {parse : List Token → Nat → Parsed α} {bindings : α → Bindings} {asLine : α → Line}
    (readable : Readable parse bindings asLine) :
    match session.prepare source parse bindings with
    | (.error _, next) => next.Surveyed lines
    | (.ok tree, next) => next.Surveyed (asLine tree :: lines) := by
  have ordered := readable.ordered (tokensOf (scan source)) session.nextId
  unfold prepare
  dsimp only
  cases outcome : (parse (tokensOf (scan source)) session.nextId).outcome with
  | error complaints => exact renumbered_surveyed surveyed ordered
  | ok tree =>
      have numbered := readable.numbered _ _ tree outcome
      dsimp only
      rw [readable.walked]
      split_ifs with lexical violations
      · have clean : (asLine tree).site.Clean := by
          have none := List.isEmpty_iff.mp violations
          exact List.reverse_eq_nil_iff.mp none
        have only : ∀ other ∈ [asLine tree], other = asLine tree :=
          fun _ member => List.mem_singleton.mp member
        exact bonded_surveyed surveyed numbered only fun _ _ => clean
      · have only : ∀ other ∈ ([] : List Line), other = asLine tree := nofun
        exact bonded_surveyed surveyed numbered only nofun
      · exact renumbered_surveyed surveyed ordered

theorem program_readable : Readable parseProgram Bindings.ofProgram .statements where
  ordered tokens firstId := (program_read tokens firstId).1
  numbered tokens firstId tree accepted := ((program_read tokens firstId).2 tree accepted).1
  walked _ := rfl

theorem line_readable : Readable parseLine Bindings.ofLine id where
  ordered tokens firstId := (line_read tokens firstId).1
  numbered tokens firstId tree accepted := (line_read tokens firstId).2 tree accepted
  walked tree := by cases tree <;> rfl

theorem receive_surveyed (surveyed : session.Surveyed lines) (entry : Entry) :
    match session.receive entry with
    | (.error _, next) => next.Surveyed lines
    | (.ok line, next) => next.Surveyed (line :: lines) := by
  cases entry with
  | program source =>
      have prepared := prepare_surveyed surveyed source program_readable
      unfold receive
      dsimp only
      revert prepared
      generalize session.prepare source parseProgram Bindings.ofProgram = result
      obtain ⟨diagnostics | tree, next⟩ := result <;> exact id
  | line source =>
      have prepared := prepare_surveyed surveyed source line_readable
      unfold receive
      dsimp only
      revert prepared
      generalize session.prepare source parseLine Bindings.ofLine = result
      obtain ⟨diagnostics | tree, next⟩ := result <;> exact id

end Session

namespace World

variable {known : Site → Prop} {table : Std.TreeMap Nat Nat} {world : World} {machine : Machine}

/-- A line runs in any sound world of a machine that is at the top level. -/
theorem line_runs (charted : Charted table known) (holds : world.Holds known machine)
    (tableSame : world.distances = table) {line : Line} (isKnown : known line.site)
    (top : machine.current = machine.globals) :
    Runs known table line.site (some machine.current) (fun _ _ => True) world machine
      (Parts.asked.line line) := by
  have current : machine.current = world.globals := top.trans holds.globals
  have there : There known table line.site world machine line.site anyName := by
    refine ⟨holds, tableSame, isKnown, .self, ?_, ?_, trivial⟩
    · rw [current]
      exact holds.sound.present
    · rw [current]
      exact holds.sound.outermost
  have exact : world.Exact line.site.analysis.scopes machine.current := by
    refine ⟨nofun, fun name member => ?_⟩
    obtain ⟨inner, isInner, -⟩ := (holds.sound.awaited _ name member).written
    rw [current, holds.sound.outermost] at isInner
    cases isInner
  cases line with
  | statements orders =>
      have program : Runs known table (Line.statements orders).site (some machine.current)
          (fun _ _ => True) world machine (Parts.asked.program orders) := by
        apply runs_bind (runs_in_order charted there.itself exact)
        intro later after completion onward _
        exact runs_pure onward.holds trivial
      apply runs_bind program
      intro later after result onward _
      exact runs_pure onward.holds trivial
  | expression value =>
      apply runs_bind_quiet (runs_evaluate there.heeding)
      intro later after result onward _
      exact runs_pure onward.holds trivial

theorem line_leads (charted : Charted table known) (holds : world.Holds known machine)
    (tableSame : world.distances = table) {line : Line} (isKnown : known line.site)
    (top : machine.current = machine.globals) (supply : Nat) :
    Leads known (some machine.current) (fun _ _ => True) world machine.current
      (line.run supply machine) := by
  rw [Planning.line_run_completes_plan]
  exact Contracts.complete_goal (alignment_kept charted)
    (line_runs charted holds tableSame isKnown top) supply

end World

namespace Session

variable {lines : List Line} {session last : Session}

/-- A line that runs to its end or fails leaves a sound world behind. -/
theorem leave_surveyed (surveyed : session.Surveyed lines) (idle : session.Idle) {line : Line}
    (member : line ∈ lines) {supply : Nat}
    (left : session.leave (line.run supply session.machine) = some last) :
    last.Surveyed lines := by
  cases leave_closes left
  obtain ⟨world, holds⟩ := surveyed.inWorld
  have same := (Run.line_restores supply line session.machine).distances
  have leads := World.line_leads (sites_charted surveyed.surveyed) holds holds.distances.symm
    ⟨line, member, .refl⟩ idle.1 supply
  generalize line.run supply session.machine = ending at leads same
  have reached : ∃ later : World, later.Holds (sitesOf lines) (Ending.machine ending) := by
    cases ending with
    | ok value after =>
        obtain ⟨later, -, holdsAfter, -⟩ := leads
        exact ⟨later, holdsAfter⟩
    | error halt after =>
        obtain ⟨later, -, holdsAfter⟩ := leads
        exact ⟨later, holdsAfter⟩
  obtain ⟨later, holdsAfter⟩ := reached
  constructor
  · intro id beyond
    change (Ending.machine ending).distances[id]? = none
    rw [same]
    exact surveyed.unbound id beyond
  · exact surveyed.numbered
  · intro other isOther
    change other.Surveyed (Ending.machine ending).distances
    rw [same]
    exact surveyed.surveyed other isOther
  · exact ⟨later, World.holds_after holdsAfter rfl rfl rfl rfl⟩

theorem history_surveyed (history : History lines session) : session.Surveyed lines := by
  induction history with
  | start sink time => exact start_surveyed sink time
  | @rejected lines session next last entry supply diagnostics before received entered induction =>
      have surveyed := receive_surveyed induction entry
      rw [received] at surveyed
      rw [enter_eq, received] at entered
      exact Option.some.inj entered ▸ surveyed
  | @accepted lines session next last entry supply line before received entered induction =>
      have surveyed := receive_surveyed induction entry
      have idle := receive_idle (history_idle before) received
      rw [received] at surveyed
      rw [enter_eq, received] at entered
      exact leave_surveyed surveyed idle List.mem_cons_self entered

end Session

end Lox
