import Lox.Proofs.Scoping.Alignment
import Lox.Proofs.Scoping.TopLevel

/-!
The recorded distance and the plain walk outwards. The walk takes the innermost
scope that has a name now, the distance leads to the one that the analysis found.
They differ only if a scope in between gets the name later on; so they agree in
programs in which no scope has a name of the scopes around it.
-/

namespace Lox

/-- No local scope of the line has a name of a scope around it, of the top level or
of a native function. -/
def Line.Unshadowed (line : Line) : Prop :=
  line.node.Unshadowed (line.node.declares ++ [Native.clock].map Native.name)

namespace Session

variable {sink : Sink} {time : Nat} {entry : Entry} {outcome : Except (List Diagnostic) Line}
  {next : Session}

/-- A fresh session has nothing at the top level but native functions. -/
theorem start_declares (received : (Session.start sink time).receive entry = (outcome, next)) :
    next.machine.globals < next.machine.scopes.size ∧
      ∀ name, next.machine.scopes.declares next.machine.globals name = true →
        name ∈ [Native.clock].map Native.name := by
  obtain ⟨distances, frame⟩ := (Session.start sink time).receive_frame entry
  rw [received] at frame
  have machine : next.machine = { Machine.start sink time with distances := distances } := frame
  have size : (Machine.start sink time).scopes.size = 1 := Scopes.size_extend ..
  rw [machine]
  refine ⟨Nat.lt_of_lt_of_eq Nat.one_pos size.symm, fun name found => ?_⟩
  change (Scopes.extend _ _ _).declares 0 name = true at found
  rw [World.declares_extend] at found
  have named := (Names.contains_of_list _ name).mp found
  simpa using named

end Session

namespace Scopes

variable {α : Type} (scopes : Scopes α)

/-- The scope of a chain that has a name holds it if none before it has. -/
theorem holder_of_chain {id scope : ScopeId} {name : String} {nearer further : List ScopeId}
    (chain : scopes.chain id = nearer ++ scope :: further)
    (declares : scopes.declares scope name = true)
    (none : ∀ other ∈ nearer, scopes.declares other name = false) :
    scopes.holder? id name = some scope := by
  have first : (scope :: further).find? (scopes.declares · name) = some scope :=
    List.find?_cons_of_pos declares
  rw [holder?, chain, List.find?_append, first]
  have nothing : nearer.find? (scopes.declares · name) = Option.none :=
    List.find?_eq_none.mpr fun other member => by simp [none other member]
  rw [nothing, Option.none_or]

/-- Scopes that have names of their counterparts only lack what those lack. -/
theorem none_declares {below : List ScopeId} {full : List StaticScope} {name : String}
    (only : List.Forall₂ scopes.HasOnly below full)
    (lack : ∀ scope ∈ full, scope.contains name = false) :
    ∀ id ∈ below, scopes.declares id name = false := by
  induction only with
  | nil => exact nofun
  | cons has rest induction =>
      rw [List.forall_mem_cons] at lack ⊢
      refine ⟨?_, induction lack.2⟩
      rw [Bool.eq_false_iff]
      intro declared
      have held := has name declared
      rw [lack.1] at held
      cases held

end Scopes

/-- Where no scope in between ever gets the name, the scope that an occurrence
refers to is the innermost one that has the name. -/
theorem Machine.Aligned.nearest {machine : Machine} {site : Site} {place : Occurrence}
    (aligned : machine.Aligned machine.current site)
    (alone : machine.scopes.parent? machine.globals = none)
    (settled : machine.distances[place.id]? = site.analysis.distance? place.name.lexeme)
    (bound : ∀ distance, site.analysis.distance? place.name.lexeme = some distance →
      ∀ scope ∈ site.full.take distance, scope.contains place.name.lexeme = false)
    (free : site.analysis.distance? place.name.lexeme = none →
      machine.scopes.declares machine.globals place.name.lexeme = true →
        ∀ scope ∈ site.full, scope.contains place.name.lexeme = false)
    {scope : ScopeId} (held : Run.holder? machine place = some scope) :
    machine.scopes.holder? machine.current place.name.lexeme = some scope := by
  have declared := Run.holder_declared held
  obtain ⟨below, chain, length, only⟩ := aligned
  unfold Run.holder? at held
  rw [settled] at held
  cases found : site.analysis.distance? place.name.lexeme with
  | none =>
      rw [found] at held
      have isGlobal : scope = machine.globals := by
        rw [Scopes.holder?, machine.scopes.chain_outermost alone] at held
        exact (List.mem_singleton.mp (List.mem_of_find?_eq_some held))
      subst isGlobal
      exact machine.scopes.holder_of_chain chain declared
        (machine.scopes.none_declares only (free found declared))
  | some distance =>
      rw [found] at held
      have reached : machine.scopes.outwards machine.current distance = scope := by
        simp only [Scopes.holderAt?, Option.ite_none_right_eq_some, Option.some.injEq] at held
        exact held.2
      have inside : distance < below.length :=
        length ▸ (List.findIdx?_eq_some_iff_getElem.mp found).1
      have within : distance < (machine.scopes.chain machine.current).length := by
        rw [chain, List.length_append]
        exact Nat.lt_add_right _ inside
      have isScope := machine.scopes.chain_get within
      rw [reached] at isScope
      obtain ⟨isWithin, here⟩ := List.getElem?_eq_some_iff.mp isScope
      have split : machine.scopes.chain machine.current =
          (machine.scopes.chain machine.current).take distance ++
            scope :: (machine.scopes.chain machine.current).drop (distance + 1) := by
        rw [← here, List.getElem_cons_drop, List.take_append_drop]
      apply machine.scopes.holder_of_chain split declared
      rw [chain, List.take_append_of_le_length (Nat.le_of_lt inside)]
      exact machine.scopes.none_declares (List.forall₂_take distance only) (bound distance found)

namespace World

variable {known : Site → Prop} {table : Std.TreeMap Nat Nat} {world : World} {moment : Moment}
  {site : Site} {around : Surroundings}

/-- An occurrence in use has the distance that the walk found, on a machine whose
scopes are those of its site. -/
theorem uses_settled (charted : Charted table known)
    (stands : Stands known table around moment.task moment.machine world site)
    {place : Occurrence} {after : Machine} (uses : moment.Uses place after) :
    after.Aligned after.current site ∧ after.scopes.parent? after.globals = none ∧
      after.distances[place.id]? = site.analysis.distance? place.name.lexeme := by
  obtain ⟨own, later, -, there⟩ := uses_there charted stands uses
  refine ⟨aligned_of_view there.holds (charted.covered there.isKnown) there.stands.inside
    there.stands.view, ?_, ?_⟩
  · rw [there.holds.scopes, there.holds.globals]
    exact there.holds.sound.alone
  · rw [← charted.settled there.isKnown own, ← there.table, ← there.holds.distances]

end World

/-- The global scope has the names that it may have wherever an occurrence is used. -/
theorem Moment.uses_has_top {top : String → Prop} {moment : Moment} {place : Occurrence}
    {after : Machine} (has : moment.machine.HasTop top) (uses : moment.Uses place after) :
    after.HasTop top := by
  cases uses with
  | reference | receiver | inherited => exact has
  | @assign calls _ value machine after supply result evaluated =>
      have kept := Contracts.run_effect (top_contracts_kept top) supply () (.evaluation value)
        machine ⟨has, fun _ => nofun⟩
      have run : (Task.evaluation value).run supply machine = .ok result after := evaluated
      rw [run] at kept
      exact kept.has_top has

/-- In a program without shadowing that runs on a fresh session, whatever is found
by its distance, or else at the top level, is what the plain walk outwards finds,
and whatever is assigned is assigned where that walk would assign it. -/
theorem distances_agree_with_walk {sink : Sink} {time : Nat} {entry : Entry} {line : Line}
    {next : Session} (received : (Session.start sink time).receive entry = (.ok line, next))
    (unshadowed : line.Unshadowed) {moment : Moment} {rest : List Moment}
    (underway : Underway (Parts.asked.line line next.machine) (moment :: rest))
    {place : Occurrence} {after : Machine} (uses : moment.Uses place after) :
    (∀ value last, Run.lookUp place after = .ok value last →
      after.scopes.read? after.current place.name.lexeme = some value) ∧
    ∀ value last, Run.assign place value after = .ok () last →
      ∃ scopes, after.scopes.write? after.current place.name.lexeme value = some scopes ∧
        last = { after with scopes := scopes } := by
  have surveyed := Session.receive_surveyed (Session.start_surveyed sink time) entry
  have idle := Session.receive_idle (Session.history_idle (.start sink time)) received
  obtain ⟨present, natives⟩ := Session.start_declares received
  rw [received] at surveyed
  have charted := sites_charted surveyed.surveyed
  obtain ⟨start, holds⟩ := surveyed.inWorld
  obtain ⟨world, site, stands⟩ := World.underway_stands charted holds
    ⟨line, List.mem_cons_self, .refl⟩ idle.1 underway
  obtain ⟨aligned, alone, settled⟩ := World.uses_settled charted stands uses
  have isKnown := stands.isKnown
  have covered := Site.covered_before (charted.covered isKnown)
  obtain ⟨other, member, contained⟩ := isKnown
  cases List.mem_singleton.mp member
  have outermost : line.site.Among line.node := Around.outermost
  have among : site.Among line.node := Site.contains_among outermost .refl contained
  have has := Moment.uses_has_top (underway_has_top present underway) uses
  have nearest {scope : ScopeId} (held : Run.holder? after place = some scope) :
      after.scopes.holder? after.current place.name.lexeme = some scope := by
    apply aligned.nearest alone settled ?_ ?_ held
    · exact fun distance => Around.none_nearer unshadowed covered among
    · intro free declared
      apply Around.none_local unshadowed among free
      rcases has.only _ declared with native | written
      · exact List.mem_append_right _ (natives _ native)
      · exact List.mem_append_left _ written
  constructor
  · intro value last found
    rcases Run.look_up_cases place after with ⟨scope, held, isHolder, stored, ended⟩ | ended
    · rw [ended] at found
      cases found
      rw [Scopes.read?, nearest isHolder]
      exact stored
    · rw [ended] at found
      cases found
  · intro value last assigned
    rcases Run.assign_cases place value after with ⟨scope, isHolder, ended⟩ | ⟨-, ended⟩
    · rw [ended] at assigned
      cases assigned
      refine ⟨_, ?_, rfl⟩
      rw [Scopes.write?, nearest isHolder]
      rfl
    · rw [ended] at assigned
      cases assigned

/-- The function of this program reads the variable of the block around it. -/
theorem distances_agree_with_walk_in_closure :
    ∃ line next moment rest place,
      (Session.start ⟨.unlimited, []⟩ 0).receive
        (.program "{ var a; (fun () { print a; })(); }") = (.ok line, next) ∧
      line.Unshadowed ∧ Underway (Parts.asked.line line next.machine) (moment :: rest) ∧
      moment.Uses place moment.machine ∧ place.name.lexeme = "a" ∧
      moment.machine.scopes.read? moment.machine.current "a" = some .nil := by
  let name : Token := ⟨.identifier, "a", 1⟩
  let place : Occurrence := ⟨0, name⟩
  let routine : Routine := ⟨none, some [], [.print (.reference place)]⟩
  let value : Expression := .call (.grouping (.lambda routine)) ⟨.rightParen, ")", 1⟩ []
  let block : Statement := .block [.variableDeclaration name none, .expression value]
  let bonded : Machine := { Machine.start ⟨.unlimited, []⟩ 0 with
    distances := (∅ : Std.TreeMap Nat Nat).insert 0 1 }
  have received : (Session.start ⟨.unlimited, []⟩ 0).receive
      (.program "{ var a; (fun () { print a; })(); }") =
      (.ok (.statements [block]), ⟨bonded, 1⟩) := by rfl
  have unshadowed : (Line.statements [block]).Unshadowed := by
    apply Node.unshadowed_iff.mpr
    simp only [Line.node, block, value, routine, Node.all_eq, Node.parts, List.flatMap_cons,
      List.flatMap_nil, List.append_nil, List.cons_append, List.nil_append, List.forall_mem_cons]
    simp [Node.written, Node.implied, Node.declares, Statement.declares, name, Native.name]
  let inBlock : Machine := { bonded with
    scopes := (bonded.scopes.extend (some 0) .empty).define 1 "a" .nil
    current := 1 }
  let calling : Machine := { inBlock with identities := 1, depth := 1 }
  let inCall : Machine := { calling with
    scopes := calling.scopes.extend (some 1) (.ofList [])
    current := 2 }
  have underway : Underway (Parts.asked.line (.statements [block]) bonded)
      [⟨0, .evaluation (.reference place), inCall⟩,
        ⟨0, .execution (.print (.reference place)), inCall⟩,
        ⟨1, .call ⟨routine, 1, false⟩ [], calling⟩, ⟨0, .evaluation value, inBlock⟩,
        ⟨0, .execution (.expression value), inBlock⟩, ⟨0, .execution block, bonded⟩] := by
    refine .inner (.inner (.inner (.inner (.inner (.first ?_) ?_) ?_) ?_) ?_) ?_
    · exact ⟨0, .inl ⟨rfl, rfl, rfl⟩⟩
    · exact ⟨1, .inr (.inl ⟨rfl, rfl, rfl⟩)⟩
    · exact ⟨0, .inl ⟨rfl, rfl, rfl⟩⟩
    · exact ⟨2, .inr (.inl ⟨rfl, rfl, rfl⟩)⟩
    · exact ⟨0, .inl ⟨rfl, rfl, rfl⟩⟩
    · exact ⟨0, .inl ⟨rfl, rfl, rfl⟩⟩
  have uses : Moment.Uses ⟨0, .evaluation (.reference place), inCall⟩ place inCall :=
    .reference 0 place inCall
  have agree := (distances_agree_with_walk received unshadowed underway uses).1
  exact ⟨_, _, _, _, place, received, unshadowed, underway, uses, rfl, agree .nil inCall rfl⟩

end Lox
