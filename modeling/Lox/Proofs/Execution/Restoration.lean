import Lox.Proofs.Execution.History
import Lox.Proofs.Execution.Moments
import Mathlib.Algebra.GroupWithZero.Nat

/-!
Every exit restores the scoped state. Whatever a run does and however it ends,
it leaves the current scope, the global one, the depth and the table of
distances as it found them; so the depth always counts the calls under way, and
a session is back at the top level after every step.
-/

namespace Lox

/-- The state that code has only for as long as it runs. -/
structure Machine.SameRegisters (before after : Machine) : Prop where
  current : after.current = before.current
  globals : after.globals = before.globals
  depth : after.depth = before.depth
  distances : after.distances = before.distances

namespace Machine.SameRegisters

theorem refl (machine : Machine) : machine.SameRegisters machine := ⟨rfl, rfl, rfl, rfl⟩

theorem trans {first second third : Machine} (before : first.SameRegisters second)
    (after : second.SameRegisters third) : first.SameRegisters third where
  current := after.current.trans before.current
  globals := after.globals.trans before.globals
  depth := after.depth.trans before.depth
  distances := after.distances.trans before.distances

end Machine.SameRegisters

namespace Run

variable {α β : Type}

/-- However the run ends, the scoped state is as before. -/
def Restores (action : Run α) : Prop :=
  ∀ machine : Machine, machine.SameRegisters (Ending.machine (action machine))

/-- If each of two runs leaves a machine that is related to the one it began on, so do both, one
behind the other. -/
theorem bind_related (related : Machine → Machine → Prop)
    (trans : ∀ {before middle after}, related before middle → related middle after →
      related before after) {first : Run α} {next : α → Run β}
    (begun : ∀ machine, related machine (Ending.machine (first machine)))
    (later : ∀ value machine, related machine (Ending.machine (next value machine)))
    (machine : Machine) : related machine (Ending.machine ((first >>= next) machine)) := by
  have before := begun machine
  cases ended : first machine with
  | error halt after =>
      rw [ended] at before
      rw [bind_error ended]
      exact before
  | ok value after =>
      rw [ended] at before
      rw [bind_ok ended]
      exact trans before (later value after)

theorem bind_restores {first : Run α} {next : α → Run β} (restores : first.Restores)
    (later : ∀ value, (next value).Restores) : (first >>= next).Restores :=
  bind_related Machine.SameRegisters .trans restores later

theorem print_restores (value : Value) : (print value).Restores := by
  intro machine
  obtain ⟨_, ended | ended⟩ := print_cases value machine <;> rw [ended] <;>
    exact ⟨rfl, rfl, rfl, rfl⟩

theorem look_up_restores (place : Occurrence) : (lookUp place).Restores := by
  intro machine
  rcases look_up_cases place machine with ⟨_, _, -, -, ended⟩ | ended <;> rw [ended] <;>
    exact .refl _

theorem assign_restores (place : Occurrence) (value : Value) : (assign place value).Restores := by
  intro machine
  rcases assign_cases place value machine with ⟨_, -, ended⟩ | ⟨-, ended⟩ <;> rw [ended] <;>
    exact ⟨rfl, rfl, rfl, rfl⟩

theorem result_restores (closure : Closure) (completion : Completion) :
    (result closure completion).Restores := by
  intro machine
  obtain ⟨_, ended, -⟩ := result_cases closure completion machine
  rw [ended]
  exact .refl _

theorem make_class_restores (name : Token) (superclass : Option Class)
    (methods classMethods : List Routine) :
    (makeClass name superclass methods classMethods).Restores := by
  intro machine
  cases superclass <;> exact ⟨rfl, rfl, rfl, rfl⟩

theorem inherited_method_restores (place : Occurrence) (method : Token) :
    (inheritedMethod place method).Restores := by
  intro machine
  rcases inherited_method_cases place method machine with
    ⟨_, _, _, -, -, -, ended⟩ | ⟨_, -, ended⟩ <;>
    rw [ended] <;> exact .refl _

theorem primitive_restores {action : Run α} (primitive : Primitive action) : action.Restores := by
  cases primitive with
  | fail line cause => exact fun _ => .refl _
  | blame line outcome => cases outcome <;> exact fun _ => .refl _
  | lookUp place => exact look_up_restores place
  | assign place value => exact assign_restores place value
  | print value => exact print_restores value
  | makeClass name superclass methods classMethods =>
      exact make_class_restores name superclass methods classMethods
  | inheritedMethod place method => exact inherited_method_restores place method
  | result closure completion => exact result_restores closure completion
  | currentScope | openScope | define | makeFunction | closeOver | makeInstance | field | setField
  | readClock | bindReceiver =>
      exact fun _ => ⟨rfl, rfl, rfl, rfl⟩

theorem within_restores {action : Run α} (scope : ScopeId) (restores : action.Restores) :
    (Run.within scope action).Restores := by
  intro machine
  have inner := restores { machine with current := scope }
  unfold Run.within
  cases ended : action { machine with current := scope } <;>
    · rw [ended] at inner
      exact ⟨rfl, inner.globals, inner.depth, inner.distances⟩

theorem nested_restores {action : Run α} (line : Nat) (restores : action.Restores) :
    (Run.nested line action).Restores := by
  intro machine
  have inner := restores { machine with depth := machine.depth + 1 }
  unfold Run.nested
  split_ifs with full
  · exact .refl _
  · cases ended : action { machine with depth := machine.depth + 1 } <;>
      · rw [ended] at inner
        refine ⟨inner.current, inner.globals, ?_, inner.distances⟩
        have deeper := inner.depth
        simp only [Ending.machine] at deeper ⊢
        omega

/-- To restore the scoped state, as a property that constructs pass on. -/
def restoration : Setting.Relation Run Run where
  Related action _ := action.Restores
  pure _ _ := .refl _
  bind := bind_restores
  act := primitive_restores
  within := within_restores
  nested := nested_restores

theorem parts_restore (supply : Nat) :
    restoration.OfParts (Parts.supplied supply) (Parts.supplied supply) := by
  induction supply with
  | zero => exact ⟨fun _ _ => .refl _, fun _ _ => .refl _, fun _ _ _ => .refl _⟩
  | succ supply induction =>
      exact ⟨Setting.Relation.evaluation_related induction,
        Setting.Relation.execution_related induction,
        Setting.Relation.application_related induction⟩

theorem task_restores (supply : Nat) (task : Task) : (task.run supply).Restores := by
  cases task with
  | evaluation expression => exact (parts_restore supply).evaluate expression
  | execution statement => exact (parts_restore supply).execute statement
  | call closure arguments => exact (parts_restore supply).call closure arguments

theorem line_restores (supply : Nat) (line : Line) : (line.run supply).Restores :=
  Setting.Relation.line_related (parts_restore supply) line

end Run

/-- A task begins at a depth that it is told and leaves the scoped state as it
finds it; a part of it that is some calls deeper begins at a depth that much
greater. -/
def depthContracts : Contracts Nat where
  duty depth _ machine := machine.depth = depth ∧ depth ≤ callLimit
  effect _ _ machine ending := machine.SameRegisters ending.machine
  inside depth calls _ _ := depth + calls

namespace Planning

variable {α β : Type}

def CountsCalls (planned : Planning α) : Prop :=
  ∀ machine : Machine, machine.depth ≤ callLimit →
    (planned machine).Meets (depthContracts.under fun calls => machine.depth + calls)
      fun ending => machine.SameRegisters ending.machine

theorem bind_counts_calls {planned : Planning α} {next : α → Planning β}
    (first : planned.CountsCalls) (later : ∀ value, (next value).CountsCalls) :
    (planned >>= next).CountsCalls := by
  intro machine low
  apply Plan.meets_followed_by
  apply Plan.meets_mono (first machine low)
  intro ending same
  cases ending with
  | error halt after => exact same
  | ok value after =>
      have sameDepth : after.depth = machine.depth := same.depth
      have rest := later value after (sameDepth ▸ low)
      rw [sameDepth] at rest
      exact Plan.meets_mono rest fun _ => same.trans

theorem within_counts_calls {planned : Planning α} (scope : ScopeId)
    (inner : planned.CountsCalls) :
    (Setting.within scope planned : Planning α).CountsCalls := by
  intro machine low
  apply Plan.meets_leaving
  apply Plan.meets_mono (inner { machine with current := scope } low)
  intro ending same
  cases ending <;> exact ⟨rfl, same.globals, same.depth, same.distances⟩

theorem nested_counts_calls {planned : Planning α} (line : Nat) (inner : planned.CountsCalls) :
    (Setting.nested line planned : Planning α).CountsCalls := by
  intro machine low
  change Plan.Meets _ _ (if callLimit ≤ machine.depth then _ else _)
  split_ifs with full
  · exact .refl _
  · apply Plan.meets_leaving
    apply Plan.meets_deeper
    have deeper := inner { machine with depth := machine.depth + 1 } (by dsimp only; omega)
    have shifted : (fun calls => machine.depth + 1 + calls) =
        fun calls => machine.depth + (calls + 1) := by
      funext calls
      omega
    dsimp only at deeper
    rw [shifted] at deeper
    apply Plan.meets_mono deeper
    intro ending same
    cases ending <;>
      · refine ⟨same.current, same.globals, ?_, same.distances⟩
        have sameDepth := same.depth
        simp only [Ending.machine, Ending.onMachine] at sameDepth ⊢
        omega

theorem part_counts_calls (task : Task) : (part task).CountsCalls := by
  intro machine low
  exact ⟨⟨rfl, low⟩, fun _ same => same⟩

def callCounting : Setting.Relation Planning Planning where
  Related planned _ := planned.CountsCalls
  pure _ _ _ := .refl _
  bind := bind_counts_calls
  act primitive machine _ := Run.primitive_restores primitive machine
  within := within_counts_calls
  nested := nested_counts_calls

theorem parts_count_calls : callCounting.OfParts Parts.asked Parts.asked where
  evaluate expression := part_counts_calls (.evaluation expression)
  execute statement := part_counts_calls (.execution statement)
  call closure arguments := part_counts_calls (.call closure arguments)

theorem plan_counts_calls (task : Task) : task.plan.CountsCalls := by
  cases task with
  | evaluation expression =>
      exact Setting.Relation.evaluation_related parts_count_calls expression
  | execution statement => exact Setting.Relation.execution_related parts_count_calls statement
  | call closure arguments =>
      exact Setting.Relation.application_related parts_count_calls closure arguments

theorem line_counts_calls (line : Line) : (Parts.asked.line line).CountsCalls :=
  Setting.Relation.line_related parts_count_calls line

end Planning

theorem depth_contracts_kept : depthContracts.Kept where
  exhausted _ _ _ _ := .refl _
  planned depth task machine duty := by
    obtain ⟨rfl, low⟩ := duty
    exact Planning.plan_counts_calls task machine low

/-- The calls that are under way, counted along the tasks that made them. -/
def callsUnderway (stack : List Moment) : Nat := (stack.map Moment.calls).sum

theorem latest_depth (depth : Nat) (stack : List Moment) :
    depthContracts.latest (fun calls => depth + calls) stack = depth + callsUnderway stack := by
  induction stack with
  | nil => rfl
  | cons moment rest induction =>
      cases rest with
      | nil => simp [Contracts.latest, callsUnderway]
      | cons outer rest =>
          rw [Contracts.latest, induction]
          simp only [depthContracts, callsUnderway, List.map_cons, List.sum_cons]
          omega

theorem underway_depth {line : Line} {start : Machine} (low : start.depth ≤ callLimit)
    {moment : Moment} {rest : List Moment}
    (underway : Underway (Parts.asked.line line start) (moment :: rest)) :
    moment.machine.depth = start.depth + callsUnderway (moment :: rest) ∧
      moment.machine.depth ≤ callLimit := by
  have met := Contracts.underway_duty depth_contracts_kept
    (Planning.line_counts_calls line start low) underway
  rw [latest_depth] at met
  exact ⟨met.1, met.1 ▸ met.2⟩

namespace Session

/-- Nothing is under way. -/
def Idle (session : Session) : Prop :=
  session.machine.current = session.machine.globals ∧ session.machine.depth = 0

theorem bond_all_registers (machine : Machine) (bonds : List Bond) :
    (machine.bondAll bonds).current = machine.current ∧
      (machine.bondAll bonds).globals = machine.globals ∧
      (machine.bondAll bonds).depth = machine.depth := by
  induction bonds generalizing machine with
  | nil => exact ⟨rfl, rfl, rfl⟩
  | cons bond rest induction => exact induction (machine.bond bond.place.id bond.distance)

theorem prepare_idle {α : Type} {session : Session} (idle : session.Idle) (source : String)
    (parse : List Token → Nat → Parsed α) (bindings : α → Bindings) :
    (session.prepare source parse bindings).2.Idle := by
  unfold prepare
  dsimp only
  split
  · exact idle
  · next tree _ =>
      split_ifs
      · obtain ⟨current, globals, depth⟩ :=
          bond_all_registers session.machine (bindings tree).bonds
        exact ⟨current.trans (idle.1.trans globals.symm), depth.trans idle.2⟩
      · obtain ⟨current, globals, depth⟩ :=
          bond_all_registers session.machine (bindings tree).bonds
        exact ⟨current.trans (idle.1.trans globals.symm), depth.trans idle.2⟩
      · exact idle

theorem receive_idle {session next : Session} (idle : session.Idle) {entry : Entry}
    {outcome : Except (List Diagnostic) Line} (received : session.receive entry = (outcome, next)) :
    next.Idle := by
  have same : next = (session.receive entry).2 := by rw [received]
  subst same
  cases entry with
  | program source => exact prepare_idle idle source parseProgram Bindings.ofProgram
  | line source => exact prepare_idle idle source parseLine Bindings.ofLine

theorem leave_closes {α : Type} {session last : Session}
    {ending : EStateM.Result Halt Machine α} (left : session.leave ending = some last) :
    last = (session.close (Ending.machine ending)).2 := by
  cases ending with
  | ok value after => exact (Option.some.inj left).symm
  | error halt after =>
      cases halt with
      | failed diagnostic => exact (Option.some.inj left).symm
      | exhausted => cases left

theorem leave_idle {session last : Session} (idle : session.Idle) {line : Line} {supply : Nat}
    (left : session.leave (line.run supply session.machine) = some last) : last.Idle := by
  have same := Run.line_restores supply line session.machine
  cases leave_closes left
  exact ⟨same.current.trans (idle.1.trans same.globals.symm), same.depth.trans idle.2⟩

theorem history_idle {lines : List Line} {session : Session} (history : History lines session) :
    session.Idle := by
  induction history with
  | start sink time => exact ⟨rfl, rfl⟩
  | rejected before received entered induction =>
      have idle := receive_idle induction received
      rw [enter_eq, received] at entered
      exact Option.some.inj entered ▸ idle
  | accepted before received entered induction =>
      have idle := receive_idle induction received
      rw [enter_eq, received] at entered
      exact leave_idle idle entered

end Session

/-- Every exit restores the scoped state; at every moment of a run that a session
accepts, the depth is the number of calls under way and within its limit; and
between its steps a session is at the top level with no call under way. -/
theorem scoped_state_restored :
    (∀ (supply : Nat) (expression : Expression) (machine : Machine),
      machine.SameRegisters (Ending.machine (evaluate supply expression machine))) ∧
    (∀ (supply : Nat) (statement : Statement) (machine : Machine),
      machine.SameRegisters (Ending.machine (execute supply statement machine))) ∧
    (∀ (supply : Nat) (scope : ScopeId) (statements : List Statement) (machine : Machine),
      machine.SameRegisters (Ending.machine
        (Run.within scope ((Parts.supplied supply).inOrder statements) machine))) ∧
    (∀ lines session, Session.History lines session →
      session.machine.current = session.machine.globals ∧ session.machine.depth = 0 ∧
      ∀ entry line next, session.receive entry = (.ok line, next) →
        ∀ moment rest, Underway (Parts.asked.line line next.machine) (moment :: rest) →
          moment.machine.depth = callsUnderway (moment :: rest) ∧
            moment.machine.depth ≤ callLimit) := by
  refine ⟨?_, ?_, ?_, ?_⟩
  · intro supply expression
    exact (Run.parts_restore supply).evaluate expression
  · intro supply statement
    exact (Run.parts_restore supply).execute statement
  · intro supply scope statements
    exact Run.within_restores scope
      (Setting.Relation.in_order_related (Run.parts_restore supply) statements)
  · intro lines session history
    have idle := Session.history_idle history
    refine ⟨idle.1, idle.2, ?_⟩
    intro entry line next received moment rest underway
    have ready := Session.receive_idle idle received
    have counted := underway_depth (by rw [ready.2]; exact Nat.zero_le _) underway
    rw [ready.2, Nat.zero_add] at counted
    exact counted

/-- While the function of `(fun () {})();` runs, one call is under way. -/
theorem scoped_state_restored_in_call :
    ∃ line next moment rest,
      (Session.start ⟨.unlimited, []⟩ 0).receive (.program "(fun () {})();") = (.ok line, next) ∧
      Underway (Parts.asked.line line next.machine) (moment :: rest) ∧
      callsUnderway (moment :: rest) = 1 ∧ moment.machine.depth = 1 ∧
      moment.machine.depth ≤ callLimit := by
  let routine : Routine := ⟨none, some [], []⟩
  let value : Expression :=
    .call (.grouping (.lambda routine)) ⟨.rightParen, ")", 1⟩ []
  let start : Machine := .start ⟨.unlimited, []⟩ 0
  let answer := Task.answers 2 (.evaluation (.grouping (.lambda routine))) start
  have received : (Session.start ⟨.unlimited, []⟩ 0).receive (.program "(fun () {})();") =
      (.ok (.statements [.expression value]), ⟨start, 0⟩) := by rfl
  let statement : Moment := ⟨0, .execution (.expression value), start⟩
  let expression : Moment := ⟨0, .evaluation value, start⟩
  let call : Moment :=
    ⟨1, .call ⟨routine, 0, false⟩ [], { answer.machine with depth := answer.machine.depth + 1 }⟩
  have reachedStatement : (Parts.asked.line (.statements [.expression value]) start).Reaches
      statement := ⟨0, .inl ⟨rfl, rfl, rfl⟩⟩
  have reachedExpression : statement.plan.Reaches expression := ⟨0, .inl ⟨rfl, rfl, rfl⟩⟩
  have reachedCall : expression.plan.Reaches call := ⟨2, .inr (.inl ⟨rfl, rfl, rfl⟩)⟩
  have underway := (Underway.first reachedStatement).inner reachedExpression |>.inner reachedCall
  have restored := (scoped_state_restored.2.2.2 [] _ (.start ⟨.unlimited, []⟩ 0)).2.2
    _ _ _ received _ _ underway
  exact ⟨_, _, _, _, received, underway, rfl, restored.1, restored.2⟩

end Lox
