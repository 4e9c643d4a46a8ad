import Lox.Proofs.Execution.Moments
import Lox.Proofs.Scoping.Methods

/-!
The contract between tasks and scopes. A task may count on being at a site of a
known program whose scopes are ready, and leaves the machine in a later world.
While the initializer of a local variable runs, the tasks inside of it know that
the variable is still awaited. The rules below follow how plans are put together.
-/

namespace Lox

/-- The names that an expression by itself may look up. -/
def Expression.heeds : Expression → String → Prop
  | .reference place => fun name => name = place.name.lexeme
  | _ => World.anyName

/-- The node that a task carries out. -/
def Task.node : Task → Node
  | .evaluation value => .expression value
  | .execution order => .statement order
  | .call closure _ => .routine closure.routine

/-- The local variable that a task initializes, if it does so. -/
def Task.initializing (machine : Machine) : Task → List (ScopeId × String)
  | .execution (.variableDeclaration name (some _)) =>
      if machine.current = machine.globals then [] else [(machine.current, name.lexeme)]
  | _ => []

/-- What a task knows of the tasks that it is part of. -/
structure Surroundings where
  /-- The local variables whose initializer is under way. -/
  pending : List (ScopeId × String)
  /-- The sites at which the task may be that asks for it. -/
  asking : Site → Prop

/-- Expressions and statements are near the task that asks for them; a call may
lead anywhere. -/
structure Placed (known asking : Site → Prop) (task : Task) (site : Site) : Prop where
  node : site.node = task.node
  reachable : match task with
    | .call _ _ => known site
    | _ => ∃ outer, asking outer ∧ outer.Near site

namespace World

variable {known : Site → Prop} {table : Std.TreeMap Nat Nat} {base : Site}

/-- The scope declares no more than the walk has marked so far, and none of its
names is awaited. -/
structure Exact (world : World) (scopes : List StaticScope) (id : ScopeId) : Prop where
  names : ∀ inner ∈ scopes.head?, ∀ name, world.scopes.declares id name = true →
    inner.contains name = true
  settled : ∀ name, (id, name) ∉ world.pending

/-- The machine is among the scopes of the site. -/
def Among (world : World) (machine : Machine) (site : Site) : Prop :=
  machine.current < world.scopes.size ∧ world.view machine.current = site.full

/-- The scopes are what the task needs to begin at the site. A call begins among
the scopes of its caller. -/
def Begins (known asking : Site → Prop) (world : World) (machine : Machine) (site : Site) :
    Task → Prop
  | .evaluation value => world.At site value.heeds machine.current
  | .execution _ => world.At site anyName machine.current ∧
      world.Exact site.analysis.scopes machine.current
  | .call closure arguments => world.At site anyName closure.scope ∧
      (∀ value ∈ arguments, world.Fits known value) ∧
      arguments.length = closure.routine.arity ∧ ∃ caller, asking caller ∧
        world.Among machine caller

/-- After a statement, the scopes are as the walk leaves them. -/
def Completes (known : Site → Prop) (site : Site) (current : ScopeId) (later : World) :
    Completion → Prop
  | .normal => later.Ready anyName site.after.scopes current ∧
      later.Exact site.after.scopes current
  | .returned value => later.Fits known value

/-- How a task has to end that began at the site. -/
def Ends (known : Site → Prop) (world : World) (machine : Machine) (site : Site) :
    (task : Task) → Ending task.Answer → Prop
  | .evaluation _ => Leads known none (fun later value => later.Fits known value) world
      machine.current
  | .execution _ => Leads known (some machine.current) (Completes known site machine.current)
      world machine.current
  | .call _ _ => Leads known none (fun later value => later.Fits known value) world
      machine.current

/-- A world in which the machine is at the site, among these surroundings. -/
structure Stands (known : Site → Prop) (table : Std.TreeMap Nat Nat) (around : Surroundings)
    (task : Task) (machine : Machine) (world : World) (site : Site) : Prop where
  holds : world.Holds known machine
  table : world.distances = table
  pending : world.pending = around.pending
  isKnown : known site
  placed : Placed known around.asking task site
  begins : Begins known around.asking world machine site task

/-- The contracts of all tasks. -/
def alignment (known : Site → Prop) (table : Std.TreeMap Nat Nat) : Contracts Surroundings where
  duty around task machine := ∃ world site, Stands known table around task machine world site
  effect around task machine ending := ∀ world site,
    Stands known table around task machine world site → Ends known world machine site task ending
  inside around _ task machine :=
    ⟨task.initializing machine ++ around.pending, Placed known around.asking task⟩

/-- The plan keeps to the contract, with all parts asked for at one site and
knowing what the world awaits. -/
def Runs {α : Type} (known : Site → Prop) (table : Std.TreeMap Nat Nat) (base : Site)
    (declaring : Option ScopeId) (good : World → α → Prop) (world : World) (machine : Machine)
    (planned : Planning α) : Prop :=
  (planned machine).Meets ((alignment known table).under fun _ => ⟨world.pending, (· = base)⟩)
    (Leads known declaring good world machine.current)

/-- What a step that has not failed leads to. -/
structure Onward (known : Site → Prop) (declaring : Option ScopeId) (world : World)
    (machine : Machine) (later : World) (after : Machine) : Prop where
  before : Before declaring world later
  holds : later.Holds known after
  pending : later.pending = world.pending
  distances : later.distances = world.distances
  current : after.current = machine.current

theorem Onward.trans {declaring : Option ScopeId} {world later last : World}
    {machine after final : Machine} (first : Onward known declaring world machine later after)
    (second : Onward known declaring later after last final) :
    Onward known declaring world machine last final :=
  ⟨first.before.trans second.before, second.holds, second.pending.trans first.pending,
    second.distances.trans first.distances, second.current.trans first.current⟩

section Rules

variable {α β : Type} {declaring : Option ScopeId} {good : World → α → Prop}
  {goodNext : World → β → Prop} {world : World} {machine : Machine}

theorem leads_mono {better : World → α → Prop} {current : ScopeId} {ending : Ending α}
    (leads : Leads known declaring good world current ending)
    (implies : ∀ later, Before declaring world later → later.pending = world.pending →
      ∀ value, good later value → better later value) :
    Leads known declaring better world current ending := by
  cases ending with
  | ok value after =>
      obtain ⟨later, before, holds, pending, same, fine⟩ := leads
      exact ⟨later, before, holds, pending, same, implies later before pending.1 value fine⟩
  | error halt after => exact leads

theorem leads_weaken {current : ScopeId} {ending : Ending α}
    (leads : Leads known none good world current ending) :
    Leads known declaring good world current ending := by
  cases ending with
  | ok value after =>
      obtain ⟨later, before, rest⟩ := leads
      exact ⟨later, before.weaken, rest⟩
  | error halt after =>
      obtain ⟨later, before, rest⟩ := leads
      exact ⟨later, before.weaken, rest⟩

theorem runs_pure (holds : world.Holds known machine) {value : α} (fine : good world value) :
    Runs known table base declaring good world machine (pure value) :=
  done_leads holds fine

theorem runs_act {action : Run α}
    (leads : Leads known declaring good world machine.current (action machine)) :
    Runs known table base declaring good world machine (Setting.act action) := leads

theorem runs_mono {better : World → α → Prop} {planned : Planning α}
    (runs : Runs known table base declaring good world machine planned)
    (implies : ∀ later, Before declaring world later → later.pending = world.pending →
      ∀ value, good later value → better later value) :
    Runs known table base declaring better world machine planned :=
  Plan.meets_mono runs fun _ leads => leads_mono leads implies

theorem runs_weaken {planned : Planning α}
    (runs : Runs known table base none good world machine planned) :
    Runs known table base declaring good world machine planned :=
  Plan.meets_mono runs fun _ => leads_weaken

/-- What a first part and the rest declare adds up to what the whole declares. -/
theorem runs_bind_through {first rest : Option ScopeId} {planned : Planning α}
    {next : α → Planning β}
    (through : ∀ later final, Before first world later → Before rest later final →
      Before declaring world final)
    (begun : Runs known table base first good world machine planned)
    (onwards : ∀ later after value, Onward known first world machine later after →
      good later value → Runs known table base rest goodNext later after (next value)) :
    Runs known table base declaring goodNext world machine (planned >>= next) := by
  apply Plan.meets_followed_by
  refine Plan.meets_mono begun fun ending leads => ?_
  cases ending with
  | error halt after =>
      obtain ⟨later, before, holds⟩ := leads
      exact ⟨later, through later later before (.refl later), holds⟩
  | ok value after =>
      obtain ⟨later, before, holds, ⟨pending, distances⟩, same, fine⟩ := leads
      have runs := onwards later after value ⟨before, holds, pending, distances, same⟩ fine
      unfold Runs at runs
      rw [pending] at runs
      refine Plan.meets_mono runs fun ending leads => ?_
      cases ending with
      | ok result last =>
          obtain ⟨final, further, holdsLast, ⟨pendingLast, distancesLast⟩, sameLast, fineLast⟩ :=
            leads
          exact ⟨final, through later final before further, holdsLast,
            ⟨pendingLast.trans pending, distancesLast.trans distances⟩, sameLast.trans same,
            fineLast⟩
      | error halt last =>
          obtain ⟨final, further, holdsLast⟩ := leads
          exact ⟨final, through later final before further, holdsLast⟩

theorem runs_bind {planned : Planning α} {next : α → Planning β}
    (begun : Runs known table base declaring good world machine planned)
    (onwards : ∀ later after value, Onward known declaring world machine later after →
      good later value → Runs known table base declaring goodNext later after (next value)) :
    Runs known table base declaring goodNext world machine (planned >>= next) :=
  runs_bind_through (fun _ _ before after => before.trans after) begun onwards

/-- A first part that declares nothing leaves the declaring to the rest. -/
theorem runs_bind_quiet {planned : Planning α} {next : α → Planning β}
    (begun : Runs known table base none good world machine planned)
    (onwards : ∀ later after value, Onward known none world machine later after →
      good later value → Runs known table base declaring goodNext later after (next value)) :
    Runs known table base declaring goodNext world machine (planned >>= next) :=
  runs_bind_through (fun _ _ before after => before.weaken.trans after) begun onwards

/-- What only a new scope has got does not count as declared. -/
theorem runs_open {parent : ScopeId} {names : Names Value} {inner : StaticScope}
    {next : ScopeId → Planning β} (holds : world.Holds known machine)
    (inside : parent < world.scopes.size)
    (covered : ∀ name, names.contains name = true → inner.contains name = true)
    (fit : ∀ name value, names.find? name = some value → world.Fits known value)
    (onwards : ∀ after, (world.opened parent names inner).Holds known after →
      Runs known table base (some world.scopes.size) goodNext
        (world.opened parent names inner) after
        (next world.scopes.size)) :
    Runs known table base declaring goodNext world machine
      (Setting.act (Run.openScope parent names) >>= next) := by
  have opened := holds_opened holds inside covered fit
  have size : machine.scopes.size = world.scopes.size := congrArg Scopes.size holds.scopes
  have begun : Runs known table base none
      (fun later scope => later = world.opened parent names inner ∧ scope = world.scopes.size)
      world machine (Setting.act (Run.openScope parent names)) :=
    runs_act ⟨_, before_opened, opened, ⟨rfl, rfl⟩, rfl, rfl, size⟩
  have through (later final : World) (before : Before none world later)
      (after : Before (some world.scopes.size) later final) : Before declaring world final :=
    before.trans_new after (Nat.le_refl _)
  apply runs_bind_through through begun
  rintro later after scope onward ⟨rfl, rfl⟩
  exact onwards after onward.holds

theorem runs_within {planned : Planning α} {scope : ScopeId}
    (inner : Runs known table base declaring good world { machine with current := scope } planned) :
    Runs known table base declaring good world machine (Setting.within scope planned) := by
  apply Plan.meets_leaving
  refine Plan.meets_mono inner fun ending leads => ?_
  cases ending with
  | ok value after =>
      obtain ⟨later, before, holds, pending, -, fine⟩ := leads
      exact ⟨later, before, holds_after holds rfl rfl rfl rfl, pending, rfl, fine⟩
  | error halt after =>
      obtain ⟨later, before, holds⟩ := leads
      exact ⟨later, before, holds_after holds rfl rfl rfl rfl⟩

theorem runs_nested {planned : Planning α} (holds : world.Holds known machine) (line : Nat)
    (inner : Runs known table base declaring good world
      { machine with depth := machine.depth + 1 } planned) :
    Runs known table base declaring good world machine (Setting.nested line planned) := by
  change (ite (callLimit ≤ machine.depth) _ _ : Plan α).Meets _ _
  split_ifs
  · exact ⟨world, .refl _, holds⟩
  · apply Plan.meets_leaving
    apply Plan.meets_deeper
    refine Plan.meets_mono inner fun ending leads => ?_
    cases ending with
    | ok value after =>
        obtain ⟨later, before, holds, pending, same, fine⟩ := leads
        exact ⟨later, before, holds_after holds rfl rfl rfl rfl, pending, same, fine⟩
    | error halt after =>
        obtain ⟨later, before, holds⟩ := leads
        exact ⟨later, before, holds_after holds rfl rfl rfl rfl⟩

end Rules

end World

end Lox
