import Lox.Proofs.Execution.Plan

/-!
Moments of a run. A plan reaches a moment when it asks for a task on a machine,
the tasks before having been run; the tasks under way at a moment are those that
asked for one another, from the plan at the bottom up to the latest. What holds
at all moments is shown by duties: each task may count on its own duty, has to
meet the duties of the tasks that it asks for, and owes an effect in return.
`run_effect` and `underway_duty` carry this to all runs and all moments.
-/

namespace Lox

structure Moment where
  /-- How many calls deeper the task is than the one that asked for it. -/
  calls : Nat
  task : Task
  machine : Machine

def Plan.Reaches {α : Type} (plan : Plan α) (moment : Moment) : Prop :=
  ∃ supply, plan.Asks (Task.answers supply) moment.calls moment.task moment.machine

def Moment.plan (moment : Moment) : Plan moment.task.Answer := moment.task.plan moment.machine

/-- How the task of a moment ends, if it does so within some supply. -/
def Moment.Ends (moment : Moment) (ending : Ending moment.task.Answer) : Prop :=
  ∃ supply, moment.task.run supply moment.machine = ending

/-- The tasks that are under way at one moment of carrying out a plan, the
latest first. -/
inductive Underway {α : Type} (start : Plan α) : List Moment → Prop where
  | first {moment : Moment} (reached : start.Reaches moment) : Underway start [moment]
  | inner {moment outer : Moment} {rest : List Moment} (below : Underway start (outer :: rest))
      (reached : outer.plan.Reaches moment) : Underway start (moment :: outer :: rest)

/-- What a plan may count on from the tasks it asks for, if it meets their
duties: the ending of each has the effect of that task. -/
structure Contract where
  duty : (calls : Nat) → Task → Machine → Prop
  effect : (calls : Nat) → (task : Task) → Machine → Ending task.Answer → Prop

namespace Plan

variable {α β : Type}

/-- The plan meets the duty of every task that it asks for, and ends as it
should, whatever endings with the right effects these have. -/
def Meets (contract : Contract) (goal : Ending α → Prop) : Plan α → Prop
  | .ended ending => goal ending
  | .ask calls task machine resume =>
      contract.duty calls task machine ∧
        ∀ ending, contract.effect calls task machine ending → (resume ending).Meets contract goal

variable {contract : Contract} {goal : Ending α → Prop} {plan : Plan α}

theorem meets_mono {weaker : Ending α → Prop} (meets : plan.Meets contract goal)
    (implies : ∀ ending, goal ending → weaker ending) : plan.Meets contract weaker := by
  induction plan with
  | ended ending => exact implies ending meets
  | ask calls task machine resume induction =>
      exact ⟨meets.1, fun ending effect => induction ending (meets.2 ending effect)⟩

/-- A plan may be put under a contract that asks for less and grants more. -/
theorem meets_eased {easier : Contract} (meets : plan.Meets contract goal)
    (duties : ∀ calls task machine, contract.duty calls task machine →
      easier.duty calls task machine)
    (effects : ∀ calls task machine ending, easier.effect calls task machine ending →
      contract.effect calls task machine ending) :
    plan.Meets easier goal := by
  induction plan with
  | ended ending => exact meets
  | ask calls task machine resume induction =>
      exact ⟨duties calls task machine meets.1, fun ending effect =>
        induction ending (meets.2 ending (effects calls task machine ending effect))⟩

/-- A plan that comes to each of some goals comes to all of them. -/
theorem meets_forall {Index : Type} {goals : Index → Ending α → Prop} (index : Index)
    (meets : ∀ index, plan.Meets contract (goals index)) :
    plan.Meets contract fun ending => ∀ index, goals index ending := by
  induction plan with
  | ended ending => exact meets
  | ask calls task machine resume induction =>
      exact ⟨(meets index).1, fun ending effect =>
        induction ending fun index => (meets index).2 ending effect⟩

theorem meets_followed_by {next : α → Machine → Plan β} {last : Ending β → Prop}
    (meets : plan.Meets contract fun ending =>
      match ending with
      | .ok value after => (next value after).Meets contract last
      | .error halt after => last (.error halt after)) :
    (plan.followedBy next).Meets contract last := by
  induction plan with
  | ended ending => cases ending <;> exact meets
  | ask calls task machine resume induction =>
      exact ⟨meets.1, fun ending effect => induction ending (meets.2 ending effect)⟩

theorem meets_leaving {change : Machine → Machine}
    (meets : plan.Meets contract fun ending => goal (ending.onMachine change)) :
    (plan.leaving change).Meets contract goal := by
  induction plan with
  | ended ending => exact meets
  | ask calls task machine resume induction =>
      exact ⟨meets.1, fun ending effect => induction ending (meets.2 ending effect)⟩

theorem meets_deeper
    (meets : plan.Meets ⟨fun calls => contract.duty (calls + 1),
      fun calls => contract.effect (calls + 1)⟩ goal) :
    plan.deeper.Meets contract goal := by
  induction plan with
  | ended ending => exact meets
  | ask calls task machine resume induction =>
      exact ⟨meets.1, fun ending effect => induction ending (meets.2 ending effect)⟩

/-- With answers that keep the contract, the plan comes to its goal. -/
theorem meets_complete {answers : Answers} (meets : plan.Meets contract goal)
    (keep : ∀ calls task machine, contract.duty calls task machine →
      contract.effect calls task machine (answers task machine)) :
    goal (plan.complete answers) := by
  induction plan with
  | ended ending => exact meets
  | ask calls task machine resume induction =>
      exact induction _ (meets.2 _ (keep calls task machine meets.1))

/-- With answers that keep the contract, the plan asks only for tasks whose duty
is met. -/
theorem meets_asks {answers : Answers} {calls : Nat} {task : Task} {machine : Machine}
    (meets : plan.Meets contract goal)
    (keep : ∀ calls task machine, contract.duty calls task machine →
      contract.effect calls task machine (answers task machine))
    (asks : plan.Asks answers calls task machine) : contract.duty calls task machine := by
  induction plan with
  | ended ending => exact asks.elim
  | ask depth asked start resume induction =>
      rcases asks with ⟨rfl, rfl, rfl⟩ | later
      · exact meets.1
      · exact induction _ (meets.2 _ (keep depth asked start meets.1)) later

end Plan

/-- Contracts for all tasks, indexed by what a task has to know of the tasks
around it; `inside` is the index for the tasks that a task asks for. -/
structure Contracts (Index : Type) where
  duty : Index → Task → Machine → Prop
  effect : Index → (task : Task) → Machine → Ending task.Answer → Prop
  inside : Index → (calls : Nat) → Task → Machine → Index

namespace Contracts

variable {Index α : Type} (contracts : Contracts Index)

def under (index : Nat → Index) : Contract where
  duty calls := contracts.duty (index calls)
  effect calls := contracts.effect (index calls)

/-- Every task does what its contract says, by its plan or by giving up. -/
structure Kept : Prop where
  exhausted (index : Index) (task : Task) (machine : Machine)
    (duty : contracts.duty index task machine) :
    contracts.effect index task machine (.error .exhausted machine)
  planned (index : Index) (task : Task) (machine : Machine)
    (duty : contracts.duty index task machine) :
    (task.plan machine).Meets
      (contracts.under fun calls => contracts.inside index calls task machine)
      (contracts.effect index task machine)

/-- The index of the latest of some tasks under way. -/
def latest (outermost : Nat → Index) : List Moment → Index
  | [] => outermost 0
  | [moment] => outermost moment.calls
  | moment :: outer :: rest =>
      contracts.inside (latest outermost (outer :: rest)) moment.calls outer.task outer.machine

variable {contracts} (kept : contracts.Kept)

include kept

theorem run_effect (supply : Nat) (index : Index) (task : Task) (machine : Machine)
    (duty : contracts.duty index task machine) :
    contracts.effect index task machine (task.run supply machine) := by
  induction supply generalizing index task machine with
  | zero =>
      have givenUp : task.run 0 machine = .error .exhausted machine := by cases task <;> rfl
      rw [givenUp]
      exact kept.exhausted index task machine duty
  | succ supply induction =>
      rw [Planning.run_completes_plan]
      apply Plan.meets_complete (kept.planned index task machine duty)
      intro calls asked start met
      exact induction _ asked start met

theorem complete_goal {start : Plan α} {goal : Ending α → Prop} {outermost : Nat → Index}
    (meets : start.Meets (contracts.under outermost) goal) (supply : Nat) :
    goal (start.complete (Task.answers supply)) := by
  apply Plan.meets_complete meets
  intro calls asked machine met
  exact run_effect kept supply _ asked machine met

theorem reaches_duty {start : Plan α} {goal : Ending α → Prop} {outermost : Nat → Index}
    (meets : start.Meets (contracts.under outermost) goal) {moment : Moment}
    (reached : start.Reaches moment) :
    contracts.duty (outermost moment.calls) moment.task moment.machine := by
  obtain ⟨supply, asks⟩ := reached
  refine Plan.meets_asks meets ?_ asks
  intro calls asked machine met
  exact run_effect kept supply _ asked machine met

/-- The duty of a task is met at every moment at which it is the latest. -/
theorem underway_duty {start : Plan α} {goal : Ending α → Prop} {outermost : Nat → Index}
    (meets : start.Meets (contracts.under outermost) goal) {moment : Moment} {rest : List Moment}
    (underway : Underway start (moment :: rest)) :
    contracts.duty (contracts.latest outermost (moment :: rest)) moment.task moment.machine := by
  generalize same : moment :: rest = stack at underway
  induction underway generalizing moment rest with
  | first reached =>
      cases same
      exact reaches_duty kept meets reached
  | inner below reached induction =>
      cases same
      have outerDuty := induction rfl
      exact reaches_duty kept (kept.planned _ _ _ outerDuty) reached

end Contracts

end Lox
