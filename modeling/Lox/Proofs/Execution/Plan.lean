import Lox.Proofs.Execution.Constructs
import Lox.Proofs.Execution.Steps

/-!
What a construct does with its parts left open. A plan either has ended or asks
for a part on some machine and goes on as soon as the part has ended. The rules
for constructs hold in any setting, so that each construct has a plan; a run
completes the plan by running the parts in the same way, which is the main
statement `run_completes_plan`. What a plan asks for on the way are the moments
of a run, and `Underway` collects the tasks that are under way at one moment.
-/

namespace Lox

inductive Task where
  | evaluation (expression : Expression)
  | execution (statement : Statement)
  | call (closure : Closure) (arguments : List Value)

abbrev Task.Answer : Task → Type
  | .evaluation _ => Value
  | .execution _ => Completion
  | .call _ _ => Value

/-- How something ends: with a result or a reason to stop, and with a machine
in either case. -/
abbrev Ending (α : Type) := EStateM.Result Halt Machine α

namespace Ending

variable {α : Type}

def machine : Ending α → Machine
  | .ok _ after => after
  | .error _ after => after

def onMachine (change : Machine → Machine) : Ending α → Ending α
  | .ok value after => .ok value (change after)
  | .error halt after => .error halt (change after)

end Ending

/-- A way to answer the questions of plans. -/
abbrev Answers := (task : Task) → Machine → Ending task.Answer

inductive Plan (α : Type) where
  | ended (ending : Ending α)
  /-- The number says how many calls deeper than the plan itself the part is. -/
  | ask (calls : Nat) (task : Task) (machine : Machine) (resume : Ending task.Answer → Plan α)

namespace Plan

variable {α β : Type}

def followedBy (next : α → Machine → Plan β) : Plan α → Plan β
  | .ended (.ok value after) => next value after
  | .ended (.error halt after) => .ended (.error halt after)
  | .ask calls task machine resume =>
      .ask calls task machine fun ending => (resume ending).followedBy next

/-- The plan with its last machine changed, however it ends. -/
def leaving (change : Machine → Machine) : Plan α → Plan α
  | .ended ending => .ended (ending.onMachine change)
  | .ask calls task machine resume =>
      .ask calls task machine fun ending => (resume ending).leaving change

/-- The plan as part of one more call. -/
def deeper : Plan α → Plan α
  | .ended ending => .ended ending
  | .ask calls task machine resume =>
      .ask (calls + 1) task machine fun ending => (resume ending).deeper

/-- How the plan ends if its questions are answered in this way. -/
def complete (answers : Answers) : Plan α → Ending α
  | .ended ending => ending
  | .ask _ task machine resume => (resume (answers task machine)).complete answers

/-- The plan asks for this task on this machine, so many calls deeper, when the
questions before it are answered in this way. -/
def Asks (answers : Answers) (calls : Nat) (task : Task) (machine : Machine) : Plan α → Prop
  | .ended _ => False
  | .ask depth asked start resume =>
      (depth = calls ∧ asked = task ∧ start = machine) ∨
        (resume (answers asked start)).Asks answers calls task machine

theorem complete_followed_by (answers : Answers) (plan : Plan α)
    (next : α → Machine → Plan β) :
    (plan.followedBy next).complete answers =
      match plan.complete answers with
      | .ok value after => (next value after).complete answers
      | .error halt after => .error halt after := by
  induction plan with
  | ended ending => cases ending <;> rfl
  | ask calls task machine resume induction => exact induction (answers task machine)

theorem complete_leaving (answers : Answers) (change : Machine → Machine) (plan : Plan α) :
    (plan.leaving change).complete answers = (plan.complete answers).onMachine change := by
  induction plan with
  | ended ending => rfl
  | ask calls task machine resume induction => exact induction (answers task machine)

theorem complete_deeper (answers : Answers) (plan : Plan α) :
    plan.deeper.complete answers = plan.complete answers := by
  induction plan with
  | ended ending => rfl
  | ask calls task machine resume induction => exact induction (answers task machine)

end Plan

/-- The setting in which parts are only asked for. -/
def Planning (α : Type) : Type := Machine → Plan α

namespace Planning

instance : Setting Planning where
  pure value machine := .ended (.ok value machine)
  bind first next machine := (first machine).followedBy next
  act action machine := .ended (action machine)
  within scope inner machine :=
    (inner { machine with current := scope }).leaving fun after =>
      { after with current := machine.current }
  nested line inner machine :=
    if callLimit ≤ machine.depth then
      .ended (.error (.failed (.fault line .stackOverflow)) machine)
    else
      (inner { machine with depth := machine.depth + 1 }).deeper.leaving fun after =>
        { after with depth := after.depth - 1 }

/-- The plan that is nothing but one part. -/
def part (task : Task) : Planning task.Answer := fun machine => .ask 0 task machine .ended

end Planning

/-- Every part is asked for. -/
def Parts.asked : Parts Planning where
  evaluate expression := Planning.part (.evaluation expression)
  execute statement := Planning.part (.execution statement)
  call closure arguments := Planning.part (.call closure arguments)

namespace Task

/-- What the rules say about a task. -/
def plan : (task : Task) → Planning task.Answer
  | .evaluation expression => Parts.asked.evaluation expression
  | .execution statement => Parts.asked.execution statement
  | .call closure arguments => Parts.asked.application closure arguments

def run (supply : Nat) : (task : Task) → Run task.Answer
  | .evaluation expression => evaluate supply expression
  | .execution statement => execute supply statement
  | .call closure arguments => Lox.call supply closure arguments

/-- Questions are answered by running the tasks that they ask for. -/
def answers (supply : Nat) : Answers := fun task machine => task.run supply machine

end Task

namespace Planning

variable {α β : Type} {supply : Nat}

/-- A plan comes to the same as a run once its parts are run. -/
def CompletedBy (supply : Nat) (planned : Planning α) (run : Run α) : Prop :=
  ∀ machine, (planned machine).complete (Task.answers supply) = run machine

theorem bind_completed {planned : Planning α} {run : Run α} {next : α → Planning β}
    {nextRun : α → Run β} (first : planned.CompletedBy supply run)
    (second : ∀ value, (next value).CompletedBy supply (nextRun value)) :
    (planned >>= next).CompletedBy supply (run >>= nextRun) := by
  intro machine
  refine (Plan.complete_followed_by _ (planned machine) next).trans ?_
  rw [first machine]
  cases ended : run machine with
  | ok value after => exact (second value after).trans (bind_ok ended).symm
  | error halt after => exact (bind_error ended).symm

theorem within_completed {planned : Planning α} {run : Run α} (scope : ScopeId)
    (inner : planned.CompletedBy supply run) :
    (Setting.within scope planned).CompletedBy supply (Run.within scope run) := by
  intro machine
  refine (Plan.complete_leaving _ _ (planned { machine with current := scope })).trans ?_
  rw [inner]
  unfold Run.within
  cases run { machine with current := scope } <;> rfl

theorem nested_completed {planned : Planning α} {run : Run α} (line : Nat)
    (inner : planned.CompletedBy supply run) :
    (Setting.nested line planned).CompletedBy supply (Run.nested line run) := by
  intro machine
  by_cases full : callLimit ≤ machine.depth
  · simp only [Setting.nested, Run.nested, full, if_true]
    rfl
  · simp only [Setting.nested, Run.nested, full, if_false]
    refine (Plan.complete_leaving _ _ _).trans ?_
    rw [Plan.complete_deeper, inner]
    cases run { machine with depth := machine.depth + 1 } <;> rfl

/-- Plans and the runs that complete them, as a relation of settings. -/
def completion (supply : Nat) : Setting.Relation Planning Run where
  Related := CompletedBy supply
  pure _ _ := rfl
  bind := bind_completed
  act _ _ := rfl
  within := within_completed
  nested := nested_completed

theorem parts_completed (supply : Nat) :
    (completion supply).OfParts Parts.asked (Parts.supplied supply) where
  evaluate _ _ := rfl
  execute _ _ := rfl
  call _ _ _ := rfl

/-- A run with one more unit of supply does what the plan says, with its parts
run on what is left. -/
theorem run_completes_plan (supply : Nat) (task : Task) (machine : Machine) :
    task.run (supply + 1) machine = (task.plan machine).complete (Task.answers supply) := by
  symm
  cases task with
  | evaluation expression =>
      exact Setting.Relation.evaluation_related (parts_completed supply) expression machine
  | execution statement =>
      exact Setting.Relation.execution_related (parts_completed supply) statement machine
  | call closure arguments =>
      exact Setting.Relation.application_related (parts_completed supply) closure arguments machine

theorem line_run_completes_plan (supply : Nat) (line : Line) (machine : Machine) :
    line.run supply machine =
      (Parts.asked.line line machine).complete (Task.answers supply) :=
  (Setting.Relation.line_related (parts_completed supply) line machine).symm

end Planning

end Lox
