import Lox.Proofs.Execution.Moments

/-!
What a run has begun. A task may have to know later on what another one was begun with,
long after that one has ended. So contracts can be kept given that each task is known to
have been begun: the parts that a task asks for are begun as well, and what the tasks of a
run have in common in this way is passed on from the first to all the others.
-/

namespace Lox

namespace Plan

variable {α : Type} {contract : Contract} {goal : Ending α → Prop} {plan : Plan α}

/-- What a plan asks for it asks for with the answers that it is given. -/
def Contract.given (contract : Contract) (answers : Answers) (plan : Plan α) : Contract where
  duty calls task machine := contract.duty calls task machine ∧ plan.Asks answers calls task machine
  effect calls task machine ending :=
    contract.effect calls task machine ending ∧ ending = answers task machine

theorem meets_given (answers : Answers) (meets : plan.Meets contract goal) :
    plan.Meets (Contract.given contract answers plan) goal := by
  induction plan with
  | ended ending => exact meets
  | ask calls task machine resume induction =>
      refine ⟨⟨meets.1, .inl ⟨rfl, rfl, rfl⟩⟩, ?_⟩
      rintro _ ⟨effect, rfl⟩
      refine meets_eased (induction _ (meets.2 _ effect)) ?_ (fun _ _ _ _ => id)
      exact fun calls task machine duty => ⟨duty.1, .inr duty.2⟩

end Plan

/-- The contract in which answers are moreover known to come from runs. -/
def Contract.answered (contract : Contract) : Contract where
  duty := contract.duty
  effect calls task machine ending :=
    contract.effect calls task machine ending ∧ ∃ supply, ending = task.run supply machine

/-- What is begun passes on to the parts that it asks for. -/
def Passing (begun : Task → Machine → Prop) : Prop :=
  ∀ task machine, begun task machine → ∀ moment : Moment,
    (task.plan machine).Reaches moment → begun moment.task moment.machine

namespace Contracts

variable {Index α : Type} (contracts : Contracts Index)

/-- Every task that has been begun does what its contract says, by its plan or by giving up.
A plan may count on its questions being answered by runs. -/
structure KeptBy (begun : Task → Machine → Prop) : Prop where
  exhausted (index : Index) (task : Task) (machine : Machine)
    (duty : contracts.duty index task machine) :
    contracts.effect index task machine (.error .exhausted machine)
  planned (index : Index) (task : Task) (machine : Machine)
    (duty : contracts.duty index task machine) (known : begun task machine) :
    (task.plan machine).Meets
      (contracts.under fun calls => contracts.inside index calls task machine).answered
      (contracts.effect index task machine)

variable {contracts} {begun : Task → Machine → Prop} (kept : contracts.KeptBy begun)
  (passing : Passing begun)

include kept passing

theorem begun_effect (supply : Nat) (index : Index) (task : Task) (machine : Machine)
    (duty : contracts.duty index task machine) (known : begun task machine) :
    contracts.effect index task machine (task.run supply machine) := by
  induction supply generalizing index task machine with
  | zero =>
      have givenUp : task.run 0 machine = .error .exhausted machine := by cases task <;> rfl
      rw [givenUp]
      exact kept.exhausted index task machine duty
  | succ supply induction =>
      rw [Planning.run_completes_plan]
      apply Plan.meets_complete (Plan.meets_given (Task.answers supply)
        (kept.planned index task machine duty known))
      rintro calls asked start ⟨met, asks⟩
      exact ⟨⟨induction _ asked start met
        (passing task machine known ⟨calls, asked, start⟩ ⟨supply, asks⟩), supply, rfl⟩, rfl⟩

section Start

variable {start : Plan α} {goal : Ending α → Prop} {outermost : Nat → Index}
  (meets : start.Meets (contracts.under outermost).answered goal)
  (begins : ∀ moment : Moment, start.Reaches moment → begun moment.task moment.machine)

include meets begins

theorem begun_goal (supply : Nat) : goal (start.complete (Task.answers supply)) := by
  apply Plan.meets_complete (Plan.meets_given (Task.answers supply) meets)
  rintro calls asked machine ⟨met, asks⟩
  exact ⟨⟨begun_effect kept passing supply _ asked machine met
    (begins ⟨calls, asked, machine⟩ ⟨supply, asks⟩), supply, rfl⟩, rfl⟩

theorem reached_duty {moment : Moment} (reached : start.Reaches moment) :
    contracts.duty (outermost moment.calls) moment.task moment.machine := by
  obtain ⟨supply, asks⟩ := reached
  refine (Plan.meets_asks (Plan.meets_given (Task.answers supply) meets) ?_ asks).1
  rintro calls asked machine ⟨met, asks⟩
  exact ⟨⟨begun_effect kept passing supply _ asked machine met
    (begins ⟨calls, asked, machine⟩ ⟨supply, asks⟩), supply, rfl⟩, rfl⟩

/-- The duty of a task is met at every moment at which it is the latest. -/
theorem begun_duty {moment : Moment} {rest : List Moment}
    (underway : Underway start (moment :: rest)) :
    contracts.duty (contracts.latest outermost (moment :: rest)) moment.task moment.machine ∧
      begun moment.task moment.machine := by
  generalize same : moment :: rest = stack at underway
  induction underway generalizing moment rest with
  | first reached =>
      cases same
      exact ⟨reached_duty kept passing meets begins reached, begins _ reached⟩
  | inner below reached induction =>
      cases same
      obtain ⟨outerDuty, known⟩ := induction rfl
      have passed := passing _ _ known
      exact ⟨reached_duty kept passing (kept.planned _ _ _ outerDuty known) passed reached,
        passed _ reached⟩

end Start

end Contracts

/-- What is under way in the course of a plan. -/
def Plan.Begins {α : Type} (start : Plan α) (task : Task) (machine : Machine) : Prop :=
  ∃ calls rest, Underway start (⟨calls, task, machine⟩ :: rest)

theorem Plan.begins_passing {α : Type} (start : Plan α) : Passing start.Begins := by
  rintro task machine ⟨calls, rest, underway⟩ moment reached
  exact ⟨moment.calls, _, .inner underway reached⟩

end Lox
