import Lox.Proofs.Receivers.Sessions
import Lox.Proofs.Returns.Calls

/-!
Runs that keep annals. The rules for constructs hold in any setting, so there is a run that does
what a run does and moreover notes, in the order of time, every task that is begun, every
primitive step on the machine and every end of a task. What it notes as begun is under way at that
moment, so that all that is known of moments is known of annals.
-/

namespace Lox

/-- What happens in a run. -/
inductive Event where
  | begins (task : Task) (machine : Machine)
  /-- A primitive step leads from one machine to another. -/
  | step (before after : Machine)
  | ends (task : Task) (start : Machine) (ending : Ending task.Answer)

/-- The setting in which everything is noted. -/
def Noting (α : Type) : Type := Machine → List Event × Ending α

namespace Noting

instance : Setting Noting where
  pure value machine := ([], .ok value machine)
  bind first next machine :=
    match first machine with
    | (events, .ok value after) =>
        match next value after with
        | (later, ending) => (events ++ later, ending)
    | (events, .error halt after) => (events, .error halt after)
  act action machine := ([.step machine (Ending.machine (action machine))], action machine)
  within scope inner machine :=
    match inner { machine with current := scope } with
    | (events, ending) =>
        (events, ending.onMachine fun after => { after with current := machine.current })
  nested line inner machine :=
    if callLimit ≤ machine.depth then
      ([], .error (.failed (.fault line .stackOverflow)) machine)
    else
      match inner { machine with depth := machine.depth + 1 } with
      | (events, ending) =>
          (events, ending.onMachine fun after => { after with depth := after.depth - 1 })

/-- A task that is carried out in this way. -/
def task (task : Task) (inner : Noting task.Answer) : Noting task.Answer := fun machine =>
  match inner machine with
  | (events, ending) => (.begins task machine :: (events ++ [.ends task machine ending]), ending)

end Noting

/-- The parts of constructs, carried out by the rules for constructs and noted. -/
def Parts.noted : (supply : Nat) → Parts Noting
  | 0 =>
      { evaluate := fun value => Noting.task (.evaluation value) fun machine =>
          ([], .error .exhausted machine)
        execute := fun order => Noting.task (.execution order) fun machine =>
          ([], .error .exhausted machine)
        call := fun closure arguments => Noting.task (.call closure arguments) fun machine =>
          ([], .error .exhausted machine) }
  | supply + 1 =>
      { evaluate := fun value =>
          Noting.task (.evaluation value) ((Parts.noted supply).evaluation value)
        execute := fun order =>
          Noting.task (.execution order) ((Parts.noted supply).execution order)
        call := fun closure arguments =>
          Noting.task (.call closure arguments)
            ((Parts.noted supply).application closure arguments) }

/-- What happens in a task, and how it ends. -/
def Task.noted (supply : Nat) : (task : Task) → Noting task.Answer
  | .evaluation value => (Parts.noted supply).evaluate value
  | .execution order => (Parts.noted supply).execute order
  | .call closure arguments => (Parts.noted supply).call closure arguments

/-- What happens in a line. -/
def Line.annals (supply : Nat) (line : Line) (machine : Machine) : List Event :=
  ((Parts.noted supply).line line machine).1

namespace Plan

variable {α : Type} {answers : Answers}

theorem questions_deeper (plan : Plan α) : plan.deeper.questions answers =
    (plan.questions answers).map fun moment => { moment with calls := moment.calls + 1 } := by
  induction plan with
  | ended ending => rfl
  | ask calls task machine resume induction => exact congrArg (_ :: ·) (induction _)

theorem question_asked {plan : Plan α} {moment : Moment}
    (member : moment ∈ plan.questions answers) :
    plan.Asks answers moment.calls moment.task moment.machine := by
  induction plan with
  | ended ending => cases member
  | ask calls task machine resume induction =>
      rcases List.mem_cons.mp member with rfl | later
      · exact .inl ⟨rfl, rfl, rfl⟩
      · exact .inr (induction _ later)

end Plan

/-- The event is noted of a task that the plan asks for, or is a step of its own. -/
def Event.ComesFrom {α : Type} (supply : Nat) (plan : Plan α) (event : Event) : Prop :=
  (∃ before after, event = .step before after) ∨
    ∃ moment ∈ plan.questions (Task.answers supply),
      event ∈ (moment.task.noted supply moment.machine).1

/-- What is noted ends as the plan does, and comes from the plan. -/
structure Tracks {α : Type} (supply : Nat) (noted : List Event × Ending α) (plan : Plan α) :
    Prop where
  ended : noted.2 = plan.complete (Task.answers supply)
  comes : ∀ event ∈ noted.1, event.ComesFrom supply plan

namespace Tracks

variable {α β : Type} {supply : Nat} {plan : Plan α} {next : α → Machine → Plan β}
  {events : List Event} {after : Machine}

theorem asked_more {larger : Plan β} {event : Event} (comes : event.ComesFrom supply plan)
    (more : plan.questions (Task.answers supply) ⊆ larger.questions (Task.answers supply)) :
    event.ComesFrom supply larger := by
  refine comes.imp_right ?_
  rintro ⟨moment, asked, happens⟩
  exact ⟨moment, more asked, happens⟩

theorem followed_ok {value : α} {later : List Event × Ending β}
    (tracks : Tracks supply (events, .ok value after) plan)
    (tracksLater : Tracks supply later (next value after)) :
    Tracks supply (events ++ later.1, later.2) (plan.followedBy next) := by
  have questions : (plan.followedBy next).questions (Task.answers supply) = _ :=
    plan.questions_followed_by next
  rw [← tracks.ended] at questions
  constructor
  · rw [Plan.complete_followed_by, ← tracks.ended]
    exact tracksLater.ended
  · intro event happens
    rcases List.mem_append.mp happens with here | later
    · exact asked_more (tracks.comes event here) (questions ▸ List.subset_append_left _ _)
    · exact asked_more (tracksLater.comes event later) (questions ▸ List.subset_append_right _ _)

theorem followed_error {halt : Halt} (tracks : Tracks supply (events, .error halt after) plan) :
    Tracks supply (events, .error halt after) (plan.followedBy next) := by
  constructor
  · rw [Plan.complete_followed_by, ← tracks.ended]
  · intro event happens
    refine asked_more (tracks.comes event happens) ?_
    rw [Plan.questions_followed_by]
    exact List.subset_append_left _ _

variable {noted : List Event × Ending α} (tracks : Tracks supply noted plan)

include tracks

theorem leaving (change : Machine → Machine) :
    Tracks supply (noted.1, noted.2.onMachine change) (plan.leaving change) := by
  constructor
  · rw [Plan.complete_leaving, ← tracks.ended]
  · intro event happens
    refine asked_more (tracks.comes event happens) ?_
    rw [Plan.questions_leaving]
    exact List.Subset.refl _

theorem deeper : Tracks supply noted plan.deeper := by
  constructor
  · rw [Plan.complete_deeper, tracks.ended]
  · intro event happens
    refine (tracks.comes event happens).imp_right ?_
    rintro ⟨moment, asked, happens⟩
    refine ⟨{ moment with calls := moment.calls + 1 }, ?_, happens⟩
    rw [Plan.questions_deeper]
    exact List.mem_map_of_mem asked

end Tracks

namespace Noting

variable {α β : Type} {supply : Nat} {noted : Noting α} {planned : Planning α}

theorem bind_ok {next : α → Noting β} {machine after : Machine} {events : List Event} {value : α}
    (first : noted machine = (events, .ok value after)) :
    (noted >>= next) machine = (events ++ (next value after).1, (next value after).2) := by
  simp only [Bind.bind, first]

theorem bind_error {next : α → Noting β} {machine after : Machine} {events : List Event}
    {halt : Halt} (first : noted machine = (events, .error halt after)) :
    (noted >>= next) machine = (events, .error halt after) := by
  simp only [Bind.bind, first]

theorem nested_room {machine : Machine} (line : Nat) (room : ¬callLimit ≤ machine.depth) :
    (Setting.nested line noted : Noting α) machine =
      ((noted { machine with depth := machine.depth + 1 }).1,
        (noted { machine with depth := machine.depth + 1 }).2.onMachine fun after =>
          { after with depth := after.depth - 1 }) := by
  simp only [Setting.nested, room, if_false]

theorem nested_full {machine : Machine} (line : Nat) (full : callLimit ≤ machine.depth) :
    (Setting.nested line noted : Noting α) machine =
      ([], .error (.failed (.fault line .stackOverflow)) machine) := by
  simp only [Setting.nested, full, if_true]

/-- What is noted is what the plan says, wherever it begins. -/
def Follows (supply : Nat) (noted : Noting α) (planned : Planning α) : Prop :=
  ∀ machine, Tracks supply (noted machine) (planned machine)

theorem bind_follows {next : α → Noting β} {nextPlanned : α → Planning β}
    (first : Follows supply noted planned)
    (second : ∀ value, Follows supply (next value) (nextPlanned value)) :
    Follows supply (noted >>= next) (planned >>= nextPlanned) := by
  intro machine
  have tracks := first machine
  rcases result : noted machine with ⟨events, ⟨value, after⟩ | ⟨halt, after⟩⟩
  · rw [result] at tracks
    exact (bind_ok result).symm ▸ tracks.followed_ok (second value after)
  · rw [result] at tracks
    exact (bind_error result).symm ▸ tracks.followed_error

theorem nested_follows (line : Nat) (inner : Follows supply noted planned) :
    Follows supply (Setting.nested line noted) (Setting.nested line planned) := by
  intro machine
  by_cases full : callLimit ≤ machine.depth
  · have stopped : (Setting.nested line planned : Planning α) machine =
        .ended (.error (.failed (.fault line .stackOverflow)) machine) := by
      simp only [Setting.nested, full, if_true]
    rw [nested_full line full, stopped]
    exact ⟨rfl, List.forall_mem_nil _⟩
  · have goes : (Setting.nested line planned : Planning α) machine =
        (planned { machine with depth := machine.depth + 1 }).deeper.leaving fun after =>
          { after with depth := after.depth - 1 } := by
      simp only [Setting.nested, full, if_false]
    rw [nested_room line full, goes]
    exact (inner _).deeper.leaving _

/-- What is noted follows the plans of the constructs. -/
def following (supply : Nat) : Setting.Relation Noting Planning where
  Related := Follows supply
  pure _ _ := ⟨rfl, List.forall_mem_nil _⟩
  bind := bind_follows
  act _ _ := ⟨rfl, fun _ happens => .inl ⟨_, _, List.mem_singleton.mp happens⟩⟩
  within _ inner _ := (inner _).leaving _
  nested := nested_follows

end Noting

namespace Task

/-- What is noted between the beginning of a task and its end. -/
def notedInside (supply : Nat) : (task : Task) → Noting task.Answer
  | .evaluation value => (Parts.noted supply).evaluation value
  | .execution order => (Parts.noted supply).execution order
  | .call closure arguments => (Parts.noted supply).application closure arguments

theorem noted_zero (task : Task) :
    task.noted 0 = Noting.task task fun machine => ([], .error .exhausted machine) := by
  cases task <;> rfl

theorem noted_succ (supply : Nat) (task : Task) :
    task.noted (supply + 1) = Noting.task task (task.notedInside supply) := by
  cases task <;> rfl

theorem parts_follow {supply : Nat}
    (ends : ∀ (task : Task) machine, (task.noted supply machine).2 = task.run supply machine) :
    (Noting.following supply).OfParts (Parts.noted supply) Parts.asked := by
  have follows (task : Task) : Noting.Follows supply (task.noted supply) (Planning.part task) := by
    refine fun machine => ⟨ends task machine, fun event happens => .inr ?_⟩
    exact ⟨_, List.mem_singleton.mpr rfl, happens⟩
  exact ⟨fun value => follows (.evaluation value), fun order => follows (.execution order),
    fun closure arguments => follows (.call closure arguments)⟩

theorem inside_follows {supply : Nat}
    (ends : ∀ (task : Task) machine, (task.noted supply machine).2 = task.run supply machine)
    (task : Task) : Noting.Follows supply (task.notedInside supply) task.plan := by
  have parts := parts_follow ends
  cases task with
  | evaluation value => exact Setting.Relation.evaluation_related parts value
  | execution order => exact Setting.Relation.execution_related parts order
  | call closure arguments => exact Setting.Relation.application_related parts closure arguments

/-- A task that is noted ends as it does when it is run. -/
theorem noted_ends (supply : Nat) (task : Task) (machine : Machine) :
    (task.noted supply machine).2 = task.run supply machine := by
  induction supply generalizing task machine with
  | zero => cases task <;> rfl
  | succ supply induction =>
      rw [Planning.run_completes_plan, noted_succ]
      exact (inside_follows induction task machine).ended

end Task

section Begun

variable {α : Type} {start : Plan α} {supply : Nat}

/-- The event tells of a task that is under way, and of how a run of it ends. -/
def Event.TellsOf (start : Plan α) : Event → Prop
  | .begins task machine => start.Begins task machine
  | .step _ _ => True
  | .ends task machine ending =>
      start.Begins task machine ∧ ∃ supply, task.run supply machine = ending

theorem Noting.mem_task {task : Task} {inner : Noting task.Answer} {machine : Machine}
    {event : Event} (happens : event ∈ (Noting.task task inner machine).1) :
    event = .begins task machine ∨ event ∈ (inner machine).1 ∨
      event = .ends task machine (inner machine).2 := by
  refine (List.mem_cons.mp happens).imp_right fun later => ?_
  exact (List.mem_append.mp later).imp_right List.mem_singleton.mp

theorem tells_of_noted {task : Task} {machine : Machine} (begun : start.Begins task machine)
    {event : Event} (happens : event ∈ (task.noted supply machine).1) : event.TellsOf start := by
  induction supply generalizing task machine with
  | zero =>
      rw [Task.noted_zero] at happens
      rcases Noting.mem_task happens with rfl | inside | rfl
      · exact begun
      · exact absurd inside List.not_mem_nil
      · exact ⟨begun, 0, by cases task <;> rfl⟩
  | succ supply induction =>
      have ends := task.noted_ends (supply + 1) machine
      rw [Task.noted_succ] at happens ends
      rcases Noting.mem_task happens with rfl | inside | rfl
      · exact begun
      · have tracks := task.inside_follows (Task.noted_ends supply) machine
        rcases tracks.comes event inside with ⟨before, after, rfl⟩ | ⟨moment, asked, happens⟩
        · trivial
        · refine induction ?_ happens
          exact Plan.begins_passing start task machine begun moment
            ⟨supply, Plan.question_asked asked⟩
      · exact ⟨begun, supply + 1, ends.symm⟩

/-- The annals of a line tell of what is under way in it. -/
theorem tells_of_line {line : Line} {machine : Machine} {event : Event}
    (happens : event ∈ line.annals supply machine) :
    event.TellsOf (Parts.asked.line line machine) := by
  have tracks : Tracks supply _ (Parts.asked.line line machine) :=
    Setting.Relation.line_related (Task.parts_follow (Task.noted_ends supply)) line machine
  rcases tracks.comes event happens with ⟨before, after, rfl⟩ | ⟨moment, asked, happens⟩
  · trivial
  · exact tells_of_noted ⟨moment.calls, [], .first ⟨supply, Plan.question_asked asked⟩⟩ happens

/-- A line that is noted ends as it does when it is run. -/
theorem line_noted_ends (line : Line) (machine : Machine) :
    ((Parts.noted supply).line line machine).2 = line.run supply machine := by
  have tracks : Tracks supply _ (Parts.asked.line line machine) :=
    Setting.Relation.line_related (Task.parts_follow (Task.noted_ends supply)) line machine
  exact tracks.ended.trans (Planning.line_run_completes_plan supply line machine).symm

end Begun

/-- What happens in a line that is a single statement is what happens in this statement. -/
theorem Line.annals_statement (supply : Nat) (order : Statement) (machine : Machine) :
    Line.annals supply (.statements [order]) machine =
      ((Task.execution order).noted supply machine).1 := by
  rcases noted : (Task.execution order).noted supply machine with
    ⟨events, ⟨completion, after⟩ | ⟨halt, after⟩⟩
  · have inOrder : (Parts.noted supply).inOrder [order] machine =
        (events, .ok completion after) := by
      refine (Noting.bind_ok noted).trans ?_
      cases completion <;> exact congrArg (·, _) (List.append_nil events)
    refine congrArg Prod.fst (Noting.bind_ok (Noting.bind_ok inOrder)) |>.trans ?_
    exact (List.append_nil _).trans (List.append_nil _)
  · exact congrArg Prod.fst (Noting.bind_error (Noting.bind_error (Noting.bind_error noted)))

end Lox
