import Lox.Proofs.Execution.Restoration
import Lox.Proofs.Names.Rules

/-!
How returns are passed on. A statement asks for other statements in the routine that it is part
of only if it is a block, a conditional or a loop. If one of these returns, nothing else is asked
for, and the statement around it returns as well; and it returns for no other reason, unless it
is a return statement itself.
-/

namespace Lox

namespace Plan

variable {α β : Type} {answers : Answers} {own : Statement → Prop}

/-- All that the plan asks for if its questions are answered in this way. -/
def questions (answers : Answers) : Plan α → List Moment
  | .ended _ => []
  | .ask calls task machine resume =>
      ⟨calls, task, machine⟩ :: (resume (answers task machine)).questions answers

theorem questions_leaving (change : Machine → Machine) (plan : Plan α) :
    (plan.leaving change).questions answers = plan.questions answers := by
  induction plan with
  | ended ending => rfl
  | ask calls task machine resume induction => exact congrArg (_ :: ·) (induction _)

/-- The plan ends with the return of a statement that it has asked for last. -/
structure PassesOn (answers : Answers) (plan : Plan Completion) (calls : Nat) (order : Statement)
    (machine : Machine) (value : Value) (after : Machine) : Prop where
  last : (plan.questions answers).getLast? = some ⟨calls, .execution order, machine⟩
  returned : ∃ scope, plan.complete answers = .ok (.returned value) { after with current := scope }

/-- The plan asks for some statements alone, every return of one of them is passed on, and it
returns for no other reason. -/
structure Passes (answers : Answers) (own : Statement → Prop) (plan : Plan Completion) : Prop where
  inside : ∀ calls order machine, ⟨calls, .execution order, machine⟩ ∈ plan.questions answers →
    own order
  onward : ∀ calls order machine value after,
    ⟨calls, .execution order, machine⟩ ∈ plan.questions answers →
    answers (.execution order) machine = .ok (.returned value) after →
      plan.PassesOn answers calls order machine value after
  only : ∀ value after, plan.complete answers = .ok (.returned value) after →
    ∃ calls order machine inner,
      (plan.questions answers).getLast? = some ⟨calls, .execution order, machine⟩ ∧
      answers (.execution order) machine = .ok (.returned value) inner

theorem passes_ended {ending : Ending Completion}
    (other : ∀ value after, ending ≠ .ok (.returned value) after) :
    (Plan.ended ending).Passes answers own where
  inside _ _ _ asked := absurd asked List.not_mem_nil
  onward _ _ _ _ _ asked := absurd asked List.not_mem_nil
  only value after same := absurd same (other value after)

theorem passes_error (halt : Halt) (after : Machine) :
    (Plan.ended (.error halt after) : Plan Completion).Passes answers own :=
  passes_ended fun _ _ same => by cases same

theorem passes_normal (after : Machine) :
    (Plan.ended (.ok Completion.normal after)).Passes answers own :=
  passes_ended fun _ _ same => by cases same

theorem passes_leaving {plan : Plan Completion} (passes : plan.Passes answers own)
    (scope : ScopeId) :
    (plan.leaving fun after => { after with current := scope }).Passes answers own where
  inside calls order machine asked := by
    rw [questions_leaving] at asked
    exact passes.inside calls order machine asked
  onward calls order machine value after asked answered := by
    rw [questions_leaving] at asked
    obtain ⟨last, _, returned⟩ := passes.onward calls order machine value after asked answered
    refine ⟨by rw [questions_leaving]; exact last, scope, ?_⟩
    rw [complete_leaving, returned]
    rfl
  only value after ended := by
    rw [complete_leaving] at ended
    rw [questions_leaving]
    cases inner : plan.complete answers with
    | error halt machine =>
        rw [inner] at ended
        cases ended
    | ok completion machine =>
        rw [inner] at ended
        cases ended
        exact passes.only value machine inner

section Ask

variable {calls : Nat} {machine : Machine}

theorem last_later {first last : Moment} {rest : List Moment}
    (isLast : rest.getLast? = some last) : (first :: rest).getLast? = some last := by
  rw [List.getLast?_cons, isLast]
  rfl

/-- What a plan asks for first may be left aside unless it returns. -/
theorem passes_next {task : Task} {resume : Ending task.Answer → Plan Completion}
    (quiet : ∀ order, Moment.mk calls task machine = ⟨calls, .execution order, machine⟩ →
      own order ∧ ∀ value after, answers (.execution order) machine ≠ .ok (.returned value) after)
    (rest : (resume (answers task machine)).Passes answers own) :
    (Plan.ask calls task machine resume).Passes answers own where
  inside other order start asked := by
    rcases List.mem_cons.mp asked with same | later
    · cases same
      exact (quiet order rfl).1
    · exact rest.inside other order start later
  onward other order start value after asked answered := by
    rcases List.mem_cons.mp asked with same | later
    · cases same
      exact absurd answered ((quiet order rfl).2 value after)
    · obtain ⟨last, returned⟩ := rest.onward other order start value after later answered
      exact ⟨last_later last, returned⟩
  only value after ended := by
    obtain ⟨other, order, start, inner, last, answered⟩ := rest.only value after ended
    exact ⟨other, order, start, inner, last_later last, answered⟩

/-- The value of an expression is no return. -/
theorem passes_evaluation {expression : Expression} {resume : Ending Value → Plan Completion}
    (rest : (resume (answers (.evaluation expression) machine)).Passes answers own) :
    (Plan.ask calls (.evaluation expression) machine resume).Passes answers own := by
  refine passes_next ?_ rest
  intro order same
  cases same

/-- A plan that asks for a statement goes on only if that one has not returned. -/
theorem passes_execution {order : Statement} {resume : Ending Completion → Plan Completion}
    (isOwn : own order) (normal : ∀ after, (resume (.ok .normal after)).Passes answers own)
    (returned : ∀ value after,
      resume (.ok (.returned value) after) = .ended (.ok (.returned value) after))
    (failed : ∀ halt after, resume (.error halt after) = .ended (.error halt after)) :
    (Plan.ask calls (.execution order) machine resume).Passes answers own := by
  have quiet {ending : Ending Completion} (first : answers (.execution order) machine = ending)
      (other : ∀ value after, ending ≠ .ok (.returned value) after) :
      ∀ same, Moment.mk calls (.execution order) machine = ⟨calls, .execution same, machine⟩ →
        own same ∧
          ∀ value after, answers (.execution same) machine ≠ .ok (.returned value) after := by
    intro same isSame
    cases isSame
    rw [first]
    exact ⟨isOwn, other⟩
  rcases first : answers (.execution order) machine with ⟨_ | value, after⟩ | ⟨halt, after⟩
  · refine passes_next (quiet first fun _ _ same => by cases same) ?_
    rw [first]
    exact normal after
  · have asked : (Plan.ask calls (.execution order) machine resume).questions answers =
        [⟨calls, .execution order, machine⟩] := by
      rw [questions, first, returned]
      rfl
    have ends : (Plan.ask calls (.execution order) machine resume).complete answers =
        .ok (.returned value) after := by
      rw [complete, first, returned]
      rfl
    constructor
    · intro other same start member
      rw [asked] at member
      cases List.mem_singleton.mp member
      exact isOwn
    · intro other same start result last member answered
      rw [asked] at member
      cases List.mem_singleton.mp member
      rw [first] at answered
      cases answered
      exact ⟨by rw [asked]; rfl, after.current, ends⟩
    · intro result last ended
      rw [ends] at ended
      cases ended
      exact ⟨calls, order, machine, after, by rw [asked]; rfl, first⟩
  · refine passes_next (quiet first fun _ _ same => by cases same) ?_
    rw [first, failed]
    exact passes_error halt after

end Ask

end Plan

namespace Planning

open Plan

variable {answers : Answers} {own : Statement → Prop}

/-- Statements that run one after the other return as soon as one of them does. -/
theorem in_order_passes {orders : List Statement} (areOwn : ∀ order ∈ orders, own order)
    (machine : Machine) :
    ((Parts.asked.inOrder orders : Planning Completion) machine).Passes answers own := by
  induction orders generalizing machine with
  | nil => exact passes_normal machine
  | cons first rest induction =>
      obtain ⟨isOwn, others⟩ := List.forall_mem_cons.mp areOwn
      exact passes_execution isOwn (induction others) (fun _ _ => rfl) fun _ _ => rfl

theorem execute_passes {order : Statement} (isOwn : own order) (machine : Machine) :
    ((Parts.asked.execute order : Planning Completion) machine).Passes answers own :=
  passes_execution isOwn passes_normal (fun _ _ => rfl) fun _ _ => rfl

/-- Every statement but a return statement asks for statements inside of it alone, none of them
in another routine, and returns only if one of these does. -/
theorem execution_passes {order : Statement} (other : ∀ keyword value, order ≠ .exit keyword value)
    (machine : Machine) : (Task.plan (.execution order) machine).Passes answers
      fun inner => .statement inner ∈ (Node.statement order).upTo Node.isRoutine := by
  have onward {α : Type} {ending : Ending α} {next : α → Machine → Plan Completion}
      {own : Statement → Prop} (passes : ∀ value after, (next value after).Passes answers own) :
      ((Plan.ended ending).followedBy next).Passes answers own := by
    cases ending with
    | ok value after => exact passes value after
    | error halt after => exact passes_error halt after
  have itself := Node.mem_up_to_self Node.isRoutine (.statement order)
  have isPart {inner : Statement} (member : .statement inner ∈ (Node.statement order).parts) :
      .statement inner ∈ (Node.statement order).upTo Node.isRoutine :=
    Node.mem_up_to_part itself rfl member
  cases order with
  | exit keyword value => exact absurd rfl (other keyword value)
  | expression value => exact passes_evaluation (onward fun _ => passes_normal)
  | print value =>
      refine passes_evaluation (onward fun result after => ?_)
      exact onward fun _ => passes_normal
  | variableDeclaration name initializer =>
      cases initializer with
      | none => exact passes_normal _
      | some initializer => exact passes_evaluation (onward fun _ _ => passes_normal _)
  | block orders =>
      have list := Node.mem_up_to_part itself rfl (List.mem_singleton.mpr rfl)
      refine passes_leaving (in_order_passes (fun inner member => ?_) _) _
      exact Node.up_to_inside list (Node.member_up_to (fun _ => rfl) member)
  | conditional condition thenBranch elseBranch =>
      refine passes_evaluation (onward fun value after => ?_)
      cases value.isTruthy with
      | true =>
          refine execute_passes (isPart ?_) after
          cases elseBranch <;> simp [Node.parts]
      | false =>
          cases elseBranch with
          | none => exact passes_normal after
          | some statement => exact execute_passes (isPart (by simp [Node.parts])) after
  | loop condition body =>
      refine passes_evaluation (onward fun value after => ?_)
      cases value.isTruthy with
      | false => exact passes_normal after
      | true =>
          refine passes_execution (isPart (by simp [Node.parts])) (fun last => ?_)
            (fun _ _ => rfl) fun _ _ => rfl
          exact execute_passes itself last
  | routineDeclaration routine => exact passes_normal _
  | classDeclaration name superclass methods classMethods =>
      have declares (parent : Option Class) (after : Machine) {own : Statement → Prop} :
          ((Setting.act (Run.makeClass name parent methods classMethods) >>= fun declared =>
            Setting.act (Run.define name.lexeme declared) >>= fun _ =>
              pure Completion.normal : Planning Completion) after).Passes answers own :=
        onward fun _ _ => passes_normal _
      cases superclass with
      | none => exact declares none machine
      | some place =>
          apply passes_evaluation
          rcases answers (.evaluation (.reference place)) machine with
            ⟨value, after⟩ | ⟨halt, after⟩
          · cases value with
            | classValue cls => exact declares (some cls) after
            | nil | boolean | number | string | native | function | object =>
                exact passes_error _ after
          · exact passes_error halt after

end Planning

end Lox
