import Lox.Proofs.Names.Dues
import Lox.Proofs.Returns.Passing

/-!
Returns from a body. The statements that are under way in a body lie inside of one another, and
all of them end as soon as the innermost returns. So a call ends with the first return that it
comes to in its own body, and with no other; and a program that returns nowhere at its top level
is run to its end.
-/

namespace Lox

namespace Plan

variable {α : Type}

/-- Statements under way one inside of the other, the innermost first, each with the machine that
it began on and the number saying what supply the innermost is left. The plan itself asks for the
outermost, and each of the others is asked for by the one around it. -/
inductive Nests (asks : List Moment → Moment → Prop) (plan : Plan α) (top : Nat) :
    Nat → List (Statement × Machine) → Prop where
  | outermost {calls : Nat} {order : Statement} {machine : Machine}
      (asked : asks (plan.questions (Task.answers top)) ⟨calls, .execution order, machine⟩) :
      Nests asks plan top top [(order, machine)]
  | inner {supply calls : Nat} {order outer : Statement} {machine before : Machine}
      {rest : List (Statement × Machine)}
      (around : Nests asks plan top (supply + 1) ((outer, before) :: rest))
      (asked : asks ((Task.plan (.execution outer) before).questions (Task.answers supply))
        ⟨calls, .execution order, machine⟩) :
      Nests asks plan top supply ((order, machine) :: (outer, before) :: rest)

/-- Each of the statements is asked for at some time. -/
abbrev Reached (plan : Plan α) := plan.Nests fun asked moment => moment ∈ asked

/-- Nothing is asked for after any of the statements. -/
abbrev Final (plan : Plan α) := plan.Nests fun asked moment => asked.getLast? = some moment

end Plan

/-- What a return statement gives back, and the machine that it leaves. -/
def Gives (supply : Nat) (machine : Machine) : Option Expression → Value → Machine → Prop
  | none, value, after => value = .nil ∧ after = machine
  | some expression, value, after => evaluate supply expression machine = .ok value after

section Exits

variable {supply : Nat} {keyword : Token} {expression : Option Expression}
  {machine after : Machine} {value : Value}

theorem exit_returns (gives : Gives supply machine expression value after) :
    execute (supply + 1) (.exit keyword expression) machine = .ok (.returned value) after := by
  cases expression with
  | none =>
      obtain ⟨rfl, rfl⟩ := gives
      rfl
  | some expression =>
      have ended : evaluate supply expression machine = .ok value after := gives
      exact bind_ok ended

theorem exit_gives (returned : execute (supply + 1) (.exit keyword expression) machine =
    .ok (.returned value) after) : Gives supply machine expression value after := by
  cases expression with
  | none =>
      cases returned
      exact ⟨rfl, rfl⟩
  | some expression =>
      obtain ⟨result, last, ended, returned⟩ := of_bind_ok returned
      cases returned
      exact ended

/-- A return statement asks for an expression at most. -/
theorem exit_asks {answers : Answers} {calls : Nat} {order : Statement} {start : Machine} :
    ⟨calls, .execution order, start⟩ ∉
      (Task.plan (.execution (.exit keyword expression)) machine).questions answers := by
  intro asked
  cases expression with
  | none => cases asked
  | some expression =>
      rcases List.mem_cons.mp asked with same | later
      · cases same
      · change _ ∈ ((Plan.ended (answers (.evaluation expression) machine)).followedBy _).questions
          answers at later
        generalize answers (.evaluation expression) machine = ending at later
        cases ending <;> cases later

end Exits

namespace Plan

variable {α : Type} {plan : Plan α} {top supply : Nat} {order : Statement} {machine : Machine}
  {rest : List (Statement × Machine)} {value : Value} {after : Machine}

theorem Final.reached {stack : List (Statement × Machine)} (final : plan.Final top supply stack) :
    plan.Reached top supply stack := by
  induction final with
  | outermost asked => exact .outermost (List.mem_of_getLast? asked)
  | inner around asked induction => exact .inner induction (List.mem_of_getLast? asked)

/-- Whatever asks for a statement is no return statement itself. -/
theorem asked_passes {outer : Statement} {before : Machine} {answers : Answers} {calls : Nat}
    (asked : ⟨calls, .execution order, machine⟩ ∈
      (Task.plan (.execution outer) before).questions answers) :
    (Task.plan (.execution outer) before).Passes answers
      fun inner => .statement inner ∈ (Node.statement outer).upTo Node.isRoutine := by
  refine Planning.execution_passes ?_ before
  rintro keyword expression rfl
  exact exit_asks asked

/-- All statements under way are inside of the outermost, and in the same routine. -/
theorem nests_inside {whole : Node}
    (outermost : ∀ calls order machine,
      ⟨calls, .execution order, machine⟩ ∈ plan.questions (Task.answers top) →
        .statement order ∈ whole.upTo Node.isRoutine)
    (reached : plan.Reached top supply ((order, machine) :: rest)) :
    .statement order ∈ whole.upTo Node.isRoutine := by
  generalize same : (order, machine) :: rest = stack at reached
  induction reached generalizing order machine rest with
  | outermost asked =>
      cases same
      exact outermost _ _ _ asked
  | inner around asked induction =>
      cases same
      exact Node.up_to_inside (induction rfl) ((asked_passes asked).inside _ _ _ asked)

/-- If the innermost statement returns, all those around it do, and nothing more is asked for. -/
theorem reached_returns
    (last : ∀ calls order machine value after,
      ⟨calls, .execution order, machine⟩ ∈ plan.questions (Task.answers top) →
      execute top order machine = .ok (.returned value) after →
        (plan.questions (Task.answers top)).getLast? = some ⟨calls, .execution order, machine⟩)
    (reached : plan.Reached top supply ((order, machine) :: rest))
    (returned : execute supply order machine = .ok (.returned value) after) :
    plan.Final top supply ((order, machine) :: rest) ∧
      ∃ calls first start scope,
        (plan.questions (Task.answers top)).getLast? = some ⟨calls, .execution first, start⟩ ∧
        execute top first start = .ok (.returned value) { after with current := scope } := by
  generalize same : (order, machine) :: rest = stack at reached
  induction reached generalizing order machine rest after with
  | @outermost calls first start asked =>
      cases same
      have isLast := last _ _ _ _ _ asked returned
      exact ⟨.outermost isLast, calls, first, start, after.current, isLast, returned⟩
  | @inner supply calls _ outer _ before others around asked induction =>
      cases same
      obtain ⟨isLast, scope, ended⟩ := (asked_passes asked).onward _ _ _ _ _ asked returned
      have outerReturned : execute (supply + 1) outer before =
          .ok (.returned value) { after with current := scope } :=
        (Planning.run_completes_plan supply (.execution outer) before).trans ended
      obtain ⟨final, calls, first, start, scope, isLast', ends⟩ := induction outerReturned rfl
      exact ⟨.inner final isLast, calls, first, start, scope, isLast', ends⟩

/-- A statement that returns has come to a return statement inside of it. -/
theorem final_exit (final : plan.Final top supply ((order, machine) :: rest))
    (returned : execute supply order machine = .ok (.returned value) after) :
    ∃ supply keyword expression place more given last,
      plan.Final top (supply + 1) ((.exit keyword expression, place) :: more) ∧
      Gives supply place expression given last := by
  induction supply generalizing order machine rest value after with
  | zero => cases returned
  | succ supply induction =>
      by_cases isExit : ∃ keyword expression, order = .exit keyword expression
      · obtain ⟨keyword, expression, rfl⟩ := isExit
        exact ⟨supply, keyword, expression, machine, rest, value, after, final, exit_gives returned⟩
      · have other (keyword : Token) (expression : Option Expression) :
            order ≠ .exit keyword expression :=
          fun same => isExit ⟨keyword, expression, same⟩
        have passes : Plan.Passes (Task.answers supply) _ (Task.plan (.execution order) machine) :=
          Planning.execution_passes other machine
        have ended : (Task.plan (.execution order) machine).complete (Task.answers supply) =
            .ok (.returned value) after :=
          (Planning.run_completes_plan supply (.execution order) machine).symm.trans returned
        obtain ⟨calls, inner, start, middle, isLast, answered⟩ := passes.only value after ended
        exact induction (.inner final isLast) answered

end Plan

end Lox
