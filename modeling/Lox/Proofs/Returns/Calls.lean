import Lox.Proofs.Returns.Bodies

/-!
Calls and programs. A call carries out its body in a new scope and turns the way in which the body
ends into its own value, so that it ends with the first return of its body. At the top level of
an accepted program nothing returns, and so all its statements are executed in turn.
-/

namespace Lox

namespace Plan

variable {α β : Type} {answers : Answers}

theorem questions_followed_by (plan : Plan α) (next : α → Machine → Plan β) :
    (plan.followedBy next).questions answers = plan.questions answers ++
      match plan.complete answers with
      | .ok value after => (next value after).questions answers
      | .error _ _ => [] := by
  induction plan with
  | ended ending => cases ending <;> rfl
  | ask calls task machine resume induction => exact congrArg (_ :: ·) (induction _)

end Plan

/-- The machine with which the body of a call begins. -/
def Machine.entered (machine : Machine) (closure : Closure) (arguments : List Value) : Machine :=
  { machine with
    scopes := machine.scopes.extend (some closure.scope)
      (Run.parameterNames closure.routine arguments)
    current := machine.scopes.size }

/-- What comes of a call whose body gives this value and leaves this machine. -/
def Closure.yields (closure : Closure) (value : Value) (machine : Machine) : Value :=
  if closure.yieldsReceiver then
    (machine.scopes.local? closure.scope receiverName).getD .nil
  else value

section Calls

variable (closure : Closure) (arguments : List Value) (machine : Machine)

theorem call_plan : Task.plan (.call closure arguments) machine =
    (((Parts.asked.inOrder closure.routine.body : Planning Completion)
      (machine.entered closure arguments)).leaving
        fun after => { after with current := machine.current }).followedBy
      fun completion after => Plan.ended (Run.result closure completion after) := rfl

/-- A call asks for what its body asks for. -/
theorem call_questions (answers : Answers) :
    (Task.plan (.call closure arguments) machine).questions answers =
      ((Parts.asked.inOrder closure.routine.body : Planning Completion)
        (machine.entered closure arguments)).questions answers := by
  rw [call_plan, Plan.questions_followed_by, Plan.questions_leaving]
  cases Plan.complete answers _ <;> exact List.append_nil _

theorem call_ending (supply : Nat) :
    call (supply + 1) closure arguments machine =
      match ((Parts.asked.inOrder closure.routine.body : Planning Completion)
        (machine.entered closure arguments)).complete (Task.answers supply) with
      | .ok completion after =>
          Run.result closure completion { after with current := machine.current }
      | .error halt after => .error halt { after with current := machine.current } := by
  refine (Planning.run_completes_plan supply (.call closure arguments) machine).trans ?_
  rw [call_plan, Plan.complete_followed_by, Plan.complete_leaving]
  cases Plan.complete (Task.answers supply) _ <;> rfl

end Calls

/-- Statements that run to their end are all asked for, in their order, and run to theirs. -/
theorem in_order_normal {answers : Answers} {orders : List Statement} {start after : Machine}
    (ended : ((Parts.asked.inOrder orders : Planning Completion) start).complete answers =
      .ok .normal after) :
    (((Parts.asked.inOrder orders : Planning Completion) start).questions answers).map Moment.task =
        orders.map Task.execution ∧
      ∀ calls order begun, ⟨calls, .execution order, begun⟩ ∈
          ((Parts.asked.inOrder orders : Planning Completion) start).questions answers →
        ∃ later, answers (.execution order) begun = .ok .normal later := by
  induction orders generalizing start with
  | nil => exact ⟨rfl, fun _ _ _ asked => absurd asked List.not_mem_nil⟩
  | cons first rest induction =>
      change ((Plan.ended (answers (.execution first) start)).followedBy _).complete answers = _
        at ended
      cases answered : answers (.execution first) start with
      | error halt middle =>
          rw [answered] at ended
          cases ended
      | ok completion middle =>
          rw [answered] at ended
          cases completion with
          | returned value => cases ended
          | normal =>
              obtain ⟨all, normal⟩ := induction ended
              have asked : ((Parts.asked.inOrder (first :: rest) : Planning Completion)
                  start).questions answers = ⟨0, .execution first, start⟩ ::
                    ((Parts.asked.inOrder rest : Planning Completion) middle).questions
                      answers := by
                change _ :: ((Plan.ended (answers (.execution first) start)).followedBy _).questions
                  answers = _
                rw [answered]
                rfl
              rw [asked]
              refine ⟨congrArg (_ :: ·) all, fun calls order begun member => ?_⟩
              rcases List.mem_cons.mp member with same | later
              · cases same
                exact ⟨middle, answered⟩
              · exact normal calls order begun later

section Calls

variable {closure : Closure} {arguments : List Value} {machine : Machine} {top supply : Nat}

theorem result_returned (value : Value) (after : Machine) :
    Run.result closure (.returned value) after = .ok (closure.yields value after) after := by
  unfold Run.result Closure.yields
  split_ifs <;> rfl

theorem result_normal (after : Machine) :
    Run.result closure .normal after = .ok (closure.yields .nil after) after := by
  unfold Run.result Closure.yields
  split_ifs <;> rfl

variable (closure arguments machine) in
theorem body_passes (answers : Answers) :
    ((Parts.asked.inOrder closure.routine.body : Planning Completion)
      (machine.entered closure arguments)).Passes answers (· ∈ closure.routine.body) :=
  Planning.in_order_passes (fun _ => id) _

/-- A return that a call comes to in its own body ends this call, with what is returned. -/
theorem own_return_ends_call {keyword : Token} {expression : Option Expression} {place : Machine}
    {rest : List (Statement × Machine)} {value : Value} {after : Machine}
    (reached : (Task.plan (.call closure arguments) machine).Reached top (supply + 1)
      ((.exit keyword expression, place) :: rest))
    (gives : Gives supply place expression value after) :
    (Task.plan (.call closure arguments) machine).Final top (supply + 1)
        ((.exit keyword expression, place) :: rest) ∧
      call (top + 1) closure arguments machine =
        .ok (closure.yields value after) { after with current := machine.current } := by
  have passes := body_passes closure arguments machine (Task.answers top)
  obtain ⟨final, calls, first, start, scope, isLast, ends⟩ :=
    Plan.reached_returns (fun calls order begun value after asked returned => by
      rw [call_questions] at asked ⊢
      exact (passes.onward calls order begun value after asked returned).last) reached
      (exit_returns gives)
  rw [call_questions] at isLast
  obtain ⟨-, scope, ended⟩ := passes.onward _ _ _ _ _ (List.mem_of_getLast? isLast) ends
  refine ⟨final, ?_⟩
  rw [call_ending, ended]
  exact result_returned value _

/-- A call that ends has come to a return in its own body, or has run its body to the end. -/
theorem call_ends {value : Value} {after : Machine}
    (ended : call (top + 1) closure arguments machine = .ok value after) :
    (∃ supply keyword expression place rest given last,
      (Task.plan (.call closure arguments) machine).Final top (supply + 1)
          ((.exit keyword expression, place) :: rest) ∧
        Gives supply place expression given last ∧ value = closure.yields given last) ∨
    (((Task.plan (.call closure arguments) machine).questions (Task.answers top)).map Moment.task =
        closure.routine.body.map Task.execution ∧
      (∀ calls order begun, ⟨calls, .execution order, begun⟩ ∈
          (Task.plan (.call closure arguments) machine).questions (Task.answers top) →
        ∃ later, execute top order begun = .ok .normal later) ∧
      value = closure.yields .nil after) := by
  have passes := body_passes closure arguments machine (Task.answers top)
  have whole := ended
  rw [call_ending] at ended
  rcases body : ((Parts.asked.inOrder closure.routine.body : Planning Completion)
      (machine.entered closure arguments)).complete (Task.answers top) with
    ⟨_ | given, last⟩ | ⟨halt, last⟩
  · rw [body] at ended
    dsimp only at ended
    rw [result_normal] at ended
    cases ended
    obtain ⟨all, normal⟩ := in_order_normal body
    rw [call_questions]
    exact .inr ⟨all, normal, rfl⟩
  · obtain ⟨calls, order, begun, inner, isLast, answered⟩ := passes.only given last body
    rw [← call_questions] at isLast
    obtain ⟨supply, keyword, expression, place, rest, found, left, final, gives⟩ :=
      Plan.final_exit (.outermost isLast) answered
    have same := (own_return_ends_call final.reached gives).2
    rw [whole] at same
    cases same
    exact .inl ⟨supply, keyword, expression, place, rest, found, left, final, gives, rfl⟩
  · rw [body] at ended
    cases ended

theorem own_statement_inside {order : Statement} {place : Machine}
    {rest : List (Statement × Machine)}
    (reached : (Task.plan (.call closure arguments) machine).Reached top supply
      ((order, place) :: rest)) :
    .statement order ∈ (Node.statements closure.routine.body).upTo Node.isRoutine := by
  refine Plan.nests_inside (fun calls order begun asked => ?_) reached
  rw [call_questions] at asked
  have own := (body_passes closure arguments machine _).inside calls order begun asked
  exact Node.member_up_to (fun _ => rfl) own

end Calls

section Programs

variable {statements : List Statement}
  (accepted : (Bindings.ofProgram statements).violations = [])

include accepted

/-- An accepted program has no return statement outside of its routines. -/
theorem no_exit_at_top {node : Node}
    (inside : node ∈ (Node.statements statements).upTo Node.isRoutine) :
    node.exits = [] := by
  let site : Site := ⟨.statements statements, .start, []⟩
  have counted := Site.tally_of_count (fun _ _ _ _ => trivial)
    (fun site _ => Site.exits_add site) site trivial
  have none : site.after.violations = [] := List.reverse_eq_nil_iff.mp accepted
  rw [none] at counted
  have gathered : (0 : Multiset Token) =
      ((Node.statements statements).upTo Node.isRoutine).flatMap Node.exits + 0 := counted
  rw [add_zero] at gathered
  exact List.flatMap_eq_nil_iff.mp ((Multiset.coe_eq_zero _).mp gathered.symm) node inside

theorem top_level_never_returns {order : Statement} (member : order ∈ statements) (supply : Nat)
    (machine : Machine) (value : Value) (after : Machine) :
    execute supply order machine ≠ .ok (.returned value) after := by
  intro returned
  let alone : Plan Completion := Parts.asked.execute order machine
  have final : alone.Final supply supply [(order, machine)] := .outermost rfl
  obtain ⟨_, keyword, expression, place, more, given, last, exited, -⟩ :=
    Plan.final_exit final returned
  have inside : .statement (.exit keyword expression) ∈
      (Node.statements statements).upTo Node.isRoutine := by
    refine Plan.nests_inside (fun calls inner begun asked => ?_) exited.reached
    cases List.mem_singleton.mp asked
    exact Node.member_up_to (fun _ => rfl) member
  cases no_exit_at_top accepted inside

omit accepted in
/-- Statements that never return are all run, one after the other, up to the first that fails. -/
theorem program_for_all {supply : Nat}
    (never : ∀ order ∈ statements, ∀ machine value after,
      execute supply order machine ≠ .ok (.returned value) after) :
    runProgram supply statements = forM statements fun order => discard (execute supply order) := by
  induction statements with
  | nil => rfl
  | cons first rest induction =>
      obtain ⟨here, later⟩ := List.forall_mem_cons.mp never
      have others := induction later
      rw [List.forM_cons, ← others]
      funext machine
      change EStateM.bind (EStateM.bind (execute supply first) _) _ machine =
        EStateM.bind (EStateM.map _ (execute supply first)) _ machine
      unfold EStateM.bind EStateM.map
      cases ended : execute supply first machine with
      | error halt after => rfl
      | ok completion after =>
          cases completion with
          | normal => rfl
          | returned value => exact absurd ended (here machine value after)

end Programs

end Lox
