import Lox.Evaluation
import Lox.Proofs.Execution.Steps
import Lox.Proofs.Names.Verdicts

/-!
Programs without violations do not return from their top level: what returns stands
inside of a routine, and a run of what stands outside of all routines goes on to its end.
-/

namespace Lox

namespace Node

/-- Nothing in the node returns from the code around the node. -/
def Stays (node : Node) : Prop := (node.upTo isRoutine).flatMap exits = []

theorem Stays.part {node part : Node} (stays : node.Stays) (noRoutine : node.isRoutine = false)
    (isPart : part ∈ node.parts) : part.Stays := by
  rw [Stays, up_to_eq, noRoutine, List.flatMap_cons, if_neg Bool.false_ne_true] at stays
  have none := (List.append_eq_nil_iff.mp stays).2
  rw [List.flatMap_assoc, List.flatMap_eq_nil_iff] at none
  exact none part isPart

theorem Stays.no_exit {keyword : Token} {value : Option Expression} :
    ¬(Node.statement (.exit keyword value)).Stays := by
  rw [Stays, up_to_eq, List.flatMap_cons]
  nofun

end Node

/-- A walk that reports nothing has come across no return outside of all routines. -/
theorem program_stays {statements : List Statement}
    (clean : (Bindings.ofProgram statements).violations = []) :
    (Node.statements statements).Stays := by
  let site : Site := ⟨.statements statements, .start, []⟩
  have adds : ∀ site : Site, True → site.Adds .topLevelReturn := fun site _ => site.exits_add
  have counted := Site.tally_of_count (fun _ _ _ _ => trivial) adds site trivial
  have none : site.after.violations = [] := List.reverse_eq_nil_iff.mp clean
  have fresh : tally .topLevelReturn site.analysis.violations = 0 := rfl
  rw [none, Site.due_of_program, fresh, add_zero] at counted
  exact (Multiset.coe_eq_zero _).mp counted.symm

/-- The run does not end with a return. -/
def Run.GoesOn (action : Run Completion) : Prop :=
  ∀ machine value after, action machine ≠ .ok (.returned value) after

namespace Run.GoesOn

variable {α : Type}

theorem normal : GoesOn (pure .normal) := nofun

theorem fail {halt : Halt} : GoesOn (throw halt) := nofun

theorem bind {first : Run α} {next : α → Run Completion} (each : ∀ value, (next value).GoesOn) :
    GoesOn (first >>= next) := by
  intro machine value after ended
  obtain ⟨result, middle, -, later⟩ := of_bind_ok ended
  exact each result middle value after later

/-- What follows a run that goes on has to go on as well. -/
theorem followed {first : Run Completion} {next : Completion → Run Completion}
    (start : first.GoesOn) (rest : (next .normal).GoesOn) : GoesOn (first >>= next) := by
  intro machine value after ended
  obtain ⟨completion, middle, began, later⟩ := of_bind_ok ended
  cases completion with
  | normal => exact rest middle value after later
  | returned result => exact start machine result middle began

theorem within {action : Run Completion} (scope : ScopeId) (inner : action.GoesOn) :
    GoesOn (Run.within scope action) := by
  intro machine value after
  unfold Run.within
  dsimp only
  cases began : action { machine with current := scope } with
  | error halt middle => exact nofun
  | ok completion middle =>
      rintro same
      cases same
      exact inner _ _ _ began

end Run.GoesOn

section

open Run.GoesOn

variable {parts : Parts Run}
  (each : ∀ order, (Node.statement order).Stays → (parts.execute order).GoesOn)

include each

theorem in_order_goes_on {orders : List Statement} (stays : (Node.statements orders).Stays) :
    Run.GoesOn (parts.inOrder orders) := by
  induction orders with
  | nil => exact normal
  | cons first rest induction =>
      have inside {part : Node} (isPart : part ∈ (Node.statements (first :: rest)).parts) :=
        stays.part rfl isPart
      exact (each first (inside (by simp [Node.parts]))).followed
        (induction (inside (by simp [Node.parts])))

theorem execution_goes_on {order : Statement} (stays : (Node.statement order).Stays) :
    Run.GoesOn (parts.execution order) := by
  have inside {part : Node} (isPart : part ∈ (Node.statement order).parts) : part.Stays :=
    stays.part rfl isPart
  cases order with
  | expression | print | routineDeclaration | classDeclaration =>
      repeat' refine bind fun _ => ?_
      exact normal
  | variableDeclaration name initializer =>
      cases initializer <;> (repeat' refine bind fun _ => ?_) <;> exact normal
  | block orders =>
      refine bind fun _ => bind fun _ => within _ (in_order_goes_on each ?_)
      exact inside List.mem_cons_self
  | conditional condition thenBranch elseBranch =>
      have chosen := each thenBranch (inside (by cases elseBranch <;> simp [Node.parts]))
      refine bind fun value => ?_
      split_ifs
      · exact chosen
      · cases elseBranch with
        | none => exact normal
        | some branch => exact each branch (inside (by simp [Node.parts]))
  | loop condition body =>
      refine bind fun value => ?_
      split_ifs
      · exact (each body (inside (by simp [Node.parts]))).followed (each _ stays)
      · exact normal
  | exit keyword value => exact absurd stays Node.Stays.no_exit

end

theorem execute_goes_on (supply : Nat) {order : Statement} (stays : (Node.statement order).Stays) :
    Run.GoesOn (execute supply order) := by
  induction supply generalizing order with
  | zero => exact .fail
  | succ supply induction => exact execution_goes_on (fun _ => induction) stays

theorem in_order_append (parts : Parts Run) (front back : List Statement) :
    parts.inOrder (front ++ back) = parts.inOrder front >>= fun completion =>
      match completion with
      | .normal => parts.inOrder back
      | .returned value => pure (.returned value) := by
  induction front with
  | nil => rfl
  | cons first rest induction =>
      rw [List.cons_append, Parts.inOrder, induction, Parts.inOrder, bind_assoc]
      congr 1
      funext completion
      cases completion <;> rfl

/-- Behind a program that goes on to its end, another one is run as if it came on its own. -/
theorem run_program_append (supply : Nat) {front : List Statement} (back : List Statement)
    (stays : (Node.statements front).Stays) :
    runProgram supply (front ++ back) =
      runProgram supply front >>= fun _ => runProgram supply back := by
  have goesOn : Run.GoesOn ((Parts.supplied supply).inOrder front) :=
    in_order_goes_on (fun _ => execute_goes_on supply) stays
  unfold runProgram Parts.program
  rw [in_order_append, bind_assoc, bind_assoc]
  funext machine
  cases began : (Parts.supplied supply).inOrder front machine with
  | error halt after => rw [bind_error began, bind_error began]
  | ok completion after =>
      rw [bind_ok began, bind_ok began]
      cases completion with
      | normal => rfl
      | returned value => exact absurd began (goesOn machine value after)

end Lox
