import Lox.Proofs.Classes.Roll
import Lox.Proofs.Receivers.Executions

/-!
Runs add to the roll of classes. A task may count on a roll that lists its arguments, and leaves a
longer one behind that lists its results. The values that a construct passes from one part to the
next stay listed in between, as no entry of the roll is changed. What the roll has to know of a
new class is known since the declaration of that class has been begun.
-/

namespace Lox

/-- The values that a task is given by those that ask for it. -/
def Task.given : Task → List Value
  | .call _ arguments => arguments
  | _ => []

/-- The values that a task hands to those that asked for it. -/
def Task.handed : (task : Task) → task.Answer → List Value
  | .evaluation _, value => [value]
  | .execution _, .returned value => [value]
  | .execution _, .normal => []
  | .call _ _, value => [value]

namespace Roll

def AllListed (roll : Roll) (values : List Value) : Prop := ∀ value ∈ values, roll.Lists value

variable {roll later : Roll} {value : Value} {values : List Value}

theorem AllListed.grown (listed : roll.AllListed values) (grows : roll.Grows later) :
    later.AllListed values := fun value member => (listed value member).grown grows

theorem nothing_listed (roll : Roll) : roll.AllListed [] := List.forall_mem_nil _

theorem all_listed_single : roll.AllListed [value] ↔ roll.Lists value := List.forall_mem_singleton

end Roll

namespace Enrolled

/-- The contracts of all tasks. -/
def keeping (begun : Task → Machine → Prop) : Contracts Unit where
  duty _ task machine := ∃ roll : Roll, Enrolled begun roll machine ∧ roll.AllListed task.given
  effect _ task machine ending := ∀ roll : Roll, Enrolled begun roll machine →
    roll.AllListed task.given →
      Leads begun roll (fun later answer => later.AllListed (task.handed answer)) ending
  inside _ _ _ _ := ()

variable {α β : Type} {begun : Task → Machine → Prop} {roll : Roll} {machine : Machine}
  {good : Roll → α → Prop} {goodNext : Roll → β → Prop}

/-- The plan keeps to the contract, as far as it begins with a roll of all classes. -/
def Runs (begun : Task → Machine → Prop) (roll : Roll) (good : Roll → α → Prop)
    (machine : Machine) (planned : Planning α) : Prop :=
  Enrolled begun roll machine →
    (planned machine).Meets ((keeping begun).under fun _ => ()).answered (Leads begun roll good)

section Rules

theorem runs_pure {value : α} (fine : good roll value) :
    Runs begun roll good machine (pure value) := fun enrolled => ok_leads enrolled fine

theorem runs_act {action : Run α}
    (leads : Enrolled begun roll machine → Leads begun roll good (action machine)) :
    Runs begun roll good machine (Setting.act action) := leads

theorem runs_bind {planned : Planning α} {next : α → Planning β}
    (first : Runs begun roll good machine planned)
    (onwards : ∀ later after value, roll.Grows later → good later value →
      Runs begun later goodNext after (next value)) :
    Runs begun roll goodNext machine (planned >>= next) := by
  intro enrolled
  apply Plan.meets_followed_by
  refine Plan.meets_mono (first enrolled) fun ending leads => ?_
  obtain ⟨later, grows, enrolledAfter, fine⟩ := leads
  cases ending with
  | error halt after => exact leads_grown grows (error_leads enrolledAfter)
  | ok value after =>
      exact Plan.meets_mono (onwards later after value grows (fine value after rfl) enrolledAfter)
        fun _ => leads_grown grows

/-- The scope and the depth of a run do not matter to the roll. -/
theorem leads_moved {ending : Ending α} {change : Machine → Machine}
    (identities : ∀ machine, (change machine).identities = machine.identities)
    (scopes : ∀ machine, (change machine).scopes = machine.scopes)
    (fields : ∀ machine, (change machine).fields = machine.fields)
    (leads : Leads begun roll good ending) : Leads begun roll good (ending.onMachine change) := by
  obtain ⟨later, grows, enrolled, fine⟩ := leads
  refine leads_grown grows ?_
  cases ending with
  | ok value after =>
      exact ok_leads (enrolled.aside (identities _).ge (scopes _) (fields _)) (fine value after rfl)
  | error halt after => exact error_leads (enrolled.aside (identities _).ge (scopes _) (fields _))

theorem runs_within {planned : Planning α} (scope : ScopeId)
    (inner : ∀ machine, Runs begun roll good machine planned) :
    Runs begun roll good machine (Setting.within scope planned) := by
  intro enrolled
  apply Plan.meets_leaving
  refine Plan.meets_mono (inner _ (enrolled.aside (Nat.le_refl _) rfl rfl)) fun ending leads => ?_
  exact leads_moved (fun _ => rfl) (fun _ => rfl) (fun _ => rfl) leads

theorem runs_nested {planned : Planning α} (line : Nat)
    (inner : ∀ machine, Runs begun roll good machine planned) :
    Runs begun roll good machine (Setting.nested line planned) := by
  intro enrolled
  change (ite (callLimit ≤ machine.depth) _ _ : Plan α).Meets _ _
  split_ifs
  · exact error_leads enrolled
  · apply Plan.meets_leaving
    apply Plan.meets_deeper
    refine Plan.meets_mono (inner _ (enrolled.aside (Nat.le_refl _) rfl rfl)) fun ending leads => ?_
    exact leads_moved (fun _ => rfl) (fun _ => rfl) (fun _ => rfl) leads

theorem runs_fail (line : Nat) (cause : Fault) :
    Runs begun roll good machine (Setting.act (Run.fail line cause)) :=
  runs_act fun enrolled => enrolled.fail_leads line cause

end Rules

section Parts

theorem runs_part {task : Task} {good : Roll → task.Answer → Prop}
    (given : roll.AllListed task.given)
    (fine : ∀ later answer, Roll.AllListed later (task.handed answer) → good later answer) :
    Runs begun roll good machine (Planning.part task) := by
  intro enrolled
  exact ⟨⟨roll, enrolled, given⟩, fun _ answered =>
    leads_weaker (answered.1 roll enrolled given) fine⟩

theorem runs_evaluate (value : Expression) :
    Runs begun roll Roll.Lists machine (Parts.asked.evaluate value) :=
  runs_part roll.nothing_listed fun _ _ handed => Roll.all_listed_single.mp handed

/-- A completion that hands on a value has a listed one. -/
def CompletionListed (roll : Roll) (completion : Completion) : Prop :=
  ∀ value, completion = .returned value → roll.Lists value

theorem completion_listed {order : Statement} {completion : Completion} :
    roll.AllListed ((Task.execution order).handed completion) ↔
      CompletionListed roll completion := by
  cases completion with
  | normal => exact iff_of_true roll.nothing_listed fun _ other => by cases other
  | returned value =>
      refine Roll.all_listed_single.trans ⟨?_, fun listed => listed value rfl⟩
      rintro listed _ ⟨⟩
      exact listed

theorem normal_listed (roll : Roll) : CompletionListed roll .normal := fun _ other => by cases other

theorem returned_listed {value : Value} (lists : roll.Lists value) :
    CompletionListed roll (.returned value) := by
  rintro _ ⟨⟩
  exact lists

theorem runs_execute (order : Statement) :
    Runs begun roll CompletionListed machine (Parts.asked.execute order) :=
  runs_part roll.nothing_listed fun _ _ handed => completion_listed.mp handed

theorem runs_call (closure : Closure) {arguments : List Value}
    (given : roll.AllListed arguments) :
    Runs begun roll Roll.Lists machine (Parts.asked.call closure arguments) :=
  runs_part given fun _ _ handed => Roll.all_listed_single.mp handed

end Parts

section Calls

variable {arguments : List Value} (given : roll.AllListed arguments)

theorem runs_evaluate_all (values : List Expression) :
    Runs begun roll Roll.AllListed machine (Parts.asked.evaluateAll values) := by
  induction values generalizing roll machine with
  | nil => exact runs_pure roll.nothing_listed
  | cons first rest induction =>
      apply runs_bind (runs_evaluate first)
      intro later after value _ lists
      apply runs_bind induction
      intro last _ others grows listed
      exact runs_pure (List.forall_mem_cons.mpr ⟨lists.grown grows, listed⟩)

include given

theorem runs_construct {cls : Class} (listed : roll cls.identity = some cls) :
    Runs begun roll Roll.Lists machine (Parts.asked.construct cls arguments) := by
  apply runs_bind (runs_act fun enrolled => enrolled.make_instance_leads listed)
  intro later after object grows lists
  cases cls.method? initializerName with
  | none => exact runs_pure lists
  | some initializer =>
      apply runs_bind (runs_act fun enrolled => enrolled.bind_receiver_leads initializer lists)
      intro second _ bound grown _
      apply runs_bind (runs_call bound ((given.grown grows).grown grown))
      intro third _ _ grownMore _
      exact runs_pure ((lists.grown grown).grown grownMore)

theorem runs_call_value {callee : Value} (lists : roll.Lists callee) (line : Nat) :
    Runs begun roll Roll.Lists machine (Parts.asked.callValue callee line arguments) := by
  unfold Parts.callValue
  cases callee with
  | nil | boolean | number | string | object => exact runs_fail line _
  | native provided =>
      dsimp only [Value.callable?]
      split_ifs
      · exact runs_fail line _
      · cases provided
        refine runs_nested line fun _ => runs_act fun enrolled => ok_leads ?_ ?_
        · exact enrolled.aside (Nat.le_refl _) rfl rfl
        · exact Roll.lists_plain trivial
  | function identity closure =>
      dsimp only [Value.callable?]
      split_ifs
      · exact runs_fail line _
      · exact runs_nested line fun _ => runs_call closure given
  | classValue cls =>
      dsimp only [Value.callable?]
      split_ifs
      · exact runs_fail line _
      · exact runs_nested line fun _ => runs_construct given (lists cls rfl)

end Calls

section Properties

theorem runs_access (method : Option Closure) {receiver : Value} (name : Token)
    (lists : roll.Lists receiver) :
    Runs begun roll Roll.Lists machine (Parts.asked.access method receiver name) := by
  cases method with
  | none => exact runs_fail name.line _
  | some method =>
      apply runs_bind (runs_act fun enrolled => enrolled.bind_receiver_leads method lists)
      intro later after bound _ _
      split_ifs
      · exact runs_nested name.line fun _ => runs_call bound later.nothing_listed
      · exact runs_act fun enrolled => enrolled.make_function_leads bound

theorem runs_property {object : Value} (name : Token) (lists : roll.Lists object) :
    Runs begun roll Roll.Lists machine (Parts.asked.property object name) := by
  cases object with
  | object identity cls =>
      apply runs_bind (runs_act fun enrolled => enrolled.field_leads identity name.lexeme)
      intro later after field grows held
      cases field with
      | some value => exact runs_pure (held value rfl)
      | none => exact runs_access _ name (lists.grown grows)
  | classValue cls => exact runs_access _ name lists
  | nil | boolean | number | string | native | function => exact runs_fail name.line _

end Properties

/-- Every expression keeps to the contract. -/
theorem evaluation_runs (value : Expression) :
    Runs begun roll Roll.Lists machine (Parts.asked.evaluation value) := by
  cases value with
  | literal literal =>
      exact runs_pure (Roll.lists_plain (by cases literal <;> trivial))
  | grouping inner => exact runs_evaluate inner
  | unary operator operand =>
      apply runs_bind (runs_evaluate operand)
      intro later after result _ _
      exact runs_act fun enrolled => enrolled.blame_leads operator.line (unary_tame _ result)
  | binary left operator right =>
      apply runs_bind (runs_evaluate left)
      intro later after first _ _
      apply runs_bind (runs_evaluate right)
      intro last final second _ _
      exact runs_act fun enrolled => enrolled.blame_leads operator.line (binary_tame _ first second)
  | logical left operator right =>
      apply runs_bind (runs_evaluate left)
      intro later after first _ lists
      split_ifs
      · exact runs_pure lists
      · exact runs_evaluate right
  | conditional condition thenBranch elseBranch =>
      apply runs_bind (runs_evaluate condition)
      intro later after result _ _
      split_ifs
      · exact runs_evaluate thenBranch
      · exact runs_evaluate elseBranch
  | reference place | receiver place =>
      exact runs_act fun enrolled => enrolled.look_up_leads place
  | assign place value =>
      apply runs_bind (runs_evaluate value)
      intro later after result _ lists
      apply runs_bind (runs_act fun enrolled => enrolled.assign_leads place lists)
      intro last final _ grows _
      exact runs_pure (lists.grown grows)
  | call callee closing arguments =>
      apply runs_bind (runs_evaluate callee)
      intro later after function _ lists
      apply runs_bind (runs_evaluate_all arguments)
      intro last final values grows given
      exact runs_call_value given (lists.grown grows) closing.line
  | get object name =>
      apply runs_bind (runs_evaluate object)
      intro later after target _ lists
      exact runs_property name lists
  | set object name value =>
      apply runs_bind (runs_evaluate object)
      intro later after target _ _
      cases target with
      | object identity cls =>
          apply runs_bind (runs_evaluate value)
          intro last final result _ lists
          apply runs_bind (runs_act fun enrolled =>
            enrolled.set_field_leads identity name.lexeme lists)
          intro _ _ _ grows _
          exact runs_pure (lists.grown grows)
      | nil | boolean | number | string | native | function | classValue =>
          exact runs_fail name.line _
  | lambda routine =>
      exact runs_act fun enrolled => enrolled.make_function_leads ⟨routine, machine.current, false⟩
  | inherited place method =>
      apply runs_bind (runs_act fun enrolled => enrolled.inherited_method_leads place method)
      rintro later after ⟨found, receiver⟩ _ lists
      exact runs_access found method lists

section Statements

theorem runs_in_order (orders : List Statement) :
    Runs begun roll CompletionListed machine (Parts.asked.inOrder orders) := by
  induction orders generalizing roll machine with
  | nil => exact runs_pure (normal_listed roll)
  | cons first rest induction =>
      apply runs_bind (runs_execute first)
      intro later after completion _ listed
      cases completion with
      | normal => exact induction
      | returned value => exact runs_pure listed

theorem application_runs (closure : Closure) {arguments : List Value}
    (given : roll.AllListed arguments) :
    Runs begun roll Roll.Lists machine (Parts.asked.application closure arguments) := by
  apply runs_bind (runs_act fun enrolled => enrolled.open_scope_leads closure.scope
    fun name value found => given value (Record.parameter_argument found))
  intro later after scope _ _
  apply runs_bind (runs_within scope fun _ => runs_in_order closure.routine.body)
  intro last final completion _ listed
  exact runs_act fun enrolled => enrolled.result_leads closure listed

/-- A reference is looked up, unless the run is given up. -/
theorem reference_ends (supply : Nat) (place : Occurrence) (machine : Machine) :
    (∃ halt, evaluate supply (.reference place) machine = .error halt machine) ∨
      ∃ value, machine.Holds value ∧ Run.lookUp place machine = .ok value machine ∧
        evaluate supply (.reference place) machine = .ok value machine := by
  cases supply with
  | zero => exact .inl ⟨_, rfl⟩
  | succ supply =>
      refine (Run.look_up_ends place machine).imp_right ?_
      rintro ⟨value, holds, found⟩
      exact ⟨value, holds, found, found⟩

/-- What the superclass of a declaration comes to, and on which machine. -/
def SuperclassFound (roll : Roll) (declaration : Declaration) : Ending (Option Class) → Prop
  | .ok superclass after => after = declaration.start ∧ declaration.Inherits superclass ∧
      ∀ parent, superclass = some parent → roll parent.identity = some parent
  | .error _ after => after = declaration.start

/-- The superclass of a class is on the roll when the declaration is begun, and nothing happens
before the class is made. -/
theorem superclass_found {declaration : Declaration}
    (enrolled : Enrolled begun roll declaration.start) :
    (Parts.asked.superclassOf declaration.superclass declaration.start).Meets
      ((keeping begun).under fun _ => ()).answered (SuperclassFound roll declaration) := by
  cases named : declaration.superclass with
  | none => exact ⟨rfl, named, fun parent other => by cases other⟩
  | some place =>
      apply Plan.meets_followed_by
      refine ⟨⟨roll, enrolled, roll.nothing_listed⟩, ?_⟩
      rintro _ ⟨-, supply, rfl⟩
      change Plan.Meets _ _ (.ended (evaluate supply (.reference place) declaration.start))
      rcases reference_ends supply place declaration.start with
        ⟨halt, ended⟩ | ⟨value, holds, found, ended⟩ <;> rw [ended]
      · exact rfl
      · cases value with
        | classValue parent =>
            refine ⟨rfl, ⟨place, named, found⟩, ?_⟩
            rintro _ ⟨⟩
            exact enrolled.held holds parent rfl
        | nil | boolean | number | string | native | function | object => exact rfl

/-- The class of a declaration that has been begun goes on the roll. -/
theorem class_declaration_runs (declaration : Declaration)
    (known : begun (.execution declaration.statement) declaration.start) :
    Runs begun roll CompletionListed declaration.start
      (Parts.asked.execution declaration.statement) := by
  intro enrolled
  apply Plan.meets_followed_by
  refine Plan.meets_mono (superclass_found enrolled) fun ending found => ?_
  cases ending with
  | error halt after =>
      cases found
      exact error_leads enrolled
  | ok superclass after =>
      obtain ⟨rfl, inherits, listed⟩ := found
      have declared : Runs begun roll CompletionListed declaration.start
          (Setting.act (Run.makeClass declaration.name superclass declaration.methods
              declaration.classMethods) >>= fun made =>
            Setting.act (Run.define declaration.name.lexeme made) >>= fun _ =>
              (pure .normal : Planning Completion)) := by
        apply runs_bind (runs_act fun enrolled =>
          enrolled.make_class_leads rfl known inherits listed)
        intro later after made _ lists
        apply runs_bind (runs_act fun enrolled => enrolled.define_leads _ lists)
        intro last _ _ _ _
        exact runs_pure (normal_listed last)
      exact declared enrolled

/-- Every statement that has been begun keeps to the contract. -/
theorem execution_runs {order : Statement} (known : begun (.execution order) machine) :
    Runs begun roll CompletionListed machine (Parts.asked.execution order) := by
  have finished {later : Roll} {after : Machine} :
      Runs begun later CompletionListed after (pure .normal : Planning Completion) :=
    runs_pure (normal_listed later)
  cases order with
  | expression value => exact runs_bind (runs_evaluate value) fun _ _ _ _ _ => finished
  | print value =>
      apply runs_bind (runs_evaluate value)
      intro later after result _ _
      exact runs_bind (runs_act fun enrolled => enrolled.print_leads result)
        fun _ _ _ _ _ => finished
  | variableDeclaration name initializer =>
      cases initializer with
      | none =>
          have nothing : roll.Lists .nil := Roll.lists_plain trivial
          exact runs_bind (runs_act fun enrolled => enrolled.define_leads name.lexeme nothing)
            fun _ _ _ _ _ => finished
      | some initializer =>
          apply runs_bind (runs_evaluate initializer)
          intro later after value _ lists
          exact runs_bind (runs_act fun enrolled => enrolled.define_leads name.lexeme lists)
            fun _ _ _ _ _ => finished
  | block orders =>
      have runs : Runs begun roll CompletionListed machine
          (Setting.act (Run.openScope machine.current .empty) >>= fun scope =>
            Setting.within scope (Parts.asked.inOrder orders)) := by
        apply runs_bind (runs_act fun enrolled => enrolled.open_scope_leads machine.current
          fun name value held => by cases held)
        intro later after scope _ _
        exact runs_within scope fun _ => runs_in_order orders
      exact runs
  | conditional condition thenBranch elseBranch =>
      apply runs_bind (runs_evaluate condition)
      intro later after value _ _
      split_ifs
      · exact runs_execute thenBranch
      · cases elseBranch with
        | none => exact finished
        | some other => exact runs_execute other
  | loop condition body =>
      apply runs_bind (runs_evaluate condition)
      intro later after value _ _
      split_ifs
      · apply runs_bind (runs_execute body)
        intro last final completion _ listed
        cases completion with
        | normal => exact runs_execute (.loop condition body)
        | returned value => exact runs_pure listed
      · exact finished
  | routineDeclaration routine =>
      apply runs_bind (runs_act fun enrolled =>
        enrolled.make_function_leads ⟨routine, machine.current, false⟩)
      intro later after function _ lists
      exact runs_bind (runs_act fun enrolled => enrolled.define_leads routine.label lists)
        fun _ _ _ _ _ => finished
  | exit keyword value =>
      cases value with
      | none => exact runs_pure (returned_listed (Roll.lists_plain trivial))
      | some value =>
          apply runs_bind (runs_evaluate value)
          intro later after result _ lists
          exact runs_pure (returned_listed lists)
  | classDeclaration name superclass methods classMethods =>
      exact class_declaration_runs ⟨name, superclass, methods, classMethods, machine⟩ known

end Statements

/-- What the plan of a task leads to, from any roll that lists its arguments. -/
theorem task_runs {task : Task} (known : begun task machine) (given : roll.AllListed task.given) :
    Runs begun roll (fun later answer => later.AllListed (task.handed answer)) machine
      task.plan := by
  intro enrolled
  cases task with
  | evaluation value =>
      exact Plan.meets_mono (evaluation_runs value enrolled) fun _ leads =>
        leads_weaker leads fun _ _ => Roll.all_listed_single.mpr
  | execution order =>
      exact Plan.meets_mono (execution_runs known enrolled) fun _ leads =>
        leads_weaker leads fun _ _ => completion_listed.mpr
  | call closure arguments =>
      exact Plan.meets_mono (application_runs closure given enrolled) fun _ leads =>
        leads_weaker leads fun _ _ => Roll.all_listed_single.mpr

/-- Every task that has been begun keeps to the contract. -/
theorem keeping_kept (begun : Task → Machine → Prop) : (keeping begun).KeptBy begun where
  exhausted _ _ _ _ _ enrolled _ := error_leads enrolled
  planned _ task machine duty known := by
    obtain ⟨first, enrolled, given⟩ := duty
    have meets (start : {roll : Roll // Enrolled begun roll machine ∧ roll.AllListed task.given}) :
        (task.plan machine).Meets ((keeping begun).under fun _ => ()).answered
          (Leads begun start.1 fun later answer => later.AllListed (task.handed answer)) :=
      task_runs known start.2.2 start.2.1
    exact Plan.meets_mono (Plan.meets_forall ⟨first, enrolled, given⟩ meets)
      fun ending every roll enrolled given => every ⟨roll, enrolled, given⟩

theorem line_runs (line : Line) : Runs begun roll anything machine (Parts.asked.line line) := by
  cases line with
  | statements orders =>
      have program : Runs begun roll anything machine (Parts.asked.program orders) :=
        runs_bind (runs_in_order orders) fun _ _ _ _ _ => runs_pure trivial
      exact runs_bind program fun _ _ _ _ _ => runs_pure trivial
  | expression value => exact runs_bind (runs_evaluate value) fun _ _ _ _ _ => runs_pure trivial

end Enrolled

end Lox
