import Lox.Proofs.Annals.Seclusion
import Lox.Proofs.Classes.Sessions

/-!
The course of a run. As long as everything that a run begins is spelled as programs are, one event
leads to the next in good order: receivers and superclasses stay where they are held, objects stay
made, and every call begins with as many arguments as its routine has parameters. The rules are
those for runs in general; what is noted of a part is in order if it is for less supply.
-/

namespace Lox

/-- The names that a task declares or assigns to are names of the program. -/
def Task.Spelled : Task → Prop
  | .evaluation (.assign place _) => Free place.name.lexeme
  | .execution (.variableDeclaration name _) => Free name.lexeme
  | .execution (.routineDeclaration routine) => Free routine.label
  | .execution (.classDeclaration name _ _ _) => Free name.lexeme
  | .call closure _ => ∀ name ∈ closure.routine.parameters.getD [], Free name.lexeme
  | _ => True

namespace Event

def before : Event → Machine
  | .begins _ machine => machine
  | .step before _ => before
  | .ends _ _ ending => ending.machine

def after : Event → Machine
  | .begins _ machine => machine
  | .step _ after => after
  | .ends _ _ ending => ending.machine

/-- The values that a task is begun with, or that it hands on. -/
def inHand : Event → List Value
  | .begins task _ => task.given
  | .step _ _ => []
  | .ends task _ ending => task.left ending

/-- A call is begun with an argument for each parameter. -/
def Complete : Event → Prop
  | .begins (.call closure arguments) _ => arguments.length = closure.routine.arity
  | _ => True

/-- An event that is in order. -/
structure Regular (event : Event) : Prop where
  before : event.before.Orderly
  later : event.before.Later event.after
  after : event.after.Orderly
  made : ∀ value ∈ event.inHand, event.after.HasMade value
  complete : event.Complete

end Event

/-- The events are in order and happen one after the other. -/
def Course : Machine → List Event → Machine → Prop
  | first, [], last => first.Later last
  | first, event :: rest, last =>
      first.Later event.before ∧ event.Regular ∧ Course event.after rest last

namespace Course

variable {first second last : Machine} {events earlier later : List Event} {event : Event}

theorem since (before : first.Later second) (course : Course second events last) :
    Course first events last := by
  cases events with
  | nil => exact before.trans course
  | cons event rest => exact ⟨before.trans course.1, course.2⟩

theorem append (course : Course first earlier second) (onwards : Course second later last) :
    Course first (earlier ++ later) last := by
  induction earlier generalizing first with
  | nil => exact onwards.since course
  | cons event rest induction => exact ⟨course.1, course.2.1, induction course.2.2⟩

theorem until_later (course : Course first events second) (after : second.Later last) :
    Course first events last := by
  have whole := course.append (show Course second [] last from after)
  rwa [List.append_nil] at whole

theorem regular (course : Course first events last) (happens : event ∈ events) :
    event.Regular ∧ first.Later event.before := by
  induction events generalizing first with
  | nil => exact absurd happens List.not_mem_nil
  | cons other rest induction =>
      obtain ⟨before, regular, onwards⟩ := course
      rcases List.mem_cons.mp happens with rfl | isLater
      · exact ⟨regular, before⟩
      · obtain ⟨inOrder, after⟩ := induction onwards isLater
        exact ⟨inOrder, (before.trans regular.later).trans after⟩

/-- After an event the course goes on from there. -/
theorem onwards (course : Course first (earlier ++ event :: later) last) :
    Course event.after later last := by
  induction earlier generalizing first with
  | nil => exact course.2.2
  | cons other rest induction => exact induction course.2.2

/-- What happens later leads on from what has happened. -/
theorem leads_on (course : Course first (earlier ++ event :: later) last) {other : Event}
    (happens : other ∈ later) : event.after.Later other.before :=
  (course.onwards.regular happens).2

/-- What a receiver or a superclass has of its own stays so for ever. -/
theorem holds_on (course : Course first (earlier ++ event :: later) last) {id : ScopeId}
    {name : String} {value : Value} (taken : ¬Free name)
    (held : event.after.scopes.HoldsOnly id name value) :
    ∀ other ∈ later, other.before.scopes.HoldsOnly id name value ∧
      other.after.scopes.HoldsOnly id name value := by
  intro other happens
  obtain ⟨regular, leads⟩ := course.onwards.regular happens
  have here := leads.scopes.only id name value taken held
  exact ⟨here, regular.later.scopes.only id name value taken here⟩

end Course

/-- The completion hands on no object that is still to be made. -/
def Machine.HasMadeCompletion (machine : Machine) (completion : Completion) : Prop :=
  ∀ value, completion = .returned value → machine.HasMade value

/-- All that is begun is spelled as programs are. -/
def AllSpelled (events : List Event) : Prop :=
  ∀ task start, .begins task start ∈ events → task.Spelled

/-- What is noted is in order, and leads to something good. -/
structure Proceeds {α : Type} (machine : Machine) (good : Machine → α → Prop)
    (noted : List Event × Ending α) : Prop where
  course : Course machine noted.1 noted.2.machine
  leads : machine.Leads good noted.2

/-- It does not matter where and how deep a run is. -/
def Still {α : Type} (good : Machine → α → Prop) : Prop :=
  ∀ machine scope depth value, good machine value →
    good { machine with current := scope, depth := depth } value

theorem has_made_still : Still Machine.HasMade := by
  intro machine scope depth value made
  cases value <;> exact made

theorem has_made_completion_still : Still Machine.HasMadeCompletion :=
  fun machine scope depth _ made value returned =>
    has_made_still machine scope depth value (made value returned)

namespace Noting

variable {α β : Type} {machine : Machine} {good : Machine → α → Prop}
  {goodNext : Machine → β → Prop} {noted : Noting α}

/-- A run that begins in good order goes on in good order. -/
def Runs (good : Machine → α → Prop) (machine : Machine) (noted : Noting α) : Prop :=
  machine.Orderly → machine.Open → AllSpelled (noted machine).1 →
    Proceeds machine good (noted machine)

section Rules

theorem runs_pure {value : α} (fine : good machine value) : Runs good machine (pure value) :=
  fun orderly _ _ => ⟨.refl machine, orderly.done_leads fine⟩

theorem runs_act {action : Run α}
    (leads : machine.Orderly → machine.Open → machine.Leads good (action machine)) :
    Runs good machine (Setting.act action) := by
  intro orderly here _
  have ends := leads orderly here
  refine ⟨⟨.refl machine, ⟨orderly, ends.later, ends.orderly, ?_, trivial⟩, .refl _⟩, ends⟩
  exact List.forall_mem_nil _

theorem runs_fail (line : Nat) (cause : Fault) :
    Runs good machine (Setting.act (Run.fail line cause)) :=
  runs_act fun orderly _ => orderly.fail_leads line cause

theorem runs_bind {next : α → Noting β} (first : Runs good machine noted)
    (onwards : ∀ after value, machine.Later after → good after value →
      Runs goodNext after (next value)) :
    Runs goodNext machine (noted >>= next) := by
  intro orderly here spelled
  rcases result : noted machine with ⟨events, ⟨value, after⟩ | ⟨halt, after⟩⟩
  · have both : (noted >>= next) machine = _ := bind_ok result
    have early : AllSpelled (noted machine).1 := fun task start begins =>
      spelled task start (both ▸ List.mem_append_left _ (by rw [result] at begins; exact begins))
    obtain ⟨course, leads⟩ := first orderly here early
    rw [result] at course leads
    have rest := onwards after value leads.later (leads.fine value after rfl) leads.orderly
      (here.later leads.later leads.current) fun task start begins =>
        spelled task start (both ▸ List.mem_append_right _ begins)
    refine both.symm ▸ ⟨course.append rest.course, ?_⟩
    exact ⟨leads.later.trans rest.leads.later, rest.leads.orderly,
      rest.leads.current.trans leads.current, rest.leads.fine⟩
  · have both : (noted >>= next) machine = _ := bind_error result
    have early : AllSpelled (noted machine).1 := fun task start begins =>
      spelled task start (both ▸ (by rw [result] at begins; exact begins))
    obtain ⟨course, leads⟩ := first orderly here early
    rw [result] at course leads
    refine both.symm ▸ ⟨course, leads.later, leads.orderly, leads.current, ?_⟩
    rintro _ _ ⟨⟩

/-- A run somewhere else, or at another depth, and back again. -/
theorem proceeds_moved {scope : ScopeId} {depth : Nat} {change : Machine → Machine}
    (still : Still good) {noted : List Event × Ending α}
    (moves : ∀ after, ∃ scope depth, change after = { after with current := scope, depth := depth })
    (back : ∀ after, after.current = scope → (change after).current = machine.current)
    (proceeds : Proceeds { machine with current := scope, depth := depth } good noted) :
    Proceeds machine good (noted.1, noted.2.onMachine change) := by
  obtain ⟨events, ending⟩ := noted
  obtain ⟨course, leads⟩ := proceeds
  have same : (ending.onMachine change).machine = change ending.machine := by cases ending <;> rfl
  obtain ⟨newScope, newDepth, moved⟩ := moves ending.machine
  have onward : ending.machine.Later (change ending.machine) := by
    rw [moved]
    exact ⟨.refl _, Nat.le_refl _⟩
  have start : machine.Later { machine with current := scope, depth := depth } :=
    ⟨.refl _, Nat.le_refl _⟩
  refine ⟨?_, ?_, ?_, ?_, ?_⟩
  · exact same ▸ (course.since start).until_later onward
  · exact same ▸ (start.trans leads.later).trans onward
  · rw [same, moved]
    exact leads.orderly.aside rfl rfl
  · rw [same]
    exact back _ leads.current
  · intro value after ended
    cases ending with
    | error halt last => cases ended
    | ok given last =>
        cases ended
        rw [show change last = _ from moved]
        exact still last newScope newDepth value (leads.fine value last rfl)

theorem runs_within (still : Still good) {scope : ScopeId} (inside : scope < machine.scopes.size)
    (bare : machine.scopes.Bare scope)
    (inner : ∀ machine, Runs good machine noted) :
    Runs good machine (Setting.within scope noted) := by
  intro orderly _ spelled
  have there : Proceeds { machine with current := scope, depth := machine.depth } good _ :=
    inner _ (orderly.aside rfl rfl) ⟨inside, bare⟩ spelled
  exact proceeds_moved still (fun after => ⟨machine.current, after.depth, rfl⟩) (fun _ _ => rfl)
    there

theorem runs_nested (still : Still good) (line : Nat)
    (inner : ∀ deeper, machine.Later deeper → Runs good deeper noted) :
    Runs good machine (Setting.nested line noted) := by
  intro orderly here spelled
  by_cases full : callLimit ≤ machine.depth
  · rw [nested_full line full]
    exact ⟨.refl machine, orderly.stop_leads _⟩
  · rw [nested_room line full] at spelled ⊢
    have there : Proceeds
        { machine with current := machine.current, depth := machine.depth + 1 } good _ :=
      inner _ ⟨.refl _, Nat.le_refl _⟩ (orderly.aside rfl rfl) ⟨here.inside, here.bare⟩ spelled
    exact proceeds_moved still (fun after => ⟨after.current, _, rfl⟩) (fun _ => id) there

/-- A task is in order if what happens in it is. -/
theorem runs_task {task : Task} {inner : Noting task.Answer} {good : Machine → task.Answer → Prop}
    (given : ∀ value ∈ task.given, machine.HasMade value)
    (complete : (Event.begins task machine).Complete)
    (inside : task.Spelled → Runs good machine inner)
    (handed : ∀ after answer, good after answer → ∀ value ∈ task.handed answer,
      after.HasMade value) :
    Runs good machine (Noting.task task inner) := by
  intro orderly here spelled
  have isSpelled := spelled task machine List.mem_cons_self
  obtain ⟨course, leads⟩ := inside isSpelled orderly here fun other start begins =>
    spelled other start (List.mem_cons_of_mem _ (List.mem_append_left _ begins))
  refine ⟨⟨.refl machine, ⟨orderly, .refl machine, orderly, given, complete⟩, ?_⟩, leads⟩
  refine course.append ⟨.refl _, ⟨leads.orderly, .refl _, leads.orderly, ?_, trivial⟩, .refl _⟩
  intro value member
  have fine := leads.fine
  change (inner machine).2.machine.HasMade value
  change value ∈ task.left (inner machine).2 at member
  generalize (inner machine).2 = ending at member fine
  cases ending with
  | error halt after => exact absurd member List.not_mem_nil
  | ok answer after => exact handed after answer (fine answer after rfl) value member

end Rules

/-- The parts are in order. -/
structure PartsRun (parts : Parts Noting) : Prop where
  evaluate (value : Expression) (machine : Machine) :
    Runs Machine.HasMade machine (parts.evaluate value)
  execute (order : Statement) (machine : Machine) :
    Runs Machine.HasMadeCompletion machine (parts.execute order)
  call (closure : Closure) {arguments : List Value} {machine : Machine}
    (enough : arguments.length = closure.routine.arity)
    (given : ∀ value ∈ arguments, machine.HasMade value) :
    Runs Machine.HasMade machine (parts.call closure arguments)

section Constructs

variable {parts : Parts Noting} (run : PartsRun parts)

section Calls

variable {arguments : List Value} (given : ∀ value ∈ arguments, machine.HasMade value)

include run

theorem runs_evaluate_all (values : List Expression) :
    Runs (fun after values => ∀ value ∈ values, after.HasMade value) machine
      (parts.evaluateAll values) := by
  induction values generalizing machine with
  | nil => exact runs_pure (List.forall_mem_nil _)
  | cons first rest induction =>
      apply runs_bind (run.evaluate first machine)
      intro after value _ made
      apply runs_bind induction
      intro last others later allMade
      exact runs_pure (List.forall_mem_cons.mpr ⟨made.later later, allMade⟩)

include given

theorem runs_construct {cls : Class}
    (enough : arguments.length = (Callable.construction cls).arity) :
    Runs Machine.HasMade machine (parts.construct cls arguments) := by
  apply runs_bind (runs_act fun orderly _ => orderly.make_instance_leads cls)
  rintro after object later ⟨-, made⟩
  change arguments.length = ((cls.method? initializerName).map (·.routine.arity)).getD 0 at enough
  cases initializes : cls.method? initializerName with
  | none => exact runs_pure made
  | some initializer =>
      rw [initializes] at enough
      apply runs_bind (runs_act fun orderly _ => orderly.bind_receiver_leads initializer made)
      intro second bound onward sameRoutine
      have all : ∀ value ∈ arguments, second.HasMade value := fun value member =>
        ((given value member).later later).later onward
      apply runs_bind (run.call bound (enough.trans (congrArg Routine.arity sameRoutine.symm)) all)
      intro last _ further _
      exact runs_pure ((made.later onward).later further)

theorem runs_call_value (callee : Value) (line : Nat) :
    Runs Machine.HasMade machine (parts.callValue callee line arguments) := by
  have all {deeper : Machine} (later : machine.Later deeper) :
      ∀ value ∈ arguments, deeper.HasMade value := fun value member =>
    (given value member).later later
  unfold Parts.callValue
  cases callee with
  | nil | boolean | number | string | object => exact runs_fail line _
  | native provided =>
      dsimp only [Value.callable?]
      split_ifs
      · exact runs_fail line _
      · cases provided
        exact runs_nested has_made_still line fun _ _ => runs_act fun orderly _ =>
          orderly.aside_leads rfl rfl rfl trivial
  | function identity closure =>
      dsimp only [Value.callable?]
      split_ifs with different
      · exact runs_fail line _
      · exact runs_nested has_made_still line fun _ later =>
          run.call closure (not_not.mp different) (all later)
  | classValue cls =>
      dsimp only [Value.callable?]
      split_ifs with different
      · exact runs_fail line _
      · exact runs_nested has_made_still line fun _ later =>
          runs_construct run (all later) (not_not.mp different)

end Calls

section Properties

include run

theorem runs_access (method : Option Closure) {receiver : Value} (name : Token)
    (made : machine.HasMade receiver) :
    Runs Machine.HasMade machine (parts.access method receiver name) := by
  cases method with
  | none => exact runs_fail name.line _
  | some method =>
      apply runs_bind (runs_act fun orderly _ => orderly.bind_receiver_leads method made)
      intro after bound _ _
      split_ifs with getter
      · have none : bound.routine.arity = 0 := by
          rw [Routine.arity, Option.isNone_iff_eq_none.mp getter]
          rfl
        exact runs_nested has_made_still name.line fun _ _ =>
          run.call bound none.symm (List.forall_mem_nil _)
      · exact runs_act fun orderly _ => orderly.make_function_leads bound

theorem runs_property {object : Value} (name : Token) (made : machine.HasMade object) :
    Runs Machine.HasMade machine (parts.property object name) := by
  cases object with
  | object identity cls =>
      apply runs_bind (runs_act fun orderly _ => orderly.field_leads identity name.lexeme)
      intro after field later held
      cases field with
      | some value => exact runs_pure (held value rfl)
      | none => exact runs_access run _ name (made.later later)
  | classValue cls => exact runs_access run _ name made
  | nil | boolean | number | string | native | function => exact runs_fail name.line _

end Properties

include run

theorem evaluation_runs (value : Expression) (spelled : (Task.evaluation value).Spelled) :
    Runs Machine.HasMade machine (parts.evaluation value) := by
  have evaluated {machine : Machine} (value : Expression) := run.evaluate value machine
  cases value with
  | literal literal => exact runs_pure (by cases literal <;> trivial)
  | grouping inner => exact evaluated inner
  | unary operator operand =>
      apply runs_bind (evaluated operand)
      intro after result _ _
      exact runs_act fun orderly _ => orderly.blame_leads operator.line (unary_tame _ result)
  | binary left operator right =>
      apply runs_bind (evaluated left)
      intro after first _ _
      apply runs_bind (evaluated right)
      intro last second _ _
      exact runs_act fun orderly _ => orderly.blame_leads operator.line (binary_tame _ first second)
  | logical left operator right =>
      apply runs_bind (evaluated left)
      intro after first _ made
      split_ifs
      · exact runs_pure made
      · exact evaluated right
  | conditional condition thenBranch elseBranch =>
      apply runs_bind (evaluated condition)
      intro after result _ _
      split_ifs
      · exact evaluated thenBranch
      · exact evaluated elseBranch
  | reference place | receiver place => exact runs_act fun orderly _ => orderly.look_up_leads place
  | assign place value =>
      apply runs_bind (evaluated value)
      intro after result _ made
      apply runs_bind (runs_act fun orderly _ => orderly.assign_leads spelled made)
      intro last _ later _
      exact runs_pure (made.later later)
  | call callee closing arguments =>
      apply runs_bind (evaluated callee)
      intro after function _ _
      apply runs_bind (runs_evaluate_all run arguments)
      intro last values _ given
      exact runs_call_value run given function closing.line
  | get object name =>
      apply runs_bind (evaluated object)
      intro after target _ made
      exact runs_property run name made
  | set object name value =>
      apply runs_bind (evaluated object)
      intro after target _ _
      cases target with
      | object identity cls =>
          apply runs_bind (evaluated value)
          intro last result _ made
          apply runs_bind (runs_act fun orderly _ =>
            orderly.set_field_leads identity name.lexeme made)
          intro _ _ later _
          exact runs_pure (made.later later)
      | nil | boolean | number | string | native | function | classValue =>
          exact runs_fail name.line _
  | lambda routine =>
      exact runs_act fun orderly _ => orderly.close_over_leads routine
  | inherited place method =>
      apply runs_bind (runs_act fun orderly _ => orderly.inherited_method_leads place method)
      rintro after ⟨found, receiver⟩ _ made
      exact runs_access run found method made

theorem runs_in_order (orders : List Statement) :
    Runs Machine.HasMadeCompletion machine (parts.inOrder orders) := by
  induction orders generalizing machine with
  | nil => exact runs_pure fun _ other => by cases other
  | cons first rest induction =>
      apply runs_bind (run.execute first machine)
      intro after completion _ made
      cases completion with
      | normal => exact induction
      | returned value => exact runs_pure made

theorem application_runs (closure : Closure) {arguments : List Value}
    (spelled : (Task.call closure arguments).Spelled)
    (given : ∀ value ∈ arguments, machine.HasMade value) :
    Runs Machine.HasMade machine (parts.application closure arguments) := by
  have free (name : String)
      (held : (Run.parameterNames closure.routine arguments).contains name = true) : Free name := by
    obtain ⟨parameter, member, rfl⟩ := Record.parameter_name held
    exact spelled parameter member
  apply runs_bind (runs_act fun orderly _ => orderly.open_leads closure.scope free
    fun name value found => given value (Record.parameter_argument found))
  rintro after scope _ ⟨inside, bare⟩
  apply runs_bind (runs_within has_made_completion_still inside bare fun _ =>
    runs_in_order run closure.routine.body)
  intro last completion _ made
  exact runs_act fun orderly _ => orderly.result_leads closure made

theorem runs_superclass_of (superclass : Option Occurrence) :
    Runs Machine.anything machine (parts.superclassOf superclass) := by
  cases superclass with
  | none => exact runs_pure trivial
  | some place =>
      apply runs_bind (run.evaluate (.reference place) machine)
      intro after value _ _
      cases value with
      | classValue cls => exact runs_pure trivial
      | nil | boolean | number | string | native | function | object => exact runs_fail _ _

theorem execution_runs (order : Statement) (spelled : (Task.execution order).Spelled) :
    Runs Machine.HasMadeCompletion machine (parts.execution order) := by
  have evaluated {machine : Machine} (value : Expression) := run.evaluate value machine
  have executed {machine : Machine} (order : Statement) := run.execute order machine
  have finished {machine : Machine} :
      Runs Machine.HasMadeCompletion machine (pure .normal : Noting Completion) :=
    runs_pure fun _ other => by cases other
  cases order with
  | expression value => exact runs_bind (evaluated value) fun _ _ _ _ => finished
  | print value =>
      apply runs_bind (evaluated value)
      intro after result _ _
      exact runs_bind (runs_act fun orderly _ => orderly.print_leads result)
        fun _ _ _ _ => finished
  | variableDeclaration name initializer =>
      cases initializer with
      | none =>
          exact runs_bind (runs_act fun orderly here => orderly.define_leads here spelled
            (show machine.HasMade .nil from trivial)) fun _ _ _ _ => finished
      | some initializer =>
          apply runs_bind (evaluated initializer)
          intro after value _ made
          exact runs_bind (runs_act fun orderly here => orderly.define_leads here spelled made)
            fun _ _ _ _ => finished
  | block orders =>
      apply runs_bind (runs_act fun orderly _ => orderly.current_leads)
      intro after outer _ _
      apply runs_bind (runs_act fun orderly _ => orderly.open_leads outer
        (fun name held => by cases held) fun name value found => by cases found)
      rintro last scope _ ⟨inside, bare⟩
      exact runs_within has_made_completion_still inside bare fun _ => runs_in_order run orders
  | conditional condition thenBranch elseBranch =>
      apply runs_bind (evaluated condition)
      intro after value _ _
      split_ifs
      · exact executed thenBranch
      · cases elseBranch with
        | none => exact finished
        | some other => exact executed other
  | loop condition body =>
      apply runs_bind (evaluated condition)
      intro after value _ _
      split_ifs
      · apply runs_bind (executed body)
        intro last completion _ made
        cases completion with
        | normal => exact executed (.loop condition body)
        | returned value => exact runs_pure made
      · exact finished
  | routineDeclaration routine =>
      apply runs_bind (runs_act fun orderly _ => orderly.close_over_leads routine)
      intro after function _ made
      exact runs_bind (runs_act fun orderly here => orderly.define_leads here spelled made)
        fun _ _ _ _ => finished
  | exit keyword value =>
      cases value with
      | none => exact runs_pure fun _ returned => by cases returned; trivial
      | some value =>
          apply runs_bind (evaluated value)
          intro after result _ made
          exact runs_pure fun _ returned => by cases returned; exact made
  | classDeclaration name superclass methods classMethods =>
      apply runs_bind (runs_superclass_of run superclass)
      intro after parent _ _
      apply runs_bind (runs_act fun orderly _ =>
        orderly.make_class_leads name parent methods classMethods)
      intro last declared _ made
      exact runs_bind (runs_act fun orderly here => orderly.define_leads here spelled made)
        fun _ _ _ _ => finished

theorem line_runs (line : Line) : Runs Machine.anything machine (parts.line line) := by
  cases line with
  | statements statements =>
      have program : Runs Machine.anything machine (parts.program statements) :=
        runs_bind (runs_in_order run statements) fun _ _ _ _ => runs_pure trivial
      exact runs_bind program fun _ _ _ _ => runs_pure trivial
  | expression tree =>
      exact runs_bind (run.evaluate tree machine) fun _ _ _ _ => runs_pure trivial

end Constructs

theorem single_made {after : Machine} {value : Value} (made : after.HasMade value) :
    ∀ other ∈ [value], after.HasMade other := List.forall_mem_singleton.mpr made

theorem completion_made {order : Statement} {after : Machine} {completion : Completion}
    (made : after.HasMadeCompletion completion) :
    ∀ value ∈ (Task.execution order).handed completion, after.HasMade value := by
  cases completion with
  | normal => exact List.forall_mem_nil _
  | returned value => exact single_made (made value rfl)

/-- The parts are in order for any supply. -/
theorem noted_parts_run (supply : Nat) : PartsRun (Parts.noted supply) := by
  have exhausted {α : Type} {machine : Machine} {good : Machine → α → Prop} :
      Runs good machine fun machine => ([], .error .exhausted machine) :=
    fun orderly _ _ => ⟨.refl machine, orderly.stop_leads _⟩
  induction supply with
  | zero =>
      refine ⟨fun value machine => ?_, fun order machine => ?_, fun closure _ _ enough given => ?_⟩
      · exact runs_task (List.forall_mem_nil _) trivial (fun _ => exhausted) fun _ _ => single_made
      · exact runs_task (List.forall_mem_nil _) trivial (fun _ => exhausted) fun _ _ =>
          completion_made
      · exact runs_task given enough (fun _ => exhausted) fun _ _ => single_made
  | succ supply run =>
      refine ⟨fun value machine => ?_, fun order machine => ?_, fun closure _ _ enough given => ?_⟩
      · exact runs_task (List.forall_mem_nil _) trivial (evaluation_runs run value)
          fun _ _ => single_made
      · exact runs_task (List.forall_mem_nil _) trivial (execution_runs run order)
          fun _ _ => completion_made
      · exact runs_task given enough (fun spelled => application_runs run closure spelled given)
          fun _ _ => single_made

end Noting

end Lox
