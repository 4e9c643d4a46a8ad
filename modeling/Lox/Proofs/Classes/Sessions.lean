import Lox.Proofs.Classes.Runs
import Lox.Proofs.Receivers.Sessions

/-!
Classes in sessions. Whatever lines run, and whatever becomes of the names of classes, a class
answers with the methods of its own declaration and of those above it, as they were executed: for
its instances along the same classes as for itself.
-/

namespace Lox

/-- The values in hand where a task has ended. -/
def Task.left (task : Task) : Ending task.Answer → List Value
  | .ok answer _ => task.handed answer
  | .error _ _ => []

theorem Enrolled.wider {begun wider : Task → Machine → Prop} {roll : Roll} {machine : Machine}
    (enrolled : Enrolled begun roll machine)
    (known : ∀ task machine, begun task machine → wider task machine) :
    Enrolled wider roll machine where
  sound := by
    refine ⟨enrolled.sound.fresh, fun listed => ?_, enrolled.sound.above⟩
    obtain ⟨same, declaration, isBegun, makes⟩ := enrolled.sound.made listed
    exact ⟨same, declaration, known _ _ isBegun, makes⟩
  held := enrolled.held

namespace Session

/-- The machine and the values in hand at some point of a session, with the lines that have begun:
between two lines, where a task of a line begins, or where one has ended. -/
inductive Visits : List (Line × Machine) → Machine → List Value → Prop where
  | resting {past : List (Line × Machine)} {session : Session}
      (chronicle : Chronicle past session) : Visits past session.machine []
  | beginning {past : List (Line × Machine)} {session next : Session} {entry : Entry} {line : Line}
      {moment : Moment} {rest : List Moment} (chronicle : Chronicle past session)
      (received : session.receive entry = (.ok line, next))
      (underway : Underway (Parts.asked.line line next.machine) (moment :: rest)) :
      Visits ((line, next.machine) :: past) moment.machine moment.task.given
  | ending {past : List (Line × Machine)} {session next : Session} {entry : Entry} {line : Line}
      {moment : Moment} {rest : List Moment} {ending : Ending moment.task.Answer}
      (chronicle : Chronicle past session) (received : session.receive entry = (.ok line, next))
      (underway : Underway (Parts.asked.line line next.machine) (moment :: rest))
      (ends : moment.Ends ending) :
      Visits ((line, next.machine) :: past) ending.machine (moment.task.left ending)

variable {past : List (Line × Machine)} {session next : Session} {entry : Entry} {line : Line}

theorem start_enrolled (sink : Sink) (time : Nat) :
    Enrolled (Begun []) (fun _ => none) (Session.start sink time).machine where
  sound := by
    refine ⟨fun _ => rfl, ?_, ?_⟩
    · rintro _ _ ⟨⟩
    · rintro _ _ _ ⟨⟩
  held {value} holds := by
    cases holds with
    | field isObject found => cases isObject
    | scope found =>
        change (Scopes.extend _ _ _).local? _ _ = some value at found
        rw [Scopes.local_extend] at found
        split_ifs at found
        · obtain ⟨provided, -, same⟩ := List.mem_map.mp (Names.mem_of_find found)
          cases same
          rintro _ ⟨⟩
        · cases found

/-- Reading a line leaves the classes alone, and so the line begins with a roll. -/
theorem received_enrolled {roll : Roll} {outcome : Except (List Diagnostic) Line}
    (enrolled : Enrolled (Begun past) roll session.machine)
    (received : session.receive entry = (outcome, next)) :
    Enrolled (Begun past) roll next.machine := by
  obtain ⟨distances, frame⟩ := receive_frame session entry
  rw [received] at frame
  change next.machine = _ at frame
  rw [frame]
  exact enrolled.aside (Nat.le_refl _) rfl rfl

theorem begins_enrolled {roll : Roll} {outcome : Except (List Diagnostic) Line}
    (enrolled : Enrolled (Begun past) roll session.machine)
    (received : session.receive entry = (outcome, next)) (line : Line) :
    Enrolled (Begun ((line, next.machine) :: past)) roll next.machine := by
  refine (received_enrolled enrolled received).wider ?_
  rintro task machine ⟨run, member, begins⟩
  exact ⟨run, List.mem_cons_of_mem _ member, begins⟩

theorem chronicle_enrolled (chronicle : Chronicle past session) :
    ∃ roll, Enrolled (Begun past) roll session.machine := by
  induction chronicle with
  | start sink time => exact ⟨_, start_enrolled sink time⟩
  | @rejected past session next last entry supply diagnostics before received entered induction =>
      obtain ⟨roll, enrolled⟩ := induction
      rw [enter_eq, received] at entered
      cases entered
      exact ⟨roll, received_enrolled enrolled received⟩
  | @accepted past session next last entry supply line before received entered induction =>
      obtain ⟨roll, enrolled⟩ := induction
      have runs := Enrolled.line_runs line (begins_enrolled enrolled received line)
      obtain ⟨later, -, after, -⟩ := Contracts.begun_goal (Enrolled.keeping_kept _)
        (begun_passing _) runs received_begins supply
      rw [← Planning.line_run_completes_plan] at after
      rw [enter_eq, received] at entered
      cases leave_closes entered
      exact ⟨later, after.aside (Nat.le_refl _) rfl rfl⟩

/-- What is under way has been begun, with a roll of all classes. -/
theorem underway_enrolled (chronicle : Chronicle past session)
    (received : session.receive entry = (.ok line, next)) {moment : Moment} {rest : List Moment}
    (underway : Underway (Parts.asked.line line next.machine) (moment :: rest)) :
    (∃ roll : Roll, Enrolled (Begun ((line, next.machine) :: past)) roll moment.machine ∧
      roll.AllListed moment.task.given) ∧
    Begun ((line, next.machine) :: past) moment.task moment.machine := by
  obtain ⟨roll, enrolled⟩ := chronicle_enrolled chronicle
  exact Contracts.begun_duty (Enrolled.keeping_kept _) (begun_passing _)
    (Enrolled.line_runs line (begins_enrolled enrolled received line)) received_begins underway

/-- At every point of a session there is a roll of all classes. -/
theorem visits_enrolled {machine : Machine} {inHand : List Value}
    (visits : Visits past machine inHand) :
    ∃ roll : Roll, Enrolled (Begun past) roll machine ∧ roll.AllListed inHand := by
  cases visits with
  | resting chronicle =>
      obtain ⟨roll, enrolled⟩ := chronicle_enrolled chronicle
      exact ⟨roll, enrolled, roll.nothing_listed⟩
  | beginning chronicle received underway =>
      exact (underway_enrolled chronicle received underway).1
  | @ending past session next entry line moment rest ending chronicle received underway ends =>
      obtain ⟨duty, known⟩ := underway_enrolled chronicle received underway
      obtain ⟨supply, rfl⟩ := ends
      obtain ⟨roll, enrolled, given⟩ := duty
      have effect := Contracts.begun_effect (Enrolled.keeping_kept _) (begun_passing _) supply ()
        moment.task moment.machine ⟨roll, enrolled, given⟩ known
      obtain ⟨later, -, after, handed⟩ := effect roll enrolled given
      refine ⟨later, after, ?_⟩
      cases ended : moment.task.run supply moment.machine with
      | ok answer last => exact handed answer last ended
      | error halt last => exact later.nothing_listed

end Session

section Expressions

variable {supply : Nat} {start after : Machine}

/-- To call a class is to make an instance, with as many arguments as its initializer takes. -/
theorem evaluate_class_call {callee : Expression} {arguments : List Expression} {cls : Class}
    {values : List Value} {last : Machine} (closing : Token)
    (called : evaluate supply callee start = .ok (.classValue cls) after)
    (given : (Parts.supplied supply).evaluateAll arguments after = .ok values last) :
    evaluate (supply + 1) (.call callee closing arguments) start =
      if values.length = (Callable.construction cls).arity then
        Run.nested closing.line ((Parts.supplied supply).construct cls values) last
      else .error (.failed (.fault closing.line
        (.wrongArgumentCount (Callable.construction cls).arity values.length))) last := by
  refine ((bind_ok called).trans (bind_ok given)).trans ?_
  change (ite (values.length ≠ (Callable.construction cls).arity) _ _ : Run Value) last = _
  by_cases enough : values.length = (Callable.construction cls).arity
  · rw [if_neg (not_not_intro enough), if_pos enough]
    rfl
  · rw [if_pos enough, if_neg enough]
    rfl

theorem evaluate_get {object : Expression} {target : Value} (name : Token)
    (evaluated : evaluate supply object start = .ok target after) :
    evaluate (supply + 1) (.get object name) start =
      (Parts.supplied supply).property target name after := by
  exact bind_ok evaluated

/-- The value of a field of an instance. -/
def Machine.field? (machine : Machine) (identity : Nat) (name : String) : Option Value :=
  machine.fields[identity]?.bind (·.find? name)

/-- Fields come before methods. -/
theorem property_of_instance (parts : Parts Run) (identity : Nat) (cls : Class) (name : Token)
    (machine : Machine) : parts.property (.object identity cls) name machine =
      match machine.field? identity name.lexeme with
      | some value => .ok value machine
      | none => parts.access (cls.method? name.lexeme) (.object identity cls) name machine := by
  have looked : Run.field? identity name.lexeme machine =
      .ok (machine.field? identity name.lexeme) machine := rfl
  refine (bind_ok looked).trans ?_
  cases machine.field? identity name.lexeme <;> rfl

end Expressions

/-- How many arguments it takes to make an instance: as many as the first initializer upwards has
parameters, and none without one. -/
def Declaration.instanceArity (declarations : List Declaration) : Nat :=
  match declarations.findSome? fun declaration => declaration.answer? false initializerName with
  | some initializer => (initializer.routine.parameters.getD []).length
  | none => 0

/-- A class does what some declarations say that have been begun: its own, and those of the
classes above it in their order. -/
structure Class.Follows (begun : Task → Machine → Prop) (cls : Class)
    (declarations : List Declaration) : Prop where
  begun : ∀ declaration ∈ declarations, begun (.execution declaration.statement) declaration.start
  made : List.Forall₂ Declaration.Makes declarations cls.lineage
  /-- Every class was there before those below it, so that none comes up twice. -/
  older : cls.lineage.Pairwise fun lower upper => upper.identity < lower.identity
  /-- The methods of instances are the last of their name in the first body that has one. -/
  method (name : String) :
    cls.method? name = declarations.findSome? fun declaration => declaration.answer? false name
  /-- So are those of the class itself, along the same declarations. -/
  classMethod (name : String) :
    cls.classMethod? name = declarations.findSome? fun declaration => declaration.answer? true name
  /-- A call makes an instance if it has as many arguments as the initializer takes, and fails
  otherwise. -/
  call {supply : Nat} {callee : Expression} {arguments : List Expression} {values : List Value}
    {start after last : Machine} (closing : Token)
    (called : evaluate supply callee start = .ok (.classValue cls) after)
    (given : (Parts.supplied supply).evaluateAll arguments after = .ok values last) :
    evaluate (supply + 1) (.call callee closing arguments) start =
      if values.length = Declaration.instanceArity declarations then
        Run.nested closing.line ((Parts.supplied supply).construct cls values) last
      else .error (.failed (.fault closing.line
        (.wrongArgumentCount (Declaration.instanceArity declarations) values.length))) last
  /-- A field of an instance comes before any method. -/
  instanceProperty {supply identity : Nat} {object : Expression} {start after : Machine}
    (name : Token) (evaluated : evaluate supply object start = .ok (.object identity cls) after) :
    evaluate (supply + 1) (.get object name) start =
      match after.field? identity name.lexeme with
      | some value => .ok value after
      | none => (Parts.supplied supply).access
          (declarations.findSome? fun declaration => declaration.answer? false name.lexeme)
          (.object identity cls) name after
  /-- The class itself has its own methods only. -/
  classProperty {supply : Nat} {object : Expression} {start after : Machine} (name : Token)
    (evaluated : evaluate supply object start = .ok (.classValue cls) after) :
    evaluate (supply + 1) (.get object name) start = (Parts.supplied supply).access
      (declarations.findSome? fun declaration => declaration.answer? true name.lexeme)
      (.classValue cls) name after

/-- A class on a roll follows its declarations. -/
theorem Roll.Sound.follows {begun : Task → Machine → Prop} {roll : Roll} {identities : Nat}
    (sound : roll.Sound begun identities) {cls : Class} (listed : roll cls.identity = some cls) :
    ∃ declarations, cls.Follows begun declarations := by
  obtain ⟨-, older, declarations, known, made⟩ := sound.lineage listed
  have method : ∀ name, cls.method? name = _ := Class.answer_declared made false
  have classMethod : ∀ name, cls.classMethod? name = _ := Class.answer_declared made true
  have arity : (Callable.construction cls).arity = Declaration.instanceArity declarations := by
    rw [Callable.arity, Declaration.instanceArity, method]
    cases declarations.findSome? fun declaration =>
      declaration.answer? false initializerName with
    | none => rfl
    | some initializer => exact initializer.routine.arity_eq
  refine ⟨declarations, known, made, older, method, classMethod, ?_, ?_, ?_⟩
  · intro supply callee arguments values start after last closing called given
    rw [evaluate_class_call closing called given, arity]
  · intro supply identity object start after name evaluated
    rw [evaluate_get name evaluated, property_of_instance, method]
  · intro supply object start after name evaluated
    rw [evaluate_get name evaluated, ← classMethod]
    rfl

end Lox
