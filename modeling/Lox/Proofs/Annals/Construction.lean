import Lox.Proofs.Annals.Calls
import Lox.Proofs.Returns.Sessions

/-!
The making of instances. To call a class gives a new instance of it, whatever its initializer does,
and new means that no scope, no field and nothing in hand has had it before. A call of an
initializer gives back the instance that it was taken from. Only methods of instances are
initializers: what is called `init` elsewhere gives back what its body returns.
-/

namespace Lox

/-- What comes to something in a deeper call has come to it there. -/
theorem Run.of_nested_ok {α : Type} {machine after : Machine} {line : Nat} {action : Run α}
    {value : α} (ended : Run.nested line action machine = .ok value after) :
    ¬callLimit ≤ machine.depth ∧
      ∃ last, action { machine with depth := machine.depth + 1 } = .ok value last ∧
        after = { last with depth := last.depth - 1 } := by
  unfold Run.nested at ended
  split_ifs at ended with full
  cases inner : action { machine with depth := machine.depth + 1 } with
  | error halt last =>
      rw [inner] at ended
      cases ended
  | ok result last =>
      rw [inner] at ended
      cases ended
      exact ⟨full, last, rfl, rfl⟩

section Making

variable {supply : Nat} {cls : Class} {arguments : List Value} {machine after : Machine}
  {value : Value}

/-- Whatever becomes of the initializer, the new instance is what is given. -/
theorem construct_makes
    (made : (Parts.supplied supply).construct cls arguments machine = .ok value after) :
    value = .object machine.fields.size cls := by
  unfold Parts.construct at made
  obtain ⟨object, middle, makes, made⟩ := of_bind_ok made
  cases makes
  cases found : cls.method? initializerName with
  | none =>
      rw [found] at made
      cases made
      rfl
  | some initializer =>
      rw [found] at made
      obtain ⟨bound, entered, -, made⟩ := of_bind_ok made
      obtain ⟨-, last, -, made⟩ := of_bind_ok made
      cases made
      rfl

theorem class_call_makes {line : Nat}
    (made : (Parts.supplied supply).callValue (.classValue cls) line arguments machine =
      .ok value after) : value = .object machine.fields.size cls := by
  have calls : (Parts.supplied supply).callValue (.classValue cls) line arguments machine =
      if arguments.length ≠ (Callable.construction cls).arity then
        Run.fail line
          (.wrongArgumentCount (Callable.construction cls).arity arguments.length) machine
      else Run.nested line ((Parts.supplied supply).construct cls arguments) machine := by
    change (ite _ _ _ : Run Value) machine = _
    split_ifs <;> rfl
  rw [calls] at made
  split_ifs at made
  · cases made
  · obtain ⟨-, last, made, -⟩ := Run.of_nested_ok made
    have same := construct_makes made
    exact same

end Making

/-- One of the events has the value: it is held where the event happens, or in hand. -/
def Met (events : List Event) (value : Value) : Prop :=
  ∃ event ∈ events, event.before.Holds value ∨ event.after.Holds value ∨ value ∈ event.inHand

/-- What has been met has been made. -/
theorem Course.met_made {first last : Machine} {earlier later : List Event} {event : Event}
    (course : Course first (earlier ++ event :: later) last) {value : Value}
    (met : Met (earlier ++ [event]) value) : event.after.HasMade value := by
  obtain ⟨one, happens, has⟩ := met
  have isPast : one ∈ earlier ++ event :: later := by
    rcases List.mem_append.mp happens with before | same
    · exact List.mem_append_left _ before
    · exact List.mem_append_right _ (List.mem_singleton.mp same ▸ List.mem_cons_self)
  obtain ⟨regular, -⟩ := course.regular isPast
  have made : one.after.HasMade value := by
    rcases has with before | after | inHand
    · exact (regular.before.made before).later regular.later
    · exact regular.after.made after
    · exact regular.made value inHand
  refine made.later ?_
  rcases List.mem_append.mp happens with before | same
  · obtain ⟨start, between, rfl⟩ := List.append_of_mem before
    rw [List.append_assoc, List.cons_append] at course
    have here : event ∈ between ++ event :: later := List.mem_append_right _ List.mem_cons_self
    exact (course.leads_on here).trans (course.onwards.regular here).1.later
  · rw [List.mem_singleton.mp same]
    exact .refl _

/-- What a body that has ended gives back of its own. -/
def Completion.value : Completion → Value
  | .normal => .nil
  | .returned value => value

namespace Closure

/-- Calls of the closure give back what its body returns. -/
def Ordinary (closure : Closure) : Prop :=
  ∀ supply arguments machine result after,
    call (supply + 1) closure arguments machine = .ok result after →
      ∃ completion last,
        (Parts.supplied supply).inOrder closure.routine.body (machine.entered closure arguments) =
          .ok completion last ∧ result = completion.value

/-- Each call of the closure that is begun in these events gives back this value, if it ends
well. -/
def GivesBack (closure : Closure) (value : Value) (events : List Event) : Prop :=
  ∀ arguments machine, .begins (.call closure arguments) machine ∈ events →
    ∀ supply result after, call supply closure arguments machine = .ok result after → result = value

theorem ordinary {closure : Closure} (plain : closure.yieldsReceiver = false) :
    closure.Ordinary := by
  intro supply arguments machine result after ended
  rw [call_body] at ended
  cases body : (Parts.supplied supply).inOrder closure.routine.body
      (machine.entered closure arguments) with
  | error halt last =>
      rw [body] at ended
      cases ended
  | ok completion last =>
      rw [body] at ended
      obtain ⟨value, gives, given⟩ :=
        Run.result_cases closure completion { last with current := machine.current }
      change Run.result closure completion _ = _ at ended
      rw [gives] at ended
      cases ended
      refine ⟨completion, last, rfl, ?_⟩
      rcases given with ⟨yields, -⟩ | ⟨-, rfl, rfl⟩ | ⟨-, rfl⟩
      · rw [plain] at yields
        cases yields
      · rfl
      · rfl

end Closure

/-- The value is a function of this routine, with a closure of this kind. -/
def Value.IsFunction (value : Value) (routine : Routine) (kind : Closure → Prop) : Prop :=
  ∃ number closure, value = .function number closure ∧ closure.routine = routine ∧ kind closure

/-- Only the methods for instances that are called `init` give back their receiver. -/
theorem Class.Follows.initializers {begun : Task → Machine → Prop} {cls : Class}
    {declarations : List Declaration} (follows : cls.Follows begun declarations) (ofClass : Bool)
    {name : String} {method : Closure} (answers : cls.answer? ofClass name = some method) :
    method.yieldsReceiver = (!ofClass && decide (name = initializerName)) := by
  rw [Class.answer_declared follows.made] at answers
  obtain ⟨declaration, -, answers⟩ := List.exists_of_findSome?_eq_some answers
  obtain ⟨routine, -, rfl⟩ := Option.map_eq_some_iff.mp answers
  rfl

section Access

variable {past : List (Line × Machine)} {events : List Event} {object : Expression} {name : Token}
  {start middle after : Machine} {value target : Value} {supply : Nat} {method : Closure}

/-- The class of an object follows its declarations wherever a property of it is asked for. -/
theorem Session.target_follows (tells : Session.Tells past events)
    (happens : .ends (.evaluation (.get object name)) start (.ok value after) ∈ events)
    (evaluated : evaluate supply object start = .ok target middle) {cls : Class}
    (isClass : target.class? = some cls) :
    ∃ begun declarations, cls.Follows begun declarations := by
  obtain ⟨-, chronicle, received, ⟨calls, rest, underway⟩, -⟩ := Session.tells_occur tells happens
  have inner : Underway _ (⟨0, .evaluation object, start⟩ :: _) :=
    .inner underway ⟨0, .inl ⟨rfl, rfl, rfl⟩⟩
  have ends : Moment.Ends ⟨0, .evaluation object, start⟩ (.ok target middle) := ⟨supply, evaluated⟩
  obtain ⟨roll, enrolled, listed⟩ :=
    Session.visits_enrolled (.ending chronicle received inner ends)
  have lists : roll.Lists target := listed target (List.mem_singleton.mpr rfl)
  exact ⟨_, enrolled.sound.follows (lists cls isClass)⟩

/-- A getter that is asked for is bound and called. -/
theorem access_calls (getter : method.routine.isGetter = true) (receiver : Value) (name : Token)
    (machine : Machine) :
    (Parts.supplied supply).access (some method) receiver name machine =
      Run.nested name.line (call supply { method with scope := machine.scopes.size } [])
        (machine.holding method.scope receiverName receiver) := by
  refine (bind_ok (Run.bind_receiver_eq method receiver machine)).trans ?_
  rw [if_pos getter]
  rfl

theorem property_asked (offered : middle.offered? name.lexeme target = some method) :
    (Parts.asked.property target name : Planning Value) middle =
      (Parts.asked.access (some method) target name : Planning Value) middle := by
  cases target with
  | object identity cls =>
      change (if (middle.field? identity name.lexeme).isSome then none else
        cls.method? name.lexeme) = some method at offered
      unfold Parts.property
      change (Plan.ended (.ok (middle.field? identity name.lexeme) middle)).followedBy _ = _
      cases field : middle.field? identity name.lexeme with
      | some value =>
          rw [field] at offered
          cases offered
      | none =>
          rw [field] at offered
          exact offered ▸ rfl
  | classValue cls => exact congrFun (congrArg (Parts.asked.access · _ name) offered) middle
  | nil | boolean | number | string | native | function => cases offered

/-- The call of a getter is under way where it is asked for. -/
theorem getter_reached (evaluated : evaluate supply object start = .ok target middle)
    (offered : middle.offered? name.lexeme target = some method)
    (getter : method.routine.isGetter = true) (room : ¬callLimit ≤ middle.depth) :
    (Task.plan (.evaluation (.get object name)) start).Reaches
      ⟨1, .call { method with scope := middle.scopes.size } [],
        { middle.holding method.scope receiverName target with depth := middle.depth + 1 }⟩ := by
  have access : (Parts.asked.access (some method) target name : Planning Value) middle =
      (Setting.nested name.line (Parts.asked.call { method with scope := middle.scopes.size } []) :
        Planning Value) (middle.holding method.scope receiverName target) := by
    unfold Parts.access
    change (ite _ _ _ : Planning Value) _ = _
    rw [if_pos getter]
    rfl
  refine ⟨supply, .inr ?_⟩
  change Plan.Asks _ _ _ _ ((Plan.ended (evaluate supply object start)).followedBy _)
  rw [evaluated]
  change Plan.Asks _ _ _ _ ((Parts.asked.property target name : Planning Value) middle)
  rw [property_asked offered, access]
  have room : ¬callLimit ≤ (middle.holding method.scope receiverName target).depth := room
  simp only [Setting.nested, room, if_false]
  exact .inl ⟨rfl, rfl, rfl⟩

/-- An access that comes to something, and to no field, has found a method. -/
theorem access_finds {found : Option Closure} {receiver : Value} {machine : Machine}
    (ended : (Parts.supplied supply).access found receiver name machine = .ok value after) :
    ∃ method, found = some method := by
  cases found with
  | some method => exact ⟨method, rfl⟩
  | none => cases ended

end Access

namespace Session

variable {past : List (Line × Machine)} {events earlier later : List Event} {object : Expression}
  {name : Token} {start middle after : Machine} {value target : Value} {supply : Nat}
  {method closure : Closure}

/-- A call of an initializer gives back the instance that is all that its scope holds. -/
theorem called_gives_back (tells : Tells past events) {arguments : List Value} {machine : Machine}
    (begins : .begins (.call closure arguments) machine ∈ events)
    (yields : closure.yieldsReceiver = true) :
    ∃ identity cls, machine.scopes.HoldsOnly closure.scope receiverName (.object identity cls) ∧
      ∀ supply result after, call supply closure arguments machine = .ok result after →
        result = .object identity cls := by
  obtain ⟨-, chronicle, received, calls, rest, underway⟩ := tells_occur tells begins
  obtain ⟨identity, cls, found, gives⟩ :=
    initializer_yields_object chronicle received underway yields
  have secluded := (tells_regular tells begins).before.secluded
  exact ⟨identity, cls, secluded _ _ _ receiver_taken found, gives⟩

/-- An initializer that knows an instance gives it back for ever. -/
theorem bound_gives_back (tells : Tells past events) {event : Event}
    (whole : events = earlier ++ event :: later) (yields : closure.yieldsReceiver = true)
    (held : event.after.scopes.HoldsOnly closure.scope receiverName target) :
    closure.GivesBack target later := by
  intro arguments machine begins supply result last ended
  have happens : .begins (.call closure arguments) machine ∈ events :=
    whole ▸ List.mem_append_right _ (List.mem_cons_of_mem _ begins)
  obtain ⟨identity, cls, found, gives⟩ := called_gives_back tells happens yields
  have kept : machine.scopes.HoldsOnly closure.scope receiverName target :=
    ((receiver_kept tells whole held).held _ begins).1
  have same := kept.local_eq receiverName
  rw [found.local_eq, if_pos rfl, if_pos rfl] at same
  rw [gives supply result last ended]
  exact Option.some.inj same

/-- A getter that is an initializer gives back the instance that it is asked for on. -/
theorem getter_gives_back (tells : Tells past events)
    (happens : .ends (.evaluation (.get object name)) start (.ok value after) ∈ events)
    (evaluated : evaluate supply object start = .ok target middle)
    (offered : middle.offered? name.lexeme target = some method)
    (getter : method.routine.isGetter = true) (yields : method.yieldsReceiver = true) :
    value = target := by
  obtain ⟨-, chronicle, received, ⟨calls, rest, underway⟩, -⟩ := tells_occur tells happens
  obtain ⟨fewer, ended⟩ := property_taken tells happens evaluated
  rw [property_offered offered, access_calls getter] at ended
  obtain ⟨room, last, ended, -⟩ := Run.of_nested_ok ended
  have inner := Underway.inner underway (getter_reached evaluated offered getter room)
  obtain ⟨identity, cls, held, gives⟩ := initializer_yields_object chronicle received inner yields
  have only := middle.holds_only_new method.scope receiverName target
  have same := only.local_eq receiverName
  rw [if_pos rfl] at same
  rw [gives fewer value last ended]
  exact Option.some.inj (held.symm.trans same)

section Initializers

variable (tells : Tells past events)
  (whole : events =
    earlier ++ .ends (.evaluation (.get object name)) start (.ok value after) :: later)
  (isInit : name.lexeme = initializerName) {identity : Nat} {cls : Class}

include tells whole isInit

/-- What is called `init` on an instance gives back this instance. -/
theorem instance_initializer
    (evaluated : evaluate supply object start = .ok (.object identity cls) middle)
    (noField : middle.field? identity initializerName = none) :
    ∃ method, cls.method? initializerName = some method ∧
      (method.routine.isGetter = true → value = .object identity cls) ∧
      (method.routine.isGetter = false →
        value.IsFunction method.routine (·.GivesBack (.object identity cls) later)) := by
  have happens := whole ▸ List.mem_append_right earlier List.mem_cons_self
  obtain ⟨fewer, ended⟩ := property_taken tells happens evaluated
  rw [property_of_instance, isInit, noField] at ended
  obtain ⟨method, isMethod⟩ := access_finds ended
  have offered : middle.offered? name.lexeme (.object identity cls) = some method := by
    rw [isInit, ← isMethod]
    exact if_neg (by rw [noField]; exact Bool.false_ne_true)
  obtain ⟨begun, declarations, follows⟩ := target_follows tells happens evaluated rfl
  have yields : method.yieldsReceiver = true := by
    rw [follows.initializers false isMethod]
    rfl
  refine ⟨method, isMethod, fun getter =>
    getter_gives_back tells happens evaluated offered getter yields, fun plain => ?_⟩
  rw [isMethod, access_binds _ plain] at ended
  cases ended
  refine ⟨_, _, rfl, rfl, bound_gives_back tells whole yields ?_⟩
  exact middle.holds_only_new method.scope receiverName _

/-- What is called `init` on a class gives back what its body returns. -/
theorem class_initializer
    (evaluated : evaluate supply object start = .ok (.classValue cls) middle) :
    ∃ method, cls.classMethod? initializerName = some method ∧
      (method.routine.isGetter = true → ∃ closure machine fewer last,
        closure.routine = method.routine ∧ closure.Ordinary ∧
        call fewer closure [] machine = .ok value last) ∧
      (method.routine.isGetter = false → value.IsFunction method.routine (·.Ordinary)) := by
  have happens := whole ▸ List.mem_append_right earlier List.mem_cons_self
  obtain ⟨fewer, ended⟩ := property_taken tells happens evaluated
  change (Parts.supplied fewer).access (cls.classMethod? name.lexeme) _ name middle = _ at ended
  rw [isInit] at ended
  obtain ⟨method, isMethod⟩ := access_finds ended
  obtain ⟨begun, declarations, follows⟩ := target_follows tells happens evaluated rfl
  have plain : method.yieldsReceiver = false := follows.initializers true isMethod
  rw [isMethod] at ended
  refine ⟨method, isMethod, ?_, ?_⟩
  · intro getter
    rw [access_calls getter] at ended
    obtain ⟨-, last, ended, -⟩ := Run.of_nested_ok ended
    exact ⟨{ method with scope := middle.scopes.size }, _, fewer, last, rfl,
      Closure.ordinary plain, ended⟩
  · intro noGetter
    rw [access_binds _ noGetter] at ended
    cases ended
    exact ⟨_, _, rfl, rfl, Closure.ordinary plain⟩

end Initializers

/-- A function that is declared gives back what its body returns, whatever it is called. -/
theorem declared_function (tells : Tells past events) {routine : Routine} {completion : Completion}
    (happens : .ends (.execution (.routineDeclaration routine)) start (.ok completion after) ∈
      events) :
    ∃ value, after.scopes.local? start.current routine.label = some value ∧
      value.IsFunction routine (·.Ordinary) := by
  obtain ⟨-, chronicle, received, ⟨calls, rest, underway⟩, supply, ended⟩ :=
    tells_occur tells happens
  obtain ⟨-, site, frames, -, -, lies⟩ := underway_placed chronicle received underway
  have inside := Record.lies_inside lies
  cases supply with
  | zero => cases ended
  | succ supply =>
      have runs : execute (supply + 1) (.routineDeclaration routine) start = .ok .normal
        { start with
          scopes := start.scopes.define start.current routine.label
            (.function start.identities ⟨routine, start.current, false⟩)
          identities := start.identities + 1 } := rfl
      cases runs.symm.trans ended
      refine ⟨_, (Scopes.local_define ..).trans (if_pos ⟨rfl, inside, rfl⟩), ?_⟩
      exact ⟨_, _, rfl, rfl, Closure.ordinary rfl⟩

theorem written_function (tells : Tells past events) {routine : Routine}
    (happens : .ends (.evaluation (.lambda routine)) start (.ok value after) ∈ events) :
    value.IsFunction routine (·.Ordinary) := by
  obtain ⟨-, -, -, -, supply, ended⟩ := tells_occur tells happens
  cases supply with
  | zero => cases ended
  | succ supply =>
      cases ended
      exact ⟨_, _, rfl, rfl, Closure.ordinary rfl⟩

end Session

/-- A call of a class that comes to something comes to a new instance of it, whatever its
initializer is and does, and none of the scopes, the fields and the values in hand have had this
instance before. What is called `init` on an instance gives back this instance, now and ever after,
if it is no field. What is called `init` on a class gives back what its body returns, and so does
every function that is declared or written in place. All other calls in a session are of the one
kind or of the other. -/
theorem classes_make_new_instances :
    (∀ supply cls line arguments machine value after,
      (Parts.supplied supply).callValue (.classValue cls) line arguments machine = .ok value after →
        value = .object machine.fields.size cls) ∧
    ∀ past events, Session.Tells past events →
      (∀ earlier event later, events = earlier ++ event :: later →
        ∀ supply cls line arguments value after,
          (Parts.supplied supply).callValue (.classValue cls) line arguments event.after =
            .ok value after →
          ∃ number, value = .object number cls ∧
            ∀ identity other, Met (earlier ++ [event]) (.object identity other) →
              identity ≠ number) ∧
      (∀ earlier object name start value after later,
        events =
          earlier ++ .ends (.evaluation (.get object name)) start (.ok value after) :: later →
        name.lexeme = initializerName →
        (∀ supply identity cls middle,
          evaluate supply object start = .ok (.object identity cls) middle →
          middle.field? identity initializerName = none →
          ∃ method, cls.method? initializerName = some method ∧
            (method.routine.isGetter = true → value = .object identity cls) ∧
            (method.routine.isGetter = false →
              value.IsFunction method.routine (·.GivesBack (.object identity cls) later))) ∧
        ∀ supply cls middle, evaluate supply object start = .ok (.classValue cls) middle →
          ∃ method, cls.classMethod? initializerName = some method ∧
            (method.routine.isGetter = true → ∃ closure machine fewer last,
              closure.routine = method.routine ∧ closure.Ordinary ∧
              call fewer closure [] machine = .ok value last) ∧
            (method.routine.isGetter = false → value.IsFunction method.routine (·.Ordinary))) ∧
      (∀ routine start completion after,
        .ends (.execution (.routineDeclaration routine)) start (.ok completion after) ∈ events →
          ∃ value, after.scopes.local? start.current routine.label = some value ∧
            value.IsFunction routine (·.Ordinary)) ∧
      (∀ routine start value after,
        .ends (.evaluation (.lambda routine)) start (.ok value after) ∈ events →
          value.IsFunction routine (·.Ordinary)) ∧
      ∀ closure arguments machine, .begins (.call closure arguments) machine ∈ events →
        closure.Ordinary ∨
        ∃ identity cls,
          machine.scopes.HoldsOnly closure.scope receiverName (.object identity cls) ∧
          ∀ supply result after, call supply closure arguments machine = .ok result after →
            result = .object identity cls := by
  refine ⟨fun _ _ _ _ _ _ _ => class_call_makes, fun past events tells => ⟨?_, ?_, ?_, ?_, ?_⟩⟩
  · intro earlier event later whole supply cls line arguments value after made
    obtain ⟨first, last, course⟩ := Session.tells_course tells
    rw [whole] at course
    exact ⟨_, class_call_makes made, fun identity other met => Nat.ne_of_lt (course.met_made met)⟩
  · intro earlier object name start value after later whole isInit
    refine ⟨fun supply identity cls middle evaluated noField => ?_,
      fun supply cls middle evaluated => ?_⟩
    · exact Session.instance_initializer tells whole isInit evaluated noField
    · exact Session.class_initializer tells whole isInit evaluated
  · intro routine start completion after happens
    exact Session.declared_function tells happens
  · intro routine start value after happens
    exact Session.written_function tells happens
  · intro closure arguments machine begins
    cases yields : closure.yieldsReceiver with
    | false => exact .inl (Closure.ordinary yields)
    | true => exact .inr (Session.called_gives_back tells begins yields)

/-- The initializer is taken from an instance and called; then another instance is made. -/
theorem class_makes_new_instances_beside_old_one :
    ∃ past events earlier object name start identity closure after later machine cls,
      Session.Tells past events ∧
      events = earlier ++
        .ends (.evaluation (.get object name)) start (.ok (.function identity closure) after) ::
          later ∧
      .begins (.call closure []) machine ∈ later ∧
      closure.GivesBack (.object 0 cls) later ∧
      (∃ last, call 1 closure [] machine = .ok (.object 0 cls) last) ∧
      ∃ number last, (Parts.supplied 1).callValue (.classValue cls) 1 [] after =
        .ok (.object number cls) last ∧ 0 ≠ number := by
  let identifier (text : String) : Token := ⟨.identifier, text, 1⟩
  let method : Routine := ⟨some (identifier "init"), some [], []⟩
  let calling (callee : Expression) : Expression := .call callee ⟨.rightParen, ")", 1⟩ []
  let reference (id : Nat) (text : String) : Expression := .reference ⟨id, identifier text⟩
  let access : Expression := .get (reference 1 "a") (identifier "init")
  let declaration : Statement := .classDeclaration (identifier "A") none [method] []
  let making : Statement :=
    .variableDeclaration (identifier "a") (some (calling (reference 0 "A")))
  let taking : Statement := .variableDeclaration (identifier "f") (some access)
  let asking : Statement := .expression (calling (reference 2 "f"))
  let cls : Class := ⟨0, "A", Run.methodTable [method] 0 true, Run.methodTable [] 0 false, none⟩
  let start : Machine := Machine.start ⟨.unlimited, []⟩ 0
  let declared : Machine := { start with
    scopes := start.scopes.define 0 "A" (.classValue cls)
    identities := 1 }
  let opened : Machine := declared.holding 0 "self" (.object 0 cls)
  let made : Machine := { opened with
    scopes := (opened.scopes.extend (some 1) (.ofList [])).define 0 "a" (.object 0 cls)
    fields := #[.empty] }
  let closure : Closure := ⟨method, 3, true⟩
  let bound : Machine := { made.holding 0 "self" (.object 0 cls) with identities := 2 }
  let taken : Machine := { bound with scopes := bound.scopes.define 0 "f" (.function 1 closure) }
  let inside : Machine := { taken with depth := 1 }
  have receivedFirst : (Session.start ⟨.unlimited, []⟩ 0).receive
      (.program "class A \x7b init() \x7b\x7d \x7d") =
        (.ok (.statements [declaration]), ⟨start, 0⟩) := by rfl
  have declares : execute 1 declaration start = .ok .normal declared := by rfl
  have receivedSecond : (Session.mk declared 0).receive (.program "var a = A();") =
      (.ok (.statements [making]), ⟨declared, 1⟩) := by rfl
  have makes : execute 3 making declared = .ok .normal made := by rfl
  have receivedThird : (Session.mk made 1).receive (.program "var f = a.init;") =
      (.ok (.statements [taking]), ⟨made, 2⟩) := by rfl
  have takes : execute 3 taking made = .ok .normal taken := by rfl
  have receivedLast : (Session.mk taken 2).receive (.program "f();") =
      (.ok (.statements [asking]), ⟨taken, 3⟩) := by rfl
  let annals : List Event := [] ++ Line.annals 1 (.statements [declaration]) start ++
    Line.annals 3 (.statements [making]) declared
  let onwards : List Event := Line.annals 3 (.statements [asking]) taken
  have tells : Session.Tells _ (annals ++ Line.annals 3 (.statements [taking]) made ++ onwards) :=
    .running (.accepted (.accepted (.accepted (.start ⟨.unlimited, []⟩ 0) receivedFirst
      (Session.enter_statement receivedFirst declares)) receivedSecond
      (Session.enter_statement receivedSecond makes)) receivedThird
      (Session.enter_statement receivedThird takes)) receivedLast 3
  have eighth : (Line.annals 3 (.statements [taking]) made)[8]? =
      some (.ends (.evaluation access) made (.ok (.function 1 closure) bound)) := by
    rw [Line.annals_statement]
    rfl
  have fifth : onwards[5]? = some (.begins (.call closure []) inside) := by
    change (Line.annals ..)[5]? = _
    rw [Line.annals_statement]
    rfl
  obtain ⟨before, between, isHere⟩ := List.append_of_mem (List.mem_of_getElem? eighth)
  have whole : annals ++ Line.annals 3 (.statements [taking]) made ++ onwards =
      annals ++ before ++ .ends (.evaluation access) made (.ok (.function 1 closure) bound) ::
        (between ++ onwards) := by
    rw [isHere]
    simp only [List.append_assoc, List.cons_append]
  have begins : .begins (.call closure []) inside ∈ between ++ onwards :=
    List.mem_append_right _ (List.mem_of_getElem? fifth)
  obtain ⟨fresh, initializers, -⟩ := classes_make_new_instances.2 _ _ tells
  have evaluated : evaluate 1 (reference 1 "a") made = .ok (.object 0 cls) made := by rfl
  have noField : made.field? 0 "init" = none := by rfl
  obtain ⟨found, isMethod, -, gives⟩ := (initializers _ (reference 1 "a") (identifier "init") made
    (.function 1 closure) bound _ whole rfl).1 1 0 cls made evaluated noField
  have isInit : some (⟨method, 0, true⟩ : Closure) = some found := isMethod
  cases isInit
  obtain ⟨number, bindsTo, same, -, gives⟩ := gives rfl
  cases same
  have called : ∃ result last, call 1 closure [] inside = .ok result last := ⟨_, _, rfl⟩
  obtain ⟨result, lastCalled, called⟩ := called
  rw [gives [] inside begins 1 result lastCalled called] at called
  have news : ∃ value last, (Parts.supplied 1).callValue (.classValue cls) 1 [] bound =
      .ok value last := ⟨_, _, rfl⟩
  obtain ⟨value, last, news⟩ := news
  obtain ⟨number, isNew, apart⟩ := fresh _ _ _ whole 1 cls 1 [] value last news
  rw [isNew] at news
  have held : bound.scopes.local? 0 "a" = some (.object 0 cls) := rfl
  have met : Met (annals ++ before ++
      [.ends (.evaluation access) made (.ok (.function 1 closure) bound)]) (.object 0 cls) :=
    ⟨_, List.mem_append_right _ List.mem_cons_self, .inl (.scope held)⟩
  exact ⟨_, _, _, _, _, _, _, _, _, _, inside, cls, tells, whole, begins, gives, ⟨_, called⟩,
    number, last, news, apart 0 cls met⟩

end Lox
