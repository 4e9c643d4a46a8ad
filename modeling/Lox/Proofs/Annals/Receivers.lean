import Lox.Proofs.Annals.Sessions
import Lox.Proofs.Joining.Supplies

/-!
Receivers that are kept for ever. A method that is bound knows its receiver through a scope that is
made for it alone. Whatever happens later, this scope holds the receiver and nothing else, and so
`self` is the same object in every later call of the method. The scope that a class declaration
makes for a superclass is kept in the same way.
-/

namespace Lox

theorem receiver_taken : ¬Free receiverName := fun free => free.1 rfl

theorem superclass_taken : ¬Free superclassName := fun free => free.2 rfl

/-- What a run that does not give up comes to does not depend on the supply. -/
theorem Run.evaluate_unique {first second : Nat} {value : Expression} {start after last : Machine}
    {result other : Value} (once : evaluate first value start = .ok result after)
    (again : evaluate second value start = .ok other last) : other = result ∧ last = after := by
  have longer {supply more : Nat} (enough : supply ≤ more) {result : Value} {after : Machine}
      (ended : evaluate supply value start = .ok result after) :
      evaluate more value start = .ok result after := by
    rcases (Run.parts_outlasted enough).evaluate value start with ⟨last, gaveUp⟩ | same
    · have stopped : evaluate supply value start = .error .exhausted last := gaveUp
      rw [ended] at stopped
      cases stopped
    · exact Eq.trans same ended
  have both := longer (Nat.le_max_left first second) once
  rw [longer (Nat.le_max_right first second) again] at both
  cases both
  exact ⟨rfl, rfl⟩

/-- The machine with one scope more, for a value alone. -/
def Machine.holding (machine : Machine) (parent : ScopeId) (name : String) (value : Value) :
    Machine :=
  { machine with scopes := machine.scopes.extend (some parent) (.ofList [(name, value)]) }

theorem Machine.holds_only_new (machine : Machine) (parent : ScopeId) (name : String)
    (value : Value) :
    (machine.holding parent name value).scopes.HoldsOnly machine.scopes.size name value := by
  rw [Scopes.HoldsOnly, Machine.holding, Scopes.names_extend, if_pos rfl]

section Binding

variable {before after machine : Machine} {method bound : Closure} {receiver : Value}

/-- A method that is bound gets a scope of its own for its receiver. -/
theorem Run.bind_receiver_eq (method : Closure) (receiver : Value) (before : Machine) :
    Run.bindReceiver method receiver before =
      .ok { method with scope := before.scopes.size }
        (before.holding method.scope receiverName receiver) := rfl

theorem Run.bind_receiver_ok (binds : Run.bindReceiver method receiver before = .ok bound after) :
    bound = { method with scope := before.scopes.size } ∧
      after = before.holding method.scope receiverName receiver := by
  rw [Run.bind_receiver_eq] at binds
  cases binds
  exact ⟨rfl, rfl⟩

/-- A class below another gets a scope of its own for its superclass. -/
theorem Run.make_class_scopes {name : Token} {superclass : Class}
    {methods classMethods : List Routine} {made : Value}
    (makes : Run.makeClass name (some superclass) methods classMethods before = .ok made after) :
    after.scopes =
      (before.holding before.current superclassName (.classValue superclass)).scopes := by
  have runs : ∃ value identities, Run.makeClass name (some superclass) methods classMethods before =
      .ok value { before.holding before.current superclassName (.classValue superclass) with
        identities := identities } := ⟨_, _, rfl⟩
  obtain ⟨value, identities, runs⟩ := runs
  rw [runs] at makes
  cases makes
  rfl

/-- The method that an object offers under a name, unless a field comes first. -/
def Machine.offered? (machine : Machine) (name : String) : Value → Option Closure
  | .object identity cls =>
      if (machine.field? identity name).isSome then none else cls.method? name
  | .classValue cls => cls.classMethod? name
  | _ => none

theorem property_offered {target : Value} {name : Token}
    (offered : machine.offered? name.lexeme target = some method) (parts : Parts Run) :
    parts.property target name machine = parts.access (some method) target name machine := by
  cases target with
  | object identity cls =>
      rw [property_of_instance]
      change (if (machine.field? identity name.lexeme).isSome then none else
        cls.method? name.lexeme) = some method at offered
      cases field : machine.field? identity name.lexeme with
      | some value =>
          rw [field] at offered
          cases offered
      | none =>
          rw [field] at offered
          exact offered ▸ rfl
  | classValue cls => exact congrArg (parts.access · _ name machine) offered
  | nil | boolean | number | string | native | function => cases offered

/-- A method that is no getter is bound, and nothing is called. -/
theorem access_binds (parts : Parts Run) (plain : method.routine.isGetter = false)
    (receiver : Value) (name : Token) (machine : Machine) :
    parts.access (some method) receiver name machine =
      .ok (.function machine.identities { method with scope := machine.scopes.size })
        { machine.holding method.scope receiverName receiver with
          identities := machine.identities + 1 } := by
  refine (bind_ok (Run.bind_receiver_eq method receiver machine)).trans ?_
  rw [if_neg (by rw [plain]; exact Bool.false_ne_true)]
  rfl

end Binding

/-- What `self` is where it is evaluated: the receiver that the call around it knows. -/
structure SelfSeen (past : List (Line × Machine)) (place : Occurrence) (machine : Machine)
    (called : Closure) (value : Value) : Prop where
  around : ∃ arguments start, Begun past (.call called arguments) start ∧
    start.scopes.size ∈ machine.scopes.chain machine.current
  nearest : machine.scopes.holder? machine.current receiverName = some called.scope
  yields : ∀ supply, evaluate (supply + 1) (.receiver place) machine = .ok value machine

/-- From now on the scope holds this receiver alone, and this is what calls of methods that know
the scope see as `self`. -/
structure ReceiverKept (past : List (Line × Machine)) (later : List Event) (scope : ScopeId)
    (receiver : Value) : Prop where
  held : ∀ event ∈ later, event.before.scopes.HoldsOnly scope receiverName receiver ∧
    event.after.scopes.HoldsOnly scope receiverName receiver
  entered : ∀ closure arguments machine, .begins (.call closure arguments) machine ∈ later →
    closure.scope = scope →
      (machine.entered closure arguments).scopes.read? machine.scopes.size receiverName =
        some receiver
  seen : ∀ place machine, .begins (.evaluation (.receiver place)) machine ∈ later →
    ∃ called value, SelfSeen past place machine called value ∧
      (called.scope = scope → value = receiver)

namespace Session

variable {past : List (Line × Machine)} {events earlier later : List Event} {event : Event}
  {scope : ScopeId} {receiver : Value}

/-- The body of a call finds the receiver just outside of its parameters. -/
theorem receiver_entered (tells : Tells past events) {closure : Closure} {arguments : List Value}
    {machine : Machine} (begins : .begins (.call closure arguments) machine ∈ events)
    (held : machine.scopes.HoldsOnly closure.scope receiverName receiver) :
    (machine.entered closure arguments).scopes.read? machine.scopes.size receiverName =
      some receiver := by
  obtain ⟨record, covers, -, placed, -⟩ := tells_placed tells begins
  have spelled := Record.placed_spelled covers.vetted placed
  have bare : (machine.entered closure arguments).scopes.Bare machine.scopes.size := by
    refine Record.bare_opened fun name declared => ?_
    obtain ⟨parameter, member, rfl⟩ := Record.parameter_name declared
    exact spelled parameter member
  have still : (machine.entered closure arguments).scopes.local? closure.scope receiverName =
      some receiver := by
    refine (Scopes.local_extend ..).trans ((if_neg (Nat.ne_of_lt held.inside)).trans ?_)
    rw [held.local_eq, if_pos rfl]
  have around : (machine.entered closure arguments).scopes.parent? machine.scopes.size =
      some closure.scope := Record.parent_opened held.inside _
  rw [Scopes.read?, Scopes.holder_outside around (bare receiverName receiver_taken),
    Scopes.holder_here (by rw [Scopes.declares, still]; rfl)]
  exact still

/-- In an accepted line `self` is what the call around it knows. -/
theorem self_seen (tells : Tells past events) {place : Occurrence} {machine : Machine}
    (begins : .begins (.evaluation (.receiver place)) machine ∈ events) :
    ∃ called value, SelfSeen past place machine called value ∧
      machine.scopes.local? called.scope receiverName = some value := by
  obtain ⟨record, covers, furnished, ⟨⟨_, analysis, full⟩, frames, framed, rfl, lies⟩, -⟩ :=
    tells_placed tells begins
  obtain ⟨home, scope, value, enclosed, found⟩ :=
    Record.receiver_bound covers.vetted ⟨furnished, framed, lies⟩
  obtain ⟨routine, -, -, called, arguments, start, begun, -, rfl, -, within, -⟩ := enclosed.method
  exact ⟨called, value, ⟨⟨arguments, start, covers.begun _ _ begun, within⟩,
    enclosed.bound.nearest, fun _ => found⟩, enclosed.bound.bound⟩

theorem receiver_kept (tells : Tells past events) (whole : events = earlier ++ event :: later)
    (held : event.after.scopes.HoldsOnly scope receiverName receiver) :
    ReceiverKept past later scope receiver := by
  obtain ⟨first, last, course⟩ := tells_course tells
  rw [whole] at course
  have kept := course.holds_on receiver_taken held
  have happens {other : Event} (member : other ∈ later) : other ∈ events :=
    whole ▸ List.mem_append_right _ (List.mem_cons_of_mem _ member)
  refine ⟨kept, ?_, ?_⟩
  · rintro closure arguments machine begins rfl
    exact receiver_entered tells (happens begins) (kept _ begins).1
  · intro place machine begins
    obtain ⟨called, value, seen, found⟩ := self_seen tells (happens begins)
    refine ⟨called, value, seen, ?_⟩
    rintro rfl
    have there : machine.scopes.HoldsOnly called.scope receiverName receiver := (kept _ begins).1
    rw [there.local_eq, if_pos rfl] at found
    exact (Option.some.inj found).symm

end Session

/-- What an access to a property comes to is the property of what the object comes to. -/
theorem get_ok {supply : Nat} {object : Expression} {name : Token} {start after : Machine}
    {value : Value} (ended : evaluate supply (.get object name) start = .ok value after) :
    ∃ fewer target middle, evaluate fewer object start = .ok target middle ∧
      (Parts.supplied fewer).property target name middle = .ok value after := by
  cases supply with
  | zero => cases ended
  | succ fewer =>
      obtain ⟨target, middle, evaluated, ended⟩ := of_bind_ok ended
      exact ⟨fewer, target, middle, evaluated, ended⟩

/-- An access in a session comes to the property of whatever its object comes to. -/
theorem Session.property_taken {past : List (Line × Machine)} {events : List Event}
    {object : Expression} {name : Token} {start middle after : Machine} {value target : Value}
    {supply : Nat} (tells : Tells past events)
    (happens : .ends (.evaluation (.get object name)) start (.ok value after) ∈ events)
    (evaluated : evaluate supply object start = .ok target middle) :
    ∃ fewer, (Parts.supplied fewer).property target name middle = .ok value after := by
  obtain ⟨-, -, -, -, more, ended⟩ := tells_occur tells happens
  obtain ⟨fewer, found, between, evaluatedFirst, ended⟩ := get_ok ended
  obtain ⟨rfl, rfl⟩ := Run.evaluate_unique evaluatedFirst evaluated
  exact ⟨fewer, ended⟩

/-- Whatever happens in a session: the scope that a method is bound through holds its receiver and
nothing else, from then on and for ever, and this receiver is what `self` is in all calls that know
the scope; the scope that a class declaration makes for a superclass holds this and nothing else; no
two methods are bound through one scope; and no other scope ever holds a receiver or a superclass
next to something else. So a method that is taken from an object keeps to this object. -/
theorem receivers_never_change {past : List (Line × Machine)} {events : List Event}
    (tells : Session.Tells past events) :
    (∀ earlier before after later method receiver bound,
      events = earlier ++ .step before after :: later →
      Run.bindReceiver method receiver before = .ok bound after →
        before.scopes.names? bound.scope = none ∧
        after.scopes.HoldsOnly bound.scope receiverName receiver ∧
        ReceiverKept past later bound.scope receiver) ∧
    (∀ earlier before after later name superclass methods classMethods made,
      events = earlier ++ .step before after :: later →
      Run.makeClass name (some superclass) methods classMethods before = .ok made after →
        before.scopes.names? before.scopes.size = none ∧
        after.scopes.HoldsOnly before.scopes.size superclassName (.classValue superclass) ∧
        ∀ event ∈ later,
          event.before.scopes.HoldsOnly before.scopes.size superclassName (.classValue superclass) ∧
          event.after.scopes.HoldsOnly before.scopes.size superclassName (.classValue superclass)) ∧
    (∀ earlier before after between start next later method receiver bound other another again,
      events = earlier ++ .step before after :: (between ++ .step start next :: later) →
      Run.bindReceiver method receiver before = .ok bound after →
      Run.bindReceiver other another start = .ok again next →
        again.scope ≠ bound.scope) ∧
    (∀ event ∈ events, event.before.scopes.Secluded ∧ event.after.scopes.Secluded) ∧
    ∀ earlier object name start value after later,
      events = earlier ++ .ends (.evaluation (.get object name)) start (.ok value after) :: later →
      ∀ supply target middle method, evaluate supply object start = .ok target middle →
        middle.offered? name.lexeme target = some method → method.routine.isGetter = false →
          ∃ identity closure, value = .function identity closure ∧
            closure.routine = method.routine ∧
            after.scopes.HoldsOnly closure.scope receiverName target ∧
            ReceiverKept past later closure.scope target := by
  obtain ⟨first, last, course⟩ := Session.tells_course tells
  refine ⟨?_, ?_, ?_, ?_, ?_⟩
  · intro earlier before after later method receiver bound whole binds
    obtain ⟨rfl, rfl⟩ := Run.bind_receiver_ok binds
    have held := before.holds_only_new method.scope receiverName receiver
    exact ⟨Scopes.names_beyond _ (Nat.le_refl _), held, Session.receiver_kept tells whole held⟩
  · intro earlier before after later name superclass methods classMethods made whole makes
    have held : after.scopes.HoldsOnly before.scopes.size superclassName
        (.classValue superclass) := by
      rw [Run.make_class_scopes makes]
      exact before.holds_only_new before.current superclassName (.classValue superclass)
    rw [whole] at course
    exact ⟨Scopes.names_beyond _ (Nat.le_refl _), held, course.holds_on superclass_taken held⟩
  · intro earlier before after between start next later method receiver bound other another again
      whole binds bindsAgain
    obtain ⟨rfl, rfl⟩ := Run.bind_receiver_ok binds
    obtain ⟨rfl, rfl⟩ := Run.bind_receiver_ok bindsAgain
    rw [whole] at course
    have leads := course.leads_on (List.mem_append_right between List.mem_cons_self)
    have held := before.holds_only_new method.scope receiverName receiver
    exact Nat.ne_of_gt (Nat.lt_of_lt_of_le held.inside leads.scopes.size)
  · intro event happens
    have regular := Session.tells_regular tells happens
    exact ⟨regular.before.secluded, regular.after.secluded⟩
  · intro earlier object name start value after later whole supply target middle method evaluated
      offered plain
    have happens := whole ▸ List.mem_append_right earlier List.mem_cons_self
    obtain ⟨fewer, ended⟩ := Session.property_taken tells happens evaluated
    rw [property_offered offered, access_binds _ plain] at ended
    cases ended
    have held := middle.holds_only_new method.scope receiverName target
    exact ⟨_, _, rfl, rfl, held, Session.receiver_kept tells whole held⟩

/-- The method of one object, stored in another and called there. -/
theorem receiver_never_changes_in_other_object :
    ∃ past events earlier object name start identity closure after later place machine cls,
      Session.Tells past events ∧
      events = earlier ++
        .ends (.evaluation (.get object name)) start (.ok (.function identity closure) after) ::
          later ∧
      .begins (.evaluation (.receiver place)) machine ∈ later ∧
      machine.field? 1 "f" = some (.function identity closure) ∧
      ReceiverKept past later closure.scope (.object 0 cls) ∧
      evaluate 1 (.receiver place) machine = .ok (.object 0 cls) machine := by
  let identifier (text : String) : Token := ⟨.identifier, text, 1⟩
  let place : Occurrence := ⟨0, ⟨.selfWord, "self", 1⟩⟩
  let method : Routine := ⟨some (identifier "m"), some [], [.expression (.receiver place)]⟩
  let calling (callee : Expression) : Expression := .call callee ⟨.rightParen, ")", 1⟩ []
  let reference (id : Nat) (text : String) : Expression := .reference ⟨id, identifier text⟩
  let access : Expression := .get (reference 4 "a") (identifier "m")
  let declaring : Line := .statements [.classDeclaration (identifier "A") none [method] []]
  let making : Line := .statements [
    .variableDeclaration (identifier "a") (some (calling (reference 1 "A"))),
    .variableDeclaration (identifier "b") (some (calling (reference 2 "A")))]
  let storing : Statement := .expression (.set (reference 3 "b") (identifier "f") access)
  let asking : Statement := .expression (calling (.get (reference 5 "b") (identifier "f")))
  let cls : Class := ⟨0, "A", Run.methodTable [method] 0 true, Run.methodTable [] 0 false, none⟩
  let start : Machine := { Machine.start ⟨.unlimited, []⟩ 0 with
    distances := (∅ : Std.TreeMap Nat Nat).insert 0 1 }
  let declared : Machine := { start with
    scopes := start.scopes.define 0 "A" (.classValue cls)
    identities := 1 }
  let made : Machine := { declared with
    scopes := (declared.scopes.define 0 "a" (.object 0 cls)).define 0 "b" (.object 1 cls)
    fields := #[.empty, .empty] }
  let closure : Closure := ⟨method, 1, false⟩
  let bound : Machine := { made.holding 0 "self" (.object 0 cls) with identities := 2 }
  let stored : Machine := { bound with fields := #[.empty, ⟨[("f", .function 1 closure)]⟩] }
  let inside : Machine := { stored with
    scopes := stored.scopes.extend (some 1) (.ofList [])
    current := 2
    depth := 1 }
  have receivedFirst : (Session.start ⟨.unlimited, []⟩ 0).receive
      (.program "class A \x7b m() \x7b self; \x7d \x7d") = (.ok declaring, ⟨start, 1⟩) := by rfl
  have enteredFirst : (Session.start ⟨.unlimited, []⟩ 0).enter 1
      (.program "class A \x7b m() \x7b self; \x7d \x7d") = some ⟨declared, 1⟩ := by
    rw [Session.enter_eq, receivedFirst]
    rfl
  have receivedSecond : (Session.mk declared 1).receive (.program "var a = A(); var b = A();") =
      (.ok making, ⟨declared, 3⟩) := by rfl
  have enteredSecond : (Session.mk declared 1).enter 3 (.program "var a = A(); var b = A();") =
      some ⟨made, 3⟩ := by
    rw [Session.enter_eq, receivedSecond]
    rfl
  have receivedThird : (Session.mk made 3).receive (.program "b.f = a.m;") =
      (.ok (.statements [storing]), ⟨made, 5⟩) := by rfl
  have stores : execute 4 storing made = .ok .normal stored := by rfl
  have receivedLast : (Session.mk stored 5).receive (.program "b.f();") =
      (.ok (.statements [asking]), ⟨stored, 6⟩) := by rfl
  let annals : List Event := [] ++ declaring.annals 1 start ++ making.annals 3 declared
  let onwards : List Event := Line.annals 5 (.statements [asking]) stored
  have tells : Session.Tells _ (annals ++ Line.annals 4 (.statements [storing]) made ++ onwards) :=
    .running (.accepted (.accepted (.accepted (.start ⟨.unlimited, []⟩ 0) receivedFirst
      enteredFirst) receivedSecond enteredSecond) receivedThird
      (Session.enter_statement receivedThird stores)) receivedLast 5
  have twelfth : (Line.annals 4 (.statements [storing]) made)[12]? =
      some (.ends (.evaluation access) made (.ok (.function 1 closure) bound)) := by
    rw [Line.annals_statement]
    rfl
  obtain ⟨before, between, isHere⟩ := List.append_of_mem (List.mem_of_getElem? twelfth)
  have whole : annals ++ Line.annals 4 (.statements [storing]) made ++ onwards =
      annals ++ before ++ .ends (.evaluation access) made (.ok (.function 1 closure) bound) ::
        (between ++ onwards) := by
    rw [isHere]
    simp only [List.append_assoc, List.cons_append]
  have eleventh : onwards[11]? = some (.begins (.evaluation (.receiver place)) inside) := by
    change (Line.annals ..)[11]? = _
    rw [Line.annals_statement]
    rfl
  have begins : .begins (.evaluation (.receiver place)) inside ∈ between ++ onwards :=
    List.mem_append_right _ (List.mem_of_getElem? eleventh)
  have evaluated : evaluate 1 (reference 4 "a") made = .ok (.object 0 cls) made := by rfl
  obtain ⟨identity, taken, isFunction, -, -, kept⟩ := (receivers_never_change tells).2.2.2.2 _ _ _
    _ _ _ _ whole 1 _ _ ⟨method, 0, false⟩ evaluated rfl rfl
  cases isFunction
  obtain ⟨called, value, seen, same⟩ := kept.seen place inside begins
  have nearest : some 1 = some called.scope := seen.nearest
  cases same (Option.some.inj nearest).symm
  exact ⟨_, _, _, _, _, _, _, _, _, _, place, inside, cls, tells, whole, begins, rfl, kept,
    seen.yields 0⟩

end Lox
