import Lox.Proofs.Scoping.Steps

/-!
The steps around functions, methods and classes. A method is closed over the
scope around its class, or over one of its own that holds the superclass; it
becomes a function of the site it was written at once it is bound to a receiver,
as that adds the scope which the analysis has between the two.
-/

namespace Lox

namespace World

variable {known : Site → Prop} {world : World} {machine : Machine}
  {declaring : Option ScopeId}

theorem find_single {α : Type} (name key : String) (value : α) :
    (Names.ofList [(name, value)]).find? key = if key = name then some value else none := by
  simp only [Names.ofList, List.foldl_cons, List.foldl_nil, Names.find_set, Names.find_empty]

/-- A scope that holds one name only is ready for a walk that has marked just this. -/
theorem ready_single {name : String} {value : Value} {parent : ScopeId}
    {outer : List StaticScope} {inner : StaticScope} (inside : parent < world.scopes.size)
    (ready : world.Ready anyName outer parent) :
    (world.opened parent (.ofList [(name, value)]) inner).Ready anyName
      ((Names.empty.set name true) :: outer) world.scopes.size := by
  refine ⟨?_, parent, opened_parent inside, ready_later before_opened ready⟩
  intro key _ mark marked
  rw [Names.find_set, Names.find_empty] at marked
  split_ifs at marked with same
  left
  rw [opened, declares_extend, if_pos rfl, Names.contains, find_single, if_pos same]
  rfl

theorem single_covered {name : String} {value : Value} (key : String)
    (found : (Names.ofList [(name, value)]).contains key = true) :
    (Names.empty.set name true : StaticScope).contains key = true := by
  rw [Names.contains, find_single] at found
  split_ifs at found with same
  · rw [Names.contains, Names.find_set, if_pos same]
    rfl
  · cases found

theorem single_fits {name : String} {value : Value} (fits : world.Fits known value) (key : String)
    (held : Value) (found : (Names.ofList [(name, value)]).find? key = some held) :
    world.Fits known held := by
  rw [find_single] at found
  split_ifs at found
  cases found
  exact fits

section Steps

variable (holds : world.Holds known machine)

include holds

theorem bind_receiver_leads {method : Closure} {receiver : Value}
    (methodFits : world.MethodFits known method) (fits : world.Fits known receiver) :
    Leads known none
      (fun later bound => later.ClosureFits known bound ∧ bound.routine = method.routine) world
      machine.current (Run.bindReceiver method receiver machine) := by
  obtain ⟨site, outer, full, isKnown, node, scopes, fullSame, inside, view, ready⟩ := methodFits
  refine ⟨world.opened method.scope (.ofList [(receiverName, receiver)]) Analysis.receiverScope,
    before_opened, holds_opened holds inside single_covered (single_fits fits),
    ⟨rfl, rfl⟩, rfl, ?_, rfl⟩
  have size : machine.scopes.size = world.scopes.size := congrArg Scopes.size holds.scopes
  refine ⟨site, isKnown, node, ?_, ?_, ?_⟩
  · simp [opened, Scopes.size_extend, size]
  · rw [size, fullSame, ← view]
    simp [opened]
  · rw [size, scopes]
    exact ready_single inside ready

theorem result_leads (closure : Closure) {completion : Completion}
    (fits : ∀ value, completion = .returned value → world.Fits known value) :
    Leads known declaring (fun later value => later.Fits known value) world machine.current
      (Run.result closure completion machine) := by
  obtain ⟨value, ended, source⟩ := Run.result_source closure completion machine
  rw [ended]
  apply done_leads holds
  rcases source with rfl | bound | returned
  · trivial
  · rw [holds.scopes] at bound
    exact holds.sound.values _ _ value bound
  · exact fits value returned

theorem inherited_method_leads (place : Occurrence) (method : Token) :
    Leads known declaring
      (fun later found =>
        (∀ closure, found.1 = some closure → later.MethodFits known closure) ∧
          later.Fits known found.2) world machine.current
      (Run.inheritedMethod place method machine) := by
  have stored {id : ScopeId} {name : String} {value : Value}
      (found : machine.scopes.local? id name = some value) : world.Fits known value := by
    rw [holds.scopes] at found
    exact holds.sound.values id name value found
  rcases Run.inherited_method_cases place method machine with
    ⟨_, cls, receiver, -, above, inside, ended⟩ | ⟨_, -, ended⟩ <;> rw [ended]
  · have classFits : world.ClassFits known cls := stored above
    have fits : world.Fits known receiver := stored inside
    apply done_leads holds
    cases receiver with
    | classValue => exact ⟨fun _ found => classFits _ _ (.inr found), fits⟩
    | nil | boolean | number | string | native | function | object =>
        exact ⟨fun _ found => classFits _ _ (.inl found), fits⟩
  · exact fail_leads holds _ _

end Steps

/-- A method of a new class stems from one of its own routines or from its
superclass. -/
theorem method_of_class {identity : Nat} {name key : String} {scope : ScopeId}
    {methods classMethods : List Routine} {superclass : Option Class} {method : Closure}
    (found : Class.method? key ⟨identity, name, Run.methodTable methods scope true,
        Run.methodTable classMethods scope false, superclass⟩ = some method ∨
      Class.classMethod? key ⟨identity, name, Run.methodTable methods scope true,
        Run.methodTable classMethods scope false, superclass⟩ = some method) :
    (∃ routine, (routine ∈ methods ∨ routine ∈ classMethods) ∧ method.routine = routine ∧
      method.scope = scope) ∨
      ∃ cls, superclass = some cls ∧
        (cls.method? key = some method ∨ cls.classMethod? key = some method) := by
  have own {routines : List Routine} {initializers : Bool}
      (held : (Run.methodTable routines scope initializers).find? key = some method) :
      ∃ routine, routine ∈ routines ∧ method.routine = routine ∧ method.scope = scope := by
    obtain ⟨routine, member, same⟩ := List.mem_map.mp (Names.mem_of_find held)
    cases same
    exact ⟨routine, member, rfl, rfl⟩
  cases superclass with
  | none =>
      left
      rcases found with found | found
      · obtain ⟨routine, member, same⟩ := own found
        exact ⟨routine, .inl member, same⟩
      · obtain ⟨routine, member, same⟩ := own found
        exact ⟨routine, .inr member, same⟩
  | some cls =>
      rcases found with found | found
      · rcases Option.or_eq_some_iff.mp found with held | ⟨-, held⟩
        · obtain ⟨routine, member, same⟩ := own held
          exact .inl ⟨routine, .inl member, same⟩
        · exact .inr ⟨cls, rfl, .inl held⟩
      · rcases Option.or_eq_some_iff.mp found with held | ⟨-, held⟩
        · obtain ⟨routine, member, same⟩ := own held
          exact .inl ⟨routine, .inr member, same⟩
        · exact .inr ⟨cls, rfl, .inr held⟩

/-- What is known of a class right after it was made: its own methods lie in one
scope, which is the current one or a new one for the superclass. -/
def MadeClass (known : Site → Prop) (methods classMethods : List Routine)
    (superclass : Option Class) (current : ScopeId) (later : World) (value : Value) : Prop :=
  ∃ cls scope, value = .classValue cls ∧
    (∀ key method, cls.method? key = some method ∨ cls.classMethod? key = some method →
      (∃ routine, (routine ∈ methods ∨ routine ∈ classMethods) ∧ method.routine = routine ∧
        method.scope = scope) ∨ later.MethodFits known method) ∧
    match superclass with
    | none => scope = current
    | some _ => scope < later.scopes.size ∧
        later.view scope = Analysis.superclassScope :: later.view current ∧
        later.scopes.parent? scope = some current ∧
        later.scopes.declares scope superclassName = true

theorem make_class_leads (holds : world.Holds known machine)
    (inside : machine.current < world.scopes.size) (name : Token) {superclass : Option Class}
    (methods classMethods : List Routine)
    (fits : ∀ cls, superclass = some cls → world.ClassFits known cls) :
    Leads known none (MadeClass known methods classMethods superclass machine.current) world
      machine.current (Run.makeClass name superclass methods classMethods machine) := by
  cases superclass with
  | none =>
      refine ⟨world, .refl _, holds_after holds rfl rfl rfl rfl, ⟨rfl, rfl⟩, rfl,
        _, machine.current, rfl, ?_, rfl⟩
      intro key method found
      rcases method_of_class found with own | ⟨_, isClass, _⟩
      · exact .inl own
      · cases isClass
  | some cls =>
      have size : machine.scopes.size = world.scopes.size := congrArg Scopes.size holds.scopes
      have clsFits : world.Fits known (.classValue cls) := fits cls rfl
      let later := world.opened machine.current (.ofList [(superclassName, .classValue cls)])
        Analysis.superclassScope
      have before : Before none world later := before_opened
      have opened : later.Holds known { machine with
          scopes := machine.scopes.extend (some machine.current)
            (.ofList [(superclassName, .classValue cls)]) } :=
        holds_opened holds inside single_covered (single_fits clsFits)
      refine ⟨later, before, holds_after opened rfl rfl rfl rfl, ⟨rfl, rfl⟩, rfl,
        _, machine.scopes.size, rfl, ?_, ?_⟩
      · intro key method found
        rcases method_of_class found with own | ⟨_, isClass, inherited⟩
        · exact .inl own
        · cases isClass
          exact .inr (method_fits_later before (fits cls rfl key method inherited))
      · dsimp only
        rw [size]
        have apart : machine.current ≠ world.scopes.size := Nat.ne_of_lt inside
        refine ⟨?_, ?_, opened_parent inside, ?_⟩
        · simp [later, World.opened, Scopes.size_extend]
        · simp [later, World.opened, apart]
        · simp [later, World.opened, declares_extend, Names.contains, find_single]

end World

end Lox
