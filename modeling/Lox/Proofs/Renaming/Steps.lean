import Lox.Proofs.Renaming.Machines

/-!
Steps of two runs that are alike. Each step that constructs take on the machine, and
each way to combine runs, takes machines that are alike to machines that are alike
and gives results that are alike.
-/

namespace Lox

namespace Run.Alike

variable {recast : Recast} {views : Views} {flags : List Bool} {α β : Type}
  {alike : Views → α → α → Prop} {wanted : Views → β → β → Prop}

theorem pure {value value' : α} (same : ∀ later, views <+: later → alike later value value') :
    Run.Alike recast views flags alike (Pure.pure value) (Pure.pure value') :=
  fun later grows _ _ machines => ⟨later, List.prefix_refl _, .ok (same later grows) machines⟩

theorem bind {first first' : Run α} {next next' : α → Run β}
    (start : Run.Alike recast views flags alike first first')
    (rest : ∀ later, views <+: later → ∀ value value', alike later value value' →
      Run.Alike recast later flags wanted (next value) (next' value')) :
    Run.Alike recast views flags wanted (first >>= next) (first' >>= next') := by
  intro later grows machine machine' machines
  obtain ⟨middle, further, ends⟩ := start later grows machine machine' machines
  change ∃ last, _ ∧ Ends recast last flags wanted (EStateM.bind first next machine)
    (EStateM.bind first' next' machine')
  unfold EStateM.bind
  generalize first machine = ending at ends
  generalize first' machine' = ending' at ends
  cases ends with
  | error reason machines => exact ⟨middle, further, .error reason machines⟩
  | ok result machines =>
      obtain ⟨last, onwards, ends⟩ := rest middle (grows.trans further) _ _ result middle
        (List.prefix_refl _) _ _ machines
      exact ⟨last, further.trans onwards, ends⟩

theorem stop {halt halt' : Halt} (reason : halt.Alike recast halt') :
    Run.Alike recast views flags alike (throw halt) (throw halt') :=
  fun later _ _ _ machines => ⟨later, List.prefix_refl _, .error reason machines⟩

theorem fail (line : Nat) (cause : Fault) :
    Run.Alike recast views flags alike (Run.fail line cause) (Run.fail line cause) :=
  stop (.same _)

theorem blame {line : Nat} {outcome : Except Fault Value}
    (plain : ∀ value, outcome = .ok value → value.Alike recast views value) :
    Run.Alike recast views flags (Value.Alike recast) (Run.blame line outcome)
      (Run.blame line outcome) := by
  cases outcome with
  | error cause => exact fail line cause
  | ok value => exact pure fun later grows => (plain value rfl).later grows

/-- A step that neither fails nor makes a scope. -/
theorem step {action action' : Run α} (change : ∀ later, views <+: later →
    ∀ machine machine' : Machine, machine.Alike recast later flags machine' →
      Ends recast later flags alike (action machine) (action' machine')) :
    Run.Alike recast views flags alike action action' :=
  fun later grows machine machine' machines =>
    ⟨later, List.prefix_refl _, change later grows machine machine' machines⟩

theorem within {inner : List Bool} {scope : ScopeId} {action action' : Run α}
    (view : views[scope]? = some inner) (runs : Run.Alike recast views inner alike action action') :
    Run.Alike recast views flags alike (Run.within scope action) (Run.within scope action') := by
  intro later grows machine machine' machines
  have entered : Machine.Alike recast later inner { machine with current := scope }
      { machine' with current := scope } :=
    { machines with current := rfl, here := Views.kept grows view }
  obtain ⟨last, further, ends⟩ := runs later grows _ _ entered
  refine ⟨last, further, ?_⟩
  unfold Run.within
  dsimp only
  generalize action { machine with current := scope } = ending at ends
  generalize action' { machine' with current := scope } = ending' at ends
  have here := Views.kept further machines.here
  cases ends with
  | ok result machines' =>
      exact .ok result { machines' with current := machines.current, here := here }
  | error reason machines' =>
      exact .error reason { machines' with current := machines.current, here := here }

theorem nested {line : Nat} {action action' : Run α}
    (runs : Run.Alike recast views flags alike action action') :
    Run.Alike recast views flags alike (Run.nested line action) (Run.nested line action') := by
  intro later grows machine machine' machines
  unfold Run.nested
  rw [machines.depth]
  split_ifs
  · exact ⟨later, List.prefix_refl _, .error (.same _) machines⟩
  · have deeper : Machine.Alike recast later flags { machine with depth := machine.depth + 1 }
        { machine' with depth := machine.depth + 1 } := { machines with depth := rfl }
    obtain ⟨last, further, ends⟩ := runs later grows _ _ deeper
    refine ⟨last, further, ?_⟩
    generalize action { machine with depth := machine.depth + 1 } = ending at ends
    generalize action' { machine' with depth := machine.depth + 1 } = ending' at ends
    cases ends with
    | ok result machines' =>
        exact .ok result { machines' with depth := congrArg (· - 1) machines'.depth }
    | error reason machines' =>
        exact .error reason { machines' with depth := congrArg (· - 1) machines'.depth }

theorem current_scope : Run.Alike recast views flags
    (fun later scope scope' => scope' = scope ∧ later[scope]? = some flags)
    Run.currentScope Run.currentScope :=
  step fun _ _ _ _ machines => .ok ⟨machines.current, machines.here⟩ machines

theorem open_scope {parent : ScopeId} {inner : List Bool} {renamed : Bool}
    {names names' : Names Value} (view : views[parent]? = some inner)
    (spelled : names.Spelled recast views renamed names') :
    Run.Alike recast views flags
      (fun later scope scope' => scope' = scope ∧ later[scope]? = some (renamed :: inner))
      (Run.openScope parent names) (Run.openScope parent names') := by
  intro later grows machine machine' machines
  have further : later <+: later ++ [renamed :: inner] := List.prefix_append _ _
  have opened := machines.scopes.extend (Views.kept grows view)
    (fun name => option_rel_imp (spelled name) fun _ _ same => same.later grows)
  refine ⟨_, further, .ok ⟨machines.scopes.size_same, ?_⟩ ?_⟩
  · rw [machines.scopes.size, List.getElem?_concat_length]
  · exact { machines with
      scopes := opened
      top := Views.kept further machines.top
      here := Views.kept further machines.here
      fields := fun identity name =>
        option_rel_imp (machines.fields identity name) fun _ _ same => same.later further }

theorem define {name name' : String} {value value' : Value}
    (spelled : name' = recast.spelling (flags.headD false) name)
    (same : value.Alike recast views value') :
    Run.Alike recast views flags (fun _ _ _ => True) (Run.define name value)
      (Run.define name' value') :=
  step fun later grows machine machine' machines => .ok trivial
    { machines with
      scopes := by
        dsimp only
        rw [machines.current, spelled]
        exact machines.scopes.define machines.here name (same.later grows) }

end Run.Alike

namespace Machine.Alike

variable {recast : Recast} {views : Views} {flags : List Bool} {machine machine' : Machine}
  {place place' : Occurrence}

/-- The scope that an occurrence refers to, whether or not it has the name. -/
def target (machine : Machine) (place : Occurrence) : ScopeId :=
  match machine.distances[place.id]? with
  | some distance => machine.scopes.outwards machine.current distance
  | none => machine.globals

section

variable (alike : machine.Alike recast views flags machine')
  (occurs : recast.Occurs flags place place')

include alike occurs

theorem same_distance : machine'.distances[place'.id]? = machine.distances[place.id]? := by
  rw [occurs.id, alike.distances]

theorem same_target : target machine' place' = target machine place := by
  unfold target
  rw [same_distance alike occurs]
  cases machine.distances[place.id]? with
  | none => exact alike.globals
  | some distance =>
      dsimp only
      rw [alike.current, alike.scopes.outwards_same]

/-- The occurrence is spelled as in the scope that it refers to. -/
theorem target_spelling : ∃ view, views[target machine place]? = some view ∧
    place'.name.lexeme = recast.spelling (view.headD false) place.name.lexeme := by
  have spelled : place'.name.lexeme = recast.spelling
      (Recast.renamedAt flags machine.distances[place.id]?) place.name.lexeme := by
    rw [occurs.name.lexeme]
    rcases alike.reach with same | reach
    · rw [Recast.spelling_of_same same, Recast.spelling_of_same same]
    · rw [reach]
  unfold target
  cases found : machine.distances[place.id]? with
  | none =>
      rw [found] at spelled
      exact ⟨[], alike.top, spelled⟩
  | some distance =>
      rw [found] at spelled
      refine ⟨_, alike.scopes.outwards_view alike.here distance, spelled.trans ?_⟩
      rw [Recast.renamedAt, Option.bind_some, List.headD_eq_head?_getD, List.head?_drop]

end

theorem top_outermost (alike : machine.Alike recast views flags machine') :
    machine.scopes.parent? machine.globals = none := by
  cases around : machine.scopes.parent? machine.globals with
  | none => rfl
  | some parent =>
      obtain ⟨renamed, outer, view, -⟩ := alike.scopes.inner _ _ around
      rw [alike.top] at view
      cases view

omit recast views flags machine' place' in
theorem holder_eq (outermost : machine.scopes.parent? machine.globals = none) :
    Run.holder? machine place =
      if machine.scopes.declares (target machine place) place.name.lexeme then
        some (target machine place) else none := by
  unfold Run.holder? target
  cases machine.distances[place.id]? with
  | some distance => rfl
  | none => rw [Scopes.holder?, Scopes.chain_outermost _ outermost, List.find?_singleton]

section

variable (alike : machine.Alike recast views flags machine')
  (occurs : recast.Occurs flags place place')

include alike occurs

theorem same_holder : Run.holder? machine' place' = Run.holder? machine place := by
  obtain ⟨view, seen, spelled⟩ := target_spelling alike occurs
  have outermost : machine'.scopes.parent? machine'.globals = none := by
    rw [alike.globals, alike.scopes.parents, top_outermost alike]
  rw [holder_eq outermost, holder_eq (top_outermost alike), same_target alike occurs, spelled,
    alike.scopes.declares_same seen]

/-- Where an occurrence leads in one run, its value in the other is alike. -/
theorem held : Option.Rel (Value.Alike recast views)
    ((Run.holder? machine place).bind (machine.scopes.local? · place.name.lexeme))
    ((Run.holder? machine' place').bind (machine'.scopes.local? · place'.name.lexeme)) := by
  obtain ⟨view, seen, spelled⟩ := target_spelling alike occurs
  rw [same_holder alike occurs, holder_eq (top_outermost alike), spelled]
  split_ifs
  · exact alike.scopes.names _ view seen _
  · exact .none

theorem unknown : Halt.Alike recast
    (.failed (.fault place.name.line (Run.unknownName machine place)))
    (.failed (.fault place'.name.line (Run.unknownName machine' place'))) := by
  have spelled := target_spelling alike occurs
  have same := same_distance alike occurs
  unfold target at spelled
  unfold Run.unknownName
  rw [Std.TreeMap.contains_eq_isSome_getElem?, Std.TreeMap.contains_eq_isSome_getElem?, same,
    occurs.name.line]
  cases found : machine.distances[place.id]? with
  | none =>
      rw [found] at spelled
      obtain ⟨view, seen, spelled⟩ := spelled
      rw [alike.top] at seen
      cases seen
      rw [spelled]
      exact .same _
  | some distance =>
      obtain ⟨view, -, spelled⟩ := spelled
      rw [spelled, Option.isSome_some, if_pos rfl, if_pos rfl]
      rcases recast.spelling_fresh occurs.name.fresh (view.headD false) with kept | ⟨old, new⟩
      · rw [kept]
        exact .same _
      · rw [new, old]
        exact .unbound _

end

end Machine.Alike

namespace Run.Alike

variable {recast : Recast} {views : Views} {flags : List Bool}

section Places

variable {place place' : Occurrence} (occurs : recast.Occurs flags place place')

include occurs

theorem look_up : Run.Alike recast views flags (Value.Alike recast) (Run.lookUp place)
    (Run.lookUp place') := by
  apply step
  intro later grows machine machine' machines
  have held := machines.held occurs
  unfold Run.lookUp
  generalize (Run.holder? machine place).bind _ = value at held
  generalize (Run.holder? machine' place').bind _ = value' at held
  cases held with
  | none => exact .error (machines.unknown occurs) machines
  | some same => exact .ok same machines

theorem assign {value value' : Value} (same : value.Alike recast views value') :
    Run.Alike recast views flags (fun _ _ _ => True) (Run.assign place value)
      (Run.assign place' value') := by
  apply step
  intro later grows machine machine' machines
  obtain ⟨view, seen, spelled⟩ := machines.target_spelling occurs
  have unknown := machines.unknown occurs
  unfold Run.assign
  rw [machines.same_holder occurs, Machine.Alike.holder_eq machines.top_outermost]
  by_cases declared : machine.scopes.declares (Machine.Alike.target machine place)
      place.name.lexeme = true
  · rw [if_pos declared, spelled]
    exact .ok trivial
      { machines with scopes := machines.scopes.define seen _ (same.later grows) }
  · rw [if_neg declared]
    exact .error unknown machines

end Places

theorem fresh_identity : Run.Alike recast views flags
    (fun _ identity identity' => identity' = identity) Run.freshIdentity Run.freshIdentity :=
  step fun _ _ _ _ machines => .ok machines.identities
    { machines with identities := congrArg (· + 1) machines.identities }

theorem make_function {closure closure' : Closure} (same : closure.Alike recast views [] closure') :
    Run.Alike recast views flags (Value.Alike recast) (Run.makeFunction closure)
      (Run.makeFunction closure') := by
  apply fresh_identity.bind
  rintro later grows _ identity rfl
  exact pure fun last further => .function identity (same.later (grows.trans further))

theorem close_over {routine routine' : Routine}
    (inside : (Node.routine routine).Alike recast flags (.routine routine')) :
    Run.Alike recast views flags (Value.Alike recast) (Run.closeOver routine)
      (Run.closeOver routine') := by
  apply current_scope.bind
  rintro later grows scope scope' ⟨rfl, view⟩
  exact make_function ⟨rfl, rfl, flags, view, inside⟩

theorem make_instance {cls cls' : Class} (same : cls.Alike recast views cls') :
    Run.Alike recast views flags (Value.Alike recast) (Run.makeInstance cls)
      (Run.makeInstance cls') := by
  apply step
  intro later grows machine machine' machines
  have object := Value.Alike.object machine.fields.size (same.later grows)
  change Ends _ _ _ _ (.ok (Value.object machine.fields.size cls) _)
    (.ok (Value.object machine'.fields.size cls') _)
  rw [machines.objects]
  refine .ok object { machines with objects := ?_, fields := fun identity name => ?_ }
  · simp [machines.objects]
  · have before := machines.fields identity name
    simp only [Array.getElem?_push, machines.objects]
    split_ifs
    · exact .none
    · exact before

theorem field (identity : Nat) (name : String) :
    Run.Alike recast views flags (fun later => Option.Rel (Value.Alike recast later))
      (Run.field? identity name) (Run.field? identity name) :=
  step fun _ _ _ _ machines => .ok (machines.fields identity name) machines

theorem set_field (identity : Nat) (name : String) {value value' : Value}
    (same : value.Alike recast views value') :
    Run.Alike recast views flags (fun _ _ _ => True) (Run.setField identity name value)
      (Run.setField identity name value') := by
  apply step
  intro later grows machine machine' machines
  refine .ok trivial { machines with objects := ?_, fields := fun other key => ?_ }
  · simp [machines.objects]
  · have before := machines.fields other key
    have objects := machines.objects
    simp only [Array.getElem?_modify]
    split_ifs
    · cases first : machine.fields[other]? <;> cases second : machine'.fields[other]?
      case none.none => exact .none
      case some.some names names' =>
        rw [first, second] at before
        simp only [Option.map_some, Option.bind_some, Names.find_set] at before ⊢
        split_ifs
        · exact .some (same.later grows)
        · exact before
      all_goals
        simp only [Array.getElem?_eq_none_iff, Array.getElem?_eq_some_iff] at first second
        obtain ⟨inside, -⟩ := ‹∃ _, _›
        omega
    · exact before

theorem write (text : String) : Run.Alike recast views flags (fun _ _ _ => True) (Run.write text)
    (Run.write text) := by
  apply step
  intro later grows machine machine' machines
  unfold Run.write
  rw [machines.sink]
  cases machine.sink.write? text with
  | none => exact .error (.same _) machines
  | some sink => exact .ok trivial { machines with sink := rfl }

theorem print {value value' : Value} (same : value.Alike recast views value') :
    Run.Alike recast views flags (fun _ _ _ => True) (Run.print value) (Run.print value') := by
  unfold Run.print
  rw [same.same_text]
  exact (write _).bind fun _ _ _ _ _ => write _

theorem read_clock : Run.Alike recast views flags (Value.Alike recast) Run.readClock
    Run.readClock := by
  apply step
  intro later grows machine machine' machines
  have same := machines.time
  change Ends _ _ _ _ (.ok (Value.number (Float.ofNat machine.time / 1000000)) _)
    (.ok (Value.number (Float.ofNat machine'.time / 1000000)) _)
  rw [same]
  exact .ok (.number _) { machines with time := rfl }

theorem bind_receiver {method method' : Closure} {receiver receiver' : Value}
    (closures : method.Alike recast views [false] method')
    (same : receiver.Alike recast views receiver') :
    Run.Alike recast views flags (fun later => Closure.Alike recast later [])
      (Run.bindReceiver method receiver) (Run.bindReceiver method' receiver') := by
  obtain ⟨outer, view, inside⟩ := closures.routine
  have spelled := Names.Spelled.single (Recast.spelling_receiver false) same
  unfold Run.bindReceiver
  rw [closures.scope]
  apply (open_scope view spelled).bind
  rintro later grows scope scope' ⟨rfl, here⟩
  exact pure fun last further =>
    ⟨rfl, closures.yieldsReceiver, false :: outer, Views.kept further here, inside⟩

theorem result {closure closure' : Closure} {completion completion' : Completion}
    (closures : closure.Alike recast views [] closure')
    (same : completion.Alike recast views completion') :
    Run.Alike recast views flags (Value.Alike recast) (Run.result closure completion)
      (Run.result closure' completion') := by
  obtain ⟨outer, view, -⟩ := closures.routine
  unfold Run.result
  rw [closures.yieldsReceiver]
  split_ifs
  · apply step
    intro later grows machine machine' machines
    have found := machines.scopes.names _ _ (Views.kept grows view) receiverName
    rw [Recast.spelling_receiver] at found
    change Ends _ _ _ _
      (.ok ((machine.scopes.local? closure.scope receiverName).getD Value.nil) machine)
      (.ok ((machine'.scopes.local? closure'.scope receiverName).getD Value.nil) machine')
    rw [closures.scope]
    generalize machine.scopes.local? closure.scope receiverName = receiver at found
    generalize machine'.scopes.local? closure.scope receiverName = receiver' at found
    cases found with
    | none => exact .ok .nil machines
    | some same => exact .ok same machines
  · cases same with
    | normal => exact pure fun _ _ => .nil
    | returned same => exact pure fun _ grows => same.later grows

theorem make_class_within {scope : ScopeId} {inner : List Bool} {name : Token}
    {superclass superclass' : Option Class}
    {methods methods' classMethods classMethods' : List Routine}
    (view : views[scope]? = some inner)
    (above : Option.Rel (Class.Alike recast views) superclass superclass')
    (first : (Node.routines methods).Alike recast (false :: inner) (.routines methods'))
    (second : (Node.routines classMethods).Alike recast (false :: inner)
      (.routines classMethods')) :
    Run.Alike recast views flags (Value.Alike recast)
      (Run.freshIdentity >>= fun identity => Pure.pure (.classValue
        ⟨identity, name.lexeme, Run.methodTable methods scope true,
          Run.methodTable classMethods scope false, superclass⟩))
      (Run.freshIdentity >>= fun identity => Pure.pure (.classValue
        ⟨identity, name.lexeme, Run.methodTable methods' scope true,
          Run.methodTable classMethods' scope false, superclass'⟩)) := by
  apply fresh_identity.bind
  rintro later grows identity _ rfl
  refine pure fun last further => .classValue ?_
  have wider := grows.trans further
  have methodsAlike := (Names.MethodsAlike.of_table view true first).later wider
  have classMethodsAlike := (Names.MethodsAlike.of_table view false second).later wider
  cases above with
  | none => exact .base methodsAlike classMethodsAlike
  | some above => exact .derived methodsAlike classMethodsAlike (above.later wider)

theorem make_base_class {name : Token}
    {methods methods' classMethods classMethods' : List Routine}
    (first : (Node.routines methods).Alike recast (false :: flags) (.routines methods'))
    (second : (Node.routines classMethods).Alike recast (false :: flags)
      (.routines classMethods')) :
    Run.Alike recast views flags (Value.Alike recast)
      (Run.makeClass name none methods classMethods)
      (Run.makeClass name none methods' classMethods') := by
  apply current_scope.bind
  rintro later grows scope _ ⟨rfl, view⟩
  exact make_class_within view .none first second

theorem make_derived_class {name : Token} {superclass superclass' : Class}
    {methods methods' classMethods classMethods' : List Routine}
    (above : superclass.Alike recast views superclass')
    (first : (Node.routines methods).Alike recast (false :: false :: flags) (.routines methods'))
    (second : (Node.routines classMethods).Alike recast (false :: false :: flags)
      (.routines classMethods')) :
    Run.Alike recast views flags (Value.Alike recast)
      (Run.makeClass name (some superclass) methods classMethods)
      (Run.makeClass name (some superclass') methods' classMethods') := by
  apply current_scope.bind
  rintro later grows outer _ ⟨rfl, view⟩
  have spelled : (Names.ofList [(superclassName, .classValue superclass)]).Spelled recast later
      false (.ofList [(superclassName, .classValue superclass')]) :=
    .single rfl (.classValue (above.later grows))
  apply (open_scope view spelled).bind
  rintro last further scope _ ⟨rfl, here⟩
  exact make_class_within here (.some (above.later (grows.trans further))) first second

theorem inherited_method {place place' : Occurrence}
    (occurs : recast.Occurs flags place place') (method : Token) :
    Run.Alike recast views flags (fun later found found' =>
        Option.Rel (Closure.Alike recast later [false]) found.1 found'.1 ∧
          found.2.Alike recast later found'.2)
      (Run.inheritedMethod place method) (Run.inheritedMethod place' method) := by
  have looked : Run.Alike recast views flags
      (fun later machine machine' => machine.Alike recast later flags machine') get get :=
    step fun _ _ _ _ machines => .ok machines machines
  apply looked.bind
  intro later grows machine machine' machines
  obtain ⟨view, seen, spelled⟩ := machines.target_spelling occurs
  have unknown := machines.unknown occurs
  unfold Machine.Alike.target at seen
  unfold Run.unknownName at unknown
  rw [Std.TreeMap.contains_eq_isSome_getElem?, Std.TreeMap.contains_eq_isSome_getElem?,
    machines.same_distance occurs] at unknown
  dsimp only
  rw [machines.same_distance occurs, occurs.name.line]
  cases found : machine.distances[place.id]? with
  | none => exact fail _ _
  | some distance =>
      rw [found, Option.isSome_some, if_pos rfl, if_pos rfl, occurs.name.line] at unknown
      rw [found] at seen
      have held := machines.scopes.names _ _ seen place.name.lexeme
      have receiver := machines.scopes.names _ _
        (machines.scopes.outwards_view machines.here (distance - 1)) receiverName
      rw [Recast.spelling_receiver] at receiver
      rw [← spelled] at held
      simp only [Scopes.readAt?, machines.current, machines.scopes.outwards_same]
      generalize machine.scopes.local? _ place.name.lexeme = value at held ⊢
      generalize machine'.scopes.local? _ place'.name.lexeme = value' at held ⊢
      cases held with
      | none => exact stop unknown
      | some same =>
          cases same with
          | classValue above =>
              dsimp only
              generalize machine.scopes.local? _ receiverName = known at receiver ⊢
              generalize machine'.scopes.local? _ receiverName = known' at receiver ⊢
              cases receiver with
              | none => exact fail _ _
              | some same =>
                  refine pure fun last further => ?_
                  have answers := above.later further
                  have known := same.later further
                  cases same with
                  | classValue => exact ⟨answers.class_method _, known⟩
                  | nil | boolean | number | string | native | function | object =>
                      exact ⟨answers.method _, known⟩
          | nil | boolean | number | string | native | function | object => exact fail _ _

end Run.Alike

end Lox
