import Lox.Proofs.Joining.Twins
import Mathlib.Tactic.SplitIfs

/-!
Machines of two runs that keep abreast, and the steps that they take. The machines have
the same scopes around each other, with the same names in them; whatever step both take
from there, both do the same, or stop for the same reason.
-/

namespace Lox

structure Scopes.Abreast (leeway : Leeway) (scopes scopes' : Scopes Value) : Prop where
  size : scopes'.size = scopes.size
  parents : ∀ id, scopes'.parent? id = scopes.parent? id
  names : ∀ id name,
    Option.Rel (Value.Abreast leeway) (scopes.local? id name) (scopes'.local? id name)

namespace Scopes.Abreast

variable {leeway wider : Leeway} {scopes scopes' : Scopes Value}
  (abreast : scopes.Abreast leeway scopes')

include abreast

theorem widen (allows : leeway.Within wider) : scopes.Abreast wider scopes' where
  size := abreast.size
  parents := abreast.parents
  names id name := option_abreast_imp (abreast.names id name) fun _ _ same => same.widen allows

theorem same_outwards (id : ScopeId) (distance : Nat) :
    scopes'.outwards id distance = scopes.outwards id distance := by
  induction distance generalizing id with
  | zero => rfl
  | succ distance induction =>
      simp only [outwards, abreast.parents]
      cases scopes.parent? id with
      | none => rfl
      | some parent => exact induction parent

theorem same_declares (id : ScopeId) (name : String) :
    scopes'.declares id name = scopes.declares id name := by
  unfold declares
  have both := abreast.names id name
  generalize scopes.local? id name = value at both
  generalize scopes'.local? id name = value' at both
  cases both <;> rfl

theorem same_chain (bound : Nat) (id : ScopeId) :
    scopes'.chainWithin bound id = scopes.chainWithin bound id := by
  induction bound generalizing id with
  | zero => rfl
  | succ bound induction =>
      simp only [chainWithin, abreast.parents]
      cases scopes.parent? id with
      | none => rfl
      | some parent => exact congrArg (id :: ·) (induction parent)

theorem same_holder (id : ScopeId) (name : String) :
    scopes'.holder? id name = scopes.holder? id name := by
  unfold holder? chain
  rw [abreast.same_chain]
  congr 1
  funext other
  exact abreast.same_declares other name

theorem same_holder_at (id : ScopeId) (distance : Nat) (name : String) :
    scopes'.holderAt? id distance name = scopes.holderAt? id distance name := by
  unfold holderAt?
  dsimp only
  rw [abreast.same_outwards, abreast.same_declares]

theorem define (id : ScopeId) (name : String) {value value' : Value}
    (same : value.Abreast leeway value') :
    (scopes.define id name value).Abreast leeway (scopes'.define id name value') where
  size := by rw [size_define, size_define, abreast.size]
  parents other := by rw [parent_define, parent_define, abreast.parents]
  names other key := by
    rw [local_define, local_define, abreast.size]
    split_ifs
    · exact .some same
    · exact abreast.names other key

theorem extend (parent : Option ScopeId) {names names' : Names Value}
    (both : names.Abreast (Value.Abreast leeway) names') :
    (scopes.extend parent names).Abreast leeway (scopes'.extend parent names') where
  size := by rw [size_extend, size_extend, abreast.size]
  parents id := by rw [parent_extend, parent_extend, abreast.size, abreast.parents]
  names id name := by
    rw [local_extend, local_extend, abreast.size]
    split_ifs
    · exact both name
    · exact abreast.names id name

end Scopes.Abreast

/-- What the second run has written since it began to keep abreast is what the first one has. -/
structure Sink.Abreast (leeway : Leeway) (sink sink' : Sink) : Prop where
  room : sink'.room = sink.room
  writes : sink'.writes = sink.writes ++ leeway.earlier

structure Machine.Abreast (leeway : Leeway) (machine machine' : Machine) : Prop where
  scopes : machine.scopes.Abreast leeway machine'.scopes
  globals : machine'.globals = machine.globals
  current : machine'.current = machine.current
  depth : machine'.depth = machine.depth
  identities : machine'.identities = machine.identities
  sink : machine.sink.Abreast leeway machine'.sink
  time : machine'.time = machine.time
  objects : machine'.fields.size = machine.fields.size
  fields : ∀ (identity : Nat) name, Option.Rel (Value.Abreast leeway)
    (machine.fields[identity]?.bind (·.find? name)) (machine'.fields[identity]?.bind (·.find? name))
  distances : ∀ id, leeway.known id → machine'.distances[id]? = machine.distances[id]?

inductive Halt.Abreast (leeway : Leeway) : Halt → Halt → Prop where
  | exhausted : Abreast leeway .exhausted .exhausted
  | outputClosed : Abreast leeway (.failed .outputClosed) (.failed .outputClosed)
  | fault {line line' : Nat} (cause : Fault) (allowed : leeway.line line line') :
      Abreast leeway (.failed (.fault line cause)) (.failed (.fault line' cause))

/-- Ends of two runs: both give results that belong together, or both stop. -/
inductive Run.Arrive (leeway : Leeway) {α : Type} (related : α → α → Prop) :
    EStateM.Result Halt Machine α → EStateM.Result Halt Machine α → Prop where
  | ok {value value' : α} {after after' : Machine} (result : related value value')
      (machines : after.Abreast leeway after') :
      Arrive leeway related (.ok value after) (.ok value' after')
  | error {halt halt' : Halt} {after after' : Machine} (reason : halt.Abreast leeway halt')
      (machines : after.Abreast leeway after') :
      Arrive leeway related (.error halt after) (.error halt' after')

theorem Run.Arrive.of_ok {leeway : Leeway} {α : Type} {related : α → α → Prop}
    {ending ending' : EStateM.Result Halt Machine α}
    (arrive : Run.Arrive leeway related ending ending')
    {value : α} {after : Machine} (ended : ending = .ok value after) :
    ∃ value' after', ending' = .ok value' after' ∧ related value value' ∧
      after.Abreast leeway after' := by
  cases arrive with
  | ok result machines =>
      cases ended
      exact ⟨_, _, rfl, result, machines⟩
  | error reason machines => cases ended

/-- From machines that are abreast, both runs get to their ends abreast. -/
def Run.Abreast (leeway : Leeway) {α : Type} (related : α → α → Prop) (action action' : Run α) :
    Prop :=
  ∀ machine machine' : Machine, machine.Abreast leeway machine' →
    Run.Arrive leeway related (action machine) (action' machine')

namespace Run.Abreast

variable {leeway : Leeway} {α β : Type} {related : α → α → Prop} {wanted : β → β → Prop}

theorem pure {value value' : α} (same : related value value') :
    Run.Abreast leeway related (Pure.pure value) (Pure.pure value') :=
  fun _ _ machines => .ok same machines

theorem bind {first first' : Run α} {next next' : α → Run β}
    (start : Run.Abreast leeway related first first')
    (rest : ∀ value value', related value value' →
      Run.Abreast leeway wanted (next value) (next' value')) :
    Run.Abreast leeway wanted (first >>= next) (first' >>= next') := by
  intro machine machine' machines
  have begun := start machine machine' machines
  change Run.Arrive leeway wanted (EStateM.bind first next machine)
    (EStateM.bind first' next' machine')
  unfold EStateM.bind
  generalize first machine = ending at begun
  generalize first' machine' = ending' at begun
  cases begun with
  | error reason machines => exact .error reason machines
  | ok result machines => exact rest _ _ result _ _ machines

theorem stop {halt halt' : Halt} (reason : halt.Abreast leeway halt') :
    Run.Abreast leeway related (throw halt) (throw halt') :=
  fun _ _ machines => .error reason machines

theorem fail {line line' : Nat} (allowed : leeway.line line line') (cause : Fault) :
    Run.Abreast leeway related (Run.fail line cause) (Run.fail line' cause) :=
  stop (.fault cause allowed)

theorem blame {line line' : Nat} (allowed : leeway.line line line')
    {outcome : Except Fault Value}
    (plain : ∀ value, outcome = .ok value → value.Abreast leeway value) :
    Run.Abreast leeway (Value.Abreast leeway) (Run.blame line outcome)
      (Run.blame line' outcome) := by
  cases outcome with
  | error cause => exact fail allowed cause
  | ok value => exact pure (plain value rfl)

theorem within {scope : ScopeId} {action action' : Run α}
    (runs : Run.Abreast leeway related action action') :
    Run.Abreast leeway related (Run.within scope action) (Run.within scope action') := by
  intro machine machine' machines
  have entered : Machine.Abreast leeway { machine with current := scope }
      { machine' with current := scope } := { machines with current := rfl }
  have ends := runs _ _ entered
  unfold Run.within
  dsimp only
  generalize action { machine with current := scope } = ending at ends
  generalize action' { machine' with current := scope } = ending' at ends
  cases ends with
  | ok result after => exact .ok result { after with current := machines.current }
  | error reason after => exact .error reason { after with current := machines.current }

theorem nested {line line' : Nat} (allowed : leeway.line line line') {action action' : Run α}
    (runs : Run.Abreast leeway related action action') :
    Run.Abreast leeway related (Run.nested line action) (Run.nested line' action') := by
  intro machine machine' machines
  unfold Run.nested
  rw [machines.depth]
  split_ifs
  · exact .error (.fault _ allowed) machines
  · have deeper : Machine.Abreast leeway { machine with depth := machine.depth + 1 }
        { machine' with depth := machine.depth + 1 } := { machines with depth := rfl }
    have ends := runs _ _ deeper
    generalize action { machine with depth := machine.depth + 1 } = ending at ends
    generalize action' { machine' with depth := machine.depth + 1 } = ending' at ends
    cases ends with
    | ok result after => exact .ok result { after with depth := congrArg (· - 1) after.depth }
    | error reason after =>
        exact .error reason { after with depth := congrArg (· - 1) after.depth }

theorem current_scope : Run.Abreast leeway (fun scope scope' => scope' = scope)
    Run.currentScope Run.currentScope :=
  fun _ _ machines => .ok machines.current machines

theorem open_scope (parent : ScopeId) {names names' : Names Value}
    (both : names.Abreast (Value.Abreast leeway) names') :
    Run.Abreast leeway (fun scope scope' => scope' = scope) (Run.openScope parent names)
      (Run.openScope parent names') :=
  fun _ _ machines => .ok machines.scopes.size
    { machines with scopes := machines.scopes.extend (some parent) both }

theorem define (name : String) {value value' : Value} (same : value.Abreast leeway value') :
    Run.Abreast leeway (fun _ _ => True) (Run.define name value) (Run.define name value') :=
  fun machine machine' machines => .ok trivial
    { machines with
      scopes := by
        dsimp only
        rw [machines.current]
        exact machines.scopes.define machine.current name same }

section Places

variable {place place' : Occurrence} (twins : place.Twins leeway place')

include twins

theorem same_distance {machine machine' : Machine} (machines : machine.Abreast leeway machine') :
    machine'.distances[place'.id]? = machine.distances[place.id]? := by
  rw [twins.id, machines.distances _ twins.known]

theorem same_holder {machine machine' : Machine} (machines : machine.Abreast leeway machine') :
    Run.holder? machine' place' = Run.holder? machine place := by
  unfold Run.holder?
  rw [same_distance twins machines, twins.name.lexeme, machines.current, machines.globals]
  cases machine.distances[place.id]? with
  | none => exact machines.scopes.same_holder _ _
  | some distance => exact machines.scopes.same_holder_at _ _ _

theorem same_unknown {machine machine' : Machine} (machines : machine.Abreast leeway machine') :
    Run.unknownName machine' place' = Run.unknownName machine place := by
  unfold Run.unknownName
  rw [Std.TreeMap.contains_eq_isSome_getElem?, Std.TreeMap.contains_eq_isSome_getElem?,
    same_distance twins machines, twins.name.lexeme]

theorem look_up : Run.Abreast leeway (Value.Abreast leeway) (Run.lookUp place)
    (Run.lookUp place') := by
  intro machine machine' machines
  have held : Option.Rel (Value.Abreast leeway)
      ((Run.holder? machine place).bind (machine.scopes.local? · place.name.lexeme))
      ((Run.holder? machine' place').bind (machine'.scopes.local? · place'.name.lexeme)) := by
    rw [same_holder twins machines, twins.name.lexeme]
    cases Run.holder? machine place with
    | none => exact .none
    | some scope => exact machines.scopes.names scope _
  unfold Run.lookUp
  rw [same_unknown twins machines]
  generalize (Run.holder? machine place).bind _ = value at held
  generalize (Run.holder? machine' place').bind _ = value' at held
  cases held with
  | none => exact .error (.fault _ twins.name.line) machines
  | some same => exact .ok same machines

theorem assign {value value' : Value} (same : value.Abreast leeway value') :
    Run.Abreast leeway (fun _ _ => True) (Run.assign place value)
      (Run.assign place' value') := by
  intro machine machine' machines
  unfold Run.assign
  rw [same_holder twins machines, same_unknown twins machines, twins.name.lexeme]
  cases Run.holder? machine place with
  | none => exact .error (.fault _ twins.name.line) machines
  | some scope =>
      exact .ok trivial { machines with scopes := machines.scopes.define scope _ same }

end Places

theorem fresh_identity : Run.Abreast leeway (fun identity identity' => identity' = identity)
    Run.freshIdentity Run.freshIdentity :=
  fun _ _ machines => .ok machines.identities
    { machines with identities := congrArg (· + 1) machines.identities }

theorem make_function {closure closure' : Closure} (same : closure.Abreast leeway closure') :
    Run.Abreast leeway (Value.Abreast leeway) (Run.makeFunction closure)
      (Run.makeFunction closure') := by
  apply fresh_identity.bind
  rintro _ identity rfl
  exact pure (.function identity same)

theorem close_over {routine routine' : Routine} (same : routine.Abreast leeway routine') :
    Run.Abreast leeway (Value.Abreast leeway) (Run.closeOver routine)
      (Run.closeOver routine') := by
  apply current_scope.bind
  rintro _ scope rfl
  exact make_function ⟨rfl, rfl, same⟩

theorem make_instance {cls cls' : Class} (same : cls.Abreast leeway cls') :
    Run.Abreast leeway (Value.Abreast leeway) (Run.makeInstance cls)
      (Run.makeInstance cls') := by
  intro machine machine' machines
  have object := Value.Abreast.object machine.fields.size same
  change Run.Arrive _ _ (.ok (Value.object machine.fields.size cls) _)
    (.ok (Value.object machine'.fields.size cls') _)
  rw [machines.objects]
  refine .ok object { machines with objects := ?_, fields := fun identity name => ?_ }
  · simp [machines.objects]
  · have before := machines.fields identity name
    simp only [Array.getElem?_push, machines.objects]
    split_ifs
    · exact .none
    · exact before

theorem field (identity : Nat) (name : String) :
    Run.Abreast leeway (Option.Rel (Value.Abreast leeway)) (Run.field? identity name)
      (Run.field? identity name) :=
  fun _ _ machines => .ok (machines.fields identity name) machines

theorem set_field (identity : Nat) (name : String) {value value' : Value}
    (same : value.Abreast leeway value') :
    Run.Abreast leeway (fun _ _ => True) (Run.setField identity name value)
      (Run.setField identity name value') := by
  intro machine machine' machines
  refine .ok trivial { machines with objects := ?_, fields := fun other key => ?_ }
  · simp [machines.objects]
  · have before := machines.fields other key
    have objects := machines.objects
    simp only [Array.getElem?_modify]
    split_ifs
    · cases first : machine.fields[other]? <;> cases second : machine'.fields[other]?
      case none.none => exact .none
      case some.some names names' =>
        rw [first, second] at before
        simp only [Option.map_some, Option.bind_some, Names.find_set] at before ⊢
        split_ifs
        · exact .some same
        · exact before
      all_goals
        simp only [Array.getElem?_eq_none_iff, Array.getElem?_eq_some_iff] at first second
        obtain ⟨inside, -⟩ := ‹∃ _, _›
        omega
    · exact before

theorem write (text : String) :
    Run.Abreast leeway (fun _ _ => True) (Run.write text) (Run.write text) := by
  intro machine machine' machines
  obtain ⟨room, writes⟩ := machines.sink
  unfold Run.write Sink.write?
  rw [room]
  split_ifs
  · exact .ok trivial machines
  · exact .error .outputClosed machines
  · exact .ok trivial { machines with sink := ⟨rfl, congrArg (text :: ·) writes⟩ }

theorem print {value value' : Value} (same : value.Abreast leeway value') :
    Run.Abreast leeway (fun _ _ => True) (Run.print value) (Run.print value') := by
  unfold Run.print
  rw [same.same_text]
  exact (write _).bind fun _ _ _ => write _

theorem read_clock :
    Run.Abreast leeway (Value.Abreast leeway) Run.readClock Run.readClock := by
  intro machine machine' machines
  have same := machines.time
  change Run.Arrive _ _ (.ok (Value.number (Float.ofNat machine.time / 1000000)) _)
    (.ok (Value.number (Float.ofNat machine'.time / 1000000)) _)
  rw [same]
  exact .ok (.number _) { machines with time := rfl }

theorem bind_receiver {method method' : Closure} {receiver receiver' : Value}
    (closures : method.Abreast leeway method') (same : receiver.Abreast leeway receiver') :
    Run.Abreast leeway (Closure.Abreast leeway) (Run.bindReceiver method receiver)
      (Run.bindReceiver method' receiver') := by
  unfold Run.bindReceiver
  rw [closures.scope]
  apply (open_scope _ (.single receiverName same)).bind
  rintro _ scope rfl
  exact pure ⟨rfl, closures.yieldsReceiver, closures.routine⟩

theorem result {closure closure' : Closure} {completion completion' : Completion}
    (closures : closure.Abreast leeway closure')
    (same : completion.Abreast leeway completion') :
    Run.Abreast leeway (Value.Abreast leeway) (Run.result closure completion)
      (Run.result closure' completion') := by
  unfold Run.result
  rw [closures.yieldsReceiver]
  split_ifs
  · intro machine machine' machines
    have found := machines.scopes.names closure.scope receiverName
    change Run.Arrive _ _
      (.ok ((machine.scopes.local? closure.scope receiverName).getD Value.nil) machine)
      (.ok ((machine'.scopes.local? closure'.scope receiverName).getD Value.nil) machine')
    rw [closures.scope]
    generalize machine.scopes.local? closure.scope receiverName = receiver at found
    generalize machine'.scopes.local? closure.scope receiverName = receiver' at found
    cases found with
    | none => exact .ok .nil machines
    | some same => exact .ok same machines
  · cases same with
    | normal => exact pure .nil
    | returned same => exact pure same

theorem make_class_within (scope : ScopeId) {name name' : Token}
    (lexeme : name'.lexeme = name.lexeme)
    {superclass superclass' : Option Class}
    {methods methods' classMethods classMethods' : List Routine}
    (above : Option.Rel (Class.Abreast leeway) superclass superclass')
    (first : List.Forall₂ (Routine.Abreast leeway) methods methods')
    (second : List.Forall₂ (Routine.Abreast leeway) classMethods classMethods') :
    Run.Abreast leeway (Value.Abreast leeway)
      (Run.freshIdentity >>= fun identity => Pure.pure (.classValue
        ⟨identity, name.lexeme, Run.methodTable methods scope true,
          Run.methodTable classMethods scope false, superclass⟩))
      (Run.freshIdentity >>= fun identity => Pure.pure (.classValue
        ⟨identity, name'.lexeme, Run.methodTable methods' scope true,
          Run.methodTable classMethods' scope false, superclass'⟩)) := by
  apply fresh_identity.bind
  rintro _ identity rfl
  rw [lexeme]
  have methodsAbreast := method_table_abreast first scope true
  have classMethodsAbreast := method_table_abreast second scope false
  refine pure (.classValue ?_)
  cases above with
  | none => exact .base methodsAbreast classMethodsAbreast
  | some above => exact .derived methodsAbreast classMethodsAbreast above

theorem make_class {name name' : Token} (lexeme : name'.lexeme = name.lexeme)
    {superclass superclass' : Option Class}
    {methods methods' classMethods classMethods' : List Routine}
    (above : Option.Rel (Class.Abreast leeway) superclass superclass')
    (first : List.Forall₂ (Routine.Abreast leeway) methods methods')
    (second : List.Forall₂ (Routine.Abreast leeway) classMethods classMethods') :
    Run.Abreast leeway (Value.Abreast leeway)
      (Run.makeClass name superclass methods classMethods)
      (Run.makeClass name' superclass' methods' classMethods') := by
  apply current_scope.bind
  rintro _ outer rfl
  cases above with
  | none => exact make_class_within outer lexeme .none first second
  | some above =>
      apply (open_scope outer (.single superclassName (.classValue above))).bind
      rintro _ scope rfl
      exact make_class_within scope lexeme (.some above) first second

theorem inherited_method {place place' : Occurrence} (twins : place.Twins leeway place')
    {method method' : Token} (lexeme : method'.lexeme = method.lexeme) :
    Run.Abreast leeway (fun found found' =>
        Option.Rel (Closure.Abreast leeway) found.1 found'.1 ∧
          found.2.Abreast leeway found'.2)
      (Run.inheritedMethod place method) (Run.inheritedMethod place' method') := by
  have looked : Run.Abreast leeway (Machine.Abreast leeway) get get :=
    fun _ _ machines => .ok machines machines
  apply looked.bind
  intro machine machine' machines
  dsimp only
  rw [same_distance twins machines, twins.name.lexeme, lexeme]
  cases machine.distances[place.id]? with
  | none => exact fail twins.name.line _
  | some distance =>
      have held := machines.scopes.names (machine.scopes.outwards machine.current distance)
        place.name.lexeme
      have receiver := machines.scopes.names
        (machine.scopes.outwards machine.current (distance - 1)) receiverName
      simp only [Scopes.readAt?, machines.current, machines.scopes.same_outwards]
      generalize machine.scopes.local? _ place.name.lexeme = value at held ⊢
      generalize machine'.scopes.local? _ place.name.lexeme = value' at held ⊢
      cases held with
      | none => exact fail twins.name.line _
      | some same =>
          cases same with
          | classValue above =>
              dsimp only
              generalize machine.scopes.local? _ receiverName = known at receiver ⊢
              generalize machine'.scopes.local? _ receiverName = known' at receiver ⊢
              cases receiver with
              | none => exact fail twins.name.line _
              | some same =>
                  have known := same
                  cases same with
                  | classValue => exact pure ⟨above.class_method _, known⟩
                  | nil | boolean | number | string | native | function | object =>
                      exact pure ⟨above.method _, known⟩
          | nil | boolean | number | string | native | function | object =>
              exact fail twins.name.line _

end Run.Abreast

end Lox
