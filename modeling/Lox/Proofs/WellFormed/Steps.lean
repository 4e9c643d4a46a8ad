import Lox.Proofs.Receivers.Steps
import Lox.Proofs.WellFormed.Rules

/-!
Machines that have run nothing but well-formed code. The functions on such a machine, those that
are methods included, are well formed themselves. Each primitive step leaves it so, gives back what
is well formed, and if it fails, then not for want of an operator.
-/

namespace Lox

def Closure.WellFormed (closure : Closure) : Prop := (Node.routine closure.routine).WellFormed

def Class.WellFormed (cls : Class) : Prop :=
  ∀ ofClass name method, cls.answer? ofClass name = some method → method.WellFormed

/-- All functions that can be got from the value are well formed. -/
def Value.WellFormed : Value → Prop
  | .function _ closure => closure.WellFormed
  | .classValue cls | .object _ cls => cls.WellFormed
  | _ => True

def Completion.WellFormed : Completion → Prop
  | .normal => True
  | .returned value => value.WellFormed

structure Machine.WellFormed (machine : Machine) : Prop where
  scopes : ∀ id name value, machine.scopes.local? id name = some value → value.WellFormed
  fields : ∀ (identity : Nat) (name : String) value,
    machine.fields[identity]?.bind (·.find? name) = some value → value.WellFormed

/-- The complaint is that there is no such operator. -/
def Fault.MissesOperator : Fault → Prop
  | .invalidUnaryOperator | .invalidBinaryOperator => True
  | _ => False

def Diagnostic.MissesOperator : Diagnostic → Prop
  | .fault _ cause => cause.MissesOperator
  | _ => False

def Halt.MissesOperator : Halt → Prop
  | .failed diagnostic => diagnostic.MissesOperator
  | .exhausted => False

section Operators

/-- What an operator of the grammar comes to. -/
def Operated : Except Fault Value → Prop
  | .ok value => value.WellFormed
  | .error cause => ¬cause.MissesOperator

theorem unary_operated {operator : Kind} (known : operator ∈ [Kind.bang, .minus])
    (operand : Value) : Operated (unaryResult operator operand) := by
  simp only [List.mem_cons, List.not_mem_nil, or_false] at known
  rcases known with rfl | rfl
  · exact trivial
  · cases operand <;> first | exact trivial | exact not_false

theorem numbers_operated {left right : Value} {combined : Float × Float → Except Fault Value}
    (each : ∀ numbers, Operated (combined numbers)) :
    Operated (numberOperands left right >>= combined) := by
  cases left <;> cases right <;> first | exact each _ | exact not_false

theorem comparison_operated (numbers : Float → Float → Bool) (strings : String → String → Bool)
    (left right : Value) : Operated (comparison numbers strings left right) := by
  cases left <;> cases right <;> first | exact trivial | exact not_false

theorem binary_operated {operator : Kind} (known : operator ∈ [Kind.plus, .minus, .star, .slash,
      .equalEqual, .bangEqual, .less, .lessEqual, .greater, .greaterEqual]) (left right : Value) :
    Operated (binaryResult operator left right) := by
  simp only [List.mem_cons, List.not_mem_nil, or_false] at known
  rcases known with rfl | rfl | rfl | rfl | rfl | rfl | rfl | rfl | rfl | rfl
  · cases left <;> cases right <;> first | exact trivial | exact not_false
  · exact numbers_operated fun _ => trivial
  · exact numbers_operated fun _ => trivial
  · refine numbers_operated fun numbers => ?_
    dsimp only
    split_ifs
    · exact not_false
    · exact trivial
  · exact trivial
  · exact trivial
  all_goals exact comparison_operated _ _ left right

end Operators

variable {α β : Type}

/-- The machine and the result are well formed, and no operator is missing. -/
def Ending.Safe (good : α → Prop) : Ending α → Prop
  | .ok value after => after.WellFormed ∧ good value
  | .error halt after => after.WellFormed ∧ ¬halt.MissesOperator

/-- Where all that has been run is well formed, the run ends safely. -/
def Run.Safe (good : α → Prop) (action : Run α) : Prop :=
  ∀ machine : Machine, machine.WellFormed → Ending.Safe good (action machine)

namespace Machine.WellFormed

variable {machine : Machine} (fine : machine.WellFormed)

include fine

theorem defined (id : ScopeId) (name : String) {value : Value} (isFine : value.WellFormed) :
    Machine.WellFormed { machine with scopes := machine.scopes.define id name value } where
  scopes other key held found := by
    rw [Scopes.local_define] at found
    split_ifs at found
    · cases found
      exact isFine
    · exact fine.scopes other key held found
  fields := fine.fields

theorem extended (parent : Option ScopeId) {names : Names Value}
    (areFine : ∀ name value, names.find? name = some value → value.WellFormed) :
    Machine.WellFormed { machine with scopes := machine.scopes.extend parent names } where
  scopes other key held found := by
    rw [Scopes.local_extend] at found
    split_ifs at found
    · exact areFine key held found
    · exact fine.scopes other key held found
  fields := fine.fields

end Machine.WellFormed

theorem single_fine {name : String} {value : Value} (isFine : value.WellFormed) (key : String)
    (held : Value) (found : (Names.ofList [(name, value)]).find? key = some held) :
    held.WellFormed := by
  rw [World.find_single] at found
  split_ifs at found
  cases found
  exact isFine

namespace Run

variable {good : α → Prop} {wanted : β → Prop}

theorem pure_safe {value : α} (isGood : good value) : Safe good (pure value : Run α) :=
  fun _ fine => ⟨fine, isGood⟩

theorem fail_safe (line : Nat) {cause : Fault} (other : ¬cause.MissesOperator) :
    Safe good (fail line cause : Run α) := fun _ fine => ⟨fine, other⟩

theorem bind_safe {first : Run α} {next : α → Run β} (safe : first.Safe good)
    (rest : ∀ value, good value → (next value).Safe wanted) : Safe wanted (first >>= next) := by
  intro machine fine
  have begun := safe machine fine
  cases ended : first machine with
  | error halt after =>
      rw [ended] at begun
      rw [bind_error ended]
      exact begun
  | ok value after =>
      rw [ended] at begun
      rw [bind_ok ended]
      exact rest value begun.2 after begun.1

theorem within_safe {action : Run α} (scope : ScopeId) (inner : action.Safe good) :
    Safe good (Run.within scope action) := by
  intro machine fine
  have inside := inner { machine with current := scope } ⟨fine.scopes, fine.fields⟩
  unfold Run.within
  cases ended : action { machine with current := scope } <;> rw [ended] at inside <;>
    exact ⟨⟨inside.1.scopes, inside.1.fields⟩, inside.2⟩

theorem nested_safe {action : Run α} (line : Nat) (inner : action.Safe good) :
    Safe good (Run.nested line action) := by
  intro machine fine
  have inside := inner { machine with depth := machine.depth + 1 } ⟨fine.scopes, fine.fields⟩
  unfold Run.nested
  split_ifs
  · exact ⟨fine, not_false⟩
  · cases ended : action { machine with depth := machine.depth + 1 } <;> rw [ended] at inside <;>
      exact ⟨⟨inside.1.scopes, inside.1.fields⟩, inside.2⟩

theorem blame_safe (line : Nat) {outcome : Except Fault Value} (operated : Operated outcome) :
    (blame line outcome).Safe Value.WellFormed := by
  cases outcome with
  | ok value => exact pure_safe operated
  | error cause => exact fail_safe line operated

theorem unknown_name_other (machine : Machine) (place : Occurrence) :
    ¬(unknownName machine place).MissesOperator := by
  unfold unknownName
  split_ifs <;> exact not_false

theorem look_up_safe (place : Occurrence) : (lookUp place).Safe Value.WellFormed := by
  intro machine fine
  rcases look_up_cases place machine with ⟨scope, value, -, held, ended⟩ | ended <;> rw [ended]
  · exact ⟨fine, fine.scopes scope _ value held⟩
  · exact ⟨fine, unknown_name_other machine place⟩

theorem assign_safe (place : Occurrence) {value : Value} (isFine : value.WellFormed) :
    (assign place value).Safe fun _ => True := by
  intro machine fine
  rcases assign_cases place value machine with ⟨scope, -, ended⟩ | ⟨-, ended⟩ <;> rw [ended]
  · exact ⟨fine.defined scope _ isFine, trivial⟩
  · exact ⟨fine, unknown_name_other machine place⟩

theorem define_safe (name : String) {value : Value} (isFine : value.WellFormed) :
    (define name value).Safe fun _ => True :=
  fun machine fine => ⟨fine.defined machine.current name isFine, trivial⟩

theorem current_scope_safe : currentScope.Safe fun _ => True := fun _ fine => ⟨fine, trivial⟩

theorem open_scope_safe (parent : ScopeId) {names : Names Value}
    (areFine : ∀ name value, names.find? name = some value → value.WellFormed) :
    (openScope parent names).Safe fun _ => True :=
  fun _ fine => ⟨fine.extended (some parent) areFine, trivial⟩

theorem make_function_safe {closure : Closure} (isFine : closure.WellFormed) :
    (makeFunction closure).Safe Value.WellFormed :=
  fun _ fine => ⟨⟨fine.scopes, fine.fields⟩, isFine⟩

theorem close_over_safe {routine : Routine} (isFine : (Node.routine routine).WellFormed) :
    (closeOver routine).Safe Value.WellFormed :=
  bind_safe current_scope_safe fun _ _ => make_function_safe isFine

theorem make_instance_safe {cls : Class} (isFine : cls.WellFormed) :
    (makeInstance cls).Safe Value.WellFormed := by
  intro machine fine
  refine ⟨⟨fine.scopes, fun identity name value found => ?_⟩, isFine⟩
  obtain ⟨names, isObject, held⟩ := Option.bind_eq_some_iff.mp found
  exact fine.fields identity name value
    (Option.bind_eq_some_iff.mpr ⟨names, field_before_instance isObject held, held⟩)

theorem field_safe (identity : Nat) (name : String) :
    (field? identity name).Safe fun found => ∀ value ∈ found, value.WellFormed :=
  fun _ fine => ⟨fine, fun value found => fine.fields identity name value found⟩

theorem set_field_safe (identity : Nat) (name : String) {value : Value}
    (isFine : value.WellFormed) : (setField identity name value).Safe fun _ => True := by
  intro machine fine
  refine ⟨⟨fine.scopes, fun other key held found => ?_⟩, trivial⟩
  obtain ⟨names, isObject, stored⟩ := Option.bind_eq_some_iff.mp found
  rcases field_before_set isObject stored with rfl | before
  · exact isFine
  · exact fine.fields other key held (Option.bind_eq_some_iff.mpr before)

theorem print_safe (value : Value) : (print value).Safe fun _ => True := by
  intro machine fine
  obtain ⟨sink, ended | ended⟩ := print_cases value machine <;> rw [ended]
  · exact ⟨⟨fine.scopes, fine.fields⟩, trivial⟩
  · exact ⟨⟨fine.scopes, fine.fields⟩, not_false⟩

theorem read_clock_safe : readClock.Safe Value.WellFormed :=
  fun _ fine => ⟨⟨fine.scopes, fine.fields⟩, trivial⟩

theorem bind_receiver_safe {method : Closure} {receiver : Value} (isFine : method.WellFormed)
    (receives : receiver.WellFormed) : (bindReceiver method receiver).Safe Closure.WellFormed :=
  bind_safe (open_scope_safe _ (single_fine receives)) fun _ _ => pure_safe isFine

theorem result_safe (closure : Closure) {completion : Completion}
    (isFine : completion.WellFormed) : (result closure completion).Safe Value.WellFormed := by
  intro machine fine
  obtain ⟨value, ended, source⟩ := result_source closure completion machine
  rw [ended]
  refine ⟨fine, ?_⟩
  rcases source with rfl | bound | rfl
  · exact trivial
  · exact fine.scopes _ _ value bound
  · exact isFine

theorem make_class_safe (name : Token) {superclass : Option Class}
    {methods classMethods : List Routine} (above : ∀ cls ∈ superclass, cls.WellFormed)
    (own : (Node.routines methods).WellFormed)
    (ofClass : (Node.routines classMethods).WellFormed) :
    (makeClass name superclass methods classMethods).Safe Value.WellFormed := by
  have made (identity : Nat) (scope : ScopeId) : Value.WellFormed (.classValue
      ⟨identity, name.lexeme, methodTable methods scope true, methodTable classMethods scope false,
        superclass⟩) := by
    intro side key method found
    rcases Record.answer_of_class found with ⟨member, -⟩ | ⟨cls, isAbove, answered⟩
    · cases side with
      | false => exact Node.routines_well_formed.mp own _ member
      | true => exact Node.routines_well_formed.mp ofClass _ member
    · exact above cls isAbove side key method answered
  have identified (scope : ScopeId) : Safe Value.WellFormed (freshIdentity >>= fun identity =>
      pure (.classValue ⟨identity, name.lexeme, methodTable methods scope true,
        methodTable classMethods scope false, superclass⟩)) := by
    have fresh : freshIdentity.Safe fun _ => True :=
      fun _ fine => ⟨⟨fine.scopes, fine.fields⟩, trivial⟩
    exact bind_safe fresh fun identity _ => pure_safe (made identity scope)
  refine bind_safe current_scope_safe fun outer _ => ?_
  cases superclass with
  | none => exact identified outer
  | some cls =>
      have held : Value.WellFormed (.classValue cls) := above cls rfl
      exact bind_safe (open_scope_safe outer (single_fine held)) fun scope _ => identified scope

/-- A method that is asked for and the value that it is asked of. -/
def GoodAnswer (answer : Option Closure × Value) : Prop :=
  (∀ method ∈ answer.1, method.WellFormed) ∧ answer.2.WellFormed

theorem inherited_method_safe (place : Occurrence) (method : Token) :
    (inheritedMethod place method).Safe GoodAnswer := by
  intro machine fine
  rcases inherited_method_cases place method machine with
    ⟨_, superclass, receiver, -, held, kept, ended⟩ | ⟨cause, isCause, ended⟩ <;> rw [ended]
  · have above : superclass.WellFormed := fine.scopes _ _ _ held
    have receives : receiver.WellFormed := fine.scopes _ _ _ kept
    refine ⟨fine, ?_⟩
    cases receiver with
    | classValue cls => exact ⟨above true method.lexeme, receives⟩
    | nil | boolean | number | string | native | function | object =>
        exact ⟨above false method.lexeme, receives⟩
  · refine fail_safe _ ?_ machine fine
    simp only [List.mem_cons, List.not_mem_nil, or_false] at isCause
    rcases isCause with rfl | rfl | rfl | rfl <;> exact not_false

end Run

end Lox
