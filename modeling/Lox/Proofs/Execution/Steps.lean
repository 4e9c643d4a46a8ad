import Lox.Machine
import Lox.Proofs.Sequence
import Mathlib.Tactic.SplitIfs

/-!
What the steps on the machine do that depend on what they find there: for each of them, in which
ways it ends and what it has found then. None that fails changes the machine, but for a print that
is refused after some of its text.
-/

namespace Lox.Run

/-- The scope that an occurrence refers to has its name. -/
theorem holder_declared {machine : Machine} {place : Occurrence} {scope : ScopeId}
    (found : holder? machine place = some scope) :
    machine.scopes.declares scope place.name.lexeme = true := by
  unfold holder? at found
  split at found
  · unfold Scopes.holderAt? at found
    dsimp only at found
    split_ifs at found with declared
    cases found
    exact declared
  · have held := List.find?_some found
    exact held

theorem look_up_cases (place : Occurrence) (machine : Machine) :
    (∃ scope value, holder? machine place = some scope ∧
        machine.scopes.local? scope place.name.lexeme = some value ∧
        lookUp place machine = .ok value machine) ∨
      lookUp place machine = fail place.name.line (unknownName machine place) machine := by
  unfold lookUp
  split
  · next value found =>
      obtain ⟨scope, held, stored⟩ := Option.bind_eq_some_iff.mp found
      exact .inl ⟨scope, value, held, stored, rfl⟩
  · exact .inr rfl

theorem assign_cases (place : Occurrence) (value : Value) (machine : Machine) :
    (∃ scope, holder? machine place = some scope ∧
        assign place value machine = .ok ()
          { machine with scopes := machine.scopes.define scope place.name.lexeme value }) ∨
      holder? machine place = none ∧
        assign place value machine = fail place.name.line (unknownName machine place) machine := by
  unfold assign
  cases holder? machine place with
  | some scope => exact .inl ⟨scope, rfl, rfl⟩
  | none => exact .inr ⟨rfl, rfl⟩

theorem write_cases (text : String) (machine : Machine) :
    (∃ sink, machine.sink.write? text = some sink ∧
        write text machine = .ok () { machine with sink := sink }) ∨
      machine.sink.write? text = none ∧
        write text machine = .error (.failed .outputClosed) machine := by
  unfold write
  cases machine.sink.write? text with
  | some sink => exact .inl ⟨sink, rfl, rfl⟩
  | none => exact .inr ⟨rfl, rfl⟩

/-- To print changes only the sink, and fails only if the output is closed. -/
theorem print_cases (value : Value) (machine : Machine) :
    ∃ sink, print value machine = .ok () { machine with sink := sink } ∨
      print value machine = .error (.failed .outputClosed) { machine with sink := sink } := by
  unfold print
  rcases write_cases value.text machine with ⟨sink, -, written⟩ | ⟨-, refused⟩
  · rw [bind_ok written]
    rcases write_cases "\n" { machine with sink := sink } with ⟨last, -, ended⟩ | ⟨-, ended⟩
    · exact ⟨last, .inl ended⟩
    · exact ⟨sink, .inr ended⟩
  · rw [bind_error refused]
    exact ⟨machine.sink, .inr rfl⟩

/-- The method comes from the superclass that lies at the distance of the bond, and is for the
receiver just inside of it. -/
theorem inherited_method_cases (place : Occurrence) (method : Token) (machine : Machine) :
    (∃ distance superclass receiver, machine.distances[place.id]? = some distance ∧
        machine.scopes.readAt? machine.current distance place.name.lexeme =
          some (.classValue superclass) ∧
        machine.scopes.readAt? machine.current (distance - 1) receiverName = some receiver ∧
        inheritedMethod place method machine =
          .ok (match receiver with
            | .classValue _ => (superclass.classMethod? method.lexeme, receiver)
            | _ => (superclass.method? method.lexeme, receiver)) machine) ∨
      ∃ cause ∈ [Fault.superUnavailable, .unboundLocal place.name.lexeme,
          .unboundLocal receiverName, .superclassNotClass],
        inheritedMethod place method machine = fail place.name.line cause machine := by
  have looked : (get : Run Machine) machine = .ok machine machine := rfl
  unfold inheritedMethod
  rw [bind_ok looked]
  cases machine.distances[place.id]? with
  | none => exact .inr ⟨.superUnavailable, by simp, rfl⟩
  | some distance =>
      dsimp only
      cases above : machine.scopes.readAt? machine.current distance place.name.lexeme with
      | none => exact .inr ⟨.unboundLocal place.name.lexeme, by simp, rfl⟩
      | some value =>
          cases value with
          | classValue superclass =>
              dsimp only
              cases inside : machine.scopes.readAt? machine.current (distance - 1) receiverName with
              | none => exact .inr ⟨.unboundLocal receiverName, by simp, rfl⟩
              | some receiver =>
                  refine .inl ⟨distance, superclass, receiver, rfl, above, inside, ?_⟩
                  cases receiver <;> rfl
          | nil | boolean | number | string | native | function | object =>
              exact .inr ⟨.superclassNotClass, by simp, rfl⟩

/-- A new instance brings no fields with it. -/
theorem field_before_instance {fields : Array (Names Value)} {identity : Nat}
    {names : Names Value} {name : String} {value : Value}
    (isObject : (fields.push .empty)[identity]? = some names)
    (found : names.find? name = some value) : fields[identity]? = some names := by
  rw [Array.getElem?_push] at isObject
  split_ifs at isObject
  · cases isObject
    cases found
  · exact isObject

/-- After a field is set, each field has the value that was set or the one that it had before. -/
theorem field_before_set {fields : Array (Names Value)} {identity other : Nat}
    {names : Names Value} {name key : String} {value held : Value}
    (isObject : (fields.modify identity (·.set name value))[other]? = some names)
    (found : names.find? key = some held) :
    held = value ∨ ∃ before, fields[other]? = some before ∧ before.find? key = some held := by
  rw [Array.getElem?_modify] at isObject
  split_ifs at isObject
  · obtain ⟨before, wasObject, rfl⟩ := Option.map_eq_some_iff.mp isObject
    rw [Names.find_set] at found
    split_ifs at found
    · exact .inl (Option.some.inj found).symm
    · exact .inr ⟨before, wasObject, found⟩
  · exact .inr ⟨names, isObject, found⟩

/-- What a routine gives back, the machine being as it was: the receiver, or nil, or the value
that its body returns. -/
theorem result_cases (closure : Closure) (completion : Completion) (machine : Machine) :
    ∃ value, result closure completion machine = .ok value machine ∧
      ((closure.yieldsReceiver = true ∧
          value = (machine.scopes.local? closure.scope receiverName).getD .nil) ∨
        (closure.yieldsReceiver = false ∧ completion = .normal ∧ value = .nil) ∨
        (closure.yieldsReceiver = false ∧ completion = .returned value)) := by
  unfold result
  split
  · next yields => exact ⟨_, rfl, .inl ⟨yields, rfl⟩⟩
  · next ordinary =>
      have plain : closure.yieldsReceiver = false := Bool.eq_false_iff.mpr ordinary
      cases completion with
      | normal => exact ⟨_, rfl, .inr (.inl ⟨plain, rfl, rfl⟩)⟩
      | returned value => exact ⟨value, rfl, .inr (.inr ⟨plain, rfl⟩)⟩

/-- A routine gives back nothing but nil, the receiver or what its body returns. -/
theorem result_source (closure : Closure) (completion : Completion) (machine : Machine) :
    ∃ value, result closure completion machine = .ok value machine ∧
      (value = .nil ∨ machine.scopes.local? closure.scope receiverName = some value ∨
        completion = .returned value) := by
  obtain ⟨value, ended, given⟩ := result_cases closure completion machine
  refine ⟨value, ended, ?_⟩
  rcases given with ⟨-, rfl⟩ | ⟨-, -, rfl⟩ | ⟨-, returned⟩
  · cases bound : machine.scopes.local? closure.scope receiverName with
    | none => exact .inl rfl
    | some receiver => exact .inr (.inl rfl)
  · exact .inl rfl
  · exact .inr (.inr returned)

end Lox.Run
