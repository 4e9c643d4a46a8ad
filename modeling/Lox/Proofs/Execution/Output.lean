import Lox.Proofs.Execution.Lasting

/-!
Output. Of all primitive steps only `print` looks at the sink, and it does so by writing. Hence a
property of the sink that writes keep lasts throughout a run: a sink that takes everything goes on
doing so, and what has been written stays written. To print on a sink that takes everything never
fails.
-/

namespace Lox

/-- The output takes all that is ever written. -/
def Machine.IsOpen (machine : Machine) : Prop := machine.sink.room = .unlimited

/-- The machine with another sink. -/
def Machine.onSink (sink : Sink) (machine : Machine) : Machine := { machine with sink := sink }

theorem Sink.write_open {sink : Sink} (isOpen : sink.room = .unlimited) (text : String) :
    ∃ later, sink.write? text = some later ∧ later.room = .unlimited ∧
      later.text = sink.text ++ text := by
  unfold write?
  rw [isOpen]
  split_ifs with empty impossible
  · obtain rfl : text = "" := String.isEmpty_iff.mp empty
    exact ⟨sink, rfl, isOpen, by rw [String.append_empty]⟩
  · cases impossible
  · refine ⟨_, rfl, rfl, ?_⟩
    simp only [Sink.text, List.reverse_cons, String.join, List.foldl_append, List.foldl_cons,
      List.foldl_nil]

namespace Run

variable {α : Type}

/-- The run does the same on any sink, which it leaves alone. -/
def Silent (action : Run α) : Prop :=
  ∀ machine sink,
    action (machine.onSink sink) = Ending.onMachine (Machine.onSink sink) (action machine)

theorem Silent.sink_same {action : Run α} (silent : action.Silent) (machine : Machine) :
    (Ending.machine (action machine)).sink = machine.sink := by
  have same := silent machine machine.sink
  change action machine = _ at same
  rw [same]
  cases action machine <;> rfl

theorem look_up_silent (place : Occurrence) : (lookUp place).Silent := by
  intro machine sink
  have held : holder? (machine.onSink sink) place = holder? machine place := rfl
  unfold lookUp
  rw [held]
  dsimp only [Machine.onSink]
  split <;> rfl

theorem assign_silent (place : Occurrence) (value : Value) : (assign place value).Silent := by
  intro machine sink
  have held : holder? (machine.onSink sink) place = holder? machine place := rfl
  unfold assign
  rw [held]
  split <;> rfl

theorem inherited_method_silent (place : Occurrence) (method : Token) :
    (inheritedMethod place method).Silent := by
  intro machine sink
  have looked (machine : Machine) : (get : Run Machine) machine = .ok machine machine := rfl
  unfold inheritedMethod
  rw [bind_ok (looked _), bind_ok (looked _)]
  dsimp only [Machine.onSink]
  cases machine.distances[place.id]? with
  | none => rfl
  | some distance =>
      dsimp only
      cases machine.scopes.readAt? machine.current distance place.name.lexeme with
      | none => rfl
      | some found =>
          cases found with
          | classValue superclass =>
              dsimp only
              cases machine.scopes.readAt? machine.current (distance - 1) receiverName <;> rfl
          | nil | boolean | number | string | native | function | object => rfl

/-- Nothing but `print` ever looks at the sink. -/
theorem primitive_silent {action : Run α} (primitive : Primitive action) :
    action.Silent ∨ ∃ (value : Value) (isUnit : Unit = α), action = isUnit ▸ print value := by
  cases primitive with
  | print value => exact .inr ⟨value, rfl, rfl⟩
  | lookUp place => exact .inl (look_up_silent place)
  | assign place value => exact .inl (assign_silent place value)
  | inheritedMethod place method => exact .inl (inherited_method_silent place method)
  | blame line outcome => cases outcome <;> exact .inl fun _ _ => rfl
  | makeClass name superclass methods classMethods =>
      cases superclass <;> exact .inl fun _ _ => rfl
  | result closure completion =>
      left
      unfold result
      split_ifs
      · exact fun _ _ => rfl
      · cases completion <;> exact fun _ _ => rfl
  | fail | currentScope | openScope | define | makeFunction | closeOver | makeInstance | field
  | setField | readClock | bindReceiver => exact .inl fun _ _ => rfl

end Run

section Writing

variable (property : Sink → Prop)
  (kept : ∀ sink text later, property sink → sink.write? text = some later → property later)

include kept

theorem Run.write_keeps (text : String) {machine : Machine} (before : property machine.sink) :
    property (Ending.machine (Run.write text machine)).sink := by
  rcases Run.write_cases text machine with ⟨later, taken, written⟩ | ⟨-, refused⟩
  · rw [written]
    exact kept _ text later before taken
  · rw [refused]
    exact before

theorem Run.print_keeps (value : Value) {machine : Machine} (before : property machine.sink) :
    property (Ending.machine (Run.print value machine)).sink := by
  have first := Run.write_keeps property kept value.text before
  unfold Run.print
  cases ended : Run.write value.text machine with
  | error halt after =>
      rw [ended] at first
      rw [bind_error ended]
      exact first
  | ok _ after =>
      rw [ended] at first
      rw [bind_ok ended]
      exact Run.write_keeps property kept "\n" first

/-- What every write keeps lasts throughout a run. -/
theorem lasting_of_writes : Lasting fun machine => property machine.sink where
  act primitive machine before := by
    rcases Run.primitive_silent primitive with silent | ⟨value, rfl, rfl⟩
    · rw [silent.sink_same]
      exact before
    · exact Run.print_keeps property kept value before
  moved _ _ _ before := before

end Writing

theorem open_lasting : Lasting Machine.IsOpen := by
  apply lasting_of_writes fun sink => sink.room = .unlimited
  intro sink text later isOpen taken
  obtain ⟨_, taken', stillOpen, -⟩ := Sink.write_open isOpen text
  rw [taken] at taken'
  cases taken'
  exact stillOpen

/-- These texts were the first to be written, newest first. -/
def Machine.HasWritten (writes : List String) (machine : Machine) : Prop :=
  writes <:+ machine.sink.writes

namespace Run

/-- A value is printed on a line of its own, and nothing else happens. -/
theorem print_open {machine : Machine} (isOpen : machine.IsOpen) (value : Value) :
    ∃ sink, print value machine = .ok () { machine with sink := sink } ∧
      sink.text = machine.sink.text ++ value.text ++ "\n" ∧ sink.room = .unlimited := by
  obtain ⟨first, taken, stillOpen, output⟩ := Sink.write_open isOpen value.text
  obtain ⟨second, takenToo, openToo, outputToo⟩ := Sink.write_open stillOpen "\n"
  refine ⟨second, ?_, by rw [outputToo, output], openToo⟩
  have written : write value.text machine = .ok () { machine with sink := first } := by
    unfold write
    rw [taken]
  unfold print
  rw [bind_ok written]
  unfold write
  rw [takenToo]

end Run

end Lox
