import Lox.Proofs.Receivers.Reach

/-!
What the primitive steps do to a machine whose values fit. However a step ends, the scopes
are kept and all values fit again, and it never complains that `self` or `super` are missing.
-/

namespace Lox

/-- The complaint is not that the receiver or the superclass could not be found. -/
def Fault.Harmless : Fault → Prop
  | .superUnavailable => False
  | .undefinedVariable name | .unboundLocal name => Free name
  | _ => True

def Halt.Harmless : Halt → Prop
  | .failed (.fault _ cause) => cause.Harmless
  | _ => True

/-- A value without functions, methods and fields. -/
def Value.IsPlain : Value → Prop
  | .nil | .boolean _ | .number _ | .string _ => True
  | _ => False

section Operators

/-- What an operator comes to: a plain value or a harmless complaint. -/
def Tame : Except Fault Value → Prop
  | .ok value => value.IsPlain
  | .error cause => cause.Harmless

theorem unary_tame (operator : Kind) (operand : Value) : Tame (unaryResult operator operand) := by
  unfold unaryResult
  split <;> trivial

theorem quotient_tame (left right : Value) : Tame (quotient left right) := by
  unfold quotient
  cases operands : numberOperands left right with
  | ok numbers =>
      change Tame (if (numbers.2 == 0) = true then _ else _)
      split_ifs <;> trivial
  | error cause =>
      unfold numberOperands at operands
      split at operands <;> cases operands
      trivial

theorem binary_tame (operator : Kind) (left right : Value) :
    Tame (binaryResult operator left right) := by
  unfold binaryResult
  split
  case h_6 => exact quotient_tame left right
  all_goals cases left <;> cases right <;> trivial

end Operators

namespace Record

variable {α : Type} {record : Record} {machine : Machine}

theorem fits_of_plain {value : Value} (plain : value.IsPlain) (scopes : Scopes Value) :
    record.Fits scopes value := by
  cases value with
  | function | classValue | object | native => cases plain
  | nil | boolean | number | string => trivial

theorem single_fits {scopes : Scopes Value} {name : String} {value : Value}
    (fits : record.Fits scopes value) (key : String) (held : Value)
    (found : (Names.ofList [(name, value)]).find? key = some held) : record.Fits scopes held := by
  rw [World.find_single] at found
  split_ifs at found
  cases found
  exact fits

theorem fits_of_literal (literal : Literal) (scopes : Scopes Value) :
    record.Fits scopes (.ofLiteral literal) := by
  cases literal <;> trivial

/-- What a step that has not failed leads to. -/
structure Onward (record : Record) (machine after : Machine) : Prop where
  keeps : machine.scopes.Keeps after.scopes
  furnished : record.Furnished after
  current : after.current = machine.current

theorem Onward.trans {middle after : Machine} (first : record.Onward machine middle)
    (second : record.Onward middle after) : record.Onward machine after :=
  ⟨first.keeps.trans second.keeps, second.furnished, second.current.trans first.current⟩

/-- How something may end that begins on this machine. -/
def Leads (record : Record) (good : Scopes Value → α → Prop) (machine : Machine) :
    Ending α → Prop
  | .ok value after => record.Onward machine after ∧ good after.scopes value
  | .error halt after =>
      machine.scopes.Keeps after.scopes ∧ record.Furnished after ∧ halt.Harmless

theorem Onward.leads {good : Scopes Value → α → Prop} {middle : Machine} {ending : Ending α}
    (first : record.Onward machine middle) (leads : record.Leads good middle ending) :
    record.Leads good machine ending := by
  cases ending with
  | ok value after => exact ⟨first.trans leads.1, leads.2⟩
  | error halt after => exact ⟨first.keeps.trans leads.1, leads.2⟩

abbrev anything : Scopes Value → α → Prop := fun _ _ => True

section Furnished

variable (furnished : record.Furnished machine)

include furnished

theorem furnished_after {after : Machine} (scopes : after.scopes = machine.scopes)
    (fields : after.fields = machine.fields) (table : after.distances = machine.distances) :
    record.Furnished after where
  values id name value found := by
    rw [scopes] at found ⊢
    exact furnished.values id name value found
  fields identity names found name value held := by
    rw [scopes]
    exact furnished.fields identity names (fields ▸ found) name value held
  table := table.trans furnished.table

theorem furnished_defined (id : ScopeId) {name : String} (free : Free name) {value : Value}
    (fits : record.Fits machine.scopes value) :
    record.Furnished { machine with scopes := machine.scopes.define id name value } where
  values other key held found := by
    apply fits_later (machine.scopes.keeps_define id free value)
    rw [Scopes.local_define] at found
    split_ifs at found
    · cases found
      exact fits
    · exact furnished.values other key held found
  fields identity names found key held stored :=
    fits_later (machine.scopes.keeps_define id free value)
      (furnished.fields identity names found key held stored)
  table := furnished.table

theorem furnished_extended (parent : Option ScopeId) {names : Names Value}
    (fit : ∀ name value, names.find? name = some value → record.Fits machine.scopes value) :
    record.Furnished { machine with scopes := machine.scopes.extend parent names } where
  values other key held found := by
    apply fits_later (machine.scopes.keeps_extend parent names)
    rw [Scopes.local_extend] at found
    split_ifs at found
    · exact fit key held found
    · exact furnished.values other key held found
  fields identity names found key held stored :=
    fits_later (machine.scopes.keeps_extend parent _)
      (furnished.fields identity names found key held stored)
  table := furnished.table

section Steps

variable {good : Scopes Value → α → Prop}

theorem done_leads {value : α} (fine : good machine.scopes value) :
    record.Leads good machine (.ok value machine) :=
  ⟨⟨.refl _, furnished, rfl⟩, fine⟩

/-- A step that changes no scope and no field. -/
theorem aside_leads {value : α} {after : Machine} (scopes : after.scopes = machine.scopes)
    (fields : after.fields = machine.fields) (table : after.distances = machine.distances)
    (current : after.current = machine.current) (fine : good machine.scopes value) :
    record.Leads good machine (.ok value after) :=
  ⟨⟨scopes ▸ .refl _, furnished_after furnished scopes fields table, current⟩, scopes ▸ fine⟩

theorem fail_leads (line : Nat) {cause : Fault} (harmless : cause.Harmless) :
    record.Leads good machine (Run.fail line cause machine) :=
  ⟨.refl _, furnished, harmless⟩

end Steps

theorem blame_leads (line : Nat) {outcome : Except Fault Value} (tame : Tame outcome) :
    record.Leads record.Fits machine (Run.blame line outcome machine) := by
  cases outcome with
  | error cause => exact fail_leads furnished line tame
  | ok value => exact done_leads furnished (fits_of_plain tame machine.scopes)

omit furnished in
theorem unknown_name_harmless (place : Occurrence) (free : Free place.name.lexeme) :
    (Run.unknownName machine place).Harmless := by
  unfold Run.unknownName
  split_ifs <;> exact free

theorem look_up_leads {place : Occurrence} (free : Free place.name.lexeme) :
    record.Leads record.Fits machine (Run.lookUp place machine) := by
  rcases Run.look_up_cases place machine with ⟨scope, value, -, held, ended⟩ | ended <;> rw [ended]
  · exact done_leads furnished (furnished.values scope _ value held)
  · exact fail_leads furnished _ (unknown_name_harmless place free)

theorem assign_leads {place : Occurrence} (free : Free place.name.lexeme) {value : Value}
    (fits : record.Fits machine.scopes value) :
    record.Leads anything machine (Run.assign place value machine) := by
  rcases Run.assign_cases place value machine with ⟨scope, -, ended⟩ | ⟨-, ended⟩ <;> rw [ended]
  · exact ⟨⟨machine.scopes.keeps_define scope free value,
      furnished_defined furnished scope free fits, rfl⟩, trivial⟩
  · exact fail_leads furnished _ (unknown_name_harmless place free)

theorem define_leads {name : String} (free : Free name) {value : Value}
    (fits : record.Fits machine.scopes value) :
    record.Leads anything machine (Run.define name value machine) :=
  ⟨⟨machine.scopes.keeps_define machine.current free value,
    furnished_defined furnished machine.current free fits, rfl⟩, trivial⟩

theorem open_scope_leads (parent : ScopeId) {names : Names Value}
    (fit : ∀ name value, names.find? name = some value → record.Fits machine.scopes value) :
    record.Leads (fun scopes scope => scope = machine.scopes.size ∧
        scopes = machine.scopes.extend (some parent) names) machine
      (Run.openScope parent names machine) :=
  ⟨⟨machine.scopes.keeps_extend (some parent) names,
    furnished_extended furnished (some parent) fit, rfl⟩, rfl, rfl⟩

theorem make_function_leads {closure : Closure}
    (fits : record.ClosureFits machine.scopes closure) :
    record.Leads record.Fits machine (Run.makeFunction closure machine) :=
  aside_leads furnished rfl rfl rfl rfl fits

theorem make_instance_leads {cls : Class} (fits : record.ClassFits machine.scopes cls) :
    record.Leads
      (fun scopes object => record.Fits scopes object ∧ object.Receives false) machine
      (Run.makeInstance cls machine) := by
  refine ⟨⟨.refl _, ⟨furnished.values, ?_, furnished.table⟩, rfl⟩, fits, rfl⟩
  intro identity names isObject name value found
  exact furnished.fields identity names (Run.field_before_instance isObject found) name value found

theorem field_leads (identity : Nat) (name : String) :
    record.Leads (fun scopes found => ∀ value, found = some value → record.Fits scopes value)
      machine (Run.field? identity name machine) := by
  refine done_leads furnished fun value found => ?_
  obtain ⟨names, isField, held⟩ := Option.bind_eq_some_iff.mp found
  exact furnished.fields identity names isField name value held

theorem set_field_leads (identity : Nat) (name : String) {value : Value}
    (fits : record.Fits machine.scopes value) :
    record.Leads anything machine (Run.setField identity name value machine) := by
  refine ⟨⟨.refl _, ⟨furnished.values, ?_, furnished.table⟩, rfl⟩, trivial⟩
  intro other names isObject key held found
  rcases Run.field_before_set isObject found with rfl | ⟨before, wasObject, stored⟩
  · exact fits
  · exact furnished.fields other before wasObject key held stored

theorem print_leads (value : Value) :
    record.Leads anything machine (Run.print value machine) := by
  obtain ⟨sink, ended | ended⟩ := Run.print_cases value machine <;> rw [ended]
  · exact aside_leads furnished rfl rfl rfl rfl trivial
  · exact ⟨.refl _, furnished_after furnished rfl rfl rfl, trivial⟩

theorem bind_receiver_leads {ofClass : Bool} {method : Closure} {receiver : Value}
    (methodFits : record.MethodFits machine.scopes ofClass method)
    (fits : record.Fits machine.scopes receiver) (receives : receiver.Receives ofClass) :
    record.Leads
      (fun scopes bound => record.ClosureFits scopes bound ∧ bound.routine = method.routine)
      machine (Run.bindReceiver method receiver machine) := by
  exact ⟨⟨machine.scopes.keeps_extend _ _,
    furnished_extended furnished _ (single_fits fits), rfl⟩, bound_fits methodFits receives, rfl⟩

theorem result_leads (closure : Closure) {completion : Completion}
    (fits : ∀ value, completion = .returned value → record.Fits machine.scopes value) :
    record.Leads record.Fits machine (Run.result closure completion machine) := by
  obtain ⟨value, ended, source⟩ := Run.result_source closure completion machine
  rw [ended]
  apply done_leads furnished
  rcases source with rfl | bound | returned
  · trivial
  · exact furnished.values _ _ value bound
  · exact fits value returned

end Furnished

/-- A method of a new class is one of its own routines of that kind, or comes from its
superclass. Those of the class itself are no initializers. -/
theorem answer_of_class {identity : Nat} {name key : String} {scope : ScopeId}
    {methods classMethods : List Routine} {superclass : Option Class} {method : Closure}
    {ofClass : Bool}
    (found : Class.answer? ofClass key ⟨identity, name, Run.methodTable methods scope true,
      Run.methodTable classMethods scope false, superclass⟩ = some method) :
    (method.routine ∈ (if ofClass then classMethods else methods) ∧ method.scope = scope ∧
        (method.yieldsReceiver = true → ofClass = false)) ∨
      ∃ cls, superclass = some cls ∧ cls.answer? ofClass key = some method := by
  have own (held : (Run.methodTable (if ofClass then classMethods else methods) scope
      (!ofClass)).find? key = some method) :
      method.routine ∈ (if ofClass then classMethods else methods) ∧ method.scope = scope ∧
        (method.yieldsReceiver = true → ofClass = false) := by
    obtain ⟨routine, member, same⟩ := List.mem_map.mp (Names.mem_of_find held)
    cases same
    refine ⟨member, rfl, fun yields => ?_⟩
    exact (Bool.not_eq_true' ofClass).mp (Bool.and_eq_true_iff.mp yields).1
  have looked : (Run.methodTable (if ofClass then classMethods else methods) scope
        (!ofClass)).find? key = some method ∨
      ∃ cls, superclass = some cls ∧ cls.answer? ofClass key = some method := by
    cases superclass with
    | none => cases ofClass <;> exact .inl found
    | some cls =>
        cases ofClass <;>
        · rcases Option.or_eq_some_iff.mp found with held | ⟨-, held⟩
          · exact .inl held
          · exact .inr ⟨cls, rfl, held⟩
  exact looked.imp_left own

end Record

end Lox
