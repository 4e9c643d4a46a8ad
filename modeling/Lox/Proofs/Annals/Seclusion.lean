import Lox.Proofs.Annals.Events
import Lox.Proofs.Classes.Runs

/-!
Scopes that are kept to themselves. A scope that holds a receiver or a superclass holds nothing
else, and no step ever writes to it: steps declare names where neither is held, and assign to names
that neither is called by. Such a scope is therefore the same for ever, however the scopes around
and inside of it change.
-/

namespace Lox

namespace Scopes

section Names

variable {α : Type} (scopes : Scopes α)

/-- All that a scope holds. -/
def names? (id : ScopeId) : Option (Names α) := scopes.cells[id]?.map Scope.names

theorem local_names (id : ScopeId) (name : String) :
    scopes.local? id name = (scopes.names? id).bind (·.find? name) := by
  unfold local? names?
  cases scopes.cells[id]? <;> rfl

theorem names_extend (parent : Option ScopeId) (names : Names α) (id : ScopeId) :
    (scopes.extend parent names).names? id =
      if id = scopes.size then some names else scopes.names? id := by
  simp only [names?, extend, Array.getElem?_push, size]
  by_cases last : id = scopes.cells.size <;> simp [last]

theorem names_define {id other : ScopeId} (apart : other ≠ id) (name : String) (value : α) :
    (scopes.define id name value).names? other = scopes.names? other := by
  simp only [names?, define, Array.getElem?_modify, if_neg apart.symm]

theorem names_beyond {id : ScopeId} (beyond : scopes.size ≤ id) : scopes.names? id = none := by
  rw [names?, Array.getElem?_eq_none beyond]
  rfl

end Names

variable {scopes earlier later last : Scopes Value} {id : ScopeId} {name : String} {value : Value}

/-- The scope holds this value under this name, and nothing else. -/
def HoldsOnly (scopes : Scopes Value) (id : ScopeId) (name : String) (value : Value) : Prop :=
  scopes.names? id = some (.ofList [(name, value)])

theorem HoldsOnly.local_eq (only : scopes.HoldsOnly id name value) (key : String) :
    scopes.local? id key = if key = name then some value else none := by
  rw [local_names, only, ← World.find_single]
  rfl

theorem HoldsOnly.inside (only : scopes.HoldsOnly id name value) : id < scopes.size := by
  by_contra beyond
  rw [HoldsOnly, names_beyond _ (Nat.le_of_not_lt beyond)] at only
  cases only

/-- Receivers and superclasses have scopes of their own. -/
def Secluded (scopes : Scopes Value) : Prop :=
  ∀ id name value, ¬Free name → scopes.local? id name = some value →
    scopes.HoldsOnly id name value

/-- A scope that has a name of the program holds neither a receiver nor a superclass. -/
theorem Secluded.bare (secluded : scopes.Secluded) (free : Free name)
    (declared : scopes.declares id name = true) : scopes.Bare id := by
  intro other taken
  cases held : scopes.local? id other with
  | none => rfl
  | some value =>
      have apart : name ≠ other := fun same => taken (same ▸ free)
      rw [declares, (secluded id other value taken held).local_eq, if_neg apart] at declared
      cases declared

/-- The later scopes are those of before and maybe more; receivers and superclasses have been left
alone. -/
structure Guards (earlier later : Scopes Value) : Prop extends Keeps earlier later where
  only : ∀ id name value, ¬Free name → earlier.HoldsOnly id name value →
    later.HoldsOnly id name value

theorem Guards.refl (scopes : Scopes Value) : scopes.Guards scopes :=
  ⟨.refl scopes, fun _ _ _ _ => id⟩

theorem Guards.trans (before : earlier.Guards later) (after : later.Guards last) :
    earlier.Guards last :=
  ⟨before.toKeeps.trans after.toKeeps, fun id name value taken only =>
    after.only id name value taken (before.only id name value taken only)⟩

theorem Guards.bare (guards : earlier.Guards later) (inside : id < earlier.size)
    (bare : earlier.Bare id) : later.Bare id :=
  fun name taken => (guards.bound id inside name taken).trans (bare name taken)

theorem guards_extend (scopes : Scopes Value) (parent : Option ScopeId) (names : Names Value) :
    scopes.Guards (scopes.extend parent names) := by
  refine ⟨scopes.keeps_extend parent names, fun id name value taken only => ?_⟩
  rw [HoldsOnly, names_extend, if_neg (Nat.ne_of_lt only.inside)]
  exact only

theorem guards_define (bare : scopes.Bare id) (free : Free name) (value : Value) :
    scopes.Guards (scopes.define id name value) := by
  refine ⟨scopes.keeps_define id free value, fun other key held taken only => ?_⟩
  have apart : other ≠ id := by
    rintro rfl
    have absent := bare key taken
    rw [only.local_eq, if_pos rfl] at absent
    cases absent
  rw [HoldsOnly, names_define _ apart]
  exact only

theorem Secluded.define (secluded : scopes.Secluded) (bare : scopes.Bare id) (free : Free name)
    (value : Value) : (scopes.define id name value).Secluded := by
  intro other key held taken found
  have apart : key ≠ name := fun same => taken (same ▸ free)
  rw [local_define, if_neg fun here => apart here.2.2] at found
  exact (guards_define bare free value).only other key held taken
    (secluded other key held taken found)

theorem Secluded.extend (secluded : scopes.Secluded) (parent : Option ScopeId)
    {names : Names Value}
    (alone : ∀ name value, ¬Free name → names.find? name = some value →
      names = .ofList [(name, value)]) :
    (scopes.extend parent names).Secluded := by
  intro id name value taken found
  rw [local_extend] at found
  split_ifs at found with isNew
  · rw [HoldsOnly, names_extend, if_pos isNew, ← alone name value taken found]
  · exact (scopes.guards_extend parent names).only id name value taken
      (secluded id name value taken found)

end Scopes

/-- The single entry of a new scope is alone there. -/
theorem Names.single_alone (name : String) (value : Value) (key : String) (held : Value)
    (found : (Names.ofList [(name, value)]).find? key = some held) :
    Names.ofList [(name, value)] = .ofList [(key, held)] := by
  rw [World.find_single] at found
  split_ifs at found with same
  cases found
  rw [same]

namespace Machine

/-- The value is no object that is still to be made. -/
def HasMade (machine : Machine) : Value → Prop
  | .object identity _ => identity < machine.fields.size
  | _ => True

/-- Receivers and superclasses have scopes of their own, and all objects have been made. -/
structure Orderly (machine : Machine) : Prop where
  secluded : machine.scopes.Secluded
  made {value : Value} (holds : machine.Holds value) : machine.HasMade value

/-- Names may be declared here, as neither a receiver nor a superclass is in the current scope. -/
structure Open (machine : Machine) : Prop where
  inside : machine.current < machine.scopes.size
  bare : machine.scopes.Bare machine.current

/-- What the later machine has kept of the earlier one. -/
structure Later (earlier later : Machine) : Prop where
  scopes : earlier.scopes.Guards later.scopes
  objects : earlier.fields.size ≤ later.fields.size

variable {first second third machine : Machine} {value : Value}

theorem Later.refl (machine : Machine) : machine.Later machine := ⟨.refl _, Nat.le_refl _⟩

theorem Later.trans (before : first.Later second) (after : second.Later third) :
    first.Later third :=
  ⟨before.scopes.trans after.scopes, Nat.le_trans before.objects after.objects⟩

theorem HasMade.later (made : first.HasMade value) (later : first.Later second) :
    second.HasMade value := by
  cases value with
  | object identity cls => exact Nat.lt_of_lt_of_le made later.objects
  | nil | boolean | number | string | native | function | classValue => trivial

theorem has_made_plain (plain : value.IsPlain) : machine.HasMade value := by
  cases value with
  | nil | boolean | number | string => trivial
  | native | function | classValue | object => cases plain

theorem Open.later (here : first.Open) (later : first.Later second)
    (current : second.current = first.current) : second.Open := by
  constructor
  · rw [current]
    exact Nat.lt_of_lt_of_le here.inside later.scopes.size
  · rw [current]
    exact later.scopes.bare here.inside here.bare

/-- What something that begins on the machine leads to, however it ends. -/
structure Leads {α : Type} (machine : Machine) (good : Machine → α → Prop) (ending : Ending α) :
    Prop where
  later : machine.Later ending.machine
  orderly : ending.machine.Orderly
  current : ending.machine.current = machine.current
  fine : ∀ value after, ending = .ok value after → good after value

abbrev anything {α : Type} : Machine → α → Prop := fun _ _ => True

namespace Orderly

variable {α : Type} {good : Machine → α → Prop} (orderly : machine.Orderly)

theorem ok_leads {value : α} {after : Machine} (later : machine.Later after)
    (orderlyAfter : after.Orderly) (current : after.current = machine.current)
    (fine : good after value) : machine.Leads good (.ok value after) := by
  refine ⟨later, orderlyAfter, current, ?_⟩
  rintro _ _ ⟨⟩
  exact fine

include orderly

theorem stop_leads (halt : Halt) : machine.Leads good (.error halt machine) := by
  refine ⟨.refl machine, orderly, rfl, ?_⟩
  rintro _ _ ⟨⟩

/-- A change that leaves all scopes and fields as they are. -/
theorem aside {after : Machine} (scopes : after.scopes = machine.scopes)
    (fields : after.fields = machine.fields) : after.Orderly where
  secluded := scopes ▸ orderly.secluded
  made {value} holds := by
    have made := orderly.made (holds_same scopes fields holds)
    cases value with
    | object identity cls =>
        change identity < after.fields.size
        rw [fields]
        exact made
    | nil | boolean | number | string | native | function | classValue => trivial

theorem done_leads {value : α} (fine : good machine value) :
    machine.Leads good (.ok value machine) :=
  ok_leads (.refl machine) orderly rfl fine

theorem aside_leads {value : α} {after : Machine} (scopes : after.scopes = machine.scopes)
    (fields : after.fields = machine.fields) (current : after.current = machine.current)
    (fine : good after value) : machine.Leads good (.ok value after) := by
  refine ok_leads ⟨scopes ▸ .refl _, ?_⟩ (orderly.aside scopes fields) current fine
  rw [fields]

theorem fail_leads (line : Nat) (cause : Fault) :
    machine.Leads good (Run.fail line cause machine) := orderly.stop_leads _

theorem blame_leads (line : Nat) {outcome : Except Fault Value} (tame : Tame outcome) :
    machine.Leads HasMade (Run.blame line outcome machine) := by
  cases outcome with
  | error cause => exact orderly.fail_leads line cause
  | ok value => exact orderly.done_leads (has_made_plain tame)

theorem current_leads : machine.Leads anything (Run.currentScope machine) :=
  orderly.done_leads trivial

/-- The machine with one more scope. -/
theorem extended (parent : Option ScopeId) {names : Names Value}
    (alone : ∀ name value, ¬Free name → names.find? name = some value →
      names = .ofList [(name, value)])
    (made : ∀ name value, names.find? name = some value → machine.HasMade value) :
    ({ machine with scopes := machine.scopes.extend parent names } : Machine).Orderly where
  secluded := orderly.secluded.extend parent alone
  made holds := by
    rcases holds_extended holds with before | ⟨name, found⟩
    · exact orderly.made before
    · exact made name _ found

theorem single_extended (parent : ScopeId) (name : String) {value : Value}
    (made : machine.HasMade value) :
    ({ machine with scopes := machine.scopes.extend (some parent) (.ofList [(name, value)]) } :
      Machine).Orderly := by
  refine orderly.extended (some parent) ?_ ?_
  · intro key held _ found
    exact Names.single_alone name value key held found
  · intro key held found
    rw [World.find_single] at found
    split_ifs at found
    cases found
    exact made

theorem open_leads (parent : ScopeId) {names : Names Value}
    (free : ∀ name, names.contains name = true → Free name)
    (made : ∀ name value, names.find? name = some value → machine.HasMade value) :
    machine.Leads (fun after scope => scope < after.scopes.size ∧ after.scopes.Bare scope)
      (Run.openScope parent names machine) := by
  refine ok_leads ⟨machine.scopes.guards_extend _ _, Nat.le_refl _⟩
    (orderly.extended (some parent) ?_ made) rfl ⟨?_, Record.bare_opened free⟩
  · intro name value taken found
    have present : names.contains name = true := by
      rw [Names.contains, found]
      rfl
    exact absurd (free name present) taken
  · rw [Scopes.size_extend]
    exact Nat.lt_succ_self _

theorem defined {id : ScopeId} (bare : machine.scopes.Bare id) {name : String} (free : Free name)
    {value : Value} (made : machine.HasMade value) :
    ({ machine with scopes := machine.scopes.define id name value } : Machine).Orderly where
  secluded := orderly.secluded.define bare free value
  made holds := by
    rcases holds_defined holds with before | rfl
    · exact orderly.made before
    · exact made

theorem define_leads (here : machine.Open) {name : String} (free : Free name) {value : Value}
    (made : machine.HasMade value) : machine.Leads anything (Run.define name value machine) :=
  ok_leads ⟨Scopes.guards_define here.bare free value, Nat.le_refl _⟩
    (orderly.defined here.bare free made) rfl trivial

theorem look_up_leads (place : Occurrence) : machine.Leads HasMade (Run.lookUp place machine) := by
  rcases Run.look_up_ends place machine with ⟨halt, ended⟩ | ⟨value, holds, ended⟩ <;> rw [ended]
  · exact orderly.stop_leads halt
  · exact orderly.done_leads (orderly.made holds)

/-- No name of a program leads to the scope of a receiver or of a superclass. -/
theorem assign_leads {place : Occurrence} (free : Free place.name.lexeme) {value : Value}
    (made : machine.HasMade value) : machine.Leads anything (Run.assign place value machine) := by
  rcases Run.assign_cases place value machine with ⟨scope, holder, ended⟩ | ⟨-, ended⟩ <;>
    rw [ended]
  · have bare := orderly.secluded.bare free (Run.holder_declared holder)
    exact ok_leads ⟨Scopes.guards_define bare free value, Nat.le_refl _⟩
      (orderly.defined bare free made) rfl trivial
  · exact orderly.fail_leads _ _

theorem make_function_leads (closure : Closure) :
    machine.Leads HasMade (Run.makeFunction closure machine) :=
  orderly.aside_leads rfl rfl rfl trivial

theorem close_over_leads (routine : Routine) :
    machine.Leads HasMade (Run.closeOver routine machine) :=
  orderly.make_function_leads ⟨routine, machine.current, false⟩

theorem make_instance_leads (cls : Class) :
    machine.Leads (fun after object => object = .object machine.fields.size cls ∧
      after.HasMade object) (Run.makeInstance cls machine) := by
  have grown : machine.fields.size < (machine.fields.push .empty).size := by
    rw [Array.size_push]
    exact Nat.lt_succ_self _
  have later : machine.Later { machine with fields := machine.fields.push .empty } :=
    ⟨.refl _, Nat.le_of_lt grown⟩
  exact ok_leads later
    ⟨orderly.secluded, fun holds => (orderly.made (holds_with_instance holds)).later later⟩ rfl
    ⟨rfl, grown⟩

theorem field_leads (identity : Nat) (name : String) :
    machine.Leads (fun after found => ∀ value, found = some value → after.HasMade value)
      (Run.field? identity name machine) := by
  refine orderly.done_leads fun value found => ?_
  obtain ⟨names, isObject, held⟩ := Option.bind_eq_some_iff.mp found
  exact orderly.made (.field isObject held)

theorem set_field_leads (identity : Nat) (name : String) {value : Value}
    (made : machine.HasMade value) :
    machine.Leads anything (Run.setField identity name value machine) := by
  have later : machine.Later
      { machine with fields := machine.fields.modify identity (·.set name value) } :=
    ⟨.refl _, Array.size_modify.ge⟩
  refine ok_leads later ⟨orderly.secluded, fun holds => ?_⟩ rfl trivial
  rcases holds_with_field holds with before | rfl
  · exact (orderly.made before).later later
  · exact made.later later

theorem print_leads (value : Value) : machine.Leads anything (Run.print value machine) := by
  obtain ⟨sink, ended | ended⟩ := Run.print_cases value machine <;> rw [ended]
  · exact orderly.aside_leads rfl rfl rfl trivial
  · refine ⟨⟨.refl _, Nat.le_refl _⟩, orderly.aside rfl rfl, rfl, ?_⟩
    rintro _ _ ⟨⟩

theorem bind_receiver_leads (method : Closure) {receiver : Value}
    (made : machine.HasMade receiver) :
    machine.Leads (fun _ bound => bound.routine = method.routine)
      (Run.bindReceiver method receiver machine) := by
  exact ok_leads ⟨machine.scopes.guards_extend _ _, Nat.le_refl _⟩
    (orderly.single_extended method.scope receiverName made) rfl rfl

theorem make_class_leads (name : Token) (superclass : Option Class)
    (methods classMethods : List Routine) :
    machine.Leads HasMade (Run.makeClass name superclass methods classMethods machine) := by
  cases superclass with
  | none => exact orderly.aside_leads rfl rfl rfl trivial
  | some parent =>
      have made : machine.HasMade (.classValue parent) := trivial
      exact ok_leads ⟨machine.scopes.guards_extend _ _, Nat.le_refl _⟩
        ((orderly.single_extended machine.current superclassName made).aside rfl rfl) rfl trivial

theorem inherited_method_leads (place : Occurrence) (method : Token) :
    machine.Leads (fun after found => after.HasMade found.2)
      (Run.inheritedMethod place method machine) := by
  rcases Run.inherited_method_cases place method machine with
    ⟨_, _, receiver, -, -, bound, ended⟩ | ⟨_, -, ended⟩ <;> rw [ended]
  · have made : machine.HasMade receiver := orderly.made (.scope bound)
    cases receiver <;> exact orderly.done_leads made
  · exact orderly.fail_leads _ _

theorem result_leads (closure : Closure) {completion : Completion}
    (made : ∀ value, completion = .returned value → machine.HasMade value) :
    machine.Leads HasMade (Run.result closure completion machine) := by
  obtain ⟨value, ended, source⟩ := Run.result_source closure completion machine
  rw [ended]
  apply orderly.done_leads
  rcases source with rfl | bound | returned
  · trivial
  · exact orderly.made (.scope bound)
  · exact made value returned

end Orderly

end Machine

end Lox
