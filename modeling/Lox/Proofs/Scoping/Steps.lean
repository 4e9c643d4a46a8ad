import Lox.Proofs.Execution.Plan
import Lox.Proofs.Scoping.World

/-!
What the primitive steps do to a machine in a sound world. However a step ends,
the machine is in a sound world again, later than the one before, and what the
step gives fits.
-/

namespace Lox

namespace World

variable {α : Type} {known : Site → Prop} {world : World} {machine : Machine}

/-- How something may end that begins in this world at this scope. -/
def Leads (known : Site → Prop) (declaring : Option ScopeId) (good : World → α → Prop)
    (world : World) (current : ScopeId) : Ending α → Prop
  | .ok value after => ∃ later : World, Before declaring world later ∧ later.Holds known after ∧
      (later.pending = world.pending ∧ later.distances = world.distances) ∧
      after.current = current ∧ good later value
  | .error _ after => ∃ later : World, Before declaring world later ∧ later.Holds known after

theorem declares_extend (scopes : Scopes Value) (parent : Option ScopeId) (names : Names Value)
    (id : ScopeId) (name : String) : (scopes.extend parent names).declares id name =
      if id = scopes.size then names.contains name else scopes.declares id name := by
  simp only [Scopes.declares, Scopes.local_extend, Names.contains]
  split <;> rfl

theorem declares_beyond {scopes : Scopes Value} {id : ScopeId} {name : String}
    (found : scopes.declares id name = true) : id < scopes.size := by
  by_contra beyond
  rw [Scopes.declares, scopes.local_beyond (Nat.not_lt.mp beyond)] at found
  cases found

theorem declares_define (scopes : Scopes Value) (id other : ScopeId) (name key : String)
    (value : Value) : (scopes.define id name value).declares other key =
      (decide (other = id ∧ id < scopes.size ∧ key = name) || scopes.declares other key) := by
  simp only [Scopes.declares, Scopes.local_define]
  split_ifs with here <;> simp [here]

/-- The world with one more scope, which is an instance of the given one. -/
def opened (world : World) (parent : ScopeId) (names : Names Value) (inner : StaticScope) :
    World :=
  { world with
    scopes := world.scopes.extend (some parent) names
    view := fun id =>
      if id = world.scopes.size then inner :: world.view parent else world.view id }

section Opened

variable {parent : ScopeId} {names : Names Value} {inner : StaticScope}

theorem before_opened : Before none world (world.opened parent names inner) where
  globals := rfl
  size := by simp [opened, Scopes.size_extend]
  view id inside := if_neg (Nat.ne_of_lt inside)
  parent id inside := by
    rw [opened, Scopes.parent_extend, if_neg (Nat.ne_of_lt inside)]
  declared id name found := by
    rw [opened, declares_extend, if_neg (Nat.ne_of_lt (declares_beyond found)), found]
  others id inside _ name found := by
    rw [opened, declares_extend, if_neg (Nat.ne_of_lt inside)] at found
    exact found
  pending _ _ member := .inl member

variable (sound : world.Sound known) (inside : parent < world.scopes.size)

include inside

theorem opened_parent :
    (world.opened parent names inner).scopes.parent? world.scopes.size = some parent := by
  rw [opened, Scopes.parent_extend, if_pos rfl]
  simp [inside]

include sound

theorem sound_opened (covered : ∀ name, names.contains name = true → inner.contains name = true)
    (fit : ∀ name value, names.find? name = some value → world.Fits known value) :
    (world.opened parent names inner).Sound known := by
  have before : Before none world (world.opened parent names inner) := before_opened
  constructor
  · exact (before.view _ sound.present).trans sound.outermost
  · exact (before.parent _ sound.present).trans sound.alone
  · exact Nat.lt_of_lt_of_le sound.present before.size
  · intro id within apart
    by_cases new : id = world.scopes.size
    · subst new
      refine ⟨inner, parent, ?_, opened_parent inside, ?_⟩
      · simp [opened, Nat.ne_of_lt inside]
      · intro name found
        rw [opened, declares_extend, if_pos rfl] at found
        exact covered name found
    · have old : id < world.scopes.size := by
        simp only [opened, Scopes.size_extend] at within
        omega
      obtain ⟨inner', parent', view, around, declared⟩ := sound.linked id old apart
      refine ⟨inner', parent', ?_, (before.parent id old).trans around, ?_⟩
      · rw [before.view id old, before.view parent' (parent_inside around).2, view]
      · intro name found
        exact declared name (before.others id old nofun name found)
  · intro id name value found
    apply fits_later before
    rw [opened, Scopes.local_extend] at found
    split_ifs at found
    · exact fit name value found
    · exact sound.values id name value found
  · intro id name member
    obtain ⟨old, absent, written⟩ := sound.awaited id name member
    refine ⟨Nat.lt_of_lt_of_le old before.size, ?_, (before.view id old).symm ▸ written⟩
    rw [opened, declares_extend, if_neg (Nat.ne_of_lt old), absent]

end Opened

/-- The world with a name set in one scope, and nothing awaited any more but the
given variables. -/
def defined (world : World) (id : ScopeId) (name : String) (value : Value)
    (pending : List (ScopeId × String)) : World :=
  { world with scopes := world.scopes.define id name value, pending := pending }

section Defined

variable {id : ScopeId} {name : String} {value : Value} {pending : List (ScopeId × String)}
  (inside : id < world.scopes.size)
  (awaited : ∀ other key, (other, key) ∈ world.pending → (other, key) ∉ pending →
    other = id ∧ key = name)

include inside awaited

theorem before_defined : Before (some id) world (world.defined id name value pending) where
  globals := rfl
  size := Nat.le_of_eq (Scopes.size_define ..).symm
  view _ _ := rfl
  parent other _ := Scopes.parent_define ..
  declared other key found := by
    rw [defined, declares_define, found, Bool.or_true]
  others other _ apart key found := by
    rw [defined, declares_define] at found
    have different : ¬other = id := fun same => apart (congrArg some same)
    simpa [different] using found
  pending other key member := by
    by_cases still : (other, key) ∈ pending
    · exact .inl still
    · obtain ⟨rfl, rfl⟩ := awaited other key member still
      right
      simp [defined, declares_define, inside]

theorem before_overwritten (present : world.scopes.declares id name = true) :
    Before none world (world.defined id name value pending) :=
  { before_defined inside awaited with
    others := by
      intro other _ _ key found
      rw [defined, declares_define, Bool.or_eq_true] at found
      rcases found with here | there
      · obtain ⟨rfl, -, rfl⟩ := of_decide_eq_true here
        exact present
      · exact there }

theorem sound_defined (sound : world.Sound known)
    (fits : (world.defined id name value pending).Fits known value)
    (allowed : id ≠ world.globals → ∀ inner ∈ (world.view id).head?, inner.contains name = true)
    (fewer : ∀ other key, (other, key) ∈ pending →
      (other, key) ∈ world.pending ∧ ¬(other = id ∧ key = name)) :
    (world.defined id name value pending).Sound known := by
  have before : Before (some id) world (world.defined id name value pending) :=
    before_defined inside awaited
  constructor
  · exact sound.outermost
  · exact (before.parent _ sound.present).trans sound.alone
  · exact Nat.lt_of_lt_of_le sound.present before.size
  · intro other within apart
    have old : other < world.scopes.size := by
      rw [← Scopes.size_define world.scopes id name value]
      exact within
    obtain ⟨inner, parent, view, around, declared⟩ := sound.linked other old apart
    refine ⟨inner, parent, view, (before.parent other old).trans around, ?_⟩
    intro key found
    rw [defined, declares_define, Bool.or_eq_true] at found
    rcases found with here | there
    · obtain ⟨rfl, -, rfl⟩ := of_decide_eq_true here
      exact allowed apart inner (by rw [view]; rfl)
    · exact declared key there
  · intro other key held found
    rw [defined, Scopes.local_define] at found
    split_ifs at found
    · cases found
      exact fits
    · exact fits_later before (sound.values other key held found)
  · intro other key member
    obtain ⟨waiting, different⟩ := fewer other key member
    obtain ⟨old, absent, written⟩ := sound.awaited other key waiting
    refine ⟨Nat.lt_of_lt_of_le old before.size, ?_, written⟩
    rw [defined, declares_define, absent, Bool.or_false]
    exact decide_eq_false fun here => different ⟨here.1, here.2.2⟩

end Defined

/-- The world with another table and other variables awaited. -/
def reopened (world : World) (table : Std.TreeMap Nat Nat) (pending : List (ScopeId × String)) :
    World :=
  { world with distances := table, pending := pending }

section Reopened

variable {wider : Site → Prop} {table : Std.TreeMap Nat Nat} {pending : List (ScopeId × String)}
  (kept : ∀ id name, (id, name) ∈ world.pending → (id, name) ∈ pending)

include kept

theorem before_reopened : Before none world (world.reopened table pending) :=
  ⟨rfl, Nat.le_refl _, fun _ _ => rfl, fun _ _ => rfl, fun _ _ found => found,
    fun _ _ _ _ found => found, fun id name member => .inl (kept id name member)⟩

theorem holds_reopened (more : ∀ site, known site → wider site) (holds : world.Holds known machine)
    (awaited : ∀ id name, (id, name) ∈ pending → world.Awaited id name) :
    (world.reopened table pending).Holds wider { machine with distances := table } where
  sound :=
    { outermost := holds.sound.outermost
      alone := holds.sound.alone
      present := holds.sound.present
      linked := holds.sound.linked
      values := fun id name value found =>
        fits_wider more (fits_later (before_reopened kept) (holds.sound.values id name value found))
      awaited := fun id name member =>
        ⟨(awaited id name member).inside, (awaited id name member).absent,
          (awaited id name member).written⟩ }
  scopes := holds.scopes
  globals := holds.globals
  distances := rfl
  fields identity names found name value held :=
    fits_wider more (fits_later (before_reopened kept)
      (holds.fields identity names found name value held))

end Reopened

theorem fits_of_literal (literal : Literal) : world.Fits known (.ofLiteral literal) := by
  cases literal <;> trivial

theorem fits_of_unary {operator : Kind} {operand value : Value}
    (computed : unaryResult operator operand = .ok value) : world.Fits known value := by
  unfold unaryResult at computed
  split at computed <;> cases computed <;> trivial

theorem fits_of_quotient {left right : Value} {value : Value}
    (computed : quotient left right = .ok value) : world.Fits known value := by
  unfold quotient at computed
  cases operands : numberOperands left right with
  | error cause =>
      rw [operands] at computed
      cases computed
  | ok numbers =>
      rw [operands] at computed
      change (if (numbers.2 == 0) = true then _ else _) = _ at computed
      split_ifs at computed
      cases computed
      trivial

/-- Operators give numbers, strings and truth values. -/
theorem fits_of_binary {operator : Kind} {left right value : Value}
    (computed : binaryResult operator left right = .ok value) : world.Fits known value := by
  unfold binaryResult at computed
  split at computed
  case h_6 => exact fits_of_quotient computed
  all_goals cases left <;> cases right <;> cases computed <;> trivial

section Primitives

variable {declaring : Option ScopeId} (holds : world.Holds known machine)

include holds

theorem holds_after {after : Machine} (scopes : after.scopes = machine.scopes)
    (globals : after.globals = machine.globals) (distances : after.distances = machine.distances)
    (fields : after.fields = machine.fields) : world.Holds known after where
  sound := holds.sound
  scopes := scopes.trans holds.scopes
  globals := globals.trans holds.globals
  distances := distances.trans holds.distances
  fields identity names found := holds.fields identity names (fields ▸ found)

theorem done_leads {good : World → α → Prop} {value : α} (fine : good world value) :
    Leads known declaring good world machine.current (.ok value machine) :=
  ⟨world, .refl _, holds, ⟨rfl, rfl⟩, rfl, fine⟩

theorem fail_leads {good : World → α → Prop} (line : Nat) (cause : Fault) :
    Leads known declaring good world machine.current (Run.fail line cause machine) :=
  ⟨world, .refl _, holds⟩

theorem blame_leads {good : World → α → Prop} (line : Nat) {outcome : Except Fault α}
    (fine : ∀ value, outcome = .ok value → good world value) :
    Leads known declaring good world machine.current (Run.blame line outcome machine) := by
  cases outcome with
  | error cause => exact fail_leads holds line cause
  | ok value => exact done_leads holds (fine value rfl)

theorem look_up_leads (place : Occurrence) :
    Leads known declaring (fun later value => later.Fits known value) world machine.current
      (Run.lookUp place machine) := by
  rcases Run.look_up_cases place machine with ⟨scope, value, -, held, ended⟩ | ended <;> rw [ended]
  · rw [holds.scopes] at held
    exact done_leads holds (holds.sound.values scope _ value held)
  · exact fail_leads holds _ _

theorem holds_defined {id : ScopeId} {name : String} {value : Value}
    {pending : List (ScopeId × String)} (inside : id < world.scopes.size)
    (awaited : ∀ other key, (other, key) ∈ world.pending → (other, key) ∉ pending →
      other = id ∧ key = name)
    (sound : (world.defined id name value pending).Sound known) :
    (world.defined id name value pending).Holds known
      { machine with scopes := machine.scopes.define id name value } where
  sound := sound
  scopes := congrArg (Scopes.define · id name value) holds.scopes
  globals := holds.globals
  distances := holds.distances
  fields identity names found key held stored :=
    fits_later (before_defined inside awaited) (holds.fields identity names found key held stored)

theorem assign_leads (place : Occurrence) {value : Value} (fits : world.Fits known value) :
    Leads known none (fun _ _ => True) world machine.current (Run.assign place value machine) := by
  rcases Run.assign_cases place value machine with ⟨scope, found, ended⟩ | ⟨-, ended⟩ <;>
    rw [ended]
  · have declared : world.scopes.declares scope place.name.lexeme = true :=
      holds.scopes ▸ Run.holder_declared found
    have inside := declares_beyond declared
    have none_ends : ∀ other key, (other, key) ∈ world.pending → (other, key) ∉ world.pending →
        other = scope ∧ key = place.name.lexeme := fun _ _ member gone => absurd member gone
    have before : Before none world
        (world.defined scope place.name.lexeme value world.pending) :=
      before_overwritten inside none_ends declared
    refine ⟨_, before, holds_defined holds inside none_ends ?_, ⟨rfl, rfl⟩, rfl,
      trivial⟩
    apply sound_defined inside none_ends holds.sound (fits_later before fits)
    · intro apart inner isInner
      obtain ⟨here, parent, view, -, names⟩ := holds.sound.linked scope inside apart
      rw [view] at isInner
      cases isInner
      exact names _ declared
    · refine fun other key member => ⟨member, ?_⟩
      rintro ⟨rfl, rfl⟩
      rw [(holds.sound.awaited _ _ member).absent] at declared
      cases declared
  · exact fail_leads holds _ _

theorem make_function_leads (closure : Closure) :
    Leads known declaring (fun _ value => ∃ identity, value = .function identity closure) world
      machine.current (Run.makeFunction closure machine) :=
  ⟨world, .refl _, holds_after holds rfl rfl rfl rfl, ⟨rfl, rfl⟩, rfl, _, rfl⟩

theorem close_over_leads (routine : Routine) :
    Leads known declaring
      (fun _ value => ∃ identity, value = .function identity ⟨routine, machine.current, false⟩)
      world machine.current (Run.closeOver routine machine) :=
  make_function_leads holds _

theorem make_instance_leads {cls : Class} (fits : world.ClassFits known cls) :
    Leads known declaring (fun later value => later.Fits known value) world machine.current
      (Run.makeInstance cls machine) := by
  refine ⟨world, .refl _, ⟨holds.sound, holds.scopes, holds.globals, holds.distances, ?_⟩,
    ⟨rfl, rfl⟩, rfl, fits⟩
  intro identity names isObject name value found
  exact holds.fields identity names (Run.field_before_instance isObject found) name value found

theorem field_leads (identity : Nat) (name : String) :
    Leads known declaring
      (fun later result => ∀ value, result = some value → later.Fits known value) world
      machine.current (Run.field? identity name machine) := by
  refine done_leads holds (fun value found => ?_)
  obtain ⟨names, isField, held⟩ := Option.bind_eq_some_iff.mp found
  exact holds.fields identity names isField name value held

theorem set_field_leads (identity : Nat) (name : String) {value : Value}
    (fits : world.Fits known value) :
    Leads known declaring (fun _ _ => True) world machine.current
      (Run.setField identity name value machine) := by
  refine ⟨world, .refl _, ⟨holds.sound, holds.scopes, holds.globals, holds.distances, ?_⟩,
    ⟨rfl, rfl⟩, rfl, trivial⟩
  intro other names isObject key held found
  rcases Run.field_before_set isObject found with rfl | ⟨before, wasObject, stored⟩
  · exact fits
  · exact holds.fields other before wasObject key held stored

theorem print_leads (value : Value) :
    Leads known declaring (fun _ _ => True) world machine.current (Run.print value machine) := by
  obtain ⟨sink, ended⟩ := Run.print_cases value machine
  have printed : world.Holds known { machine with sink := sink } :=
    holds_after holds rfl rfl rfl rfl
  rcases ended with ended | ended <;> rw [ended]
  · exact ⟨world, .refl _, printed, ⟨rfl, rfl⟩, rfl, trivial⟩
  · exact ⟨world, .refl _, printed⟩

theorem read_clock_leads :
    Leads known declaring (fun later value => later.Fits known value) world machine.current
      (Run.readClock machine) :=
  ⟨world, .refl _, holds_after holds rfl rfl rfl rfl, ⟨rfl, rfl⟩, rfl, trivial⟩

theorem holds_opened {parent : ScopeId} {names : Names Value} {inner : StaticScope}
    (inside : parent < world.scopes.size)
    (covered : ∀ name, names.contains name = true → inner.contains name = true)
    (fit : ∀ name value, names.find? name = some value → world.Fits known value) :
    (world.opened parent names inner).Holds known
      { machine with scopes := machine.scopes.extend (some parent) names } where
  sound := sound_opened holds.sound inside covered fit
  scopes := congrArg (Scopes.extend · (some parent) names) holds.scopes
  globals := holds.globals
  distances := holds.distances
  fields identity names found key held stored :=
    fits_later before_opened (holds.fields identity names found key held stored)

end Primitives

end World

end Lox
