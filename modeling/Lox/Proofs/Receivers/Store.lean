import Lox.Proofs.Execution.Course
import Lox.Proofs.Receivers.Frames

/-!
What the scopes of a running program are there for. A scope lies in some frames if it and
those around it are what the frames say: the scope of a routine was opened by a call of it,
the scope of a receiver holds an object, or a class for the methods of classes, and the
scope of a superclass holds what the declaration of its class found when it was executed.
Values fit if the functions and methods in them lie in the frames that they are written in.
Machines change neither the links between scopes nor what `self` and `super` are, so that
all this stays as it is.
-/

namespace Lox

/-- The method that a class answers with, for itself or for its instances. -/
def Class.answer? (ofClass : Bool) (name : String) (cls : Class) : Option Closure :=
  if ofClass then cls.classMethod? name else cls.method? name

/-- A value that methods are bound to: a class for its own methods, an object for others. -/
def Value.Receives (ofClass : Bool) : Value → Prop
  | .classValue _ => ofClass = true
  | .object _ _ => ofClass = false
  | _ => False

namespace Scopes

/-- The later scopes are those of before and maybe more, with the same receivers and
superclasses. -/
structure Keeps (earlier later : Scopes Value) : Prop where
  size : earlier.size ≤ later.size
  parent : ∀ id, id < earlier.size → later.parent? id = earlier.parent? id
  bound : ∀ id, id < earlier.size → ∀ name, ¬Free name →
    later.local? id name = earlier.local? id name

namespace Keeps

variable {first second third : Scopes Value}

theorem refl (scopes : Scopes Value) : scopes.Keeps scopes :=
  ⟨Nat.le_refl _, fun _ _ => rfl, fun _ _ _ _ => rfl⟩

theorem trans (before : first.Keeps second) (after : second.Keeps third) : first.Keeps third where
  size := Nat.le_trans before.size after.size
  parent id inside :=
    (after.parent id (Nat.lt_of_lt_of_le inside before.size)).trans (before.parent id inside)
  bound id inside name taken :=
    (after.bound id (Nat.lt_of_lt_of_le inside before.size) name taken).trans
      (before.bound id inside name taken)

end Keeps

theorem keeps_extend (scopes : Scopes Value) (parent : Option ScopeId) (names : Names Value) :
    scopes.Keeps (scopes.extend parent names) where
  size := by
    rw [size_extend]
    exact Nat.le_succ _
  parent id inside := by rw [parent_extend, if_neg (Nat.ne_of_lt inside)]
  bound id inside name _ := by rw [local_extend, if_neg (Nat.ne_of_lt inside)]

theorem keeps_define (scopes : Scopes Value) (id : ScopeId) {name : String} (free : Free name)
    (value : Value) : scopes.Keeps (scopes.define id name value) where
  size := (size_define ..).ge
  parent other _ := parent_define ..
  bound other _ key taken := by
    have apart : key ≠ name := fun same => taken (same ▸ free)
    rw [local_define, if_neg fun here => apart here.2.2]

/-- A scope that holds neither a receiver nor a superclass. -/
def Bare (scopes : Scopes Value) (id : ScopeId) : Prop :=
  ∀ name, ¬Free name → scopes.local? id name = none

end Scopes

/-- What is known of a session: the lines that it has accepted, the table of distances, and
the tasks that have been begun. -/
structure Record where
  lines : List Line
  table : Std.TreeMap Nat Nat
  begun : Task → Machine → Prop

namespace Record

/-- The scope was opened by a call of the routine, which found the same receiver and the same
superclass around it. -/
def Opened (record : Record) (scopes : Scopes Value) (id : ScopeId) (routine : Routine) : Prop :=
  ∃ closure arguments start, record.begun (.call closure arguments) start ∧
    closure.routine = routine ∧ start.scopes.size = id ∧
    scopes.parent? id = some closure.scope ∧
    ∀ name, ¬Free name →
      scopes.local? closure.scope name = start.scopes.local? closure.scope name

/-- The scope was opened when the class was declared, and this was its superclass then. -/
def Inherits (record : Record) (home : Home) (ancestor : Class) (id : ScopeId) : Prop :=
  ∃ place start, home.superclass = some place ∧
    record.begun (.execution home.declaration) start ∧
    Run.lookUp place start = .ok (.classValue ancestor) start ∧ start.scopes.size = id

/-- The scope is what the frame says. -/
def Holds (record : Record) (scopes : Scopes Value) (id : ScopeId) : Frame → Prop
  | .scope opener => scopes.Bare id ∧
      ∀ routine, opener = .routine routine → record.Opened scopes id routine
  | .receiver home => scopes.local? id superclassName = none ∧
      ∃ receiver, scopes.local? id receiverName = some receiver ∧ receiver.Receives home.ofClass
  | .superclass home => scopes.local? id receiverName = none ∧
      ∃ ancestor, scopes.local? id superclassName = some (.classValue ancestor) ∧
        record.Inherits home ancestor id

/-- The scope and those around it are what the frames say. -/
def Lies (record : Record) (scopes : Scopes Value) : List Frame → ScopeId → Prop
  | [], id => id < scopes.size
  | frame :: rest, id => record.Holds scopes id frame ∧
      ∃ parent, scopes.parent? id = some parent ∧ record.Lies scopes rest parent

section Fitting

variable (record : Record) (scopes : Scopes Value)

/-- Functions lie where they were made; one that gives back its receiver is bound to an object. -/
def ClosureFits (closure : Closure) : Prop :=
  ∃ site frames, Framed record.lines site frames ∧ site.node = .routine closure.routine ∧
    record.Lies scopes frames closure.scope ∧
    (closure.yieldsReceiver = true →
      ∃ (home : Home) (rest : List Frame), home.ofClass = false ∧ frames = .receiver home :: rest)

/-- Methods lie where their class was declared, as the receiver is still to come. -/
def MethodFits (ofClass : Bool) (method : Closure) : Prop :=
  ∃ (home : Home) (site : Site) (frames : List Frame), home.ofClass = ofClass ∧
    Framed record.lines site (home.frames ++ frames) ∧ site.node = .routine method.routine ∧
    record.Lies scopes (home.around ++ frames) method.scope ∧
    (method.yieldsReceiver = true → ofClass = false)

def ClassFits (cls : Class) : Prop :=
  ∀ ofClass name method, cls.answer? ofClass name = some method →
    record.MethodFits scopes ofClass method

def Fits : Value → Prop
  | .function _ closure => record.ClosureFits scopes closure
  | .classValue cls | .object _ cls => record.ClassFits scopes cls
  | _ => True

end Fitting

/-- All values that the machine holds fit, and its table is the one of the session. -/
structure Furnished (record : Record) (machine : Machine) : Prop where
  values : ∀ id name value, machine.scopes.local? id name = some value →
    record.Fits machine.scopes value
  fields : ∀ (identity : Nat) (names : Names Value), machine.fields[identity]? = some names →
    ∀ name value, names.find? name = some value → record.Fits machine.scopes value
  table : machine.distances = record.table

section Later

variable {record : Record} {earlier later : Scopes Value}

theorem lies_inside {frames : List Frame} {id : ScopeId} (lies : record.Lies earlier frames id) :
    id < earlier.size := by
  cases frames with
  | nil => exact lies
  | cons frame rest =>
      obtain ⟨-, parent, around, -⟩ := lies
      exact (World.parent_inside around).1

variable (keeps : earlier.Keeps later)

include keeps

theorem opened_later {id : ScopeId} {routine : Routine}
    (opened : record.Opened earlier id routine) : record.Opened later id routine := by
  obtain ⟨closure, arguments, start, begun, isRoutine, size, around, same⟩ := opened
  obtain ⟨inside, outside⟩ := World.parent_inside around
  exact ⟨closure, arguments, start, begun, isRoutine, size, (keeps.parent id inside).trans around,
    fun name taken => (keeps.bound _ outside name taken).trans (same name taken)⟩

theorem holds_later {id : ScopeId} (inside : id < earlier.size) {frame : Frame}
    (holds : record.Holds earlier id frame) : record.Holds later id frame := by
  have receiver := keeps.bound id inside receiverName fun free => free.1 rfl
  have superclass := keeps.bound id inside superclassName fun free => free.2 rfl
  cases frame with
  | scope opener =>
      refine ⟨fun name taken => ?_, fun routine isRoutine =>
        opened_later keeps (holds.2 routine isRoutine)⟩
      exact (keeps.bound id inside name taken).trans (holds.1 name taken)
  | receiver home =>
      unfold Holds at holds ⊢
      rwa [receiver, superclass]
  | superclass home =>
      unfold Holds at holds ⊢
      rwa [receiver, superclass]

theorem lies_later {frames : List Frame} {id : ScopeId} (lies : record.Lies earlier frames id) :
    record.Lies later frames id := by
  induction frames generalizing id with
  | nil => exact Nat.lt_of_lt_of_le lies keeps.size
  | cons frame rest induction =>
      obtain ⟨holds, parent, around, further⟩ := lies
      have inside := (World.parent_inside around).1
      exact ⟨holds_later keeps inside holds, parent, (keeps.parent id inside).trans around,
        induction further⟩

theorem closure_fits_later {closure : Closure} (fits : record.ClosureFits earlier closure) :
    record.ClosureFits later closure := by
  obtain ⟨site, frames, framed, node, lies, bound⟩ := fits
  exact ⟨site, frames, framed, node, lies_later keeps lies, bound⟩

theorem method_fits_later {ofClass : Bool} {method : Closure}
    (fits : record.MethodFits earlier ofClass method) : record.MethodFits later ofClass method := by
  obtain ⟨home, site, frames, kind, framed, node, lies, bound⟩ := fits
  exact ⟨home, site, frames, kind, framed, node, lies_later keeps lies, bound⟩

theorem class_fits_later {cls : Class} (fits : record.ClassFits earlier cls) :
    record.ClassFits later cls :=
  fun ofClass name method found => method_fits_later keeps (fits ofClass name method found)

theorem fits_later {value : Value} (fits : record.Fits earlier value) :
    record.Fits later value := by
  cases value with
  | function => exact closure_fits_later keeps fits
  | classValue => exact class_fits_later keeps fits
  | object => exact class_fits_later keeps fits
  | nil | boolean | number | string | native => trivial

end Later

section Wider

variable {record wider : Record} (lines : record.lines ⊆ wider.lines)
  (begun : ∀ task machine, record.begun task machine → wider.begun task machine)
  {scopes : Scopes Value}

section

include begun

theorem holds_wider {id : ScopeId} {frame : Frame} (holds : record.Holds scopes id frame) :
    wider.Holds scopes id frame := by
  cases frame with
  | scope opener =>
      refine ⟨holds.1, fun routine isRoutine => ?_⟩
      obtain ⟨closure, arguments, start, known, rest⟩ := holds.2 routine isRoutine
      exact ⟨closure, arguments, start, begun _ _ known, rest⟩
  | receiver home => exact holds
  | superclass home =>
      obtain ⟨none, ancestor, found, place, start, isPlace, known, rest⟩ := holds
      exact ⟨none, ancestor, found, place, start, isPlace, begun _ _ known, rest⟩

theorem lies_wider {frames : List Frame} {id : ScopeId} (lies : record.Lies scopes frames id) :
    wider.Lies scopes frames id := by
  induction frames generalizing id with
  | nil => exact lies
  | cons frame rest induction =>
      obtain ⟨holds, parent, around, further⟩ := lies
      exact ⟨holds_wider begun holds, parent, around, induction further⟩

end

section

include lines

theorem framed_wider {site : Site} {frames : List Frame}
    (framed : Framed record.lines site frames) : Framed wider.lines site frames := by
  induction framed with
  | top member => exact .top (lines member)
  | beside _ plain member around => exact .beside around plain member
  | body _ opens member around => exact .body around opens member
  | ancestor _ isClass member reference around => exact .ancestor around isClass member reference
  | methods _ isClass member routines around => exact .methods around isClass member routines

end

include lines begun

theorem class_fits_wider {cls : Class} (fits : record.ClassFits scopes cls) :
    wider.ClassFits scopes cls := by
  intro ofClass name method found
  obtain ⟨home, site, frames, kind, framed, node, lies, bound⟩ := fits ofClass name method found
  exact ⟨home, site, frames, kind, framed_wider lines framed, node, lies_wider begun lies, bound⟩

/-- Whatever fits what is known fits what is known later. -/
theorem fits_wider {value : Value} (fits : record.Fits scopes value) : wider.Fits scopes value := by
  cases value with
  | function =>
      obtain ⟨site, frames, framed, node, lies, bound⟩ := fits
      exact ⟨site, frames, framed_wider lines framed, node, lies_wider begun lies, bound⟩
  | classValue => exact class_fits_wider lines begun fits
  | object => exact class_fits_wider lines begun fits
  | nil | boolean | number | string | native => trivial

end Wider

/-- Between two runs, more may get known, and only the table changes. -/
theorem furnished_wider {record wider : Record} {machine after : Machine}
    (furnished : record.Furnished machine) (lines : record.lines ⊆ wider.lines)
    (begun : ∀ task machine, record.begun task machine → wider.begun task machine)
    (scopes : after.scopes = machine.scopes) (fields : after.fields = machine.fields)
    (table : after.distances = wider.table) : wider.Furnished after where
  values id name value found := by
    rw [scopes] at found ⊢
    exact fits_wider lines begun (furnished.values id name value found)
  fields identity names found name value held := by
    rw [scopes]
    exact fits_wider lines begun (furnished.fields identity names (fields ▸ found) name value held)
  table := table

section Opening

variable {record : Record} {scopes : Scopes Value}

theorem parent_opened {parent : ScopeId} (inside : parent < scopes.size) (names : Names Value) :
    (scopes.extend (some parent) names).parent? scopes.size = some parent := by
  rw [Scopes.parent_extend, if_pos rfl]
  simp [inside]

/-- A new scope lies in one frame more, if it is what that frame says. -/
theorem lies_opened {frames : List Frame} {parent : ScopeId}
    (lies : record.Lies scopes frames parent)
    {names : Names Value} {frame : Frame}
    (holds : record.Holds (scopes.extend (some parent) names) scopes.size frame) :
    record.Lies (scopes.extend (some parent) names) (frame :: frames) scopes.size :=
  ⟨holds, parent, parent_opened (lies_inside lies) names,
    lies_later (scopes.keeps_extend (some parent) names) lies⟩

/-- A new scope that holds neither name is fit for a block. -/
theorem bare_opened {parent : Option ScopeId} {names : Names Value}
    (bare : ∀ name, names.contains name = true → Free name) :
    (scopes.extend parent names).Bare scopes.size := by
  intro name taken
  rw [Scopes.local_extend, if_pos rfl]
  by_contra present
  exact taken (bare name (Option.isSome_iff_ne_none.mpr present))

theorem local_single (parent : Option ScopeId) (name key : String) (value : Value) :
    (scopes.extend parent (.ofList [(name, value)])).local? scopes.size key =
      if key = name then some value else none := by
  rw [Scopes.local_extend, if_pos rfl, World.find_single]

/-- A method that is bound to a receiver lies in the frames that it is written in. -/
theorem bound_fits {ofClass : Bool} {method : Closure} {receiver : Value}
    (fits : record.MethodFits scopes ofClass method) (receives : receiver.Receives ofClass) :
    record.ClosureFits
      (scopes.extend (some method.scope) (.ofList [(receiverName, receiver)]))
      { method with scope := scopes.size } := by
  obtain ⟨home, site, frames, rfl, framed, node, lies, ofObject⟩ := fits
  refine ⟨site, home.frames ++ frames, framed, node,
    lies_opened lies ⟨?_, receiver, ?_, receives⟩,
    fun yields => ⟨home, home.around ++ frames, ofObject yields, rfl⟩⟩
  · rw [local_single]
    rfl
  · rw [local_single]
    rfl

end Opening

end Record

end Lox
