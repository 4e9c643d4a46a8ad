import Lox.Proofs.Names.Charted

/-!
What is known about the scopes of a machine. Each scope is an instance of a
scope of the analysis; its view is that scope and those around it. A world is
sound if its scopes are linked as their views say, declare nothing that their
views do not have, and hold only values that fit: every function and every
method comes from a site of the program whose scopes are the view of the scope
that it was made in. Steps lead from one world to a later one, in which all that
fitted before still fits.
-/

namespace Lox

structure World where
  scopes : Scopes Value
  globals : ScopeId
  distances : Std.TreeMap Nat Nat
  /-- The scope of the analysis that a scope is an instance of and those around
  it, innermost first. -/
  view : ScopeId → List StaticScope
  /-- The local variables whose initializer has begun and has not come to its end. -/
  pending : List (ScopeId × String)

namespace World

/-- The names that the walk has marked so far are there in the scopes of the
machine, except for those whose initializer the walk has not left yet. -/
def Ready (world : World) (heeded : String → Prop) : List StaticScope → ScopeId → Prop
  | [], _ => True
  | inner :: outer, id =>
      (∀ name, heeded name → ∀ ready, inner.find? name = some ready →
        world.scopes.declares id name = true ∨
          (ready = false ∧ (id, name) ∈ world.pending)) ∧
      ∃ parent, world.scopes.parent? id = some parent ∧ world.Ready heeded outer parent

/-- The scope of the machine is where the code of the site runs. -/
structure At (world : World) (site : Site) (heeded : String → Prop) (id : ScopeId) : Prop where
  inside : id < world.scopes.size
  view : world.view id = site.full
  ready : world.Ready heeded site.analysis.scopes id

/-- Any name may be looked up. -/
abbrev anyName : String → Prop := fun _ => True

section Fitting

variable (known : Site → Prop) (world : World)

def ClosureFits (closure : Closure) : Prop :=
  ∃ site, known site ∧ site.node = .routine closure.routine ∧
    world.At site anyName closure.scope

/-- Methods are closed over the scope around the one that is to hold their receiver. -/
def MethodFits (method : Closure) : Prop :=
  ∃ site outer full, known site ∧ site.node = .routine method.routine ∧
    site.analysis.scopes = Analysis.receiverScope :: outer ∧
    site.full = Analysis.receiverScope :: full ∧
    method.scope < world.scopes.size ∧ world.view method.scope = full ∧
    world.Ready anyName outer method.scope

def ClassFits (cls : Class) : Prop :=
  ∀ name method, cls.method? name = some method ∨ cls.classMethod? name = some method →
    MethodFits known world method

def Fits : Value → Prop
  | .function _ closure => ClosureFits known world closure
  | .classValue cls | .object _ cls => ClassFits known world cls
  | _ => True

/-- A name that its scope does not declare yet, though it is written there. -/
structure Awaited (id : ScopeId) (name : String) : Prop where
  inside : id < world.scopes.size
  absent : world.scopes.declares id name = false
  written : ∃ inner ∈ (world.view id).head?, inner.contains name = true

structure Sound : Prop where
  outermost : world.view world.globals = []
  alone : world.scopes.parent? world.globals = none
  present : world.globals < world.scopes.size
  linked : ∀ id, id < world.scopes.size → id ≠ world.globals →
    ∃ inner parent, world.view id = inner :: world.view parent ∧
      world.scopes.parent? id = some parent ∧
      ∀ name, world.scopes.declares id name = true → inner.contains name = true
  values : ∀ id name value, world.scopes.local? id name = some value → Fits known world value
  awaited : ∀ id name, (id, name) ∈ world.pending → world.Awaited id name

/-- The machine is in this world, which is sound. -/
structure Holds (machine : Machine) : Prop where
  sound : Sound known world
  scopes : machine.scopes = world.scopes
  globals : machine.globals = world.globals
  distances : machine.distances = world.distances
  fields : ∀ (identity : Nat) (names : Names Value), machine.fields[identity]? = some names →
    ∀ name value, names.find? name = some value → Fits known world value

end Fitting

/-- The later world has all scopes of the earlier one, with the names that they
declare; only one of them at most has got new names. -/
structure Before (declaring : Option ScopeId) (earlier later : World) : Prop where
  globals : later.globals = earlier.globals
  size : earlier.scopes.size ≤ later.scopes.size
  view : ∀ id, id < earlier.scopes.size → later.view id = earlier.view id
  parent : ∀ id, id < earlier.scopes.size → later.scopes.parent? id = earlier.scopes.parent? id
  declared : ∀ id name, earlier.scopes.declares id name = true →
    later.scopes.declares id name = true
  others : ∀ id, id < earlier.scopes.size → some id ≠ declaring → ∀ name,
    later.scopes.declares id name = true → earlier.scopes.declares id name = true
  pending : ∀ id name, (id, name) ∈ earlier.pending →
    (id, name) ∈ later.pending ∨ later.scopes.declares id name = true

namespace Before

variable {declaring : Option ScopeId} {first second third : World}

theorem refl (world : World) : Before declaring world world where
  globals := rfl
  size := Nat.le_refl _
  view _ _ := rfl
  parent _ _ := rfl
  declared _ _ found := found
  others _ _ _ _ found := found
  pending _ _ member := .inl member

theorem trans (before : Before declaring first second) (after : Before declaring second third) :
    Before declaring first third where
  globals := after.globals.trans before.globals
  size := Nat.le_trans before.size after.size
  view id inside := (after.view id (Nat.lt_of_lt_of_le inside before.size)).trans
    (before.view id inside)
  parent id inside := (after.parent id (Nat.lt_of_lt_of_le inside before.size)).trans
    (before.parent id inside)
  declared id name found := after.declared id name (before.declared id name found)
  others id inside other name found := before.others id inside other name
    (after.others id (Nat.lt_of_lt_of_le inside before.size) other name found)
  pending id name member := by
    rcases before.pending id name member with still | found
    · exact after.pending id name still
    · exact .inr (after.declared id name found)

/-- Names that only new scopes have got are none of the earlier world. -/
theorem trans_new {inner : ScopeId} (before : Before none first second)
    (after : Before (some inner) second third) (new : first.scopes.size ≤ inner) :
    Before declaring first third where
  globals := after.globals.trans before.globals
  size := Nat.le_trans before.size after.size
  view id inside := (after.view id (Nat.lt_of_lt_of_le inside before.size)).trans
    (before.view id inside)
  parent id inside := (after.parent id (Nat.lt_of_lt_of_le inside before.size)).trans
    (before.parent id inside)
  declared id name found := after.declared id name (before.declared id name found)
  others id inside _ name found := by
    have apart : some id ≠ some inner := by
      rintro ⟨rfl⟩
      exact absurd inside (Nat.not_lt.mpr new)
    exact before.others id inside nofun name
      (after.others id (Nat.lt_of_lt_of_le inside before.size) apart name found)
  pending id name member := by
    rcases before.pending id name member with still | found
    · exact after.pending id name still
    · exact .inr (after.declared id name found)

theorem weaken (before : Before none first second) : Before declaring first second where
  globals := before.globals
  size := before.size
  view := before.view
  parent := before.parent
  declared := before.declared
  others id inside _ name found := before.others id inside nofun name found
  pending := before.pending

end Before

theorem parent_inside {scopes : Scopes Value} {id parent : Nat}
    (around : scopes.parent? id = some parent) : id < scopes.size ∧ parent < scopes.size := by
  have inside : id < scopes.size := by
    by_contra beyond
    rw [scopes.parent_beyond (Nat.not_lt.mp beyond)] at around
    cases around
  exact ⟨inside, Nat.lt_trans (Scopes.parent_lt around) inside⟩

section Later

variable {declaring : Option ScopeId} {earlier later : World} {known : Site → Prop}
  (before : Before declaring earlier later)

include before

theorem ready_later {heeded : String → Prop} {scopes : List StaticScope} {id : ScopeId}
    (ready : earlier.Ready heeded scopes id) : later.Ready heeded scopes id := by
  induction scopes generalizing id with
  | nil => trivial
  | cons inner outer induction =>
      obtain ⟨here, parent, around, rest⟩ := ready
      refine ⟨?_, parent, ?_, induction rest⟩
      · intro name isHeeded mark marked
        rcases here name isHeeded mark marked with found | ⟨unready, member⟩
        · exact .inl (before.declared id name found)
        · rcases before.pending id name member with still | found
          · exact .inr ⟨unready, still⟩
          · exact .inl found
      · rw [before.parent id (parent_inside around).1]
        exact around

theorem at_later {site : Site} {heeded : String → Prop} {id : ScopeId}
    (here : earlier.At site heeded id) : later.At site heeded id where
  inside := Nat.lt_of_lt_of_le here.inside before.size
  view := (before.view id here.inside).trans here.view
  ready := ready_later before here.ready

theorem closure_fits_later {closure : Closure} (fits : earlier.ClosureFits known closure) :
    later.ClosureFits known closure := by
  obtain ⟨site, isKnown, node, here⟩ := fits
  exact ⟨site, isKnown, node, at_later before here⟩

theorem method_fits_later {method : Closure} (fits : earlier.MethodFits known method) :
    later.MethodFits known method := by
  obtain ⟨site, outer, full, isKnown, node, scopes, fullSame, inside, view, ready⟩ := fits
  exact ⟨site, outer, full, isKnown, node, scopes, fullSame,
    Nat.lt_of_lt_of_le inside before.size, (before.view _ inside).trans view,
    ready_later before ready⟩

theorem class_fits_later {cls : Class} (fits : earlier.ClassFits known cls) :
    later.ClassFits known cls :=
  fun name method found => method_fits_later before (fits name method found)

theorem fits_later {value : Value} (fits : earlier.Fits known value) : later.Fits known value := by
  cases value with
  | function identity closure => exact closure_fits_later before fits
  | classValue cls => exact class_fits_later before fits
  | object identity cls => exact class_fits_later before fits
  | nil | boolean | number | string | native => trivial

end Later

section Wider

variable {known wider : Site → Prop} {world : World} (more : ∀ site, known site → wider site)

include more

theorem class_fits_wider {cls : Class} (fits : world.ClassFits known cls) :
    world.ClassFits wider cls := by
  intro name method found
  obtain ⟨site, outer, full, isKnown, rest⟩ := fits name method found
  exact ⟨site, outer, full, more site isKnown, rest⟩

/-- Whatever fits a program fits any larger one. -/
theorem fits_wider {value : Value} (fits : world.Fits known value) : world.Fits wider value := by
  cases value with
  | function identity closure =>
      obtain ⟨site, isKnown, rest⟩ := fits
      exact ⟨site, more site isKnown, rest⟩
  | classValue cls => exact class_fits_wider more fits
  | object identity cls => exact class_fits_wider more fits
  | nil | boolean | number | string | native => trivial

end Wider

end World

end Lox
